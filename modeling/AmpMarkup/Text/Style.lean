import AmpMarkup.Text.Basic

/-! Styles of text on a terminal: sequences of control characters that switch a style on before a
text and off after it. -/

namespace AmpMarkup

/-- A style of text. -/
inductive Style where
  | bold
  | red
  | green
  | yellow
  | cyan
deriving DecidableEq, Repr, Inhabited

namespace Style

/-- The number that switches a style on. -/
def onCode : Style → Text
  | bold => "1"
  | red => "31"
  | green => "32"
  | yellow => "33"
  | cyan => "36"

/-- The number that switches a style off. A colour goes back to the one of the terminal. -/
def offCode : Style → Text
  | bold => "0"
  | _ => "39"

/-- A control sequence for a number. -/
def sequence (code : Text) : Text :=
  "\x1b[" ++ code ++ ['m']

end Style

/-- A text in a style. -/
def Text.styled (t : Text) (s : Style) : Text :=
  Style.sequence s.onCode ++ t ++ Style.sequence s.offCode

end AmpMarkup
