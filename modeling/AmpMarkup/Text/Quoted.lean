import AmpMarkup.Text.Numeral
import AmpMarkup.Unicode.Property

/-! Text made visible: what has no form of its own on a terminal is written as an escape. -/

namespace AmpMarkup.Text

/-- A character by its number. -/
def numberEscape (c : Char) : Text :=
  ['\\', 'u', '\x7b'] ++ Text.shortHex c.toNat ++ ['\x7d']

/-- The visible form of a character inside a text, where it may attach to the one before it. -/
def escapeInside (c : Char) : Text :=
  if c = '\x00' then "\\0"
  else if c = '\t' then "\\t"
  else if c = '\r' then "\\r"
  else if c = '\n' then "\\n"
  else if c = '\\' ∨ c = '"' ∨ c = '\'' then ['\\', c]
  else if Unicode.isPrintable c then [c]
  else numberEscape c

/-- The visible form of the first character of a text, which has nothing to attach to. -/
def escapeFirst (c : Char) : Text :=
  if Unicode.isExtending c then numberEscape c else escapeInside c

/-- The visible form of a text. -/
def visible : Text → Text
  | [] => []
  | c :: t => escapeFirst c ++ t.flatMap escapeInside

/-- The visible form of a text between quotation marks. -/
def quoteVisible (t : Text) : Text :=
  '"' :: t.visible ++ ['"']

end AmpMarkup.Text
