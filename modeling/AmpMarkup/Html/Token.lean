import AmpMarkup.Attribute

/-! The tokens of HTML markup. -/

namespace AmpMarkup.Html

/-- A lexical unit of markup. Text comes one character at a time, and the end of input is a token
of its own. -/
inductive Token where
  | doctype (name : Option Text)
  | startTag (name : Text) (attributes : List Attribute) (selfClosing : Bool)
  | endTag (name : Text)
  | comment (data : Text)
  | character (c : Char)
  | endOfFile
deriving DecidableEq, Repr, Inhabited

namespace Token

/-- The listing form of an attribute: values are quoted and not escaped. -/
def describeAttribute (a : Attribute) : Text :=
  ' ' :: a.name ++
    match a.value with
    | none => []
    | some value => "=\"" ++ value ++ ['"']

/-- The listing form of a character; the invisible ones among the common characters are named. -/
def describeCharacter (c : Char) : Text :=
  if c = '\n' then "\\n" else if c = '\t' then "\\t" else if c = ' ' then "SPACE" else [c]

/-- The listing form of a token. -/
def describe : Token → Text
  | .doctype none => "DOCTYPE"
  | .doctype (some name) => "DOCTYPE " ++ name
  | .startTag name attributes selfClosing =>
    '<' :: name ++ attributes.flatMap describeAttribute ++ (if selfClosing then " />" else ">")
  | .endTag name => "</" ++ name ++ ">"
  | .comment data => "<!--" ++ data ++ "-->"
  | .character c => "Character(" ++ describeCharacter c ++ ")"
  | .endOfFile => "EOF"

end Token

end AmpMarkup.Html
