import AmpMarkup.Decimal.Shortest

/-! The tokens of a stylesheet. -/

namespace AmpMarkup.Css

open Decimal (Binary64)

/-- A lexical unit of a stylesheet. The end of the stylesheet is a token of its own. -/
inductive Token where
  | ident (name : Text)
  | function (name : Text)
  | atKeyword (name : Text)
  | hash (name : Text)
  | string (value : Text)
  | badString
  | url (value : Text)
  | badUrl
  | delim (c : Char)
  | number (value : Binary64)
  | percentage (value : Binary64)
  | dimension (value : Binary64) (unit : Text)
  | whitespace
  | commentOpen
  | commentClose
  | colon
  | semicolon
  | comma
  | leftBracket
  | rightBracket
  | leftParen
  | rightParen
  | leftBrace
  | rightBrace
  | endOfFile
deriving DecidableEq, Repr, Inhabited

/-- The listing form of a token. -/
def Token.describe : Token → Text
  | .ident name => name
  | .function name => name ++ "("
  | .atKeyword name => '@' :: name
  | .hash name => '#' :: name
  | .string value => '"' :: value ++ ['"']
  | .badString => "<bad-string>"
  | .url value => "url(" ++ value ++ ")"
  | .badUrl => "<bad-url>"
  | .delim c => [c]
  | .number value => value.toText
  | .percentage value => value.toText ++ "%"
  | .dimension value unit => value.toText ++ unit
  | .whitespace => " "
  | .commentOpen => "<!--"
  | .commentClose => "-->"
  | .colon => ":"
  | .semicolon => ";"
  | .comma => ","
  | .leftBracket => "["
  | .rightBracket => "]"
  | .leftParen => "("
  | .rightParen => ")"
  | .leftBrace => ['{']
  | .rightBrace => ['}']
  | .endOfFile => "<EOF>"

end AmpMarkup.Css
