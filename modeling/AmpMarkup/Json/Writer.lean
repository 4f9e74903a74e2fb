import AmpMarkup.Json.Lexeme

/-! Writing JSON values, on one line and with indentation. -/

namespace AmpMarkup.Json

/-- The written form of a character of a string. -/
def escapeChar (c : Char) : Text :=
  if c = '"' then "\\\""
  else if c = '\\' then "\\\\"
  else if c = '\x08' then "\\b"
  else if c = '\x0c' then "\\f"
  else if c = '\n' then "\\n"
  else if c = '\r' then "\\r"
  else if c = '\t' then "\\t"
  else if c.toNat < 0x20 then "\\u" ++ Text.hex 4 c.toNat
  else [c]

/-- The written form of a string. -/
def quote (t : Text) : Text :=
  '"' :: t.flatMap escapeChar ++ ['"']

/-- The written form of a value that holds no other values. What has no value of its own is
written as the shortest number or string of its kind. -/
def renderScalar : Json → Text
  | .null => "null"
  | .bool true => "true"
  | .bool false => "false"
  | .natural n => Text.ofNat n
  | .number => "-0"
  | .string t => quote t
  | _ => "\"\\ud800\""

/-- The written form of a key. -/
def renderKey : Option Text → Text
  | some key => quote key
  | none => "\"\\ud800\""

mutual

/-- The written form of a value on one line, without spaces. -/
def render : Json → Text
  | .array items => '[' :: renderItems items ++ [']']
  | .object fields => '\x7b' :: renderFields fields ++ ['\x7d']
  | v => renderScalar v

/-- Items with commas between them. -/
def renderItems : List Json → Text
  | [] => []
  | [v] => render v
  | v :: vs => render v ++ ',' :: renderItems vs

/-- Fields with commas between them. -/
def renderFields : List (Option Text × Json) → Text
  | [] => []
  | [(key, v)] => renderKey key ++ ':' :: render v
  | (key, v) :: fields => renderKey key ++ ':' :: render v ++ ',' :: renderFields fields

end

/-- A line break with an indentation of two spaces a level. -/
def newline (level : Nat) : Text :=
  '\n' :: List.replicate (2 * level) ' '

mutual

/-- The written form of a value with every item and field on a line of its own. -/
def pretty (level : Nat) : Json → Text
  | .array [] => "[]"
  | .object [] => ['\x7b', '\x7d']
  | .array items => '[' :: prettyItems (level + 1) items ++ newline level ++ [']']
  | .object fields => '\x7b' :: prettyFields (level + 1) fields ++ newline level ++ ['\x7d']
  | v => renderScalar v

/-- Items on lines of their own. -/
def prettyItems (level : Nat) : List Json → Text
  | [] => []
  | [v] => newline level ++ pretty level v
  | v :: vs => newline level ++ pretty level v ++ ',' :: prettyItems level vs

/-- Fields on lines of their own. -/
def prettyFields (level : Nat) : List (Option Text × Json) → Text
  | [] => []
  | [(key, v)] => newline level ++ renderKey key ++ ": " ++ pretty level v
  | (key, v) :: fields =>
    newline level ++ renderKey key ++ ": " ++ pretty level v ++ ',' :: prettyFields level fields

end

end AmpMarkup.Json
