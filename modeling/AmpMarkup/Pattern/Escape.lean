import AmpMarkup.Pattern.Flags
import AmpMarkup.Pattern.PropertyName

/-! Escapes in patterns: what a backslash and the characters after it mean. -/

namespace AmpMarkup.Pattern

/-- What an escape denotes: a character, a class, or an assertion. A character may be written as
the value of a byte. -/
inductive Escape where
  | char (c : Char) (byte : Bool)
  | cls (c : CharClass)
  | look (l : Look)

/-- The digits at the front of a text with what the flags ignore after each, and the rest. -/
def readDigits (fs : Flags) (isDigit : Char → Bool) : (bound : Nat) → Text → Text × Text
  | 0, t => ([], t)
  | _ + 1, [] => ([], [])
  | bound + 1, c :: t =>
    if isDigit c then
      let (digits, rest) := readDigits fs isDigit bound (fs.skip t)
      (c :: digits, rest)
    else ([], c :: t)

/-- The character that hexadecimal digits denote. -/
def hexChar? (digits : Text) : Option Char :=
  if digits.isEmpty then none else scalar? (Text.numeral 16 digits)

/-- A character as hexadecimal digits, either exactly `width` of them or in braces. -/
def readHex? (fs : Flags) (width : Nat) (t : Text) : Option (Escape × Text) :=
  match fs.skip t with
  | '\x7b' :: t =>
    match readDigits fs isHexDigit t.length (fs.skip t) with
    | (digits, '\x7d' :: rest) => (hexChar? digits).map fun c => (.char c false, fs.skip rest)
    | _ => none
  | t =>
    match readDigits fs isHexDigit width t with
    | (digits, rest) =>
      if digits.length = width then
        (hexChar? digits).map fun c => (.char c (width == 2), rest)
      else none

/-- The text up to a closing brace with what the flags ignore left out, and what follows it. -/
def readBraced? (fs : Flags) : (bound : Nat) → Text → Option (Text × Text)
  | bound + 1, c :: t =>
    if c = '\x7d' then some ([], t)
    else (readBraced? fs bound (fs.skip t)).map fun (name, rest) => (c :: name, rest)
  | _, _ => none

/-- The class of a property, named by one letter or in braces, and the rest. -/
def readPropertyName? (fs : Flags) (t : Text) : Option (CharClass × Text) :=
  match fs.skip t with
  | '\x7b' :: t => do
    let (name, rest) ← readBraced? fs (t.length + 1) (fs.skip t)
    return (← bracedClass? name, rest)
  | '\\' :: _ | [] => none
  | c :: t => (namedClass? [c]).map (·, fs.skip t)

/-- The class of the characters with a property, or without it. -/
def readProperty? (fs : Flags) (negated : Bool) (t : Text) : Option (Escape × Text) := do
  if !fs.has .unicode then none
  let (c, rest) ← readPropertyName? fs t
  return (.cls (← fs.negateIf? negated (fs.fold c)), rest)

/-- A class of digits, blank characters or characters of words. -/
def readShorthand? (fs : Flags) (c : Char) : Option Escape :=
  (match c with
    | 'd' => some fs.digits
    | 's' => some fs.blanks
    | 'w' => some fs.words
    | 'D' => fs.complement? fs.digits
    | 'S' => fs.complement? fs.blanks
    | 'W' => fs.complement? fs.words
    | _ => none).map .cls

/-- The edge of a word of a name. -/
def namedEdge? (name : Text) : Option WordEdge :=
  if name = "start" then some .start
  else if name = "end" then some .finish
  else if name = "start-half" then some .startHalf
  else if name = "end-half" then some .finishHalf
  else none

/-- The edge of a word, which may be named in braces. Braces with anything else in them are a
repetition. -/
def readEdge? (fs : Flags) (t : Text) : Option (Escape × Text) :=
  let isNameChar (c : Char) := c.isAlpha || c == '-'
  match t with
  | '\x7b' :: inner =>
    match fs.skip inner with
    | [] => none
    | c :: _ =>
      if isNameChar c then
        match readDigits fs isNameChar inner.length (fs.skip inner) with
        | (name, '\x7d' :: rest) =>
          (namedEdge? name).map fun edge => (.look (fs.wordEdge edge), rest)
        | _ => none
      else some (.look (fs.wordEdge .boundary), t)
  | t => some (.look (fs.wordEdge .boundary), t)

/-- The characters with a meaning of their own in patterns. -/
def isMeta (c : Char) : Bool :=
  "\\.+*?()|[]\x7b\x7d^$#&-~".toList.contains c

/-- Whether a backslash before a character leaves it as it is. -/
def isEscapable (c : Char) : Bool :=
  isMeta c || (c.toNat < 0x80 && !c.isAlphanum && c != '<' && c != '>')

/-- The escape of a single character after the backslash. -/
def plainEscape? (fs : Flags) (c : Char) : Option Escape :=
  match c with
  | 'a' => some (.char '\x07' false)
  | 'f' => some (.char '\x0c' false)
  | 't' => some (.char '\t' false)
  | 'n' => some (.char '\n' false)
  | 'r' => some (.char '\r' false)
  | 'v' => some (.char '\x0b' false)
  | 'A' => some (.look .textStart)
  | 'z' => some (.look .textEnd)
  | 'B' => some (.look (fs.wordEdge .inner))
  | '<' => some (.look (fs.wordEdge .start))
  | '>' => some (.look (fs.wordEdge .finish))
  | c => if isEscapable c then some (.char c false) else readShorthand? fs c

/-- What the text after a backslash denotes, and the rest. -/
def readEscape? (fs : Flags) : Text → Option (Escape × Text)
  | [] => none
  | 'x' :: t => readHex? fs 2 t
  | 'u' :: t => readHex? fs 4 t
  | 'U' :: t => readHex? fs 8 t
  | 'p' :: t => readProperty? fs false t
  | 'P' :: t => readProperty? fs true t
  | 'b' :: t => readEdge? fs t
  | c :: t => (plainEscape? fs c).map (·, t)

/-- The character that a literal stands for. Without Unicode, a byte beyond ASCII is none. -/
def literalChar? (fs : Flags) (c : Char) (byte : Bool) : Option Char :=
  if !fs.has .unicode && byte && 0x80 ≤ c.toNat then none else some c

end AmpMarkup.Pattern
