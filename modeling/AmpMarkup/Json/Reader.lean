import AmpMarkup.Json.Lexeme

/-! Reading JSON values from lexical units. The reader keeps the arrays and objects that are open,
the innermost first, and where in them it stands, so that reading follows the units one by one. -/

namespace AmpMarkup.Json

/-- A field of an object. -/
abbrev Field := Option Text × Json

/-- An array or object that is open, with what it holds so far, the latest first. An object also
has the key whose value is being read. -/
inductive Frame where
  | array (before : List Json)
  | object (before : List Field) (key : Option Text)

/-- What has to come next: a value, a value or the end of a new array, a key or the end of a new
object, a key, a colon, or what may follow a finished value. -/
inductive Position where
  | value
  | firstItem
  | firstKey
  | key (before : List Field)
  | colon (before : List Field) (key : Option Text)
  | after (v : Json)

/-- A reader between two lexical units. -/
structure Reader where
  frames : List Frame
  position : Position

namespace Reader

/-- Before any lexical unit. -/
def start : Reader :=
  ⟨[], .value⟩

/-- The value that a lexical unit is by itself. -/
def scalar? : Lexeme → Option Json
  | .null => some .null
  | .bool b => some (.bool b)
  | .number (some n) => some (.natural n)
  | .number none => some .number
  | .string (some t) => some (.string t)
  | .string none => some .broken
  | _ => none

/-- A lexical unit where a value starts. -/
def startValue? (frames : List Frame) : Lexeme → Option Reader
  | .openBracket => some ⟨frames, .firstItem⟩
  | .openBrace => some ⟨frames, .firstKey⟩
  | l => (scalar? l).map fun v => ⟨frames, .after v⟩

/-- A lexical unit after a finished value. -/
def continue? (v : Json) : List Frame → Lexeme → Option Reader
  | .array before :: frames, .comma => some ⟨.array (v :: before) :: frames, .value⟩
  | .array before :: frames, .closeBracket => some ⟨frames, .after (.array (v :: before).reverse)⟩
  | .object before key :: frames, .comma => some ⟨frames, .key ((key, v) :: before)⟩
  | .object before key :: frames, .closeBrace =>
    some ⟨frames, .after (.object ((key, v) :: before).reverse)⟩
  | _, _ => none

/-- The reader after a lexical unit. -/
def step? (r : Reader) (l : Lexeme) : Option Reader :=
  match r.position, l with
  | .value, l => startValue? r.frames l
  | .firstItem, .closeBracket => some ⟨r.frames, .after (.array [])⟩
  | .firstItem, l => startValue? (.array [] :: r.frames) l
  | .firstKey, .closeBrace => some ⟨r.frames, .after (.object [])⟩
  | .firstKey, .string key => some ⟨r.frames, .colon [] key⟩
  | .key before, .string key => some ⟨r.frames, .colon before key⟩
  | .colon before key, .colon => some ⟨.object before key :: r.frames, .value⟩
  | .after v, l => continue? v r.frames l
  | _, _ => none

/-- The reader after lexical units in order. -/
def run? (r : Reader) : List Lexeme → Option Reader
  | [] => some r
  | l :: ls => (r.step? l).bind (·.run? ls)

/-- The value that a reader has finished, with nothing open. -/
def result? : Reader → Option Json
  | ⟨[], .after v⟩ => some v
  | _ => none

end Reader

/-- The value of a sequence of lexical units. -/
def ofLexemes? (ls : List Lexeme) : Option Json :=
  (Reader.start.run? ls).bind Reader.result?

/-- The value of a text. -/
def ofText? (t : Text) : Option Json :=
  (lexemes? t).bind ofLexemes?

end AmpMarkup.Json
