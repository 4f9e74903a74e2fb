import AmpMarkup.Json.Basic

/-! Records with named fields in JSON. A record is an object, whose other fields do not matter, or
an array of the fields in the order of their declaration. -/

namespace AmpMarkup.Json

/-- The fields of a record that are present. -/
structure Record where
  fields : List (Text × Json)

/-- A record with fields of the given names, in order; `aliases` are further names for some of
them. An object may name each field once, and an array may leave out the last fields. -/
def record? (names : List Text) (aliases : List (Text × Text)) : Json → Option Record
  | .object fields => do
    let named ← fields.mapM fun (key, v) => key.map fun key => ((aliases.lookup key).getD key, v)
    let known := named.filter (names.contains ·.1)
    if (known.map Prod.fst).Nodup then some ⟨known⟩ else none
  | .array items => if items.length ≤ names.length then some ⟨names.zip items⟩ else none
  | _ => none

/-- The text that a value is. -/
def text? : Json → Option Text
  | .string t => some t
  | _ => none

/-- The truth value that a value is. -/
def bool? : Json → Option Bool
  | .bool b => some b
  | _ => none

/-- The natural number of 64 bits that a value is. -/
def word? : Json → Option UInt64
  | .natural n => if n < UInt64.size then some (UInt64.ofNat n) else none
  | _ => none

/-- The items of an array. -/
def list? (read : Json → Option α) : Json → Option (List α)
  | .array items => items.mapM read
  | _ => none

/-- A value in which null stands for nothing. -/
def nullable? (read : Json → Option α) : Json → Option (Option α)
  | .null => some none
  | v => (read v).map some

/-- The only field of an object. -/
def only? : Json → Option (Text × Json)
  | .object [(some key, v)] => some (key, v)
  | _ => none

/-- One of several choices by its name. The name may also be the only field of an object, with
nothing in it. -/
def choice? (choices : List α) (name : α → Text) (v : Json) : Option α :=
  match v with
  | .string t => choices.find? (name · == t)
  | v =>
    match v.only? with
    | some (key, .null) => choices.find? (name · == key)
    | _ => none

namespace Record

/-- A field that has to be there. -/
def required? (r : Record) (name : Text) (read : Json → Option α) : Option α :=
  (r.fields.lookup name).bind read

/-- A field with a value for its absence. -/
def getD? (r : Record) (name : Text) (read : Json → Option α) (absent : α) : Option α :=
  ((r.fields.lookup name).map read).getD (some absent)

/-- A field that may be absent or null. -/
def optional? (r : Record) (name : Text) (read : Json → Option α) : Option (Option α) :=
  r.getD? name (nullable? read) none

/-- A truth value, false where it is absent. -/
def flag? (r : Record) (name : Text) : Option Bool :=
  r.getD? name bool? false

/-- An array, empty where it is absent. -/
def items? (r : Record) (name : Text) (read : Json → Option α) : Option (List α) :=
  r.getD? name (list? read) []

end Record

/-- An object of those fields that are present. -/
def ofPresent (fields : List (Text × Option Json)) : Json :=
  .ofFields (fields.filterMap fun (key, v) => v.map (key, ·))

/-- An array of written items. -/
def listOf (write : α → Json) (items : List α) : Json :=
  .array (items.map write)

end AmpMarkup.Json
