import AmpMarkup.Text.Numeral

/-! JSON values. A value keeps what rules are made of; a number that is no natural number and a
string that denotes no text are told apart from the others and from nothing else. -/

namespace AmpMarkup

/-- A JSON value. `number` is any number but a natural one below `2 ^ 64` in plain digits; `broken`
is a string with one half of a surrogate pair, which denotes no text. The keys of an object are in
order and may repeat; a broken key is absent. -/
inductive Json where
  | null
  | bool (b : Bool)
  | natural (n : Nat)
  | number
  | string (t : Text)
  | broken
  | array (items : List Json)
  | object (fields : List (Option Text × Json))
deriving Repr, Inhabited

namespace Json

/-- An object of fields that are all present. -/
def ofFields (fields : List (Text × Json)) : Json :=
  .object (fields.map fun (key, value) => (some key, value))

/-- An array of texts. -/
def texts (ts : List Text) : Json :=
  .array (ts.map .string)

end Json

end AmpMarkup
