import AmpMarkup.Text.Basic

/-! Attributes of a start tag or an element. A list of attributes is a finite map that remembers the
order in which its names came in: `get?` reads the map, `names` the order. -/

namespace AmpMarkup

/-- A name with its value. The value is absent where the source wrote the name alone. -/
structure Attribute where
  name : Text
  value : Option Text
deriving DecidableEq, Repr, Inhabited

/-- The value of an attribute, empty for a name that stands alone. -/
def Attribute.text (a : Attribute) : Text :=
  a.value.getD []

/-- The attributes of an element in order of insertion. -/
structure Attributes where
  entries : List Attribute
deriving DecidableEq, Repr, Inhabited

namespace Attributes

/-- No attributes. -/
def empty : Attributes :=
  ⟨[]⟩

/-- Number of attributes. -/
def size (a : Attributes) : Nat :=
  a.entries.length

/-- Whether there is no attribute. -/
def isEmpty (a : Attributes) : Bool :=
  a.entries.isEmpty

/-- The names in order. -/
def names (a : Attributes) : List Text :=
  a.entries.map Attribute.name

/-- The entry of a name. -/
def find? (a : Attributes) (name : Text) : Option Attribute :=
  a.entries.find? (·.name == name)

/-- The value of a name; a name that stands alone has the empty value. -/
def get? (a : Attributes) (name : Text) : Option Text :=
  (a.find? name).map Attribute.text

/-- Whether a name is present. -/
def contains (a : Attributes) (name : Text) : Bool :=
  a.entries.any (·.name == name)

/-- Gives the first entry of a name a new value. -/
def overwrite (name value : Text) : List Attribute → List Attribute
  | [] => []
  | a :: rest =>
    if a.name == name then ⟨a.name, some value⟩ :: rest else a :: overwrite name value rest

/-- Adds an entry at the end unless its name is present. -/
def addIfAbsent (a : Attributes) (entry : Attribute) : Attributes :=
  if a.contains entry.name then a else ⟨a.entries ++ [entry]⟩

/-- Gives a name a value, in its place if the name is present and at the end otherwise. -/
def set (a : Attributes) (name value : Text) : Attributes :=
  if a.contains name then ⟨overwrite name value a.entries⟩ else ⟨a.entries ++ [⟨name, some value⟩]⟩

/-- Takes a name out. -/
def remove (a : Attributes) (name : Text) : Attributes :=
  ⟨a.entries.eraseP (·.name == name)⟩

/-- Sets each pair in turn. -/
def setAll (a : Attributes) (pairs : List (Text × Text)) : Attributes :=
  pairs.foldl (fun a p => a.set p.1 p.2) a

/-- Adds each entry whose name is not present yet, in turn. -/
def addAll (a : Attributes) (entries : List Attribute) : Attributes :=
  entries.foldl addIfAbsent a

/-- A change to a list of attributes. -/
inductive Change where
  | set (name value : Text)
  | setIfAbsent (name value : Text)
  | setBareIfAbsent (name : Text)
  | remove (name : Text)
deriving DecidableEq, Repr

/-- What a change answers: the value that was there before, or whether an entry was added. -/
inductive Answer where
  | previous (value : Option Text)
  | added (yes : Bool)
deriving DecidableEq, Repr

/-- The list after a change. -/
def apply (a : Attributes) : Change → Attributes
  | .set name value => a.set name value
  | .setIfAbsent name value => a.addIfAbsent ⟨name, some value⟩
  | .setBareIfAbsent name => a.addIfAbsent ⟨name, none⟩
  | .remove name => a.remove name

/-- The answer of a change to the list as it is before the change. -/
def answer (a : Attributes) : Change → Answer
  | .set name _ => .previous (a.get? name)
  | .setIfAbsent name _ => .added !(a.contains name)
  | .setBareIfAbsent name => .added !(a.contains name)
  | .remove name => .previous (a.get? name)

theorem contains_iff_mem_names {a : Attributes} {name : Text} :
    a.contains name = true ↔ name ∈ a.names := by
  simp only [contains, names, List.any_eq_true, beq_iff_eq, List.mem_map]

theorem names_overwrite (name value : Text) (entries : List Attribute) :
    (overwrite name value entries).map Attribute.name = entries.map Attribute.name := by
  induction entries with
  | nil => rfl
  | cons a rest ih => by_cases h : a.name = name <;> simp [overwrite, h, ih]

section
variable {a : Attributes} {name : Text} {e : Attribute}

theorem addIfAbsent_of_mem (h : e.name ∈ a.names) : a.addIfAbsent e = a := by
  simp [addIfAbsent, contains_iff_mem_names, h]

theorem addIfAbsent_of_not_mem (h : e.name ∉ a.names) :
    a.addIfAbsent e = ⟨a.entries ++ [e]⟩ := by
  simp [addIfAbsent, contains_iff_mem_names, h]

theorem set_of_mem (h : name ∈ a.names) (value : Text) :
    a.set name value = ⟨overwrite name value a.entries⟩ := by
  simp [set, contains_iff_mem_names, h]

theorem set_of_not_mem (h : name ∉ a.names) (value : Text) :
    a.set name value = ⟨a.entries ++ [⟨name, some value⟩]⟩ := by
  simp [set, contains_iff_mem_names, h]

theorem names_addIfAbsent (a : Attributes) (e : Attribute) :
    (a.addIfAbsent e).names = if e.name ∈ a.names then a.names else a.names ++ [e.name] := by
  by_cases h : e.name ∈ a.names
  · rw [addIfAbsent_of_mem h, if_pos h]
  · rw [addIfAbsent_of_not_mem h, if_neg h]
    simp [names]

theorem names_set (a : Attributes) (name value : Text) :
    (a.set name value).names = if name ∈ a.names then a.names else a.names ++ [name] := by
  by_cases h : name ∈ a.names
  · rw [set_of_mem h, if_pos h]
    exact names_overwrite name value a.entries
  · rw [set_of_not_mem h, if_neg h]
    simp [names]

theorem names_remove (a : Attributes) (name : Text) :
    (a.remove name).names = a.names.erase name := by
  have hcomp : (name == ·) ∘ Attribute.name = (·.name == name) := by
    funext b
    exact Bool.beq_comm
  simp only [names, remove, List.erase_eq_eraseP, List.eraseP_map, hcomp]

end

end Attributes

end AmpMarkup
