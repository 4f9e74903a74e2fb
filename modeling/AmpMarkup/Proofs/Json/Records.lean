import Mathlib.Data.List.Forall2
import AmpMarkup.Json.Record
import AmpMarkup.Proofs.Json.RoundTrip

/-! Writers and readers of records that fit each other. The laws of a record follow from those of its
fields: a written field is found under its name, and an absent one is not found. -/

namespace AmpMarkup.Json

variable {α β : Type} {read : Json → Option α} {write : α → Json}

/-- What is written is read back, can be written as text, and is not null, which stands for absence. -/
structure Lawful (read : Json → Option α) (write : α → Json) : Prop where
  read_write : ∀ a, read (write a) = some a
  inRange : ∀ a, (write a).InRange
  ne_null : ∀ a, write a ≠ .null

/-! ### Values and lists -/

theorem lawful_text : Lawful text? .string where
  read_write _ := rfl
  inRange := .string
  ne_null _ := nofun

theorem lawful_bool : Lawful bool? .bool where
  read_write _ := rfl
  inRange := .bool
  ne_null _ := nofun

theorem lawful_word : Lawful word? (fun n => .natural n.toNat) where
  read_write n := by
    rw [word?, if_pos n.toNat_lt_size, UInt64.ofNat_toNat]
  inRange n := .natural n.toNat_lt_size
  ne_null _ := nofun

theorem mapM_map_eq_some {f : β → Option α} {g : α → β} {items : List α} (h : ∀ a ∈ items, f (g a) = some a) :
    (items.map g).mapM f = some items := by
  induction items with
  | nil => rfl
  | cons a items ih =>
      obtain ⟨ha, hitems⟩ := List.forall_mem_cons.mp h
      rw [List.map_cons, List.mapM_cons, ha, ih hitems]
      rfl

theorem Lawful.list (h : Lawful read write) : Lawful (list? read) (listOf write) where
  read_write _ := mapM_map_eq_some fun a _ => h.read_write a
  inRange _ := .array (List.forall_mem_map.mpr fun a _ => h.inRange a)
  ne_null _ := nofun

/-- Choices are told apart by their names. -/
theorem lawful_choice {choices : List α} {name : α → Text} (hall : ∀ a, a ∈ choices)
    (hinj : ∀ a b, name a = name b → a = b) : Lawful (choice? choices name) (fun a => .string (name a)) where
  read_write a := by
    rw [choice?]
    cases hfind : choices.find? (name · == name a) with
    | none => simpa using List.find?_eq_none.mp hfind a (hall a)
    | some b => rw [hinj b a (by simpa using List.find?_some hfind)]
  inRange a := .string (name a)
  ne_null _ := nofun

theorem texts_map (name : α → Text) (items : List α) :
    texts (items.map name) = listOf (fun a => .string (name a)) items := by
  rw [texts, listOf, List.map_map]
  rfl

/-! ### Written fields -/

theorem inRange_ofPresent {fields : List (Text × Option Json)} (h : ∀ f ∈ fields, ∀ v ∈ f.2, v.InRange) :
    (ofPresent fields).InRange := by
  refine .object (List.forall_mem_map.mpr fun f hf => ?_)
  obtain ⟨⟨key, o⟩, hm, ho⟩ := List.mem_filterMap.mp hf
  obtain ⟨v, hv, rfl⟩ := Option.map_eq_some_iff.mp ho
  exact h _ hm v hv

/-- An object with distinct known keys is the record of its fields. -/
theorem record?_ofFields {fields : List (Text × Json)} {names : List Text} {aliases : List (Text × Text)}
    (hn : (fields.map Prod.fst).Nodup) (hknown : ∀ f ∈ fields, f.1 ∈ names)
    (haliases : ∀ f ∈ fields, aliases.lookup f.1 = none) :
    (ofFields fields).record? names aliases = some ⟨fields⟩ := by
  have hnamed : (fields.map fun f => (some f.1, f.2)).mapM (m := Option)
      (fun f => f.1.map fun key => ((aliases.lookup key).getD key, f.2)) = some fields :=
    mapM_map_eq_some fun f hf => by rw [Option.map_some, haliases f hf, Option.getD_none]
  have hfilter : fields.filter (fun f => names.contains f.1) = fields :=
    List.filter_eq_self.mpr fun f hf => List.contains_iff_mem.mpr (hknown f hf)
  rw [ofFields, record?]
  simp only [hnamed, Option.bind_eq_bind, Option.bind_some, hfilter, if_pos hn]

/-- Of the fields of an object those that are present. -/
def present (fields : List (Text × Option Json)) : List (Text × Json) :=
  fields.filterMap fun (key, v) => v.map (key, ·)

theorem ofPresent_eq (fields : List (Text × Option Json)) : ofPresent fields = ofFields (present fields) := rfl

theorem present_cons (key : Text) (o : Option Json) (fields : List (Text × Option Json)) :
    present ((key, o) :: fields) = (o.map (key, ·)).toList ++ present fields := by
  cases o <;> rfl

theorem mem_keys_present {fields : List (Text × Option Json)} {key : Text}
    (h : key ∈ (present fields).map Prod.fst) : key ∈ fields.map Prod.fst := by
  obtain ⟨f, hf, rfl⟩ := List.mem_map.mp h
  obtain ⟨⟨key, o⟩, hm, ho⟩ := List.mem_filterMap.mp hf
  obtain ⟨v, -, rfl⟩ := Option.map_eq_some_iff.mp ho
  exact List.mem_map_of_mem hm

theorem nodup_keys_present {fields : List (Text × Option Json)} (h : (fields.map Prod.fst).Nodup) :
    ((present fields).map Prod.fst).Nodup := by
  induction fields with
  | nil => exact List.nodup_nil
  | cons f fields ih =>
      obtain ⟨key, o⟩ := f
      obtain ⟨hkey, hfields⟩ := List.nodup_cons.mp h
      cases o with
      | none => exact ih hfields
      | some v => exact List.nodup_cons.mpr ⟨fun hm => hkey (mem_keys_present hm), ih hfields⟩

/-- Under the name of a field stands what was written for it, and nothing if it was absent. -/
theorem lookup_present {fields : List (Text × Option Json)} (h : (fields.map Prod.fst).Nodup) {key : Text}
    {o : Option Json} (hm : (key, o) ∈ fields) : (present fields).lookup key = o := by
  induction fields with
  | nil => exact absurd hm List.not_mem_nil
  | cons f fields ih =>
      obtain ⟨key', o'⟩ := f
      obtain ⟨hkey, hfields⟩ := List.nodup_cons.mp h
      rcases List.mem_cons.mp hm with he | htail
      · obtain ⟨rfl, rfl⟩ := Prod.mk.inj he
        cases o with
        | some v => exact List.lookup_cons_self
        | none =>
            refine List.lookup_eq_none_iff.mpr fun f hf => bne_iff_ne.mpr ?_
            rintro rfl
            exact hkey (mem_keys_present (List.mem_map_of_mem hf))
      · have hne : key ≠ key' := by
          rintro rfl
          have hmem : key ∈ fields.map Prod.fst := List.mem_map_of_mem htail
          exact hkey hmem
        cases o' with
        | none => exact ih hfields htail
        | some v =>
            rw [present_cons, Option.map_some, Option.toList_some, List.singleton_append, List.lookup_cons,
              beq_false_of_ne hne]
            exact ih hfields htail

/-! ### Records -/

namespace Lawful

theorem inRange_some (h : Lawful read write) (a : α) : ∀ v ∈ some (write a), v.InRange := by
  rintro v ⟨⟩
  exact h.inRange a

theorem inRange_map (h : Lawful read write) (o : Option α) : ∀ v ∈ o.map write, v.InRange := by
  intro v hv
  obtain ⟨a, -, rfl⟩ := Option.map_eq_some_iff.mp hv
  exact h.inRange a

end Lawful

namespace Record

variable {r : Record} {name : Text}

theorem required?_of_lookup (hlaw : Lawful read write) {a : α} (h : r.fields.lookup name = some (write a)) :
    r.required? name read = some a := by
  rw [required?, h, Option.bind_some, hlaw.read_write]

theorem getD?_of_lookup (hlaw : Lawful read write) {a : α} (h : r.fields.lookup name = some (write a))
    (absent : α) : r.getD? name read absent = some a := by
  rw [getD?, h, Option.map_some, Option.getD_some, hlaw.read_write]

theorem flag?_of_lookup {b : Bool} (h : r.fields.lookup name = some (.bool b)) : r.flag? name = some b :=
  getD?_of_lookup lawful_bool h false

theorem items?_of_lookup (hlaw : Lawful read write) {items : List α}
    (h : r.fields.lookup name = some (listOf write items)) : r.items? name read = some items :=
  getD?_of_lookup hlaw.list h []

theorem optional?_of_lookup (hlaw : Lawful read write) {o : Option α}
    (h : r.fields.lookup name = o.map write) : r.optional? name read = some o := by
  rw [optional?, getD?, h]
  cases o with
  | none => rfl
  | some a =>
      rw [Option.map_some, Option.map_some, Option.getD_some, nullable?]
      · rw [hlaw.read_write, Option.map_some]
      · exact hlaw.ne_null a

end Record

/-- The laws of a record from those of its fields. Its names are distinct and no alias, and `values` are
the written fields in the order of the names. -/
theorem lawful_record (names : List Text) (aliases : List (Text × Text)) (values : α → List (Option Json))
    {build : Record → Option α} (hn : names.Nodup) (haliases : ∀ name ∈ names, aliases.lookup name = none)
    (hlength : ∀ a, (values a).length = names.length)
    (hrange : ∀ a, (values a).Forall fun o => ∀ v ∈ o, v.InRange)
    (hbuild : ∀ a r, List.Forall₂ (fun name o => r.fields.lookup name = o) names (values a) →
      build r = some a) :
    Lawful (fun v => (v.record? names aliases).bind build) (fun a => ofPresent (names.zip (values a))) where
  read_write a := by
    have hkeys : (names.zip (values a)).map Prod.fst = names :=
      List.map_fst_zip (Nat.le_of_eq (hlength a).symm)
    have hnodup : ((names.zip (values a)).map Prod.fst).Nodup := by rwa [hkeys]
    have hknown : ∀ f ∈ present (names.zip (values a)), f.1 ∈ names := fun f hf => by
      have hmem := mem_keys_present (List.mem_map_of_mem hf)
      rwa [hkeys] at hmem
    rw [ofPresent_eq, record?_ofFields (nodup_keys_present hnodup) hknown fun f hf => haliases f.1 (hknown f hf),
      Option.bind_some]
    refine hbuild a _ (List.forall₂_iff_zip.mpr ⟨(hlength a).symm, fun hm => ?_⟩)
    exact lookup_present hnodup hm
  inRange a := inRange_ofPresent fun f hf => List.forall_iff_forall_mem.mp (hrange a) f.2 (List.of_mem_zip hf).2
  ne_null _ := nofun

end AmpMarkup.Json
