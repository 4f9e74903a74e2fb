import Mathlib.Data.List.Induction
import AmpMarkup.Proofs.Lookup
import AmpMarkup.Proofs.Rules.Loading

/-! What a repository answers for the rules that it was loaded from. Identifiers are the places of
specifications in their order, names belong to one specification, and the attributes of a specification
are its own with those of its shared lists that bring a new name. -/

namespace AmpMarkup.Rules

/-- The entries of the shared lists of a specification, list after list. -/
def TagSpec.sharedAttributes (s : TagSpec) (rules : RuleSet) : List AttributeSpec :=
  s.attributeLists.flatMap fun name => (rules.attributeList? name).getD []

/-- The entries whose name occurs neither in the attributes before them nor among the entries before
them. -/
def newEntries (attributes entries : List AttributeSpec) : List AttributeSpec :=
  (entries.zipIdx.filter fun e =>
    !(attributes ++ entries.take e.2).any (·.name == e.1.name)).map Prod.fst

/-- A repository answers as the rules say. -/
structure Repository.Represents (r : Repository) (rules : RuleSet) : Prop where
  spec? : ∀ id, (r.spec? id).map (·.spec) = rules.tags[id]?
  ascending : ∀ tag, ((r.specsFor tag).map Prod.fst).Pairwise (· < ·)
  mem_specsFor : ∀ tag id, id ∈ (r.specsFor tag).map Prod.fst ↔
    ∃ s, rules.tags[id]? = some s ∧ s.tag.sameIgnoringCase tag = true ∧ s.tag.head? ≠ some '$'
  specsFor : ∀ tag, ∀ e ∈ r.specsFor tag, r.spec? e.1 = some e.2
  specNamed? : ∀ name id c,
    r.specNamed? name = some (id, c) ↔ r.spec? id = some c ∧ c.spec.name = name
  unnamed : ∀ name, r.specNamed? name = none ↔ ∀ s ∈ rules.tags, s.name ≠ name
  lists : ∀ s ∈ rules.tags, ∀ name ∈ s.attributeLists, (rules.attributeList? name).isSome = true
  attributes : ∀ id c, r.spec? id = some c →
    c.attributes = c.spec.attributes ++
      newEntries c.spec.attributes (c.spec.sharedAttributes rules)
  attribute? : ∀ id c, r.spec? id = some c → ∀ name,
    c.attribute? name = (c.spec.attributes.find? (·.name == name)).or
      ((c.spec.sharedAttributes rules).find? (·.name == name))

variable {rules : RuleSet} {r : Repository} {s : TagSpec} {c : CompiledSpec} {name tag : Text}
  {attributes entries : List AttributeSpec} {id : SpecId}

/-! ### Merged attributes -/

theorem newEntries_append_singleton (attributes entries : List AttributeSpec) (a : AttributeSpec) :
    newEntries attributes (entries ++ [a]) = newEntries attributes entries ++
      if (attributes ++ entries).any (·.name == a.name) then [] else [a] := by
  have hbefore : ∀ e ∈ entries.zipIdx, (entries ++ [a]).take e.2 = entries.take e.2 := by
    intro e he
    exact List.take_append_of_le_length (Nat.le_of_lt (List.snd_lt_of_mem_zipIdx he))
  rw [newEntries, List.zipIdx_append, List.filter_append, List.map_append,
    List.filter_congr fun e he => by rw [hbefore e he], ← newEntries]
  congr 1
  rw [List.zipIdx_singleton, List.filter_singleton, Nat.zero_add, List.take_left' rfl]
  cases (attributes ++ entries).any (·.name == a.name) <;> rfl

/-- A name is found in the same entry with and without the entries that are left out. -/
theorem find?_append_newEntries (attributes entries : List AttributeSpec) (name : Text) :
    (attributes ++ newEntries attributes entries).find? (·.name == name) =
      (attributes ++ entries).find? (·.name == name) := by
  induction entries using List.reverseRecOn with
  | nil => rfl
  | append_singleton entries a ih =>
      have hsplit : (attributes ++ (entries ++ [a])).find? (·.name == name) =
          ((attributes ++ entries).find? (·.name == name)).or ([a].find? (·.name == name)) := by
        rw [← List.append_assoc, List.find?_append]
      rw [newEntries_append_singleton, ← List.append_assoc, List.find?_append, ih, hsplit]
      split
      · next hany =>
          -- The entry is left out, and an entry of its name stands before it.
          by_cases hname : a.name = name
          · rw [hname, ← List.isSome_find?] at hany
            rw [Option.or_of_isSome hany, Option.or_of_isSome hany]
          · simp [hname]
      · rfl

theorem foldl_addAbsent (attributes entries : List AttributeSpec) :
    entries.foldl addAbsent attributes = attributes ++ newEntries attributes entries := by
  induction entries using List.reverseRecOn with
  | nil => exact (List.append_nil _).symm
  | append_singleton entries a ih =>
      have hany : (attributes ++ newEntries attributes entries).any (·.name == a.name) =
          (attributes ++ entries).any (·.name == a.name) := by
        rw [← List.isSome_find?, ← List.isSome_find?, find?_append_newEntries]
      rw [List.foldl_append, ih, newEntries_append_singleton, List.foldl_cons, List.foldl_nil,
        addAbsent, hany]
      split
      · rw [List.append_nil]
      · rw [List.append_assoc]

/-- The rules have every list that is shared, and reading them gives their entries. -/
theorem TagSpec.sharedLists_eq_ok {lists : List (List AttributeSpec)}
    (h : s.sharedLists rules = .ok lists) :
    (∀ name ∈ s.attributeLists, (rules.attributeList? name).isSome = true) ∧
      lists.flatten = s.sharedAttributes rules := by
  rw [sharedLists_eq_ok_iff] at h
  rw [sharedAttributes]
  generalize s.attributeLists = names at h
  induction h with
  | nil => exact ⟨nofun, rfl⟩
  | cons hlist _ ih =>
      refine ⟨List.forall_mem_cons.mpr ⟨Option.isSome_of_eq_some hlist, ih.1⟩, ?_⟩
      rw [List.flatten_cons, List.flatMap_cons, hlist, ih.2, Option.getD_some]

/-! ### Specifications -/

namespace Repository

section
variable (h : ofRules rules = .ok r)
include h

theorem map_spec?_ofRules (id : SpecId) : (r.spec? id).map (·.spec) = rules.tags[id]? := by
  rw [← map_spec_ofRules h, spec?, List.getElem?_map]

theorem mem_specsFor_ofRules : id ∈ (r.specsFor tag).map Prod.fst ↔
    ∃ s, rules.tags[id]? = some s ∧ s.tag.sameIgnoringCase tag = true ∧ s.tag.head? ≠ some '$' := by
  have hentry : ∀ c, (id, c) ∈ r.specsFor tag ↔ r.spec? id = some c ∧
      c.spec.tag.sameIgnoringCase tag = true ∧ c.spec.tag.head? ≠ some '$' := by
    intro c
    rw [specsFor, List.mem_filter, mem_entries_iff]
    simp [TagSpec.isReferencePoint, and_comm]
  rw [← map_spec?_ofRules h id]
  constructor
  · intro hid
    obtain ⟨⟨id, c⟩, hc, rfl⟩ := List.mem_map.mp hid
    obtain ⟨hc, htag⟩ := (hentry c).mp hc
    exact ⟨c.spec, Option.map_eq_some_iff.mpr ⟨c, hc, rfl⟩, htag⟩
  · rintro ⟨s, hs, htag⟩
    obtain ⟨c, hc, rfl⟩ := Option.map_eq_some_iff.mp hs
    exact List.mem_map.mpr ⟨(id, c), (hentry c).mpr ⟨hc, htag⟩, rfl⟩

theorem specNamed?_ofRules (name : Text) :
    r.specNamed? name = some (id, c) ↔ r.spec? id = some c ∧ c.spec.name = name := by
  have hnames : (r.entries.map fun e => e.2.spec.name).Nodup := by
    have hnodup := nodup_names_ofRules h
    rwa [← r.map_snd_entries, List.map_map] at hnodup
  rw [specNamed?, find?_key_eq_some_iff hnames, mem_entries_iff]

theorem specNamed?_eq_none_ofRules (name : Text) :
    r.specNamed? name = none ↔ ∀ s ∈ rules.tags, s.name ≠ name := by
  rw [specNamed?, List.find?_eq_none, ← map_spec_ofRules h, ← r.map_snd_entries,
    List.forall_mem_map, List.forall_mem_map]
  simp only [beq_iff_eq, ne_eq]

/-- The attributes of what is loaded, and that no shared list is missing. -/
theorem attributes_ofRules (hc : c ∈ r.specs) :
    (∀ name ∈ c.spec.attributeLists, (rules.attributeList? name).isSome = true) ∧
      c.attributes = c.spec.attributes ++
        newEntries c.spec.attributes (c.spec.sharedAttributes rules) := by
  obtain ⟨lists, hlists, -, -, -, hattributes⟩ :=
    TagSpec.compile_eq_ok_iff.1 (compile_ofRules h c hc)
  obtain ⟨hsome, hentries⟩ := TagSpec.sharedLists_eq_ok hlists
  rw [hattributes, hentries, foldl_addAbsent]
  exact ⟨hsome, rfl⟩

end

/-- What a repository answers is what the rules say that it was loaded from. -/
theorem represents_ofRules (h : ofRules rules = .ok r) : r.Represents rules where
  spec? := map_spec?_ofRules h
  ascending tag := List.pairwise_map.mpr (r.pairwise_entries.filter _)
  mem_specsFor tag id := mem_specsFor_ofRules h
  specsFor tag e he := mem_entries_iff.1 (List.mem_of_mem_filter he)
  specNamed? name id c := specNamed?_ofRules h name
  unnamed := specNamed?_eq_none_ofRules h
  lists s hs := by
    rw [← map_spec_ofRules h] at hs
    obtain ⟨c, hc, rfl⟩ := List.mem_map.mp hs
    exact (attributes_ofRules h hc).1
  attributes id c hc := (attributes_ofRules h (List.mem_of_getElem? hc)).2
  attribute? id c hc name := by
    rw [CompiledSpec.attribute?, (attributes_ofRules h (List.mem_of_getElem? hc)).2,
      find?_append_newEntries, List.find?_append]

/-- Tags in two cases, a point of reference, a specification named like the tag of another one, and a
list that is shared twice and has a name twice. -/
def mixedRules : RuleSet where
  attributeLists :=
    [("shared", [{ name := "src" }, { name := "alt" }, { name := "alt", mandatory := true }])]
  tags :=
    [{ tag := "IMG", specName := some "picture", attributes := [{ name := "src", mandatory := true }],
       attributeLists := ["shared", "shared"] },
      { tag := "$img", specName := some "source" },
      { tag := "img" }]

theorem represents_mixedRules : ∃ r, ofRules mixedRules = .ok r ∧ r.Represents mixedRules ∧
    (r.specsFor "Img").map Prod.fst = [0, 2] ∧ (r.specNamed? "img").map Prod.fst = some 2 ∧
    ∃ c, r.spec? 0 = some c ∧
      c.attributes = [{ name := "src", mandatory := true }, { name := "alt" }] := by
  have h : ofRules mixedRules = .ok _ := rfl
  exact ⟨_, h, represents_ofRules h, by decide, by decide, _, rfl, by decide⟩

end Repository

end AmpMarkup.Rules
