import Mathlib.Data.List.Forall2
import AmpMarkup.Rules.Repository

/-! What loading puts into a repository: the specifications in order, each made ready on its own, with
distinct names. Leaving out specifications before loading is the same as leaving them out of what has
been loaded. -/

namespace AmpMarkup.Rules

/-- The rules with the specifications that apply to a format, in order. -/
def RuleSet.restrict (rules : RuleSet) (format : Format) : RuleSet :=
  { rules with tags := rules.tags.filter (·.appliesTo (some format)) }

variable {rules : RuleSet} {r : Repository} {s : TagSpec} {c : CompiledSpec} {seen : List Text}
  {tags : List TagSpec} {specs : List CompiledSpec}

/-- A computation that goes on with the result of another one succeeds if both do. -/
theorem exists_of_bind_eq_ok {ε α β : Type} {x : Except ε α} {f : α → Except ε β} {b : β}
    (h : x >>= f = .ok b) : ∃ a, x = .ok a ∧ f a = .ok b := by
  cases x with
  | error e => cases h
  | ok a => exact ⟨a, rfl, h⟩

/-- A list of computations succeeds if each of them does. -/
theorem mapM_eq_ok_iff {ε α β : Type} {f : α → Except ε β} {l : List α} {bs : List β} :
    l.mapM f = .ok bs ↔ List.Forall₂ (fun a b => f a = .ok b) l bs := by
  induction l generalizing bs with
  | nil =>
      constructor
      · rintro ⟨⟩
        exact .nil
      · rintro ⟨⟩
        rfl
  | cons a l ih =>
      rw [List.mapM_cons]
      constructor
      · intro h
        obtain ⟨b, hb, h⟩ := exists_of_bind_eq_ok h
        obtain ⟨rest, hrest, h⟩ := exists_of_bind_eq_ok h
        cases h
        exact .cons hb (ih.mp hrest)
      · rintro (_ | ⟨hb, hrest⟩)
        rw [hb, ih.mpr hrest]
        rfl

namespace TagSpec

/-- A specification is made ready if all that it needs can be read. -/
theorem compile_eq_ok_iff : s.compile rules = .ok c ↔
    ∃ lists, s.sharedLists rules = .ok lists ∧ s.disallowedPatterns = .ok c.disallowed ∧
      s.wholePattern = .ok c.wholePattern ∧ c.spec = s ∧
      c.attributes = lists.flatten.foldl addAbsent s.attributes := by
  constructor
  · intro h
    obtain ⟨lists, hlists, h⟩ := exists_of_bind_eq_ok h
    obtain ⟨disallowed, hdisallowed, h⟩ := exists_of_bind_eq_ok h
    obtain ⟨whole, hwhole, h⟩ := exists_of_bind_eq_ok h
    cases h
    exact ⟨lists, hlists, hdisallowed, hwhole, rfl, rfl⟩
  · rintro ⟨lists, hlists, hdisallowed, hwhole, hspec, hattributes⟩
    obtain ⟨spec, attributes, disallowed, whole⟩ := c
    dsimp only at *
    rw [compile, hlists, hdisallowed, hwhole, hspec, hattributes]
    rfl

theorem spec_compile (h : s.compile rules = .ok c) : c.spec = s := by
  obtain ⟨lists, -, -, -, hspec, -⟩ := compile_eq_ok_iff.1 h
  exact hspec

/-- The shared lists can be read if the rules have all of them. -/
theorem sharedLists_eq_ok_iff {lists : List (List AttributeSpec)} :
    s.sharedLists rules = .ok lists ↔
      List.Forall₂ (fun name list => rules.attributeList? name = some list)
        s.attributeLists lists := by
  rw [sharedLists, mapM_eq_ok_iff]
  refine ⟨fun h => h.imp fun name list hlist => ?_, fun h => h.imp fun name list hlist => ?_⟩
  · cases hfind : rules.attributeList? name with
    | none => simp [hfind] at hlist
    | some found => simpa [hfind] using hlist
  · rw [hlist]

end TagSpec

namespace Repository

/-! ### Entries -/

theorem mem_entries_iff {id : SpecId} : (id, c) ∈ r.entries ↔ r.spec? id = some c := by
  rw [entries, spec?, List.mem_map]
  constructor
  · rintro ⟨⟨c', id'⟩, hm, he⟩
    obtain ⟨rfl, rfl⟩ := Prod.mk.inj he
    exact List.mem_zipIdx_iff_getElem?.mp hm
  · intro h
    exact ⟨(c, id), List.mem_zipIdx_iff_getElem?.mpr h, rfl⟩

theorem map_snd_entries (r : Repository) : r.entries.map Prod.snd = r.specs := by
  rw [entries, List.map_map]
  exact List.zipIdx_map_fst 0 r.specs

/-- Entries come in the order of their identifiers. -/
theorem pairwise_entries (r : Repository) : r.entries.Pairwise fun e e' => e.1 < e'.1 := by
  have hids : r.entries.map Prod.fst = List.range' 0 r.specs.length := by
    rw [entries, List.map_map]
    exact List.zipIdx_map_snd 0 r.specs
  rw [← List.pairwise_map, hids]
  exact List.pairwise_lt_range'

/-! ### Loading -/

/-- The first specification is loaded if its name is new, and then the others are. -/
theorem compileAfter_cons_eq_ok_iff :
    compileAfter rules seen (s :: tags) = .ok specs ↔
      s.name ∉ seen ∧ ∃ c rest, s.compile rules = .ok c ∧
        compileAfter rules (s.name :: seen) tags = .ok rest ∧ specs = c :: rest := by
  rw [compileAfter]
  by_cases hseen : s.name ∈ seen
  · rw [if_pos (List.contains_iff_mem.mpr hseen)]
    constructor
    · intro h
      cases h
    · rintro ⟨hs, -⟩
      exact absurd hseen hs
  · rw [if_neg (mt List.contains_iff_mem.mp hseen)]
    constructor
    · intro h
      obtain ⟨c, hc, h⟩ := exists_of_bind_eq_ok h
      obtain ⟨rest, hrest, h⟩ := exists_of_bind_eq_ok h
      cases h
      exact ⟨hseen, c, rest, hc, hrest, rfl⟩
    · rintro ⟨-, c, rest, hc, hrest, rfl⟩
      rw [hc, hrest]
      rfl

theorem map_spec_compileAfter (h : compileAfter rules seen tags = .ok specs) :
    specs.map (·.spec) = tags := by
  induction tags generalizing seen specs with
  | nil =>
      cases h
      rfl
  | cons s tags ih =>
      obtain ⟨-, c, rest, hc, hrest, rfl⟩ := compileAfter_cons_eq_ok_iff.1 h
      rw [List.map_cons, TagSpec.spec_compile hc, ih hrest]

/-- Every specification that is loaded has been made ready on its own. -/
theorem compile_compileAfter (h : compileAfter rules seen tags = .ok specs) :
    ∀ c ∈ specs, c.spec.compile rules = .ok c := by
  induction tags generalizing seen specs with
  | nil =>
      cases h
      exact fun c hc => absurd hc List.not_mem_nil
  | cons s tags ih =>
      obtain ⟨-, c, rest, hc, hrest, rfl⟩ := compileAfter_cons_eq_ok_iff.1 h
      refine List.forall_mem_cons.mpr ⟨?_, ih hrest⟩
      rw [TagSpec.spec_compile hc]
      exact hc

/-- The names of what is loaded are distinct and new. -/
theorem names_compileAfter (h : compileAfter rules seen tags = .ok specs) :
    (tags.map TagSpec.name).Nodup ∧ ∀ s ∈ tags, s.name ∉ seen := by
  induction tags generalizing seen specs with
  | nil => exact ⟨.nil, fun s hs => absurd hs List.not_mem_nil⟩
  | cons s tags ih =>
      obtain ⟨hs, c, rest, -, hrest, rfl⟩ := compileAfter_cons_eq_ok_iff.1 h
      obtain ⟨hnodup, hnew⟩ := ih hrest
      refine ⟨List.nodup_cons.mpr ⟨fun hm => ?_, hnodup⟩, List.forall_mem_cons.mpr ⟨hs, ?_⟩⟩
      · obtain ⟨s', hs', he⟩ := List.mem_map.mp hm
        exact hnew s' hs' (he ▸ List.mem_cons_self)
      · exact fun s' hs' hm => hnew s' hs' (List.mem_cons_of_mem _ hm)

theorem compileAfter_filter (p : TagSpec → Bool) {seen' : List Text} (hseen : seen' ⊆ seen)
    (h : compileAfter rules seen tags = .ok specs) :
    compileAfter rules seen' (tags.filter p) = .ok (specs.filter fun c => p c.spec) := by
  induction tags generalizing seen seen' specs with
  | nil =>
      cases h
      rfl
  | cons s tags ih =>
      obtain ⟨hs, c, rest, hc, hrest, rfl⟩ := compileAfter_cons_eq_ok_iff.1 h
      rw [List.filter_cons, List.filter_cons, TagSpec.spec_compile hc]
      split
      · exact compileAfter_cons_eq_ok_iff.2
          ⟨fun hm => hs (hseen hm), c, _, hc, ih (List.cons_subset_cons _ hseen) hrest, rfl⟩
      · exact ih (fun name hm => List.mem_cons_of_mem _ (hseen hm)) hrest

/-- Loading reads the shared lists only besides the specifications. -/
theorem compileAfter_restrict (format : Format) (seen : List Text) (tags : List TagSpec) :
    compileAfter (rules.restrict format) seen tags = compileAfter rules seen tags := by
  induction tags generalizing seen with
  | nil => rfl
  | cons s tags ih => rw [compileAfter, compileAfter, ih]; rfl

theorem ofRules_eq_ok_iff :
    ofRules rules = .ok r ↔ r.rules = rules ∧ compileAfter rules [] rules.tags = .ok r.specs := by
  constructor
  · intro h
    obtain ⟨specs, hspecs, h⟩ := exists_of_bind_eq_ok h
    cases h
    exact ⟨rfl, hspecs⟩
  · rintro ⟨rfl, h⟩
    rw [ofRules, h]
    rfl

theorem map_spec_ofRules (h : ofRules rules = .ok r) : r.specs.map (·.spec) = rules.tags :=
  map_spec_compileAfter (ofRules_eq_ok_iff.1 h).2

theorem compile_ofRules (h : ofRules rules = .ok r) : ∀ c ∈ r.specs, c.spec.compile rules = .ok c :=
  compile_compileAfter (ofRules_eq_ok_iff.1 h).2

theorem nodup_names_ofRules (h : ofRules rules = .ok r) : (r.specs.map (·.spec.name)).Nodup := by
  have hnames := (names_compileAfter (ofRules_eq_ok_iff.1 h).2).1
  rwa [← map_spec_ofRules h, List.map_map] at hnames

/-- The rules for a format can be loaded if all rules can. -/
theorem ofRules_restrict (h : ofRules rules = .ok r) (format : Format) :
    ofRules (rules.restrict format) =
      .ok ⟨rules.restrict format, r.specs.filter (·.spec.appliesTo (some format))⟩ :=
  ofRules_eq_ok_iff.2 ⟨rfl, (compileAfter_restrict format [] _).trans
    (compileAfter_filter _ (List.Subset.refl []) (ofRules_eq_ok_iff.1 h).2)⟩

end Repository

end AmpMarkup.Rules
