import Mathlib.Data.List.Induction
import AmpMarkup.Proofs.Validation.Accounting
import AmpMarkup.Proofs.Validation.FormatRestriction

/-! Specifications that are to be used once. Whether one has been used takes part in the choice of
the specification for an element, and a use is on record only after the choice. A report still has
one finding for each element that is matched to such a specification, the first one left out. -/

namespace AmpMarkup

namespace Rules.Repository

variable {r : Repository} {id id' : SpecId} {s s' : CompiledSpec}

/-- Specifications of one name are one. -/
theorem Distinct.eq_of_name_eq (hr : r.Distinct) (h : r.spec? id = some s)
    (h' : r.spec? id' = some s') (hname : s.spec.name = s'.spec.name) : id = id' := by
  rw [← hr.name?_eq_iff h', ← hname]
  exact name?_eq h

end Rules.Repository

namespace Validation

open Rules

/-- The findings of a second use that name a specification. -/
def secondUses (name : Text) (findings : List Finding) : List Finding :=
  findings.filter fun f => f.cause.code == ("DUPLICATE_UNIQUE_TAG" : Text) && f.spec == name

/-- The finding that an element is not the first for a specification. -/
def secondUse (d : Document) (spec : TagSpec) (s : Subject) : Finding :=
  ⟨.duplicateUnique spec.displayName, spec.name, some (d.place s.node)⟩

/-- The elements matched to a specification. -/
def Walk.users (w : Walk) (ss : List Subject) (id : SpecId) : List Subject :=
  ss.filter fun s => w.spec? s == some id

variable {v : Validator} {d : Document} {w : Walk} {s : Subject} {visited rest : List Subject}
  {id : SpecId} {spec : CompiledSpec} {name : Text}

/-! ### One element -/

theorem secondUses_eq (name : Text) (found : List Finding) :
    secondUses name found = found.filter fun f => f.cause.isSecondUse && f.spec == name := by
  simp only [secondUses, Cause.isSecondUse_eq]

theorem secondUses_append (name : Text) (found found' : List Finding) :
    secondUses name (found ++ found') = secondUses name found ++ secondUses name found' :=
  List.filter_append found found'

theorem secondUses_eq_nil {found : List Finding} (h : ∀ f ∈ found, f.cause.isSecondUse = false) :
    secondUses name found = [] := by
  rw [secondUses_eq, List.filter_eq_nil_iff]
  intro f hf
  simp [h f hf]

theorem secondUses_of_name_ne {found : List Finding} (h : ∀ f ∈ found, f.spec ≠ name) :
    secondUses name found = [] := by
  rw [secondUses_eq, List.filter_eq_nil_iff]
  intro f hf
  simp [h f hf]

/-- Among all that is wrong with an element under a specification, a second use is found by one
check. -/
theorem filter_isSecondUse_evaluate (c : Context) (s : Subject) (id : SpecId)
    (spec : CompiledSpec) :
    (c.evaluate s id spec).filter Cause.isSecondUse = c.checkUnique id spec.spec := by
  obtain ⟨before, after, heq, hplain⟩ := evaluate_eq c s id spec
  have hnone : ∀ {causes}, causes ⊆ before ++ after → causes.filter Cause.isSecondUse = [] := by
    intro causes hsub
    rw [List.filter_eq_nil_iff]
    intro x hx
    simp [(Cause.isPlain_iff.1 (hplain x (hsub hx))).2]
  have hall : (c.checkUnique id spec.spec).filter Cause.isSecondUse =
      c.checkUnique id spec.spec := by
    rw [List.filter_eq_self]
    intro x hx
    rw [eq_of_mem_checkUnique hx]
    rfl
  rw [heq, List.filter_append, List.filter_append, hall, hnone (List.subset_append_left ..),
    hnone (List.subset_append_right ..)]
  simp

/-- Under the specification chosen for an element a second use is found if it is unique and used. -/
theorem secondUses_map_evaluate (v : Validator) (d : Document) (w : Walk) (s : Subject)
    (id : SpecId) (spec : CompiledSpec) :
    secondUses spec.spec.name (((v.context d w).evaluate s id spec).map
        (⟨·, spec.spec.name, some (d.place s.node)⟩)) =
      if spec.spec.unique && w.matched.any (·.2 == id) then [secondUse d spec.spec s] else [] := by
  have hcheck : (v.context d w).checkUnique id spec.spec =
      if spec.spec.unique && w.matched.any (·.2 == id) then
        [.duplicateUnique spec.spec.displayName]
      else [] := rfl
  rw [secondUses_eq, List.filter_map]
  simp only [Function.comp_def, beq_self_eq_true, Bool.and_true, filter_isSecondUse_evaluate,
    hcheck]
  split <;> rfl

/-- An element that comes adds a second use of a specification where it is matched to it, if that is
unique and has been used. -/
theorem secondUses_visit (hr : v.repository.Distinct) (hid : v.repository.spec? id = some spec)
    (hs : w.spec? s = none) :
    secondUses spec.spec.name (v.visit d w s).findings =
      secondUses spec.spec.name w.findings ++
        if (v.visit d w s).spec? s = some id ∧ spec.spec.unique = true ∧
            w.matched.any (·.2 == id) = true then
          [secondUse d spec.spec s]
        else [] := by
  obtain ⟨found, matched, hjudges, hfound, hmatched⟩ := v.visit_judges d w s
  rw [hfound, secondUses_append, Walk.spec?, hmatched, List.lookup_append]
  congr 1
  cases hjudges with
  | disallowed =>
      have hlookup : w.matched.lookup s.node = none := hs
      rw [hlookup, secondUses_eq_nil (by simp [Cause.isSecondUse])]
      simp
  | @best e hbest =>
      obtain ⟨id', spec'⟩ := e
      have hid' : v.repository.spec? id' = some spec' := hbest.pool.1.declared
      simp only [List.lookup_cons_self, Option.some_or, Option.some.injEq]
      by_cases hsame : id' = id
      · subst hsame
        obtain rfl : spec = spec' := Option.some.inj (hid.symm.trans hid')
        rw [secondUses_map_evaluate]
        exact if_congr (by simp) rfl rfl
      · rw [if_neg (by simp [hsame])]
        -- The specification chosen has another name.
        apply secondUses_of_name_ne
        intro f hf
        obtain ⟨cause, -, rfl⟩ := List.mem_map.mp hf
        exact fun hname => hsame (hr.eq_of_name_eq hid' hid hname)

/-! ### All elements -/

theorem users_visit (v : Validator) (d : Document) (hs : ∀ t ∈ visited, t.node ≠ s.node)
    (id : SpecId) :
    (v.visit d w s).users (visited ++ [s]) id =
      w.users visited id ++ if (v.visit d w s).spec? s = some id then [s] else [] := by
  have hsame : visited.filter (fun t => (v.visit d w s).spec? t == some id) =
      w.users visited id := by
    apply List.filter_congr
    intro t ht
    rw [v.spec?_visit_of_ne d w (hs t ht)]
  rw [Walk.users, List.filter_append, hsame, List.filter_singleton]
  simp [Bool.cond_eq_ite]

/-- A specification has been used if an element is on record for it. -/
theorem Validator.Accounts.any_matched_iff_users (h : v.Accounts d visited w) (id : SpecId) :
    w.matched.any (·.2 == id) = true ↔ w.users visited id ≠ [] := by
  rw [h.any_matched, Walk.users, ne_eq, List.filter_eq_nil_iff]
  simp

theorem map_tail_append_singleton {α β : Type} (f : α → β) (l : List α) (a : α) :
    (l ++ [a]).tail.map f = l.tail.map f ++ if l ≠ [] then [f a] else [] := by
  cases l with
  | nil => simp
  | cons b l => simp

/-- After some of the elements the second uses of a specification are those of all elements matched
to it but the first. -/
theorem secondUses_foldl_visit (hd : d.tree.Forest) (hr : v.repository.Distinct)
    (hid : v.repository.spec? id = some spec) (h : subjects d = visited ++ rest) :
    secondUses spec.spec.name (visited.foldl (v.visit d) {}).findings =
      if spec.spec.unique = true then
        ((visited.foldl (v.visit d) {}).users visited id).tail.map (secondUse d spec.spec)
      else [] := by
  induction visited using List.reverseRecOn generalizing rest with
  | nil => simp [secondUses, Walk.users]
  | append_singleton visited s ih =>
      have hvisited : subjects d = visited ++ s :: rest := by simpa using h
      have haccounts := v.accounts_of_append hd hvisited
      have hfresh := Validator.node_ne_of_nodup (hvisited ▸ nodup_node_subjects hd)
      have hnone := Walk.spec?_eq_none haccounts.matched hfresh
      rw [List.foldl_append, List.foldl_cons, List.foldl_nil, secondUses_visit hr hid hnone,
        users_visit v d hfresh, ih hvisited]
      have hany := haccounts.any_matched_iff_users id
      by_cases hunique : spec.spec.unique = true
      · by_cases hchosen : (v.visit d (visited.foldl (v.visit d) {}) s).spec? s = some id
        · rw [if_pos hunique, if_pos hunique, if_pos hchosen, map_tail_append_singleton]
          congr 1
          exact if_congr (by simp [hchosen, hunique, hany]) rfl rfl
        · simp [hunique, hchosen]
      · simp [hunique]

theorem isSecondUse_documentFindings {f : Finding} (hf : f ∈ v.documentFindings d w) :
    f.cause.isSecondUse = false := by
  have hpart : f.cause.part ≠ .element := by
    rw [Validator.documentFindings, List.mem_append, List.mem_append] at hf
    rcases hf with (hf | hf) | hf
    · simp [part_checkedExtensions hf]
    · simp [part_mandatoryOfFormat hf]
    · simp [part_budgetFindings hf]
  cases hcause : f.cause with
  | duplicateUnique tag =>
      rw [hcause] at hpart
      exact absurd rfl hpart
  | _ => rfl

/-- What concerns the document is no second use. -/
theorem secondUses_validate (v : Validator) (d : Document) (name : Text) :
    secondUses name (v.validate d).findings = secondUses name (v.walk d).findings := by
  rw [Validator.validate, secondUses_append,
    secondUses_eq_nil fun f hf => isSecondUse_documentFindings hf, List.append_nil]

/-- A report on a document, whose tree is a forest as parsing and edits leave it, has for a
specification that is to be used once one finding of a second use for each element matched to it but
the first, in order, and for any other specification none. -/
theorem validate_secondUses {rules : RuleSet} (hr : Repository.ofRules rules = .ok v.repository)
    (hd : d.tree.Forest) (hid : v.repository.spec? id = some spec) :
    (spec.spec.unique = true →
      secondUses spec.spec.name (v.validate d).findings =
        ((v.walk d).users (subjects d) id).tail.map (secondUse d spec.spec) ∧
      (secondUses spec.spec.name (v.validate d).findings).length = (v.walk d).uses id - 1) ∧
    (spec.spec.unique = false → secondUses spec.spec.name (v.validate d).findings = []) := by
  have hfound : secondUses spec.spec.name (v.validate d).findings =
      if spec.spec.unique = true then
        ((v.walk d).users (subjects d) id).tail.map (secondUse d spec.spec)
      else [] := by
    rw [secondUses_validate]
    exact secondUses_foldl_visit hd (Repository.nodup_names_ofRules hr) hid
      (List.append_nil _).symm
  have haccounts : v.Accounts d (subjects d) (v.walk d) :=
    v.accounts_of_append hd (List.append_nil _).symm
  constructor
  · intro hunique
    rw [if_pos hunique] at hfound
    refine ⟨hfound, ?_⟩
    rw [hfound, List.length_map, List.length_tail, haccounts.uses, List.countP_eq_length_filter]
    rfl
  · intro hunique
    simpa [hunique] using hfound

/-- A specification that is to be used once, and another one for the same tag. -/
def onceRules : RuleSet where
  attributeLists := []
  tags :=
    [{ tag := "b", unique := true },
      { tag := "b", specName := some "b in i", mandatoryParent := some "i" }]

/-- The rules as loaded. -/
def onceRepository : Repository where
  rules := onceRules
  specs :=
    [⟨{ tag := "b", unique := true }, [], [], none⟩,
      ⟨{ tag := "b", specName := some "b in i", mandatoryParent := some "i" }, [], [], none⟩]

/-- Three elements of one tag. -/
def thrice : Document where
  tree := withElement (withElement (withElement .empty "b" "x") "b" "y") "b" "z"
  registry := Source.Registry.ofSalt "a".toList
  issues := []

/-- The second use weighs as much as the parent that the other specification asks for, so all three
elements are matched to the first one. -/
theorem validate_secondUses_thrice :
    Repository.ofRules onceRules = .ok onceRepository ∧ thrice.tree.Forest ∧
      secondUses "b" (Validator.validate ⟨onceRepository, {}⟩ thrice).findings =
        [⟨.duplicateUnique "b", "b", some ⟨3, "b:nth-child(2)"⟩⟩,
          ⟨.duplicateUnique "b", "b", some ⟨5, "b:nth-child(3)"⟩⟩] ∧
      (secondUses "b" (Validator.validate ⟨onceRepository, {}⟩ thrice).findings).length = 2 := by
  have hload : Repository.ofRules onceRules = .ok onceRepository := rfl
  have hforest : thrice.tree.Forest := by
    dsimp only [thrice]
    refine forest_withElement (forest_withElement (forest_withElement Dom.Tree.forest_empty ?_ _ _)
      ?_ _ _) ?_ _ _ <;> decide
  have hid : onceRepository.spec? 0 = some ⟨{ tag := "b", unique := true }, [], [], none⟩ := rfl
  obtain ⟨hfound, hlength⟩ :=
    (validate_secondUses (v := ⟨onceRepository, {}⟩) hload hforest hid).1 rfl
  refine ⟨hload, hforest, ?_, ?_⟩
  · refine hfound.trans ?_
    decide
  · refine hlength.trans ?_
    decide

end Validation

end AmpMarkup
