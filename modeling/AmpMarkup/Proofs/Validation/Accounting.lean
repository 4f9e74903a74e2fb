import Mathlib.Algebra.GroupWithZero.Nat
import Mathlib.Data.List.Nodup
import AmpMarkup.Proofs.Dom.Forest
import AmpMarkup.Proofs.Validation.Parts

/-! What a walk has on record after some of the elements. Every element has been settled once: it is
matched to a specification, or there is none for it and it is reported. The uses of specifications and
the size of stylesheets are those of the elements that are matched, so that stylesheets over the budget
are found at the end and found once. -/

namespace AmpMarkup

open Dom (NodeId)

namespace Rules.Repository

/-- Whether the text of elements of a specification counts towards the budget for stylesheets. -/
def inBudget (r : Repository) (id : SpecId) : Bool :=
  ((r.spec? id).bind (·.spec.content)).any ContentSpec.inBudget

end Rules.Repository

namespace Validation

open Rules

namespace Walk

/-- The findings at a node, in order. -/
def findingsAt (w : Walk) (id : NodeId) : List Finding :=
  w.findings.filter fun f => f.place.any (·.node == id)

/-- The specification that an element is matched to. -/
def spec? (w : Walk) (s : Subject) : Option SpecId :=
  w.matched.lookup s.node

/-- Number of elements matched to a specification. -/
def uses (w : Walk) (id : SpecId) : Nat :=
  w.matched.countP (·.2 == id)

end Walk

/-- How an element has been settled: it is matched to a specification for its tag that applies to the
format and the findings at it are about that, or it is not matched and the one finding at it is that it
is not allowed. -/
inductive Validator.Settles (v : Validator) (d : Document) (w : Walk) (s : Subject) : Prop where
  | matched {id : SpecId} {spec : CompiledSpec} (hs : w.spec? s = some id)
      (hid : v.repository.spec? id = some spec)
      (htag : spec.spec.tag.sameIgnoringCase s.tag = true)
      (hformat : spec.spec.appliesTo v.options.format = true)
      (hf : ∀ f ∈ w.findingsAt s.node, f.cause.part = .element)
  | disallowed (hs : w.spec? s = none)
      (hf : w.findingsAt s.node = [⟨.disallowedTag s.tag, s.tag, some (d.place s.node)⟩])

/-- The bytes of the texts of elements that count towards the budget for stylesheets. -/
def Validator.budgetBytes (v : Validator) (d : Document) (w : Walk) (ss : List Subject) : Nat :=
  ((ss.filter fun s => (w.spec? s).any v.repository.inBudget).map
    fun s => (d.characterData s.node).utf8Length).sum

/-- What a walk has on record after the given elements. -/
structure Validator.Accounts (v : Validator) (d : Document) (visited : List Subject) (w : Walk) :
    Prop where
  settled : ∀ s ∈ visited, v.Settles d w s
  matched : ∀ m ∈ w.matched, ∃ s ∈ visited, m.1 = s.node
  findings : ∀ f ∈ w.findings, ∃ s ∈ visited, f.place = some (d.place s.node)
  uses : ∀ id, w.uses id = visited.countP fun s => w.spec? s == some id
  bytes : w.stylesheetBytes = v.budgetBytes d w visited

variable {v : Validator} {d : Document} {w : Walk} {s : Subject} {visited rest : List Subject}
  {found : List Finding} {matched : Matches} {id : SpecId}

/-! ### One element -/

theorem Validator.Judges.place (h : v.Judges d w s found matched) :
    ∀ f ∈ found, f.place = some (d.place s.node) := by
  cases h with
  | disallowed => exact fun f hf => List.mem_singleton.mp hf ▸ rfl
  | best =>
      intro f hf
      obtain ⟨cause, -, rfl⟩ := List.mem_map.mp hf
      rfl

namespace Walk

theorem stylesheetBytes_noteLoader (w : Walk) (s : Subject) :
    (w.noteLoader s).stylesheetBytes = w.stylesheetBytes := by
  rw [noteLoader_eq]

theorem stylesheetBytes_noteMatch (w : Walk) (d : Document) (s : Subject) (id : SpecId)
    (spec : TagSpec) :
    (w.noteMatch d s id spec).stylesheetBytes = w.stylesheetBytes +
      if spec.content.any ContentSpec.inBudget then (d.characterData s.node).utf8Length else 0 := by
  rw [noteMatch_eq]

/-- Nothing is found at an element before the walk comes to it. -/
theorem findingsAt_eq_nil (hf : ∀ f ∈ w.findings, ∃ t ∈ visited, f.place = some (d.place t.node))
    (hs : ∀ t ∈ visited, t.node ≠ s.node) : w.findingsAt s.node = [] := by
  refine List.filter_eq_nil_iff.mpr fun f hm => ?_
  obtain ⟨t, ht, he⟩ := hf f hm
  simp [he, Document.place, hs t ht]

/-- An element is matched to nothing before the walk comes to it. -/
theorem spec?_eq_none (hm : ∀ m ∈ w.matched, ∃ t ∈ visited, m.1 = t.node)
    (hs : ∀ t ∈ visited, t.node ≠ s.node) : w.spec? s = none := by
  refine List.lookup_eq_none_iff.mpr fun m hmem => ?_
  obtain ⟨t, ht, he⟩ := hm m hmem
  rw [he, bne_iff_ne]
  exact (hs t ht).symm

end Walk

namespace Validator

/-- What is on record for other elements stays. -/
theorem spec?_visit_of_ne (v : Validator) (d : Document) (w : Walk) {s t : Subject}
    (hne : t.node ≠ s.node) : (v.visit d w s).spec? t = w.spec? t := by
  obtain ⟨found, matched, hjudges, -, hmatched⟩ := v.visit_judges d w s
  have hnone : matched.lookup t.node = none := by
    refine List.lookup_eq_none_iff.mpr fun m hm => ?_
    rw [hjudges.node m hm, bne_iff_ne]
    exact hne
  rw [Walk.spec?, hmatched, List.lookup_append, hnone, Option.none_or]
  rfl

theorem findingsAt_visit_of_ne (v : Validator) (d : Document) (w : Walk) {s t : Subject}
    (hne : t.node ≠ s.node) : (v.visit d w s).findingsAt t.node = w.findingsAt t.node := by
  obtain ⟨found, matched, hjudges, hfound, -⟩ := v.visit_judges d w s
  have hnil : found.filter (fun f => f.place.any (·.node == t.node)) = [] := by
    refine List.filter_eq_nil_iff.mpr fun f hf => ?_
    simp [hjudges.place f hf, Document.place, hne.symm]
  rw [Walk.findingsAt, hfound, List.filter_append, hnil, List.append_nil]
  rfl

/-- An element that comes is matched to the specification chosen for it. -/
theorem matched_visit (v : Validator) (d : Document) (w : Walk) (s : Subject) :
    (v.visit d w s).matched =
      (((v.context d w).choose? s).map fun c => (s.node, c.1.1)).toList ++ w.matched := by
  cases hchoice : (v.context d w).choose? s with
  | none =>
      rw [visit_of_none hchoice]
      exact w.matched_noteLoader s
  | some chosen =>
      rw [visit_of_some hchoice]
      exact (Walk.matched_noteMatch ..).trans (congrArg _ (w.matched_noteLoader s))

theorem spec?_visit (v : Validator) (d : Document) (hs : w.spec? s = none) :
    (v.visit d w s).spec? s = ((v.context d w).choose? s).map (·.1.1) := by
  rw [Walk.spec?, matched_visit, List.lookup_append, show w.matched.lookup s.node = none from hs,
    Option.or_none]
  cases (v.context d w).choose? s with
  | none => rfl
  | some chosen => simp

theorem uses_visit (v : Validator) (d : Document) (hs : w.spec? s = none) (id : SpecId) :
    (v.visit d w s).uses id =
      w.uses id + if (v.visit d w s).spec? s == some id then 1 else 0 := by
  rw [spec?_visit v d hs, Walk.uses, matched_visit, List.countP_append, Nat.add_comm]
  cases (v.context d w).choose? s with
  | none => rfl
  | some chosen => simp [Walk.uses, List.countP_singleton]

theorem stylesheetBytes_visit (v : Validator) (d : Document) (hs : w.spec? s = none) :
    (v.visit d w s).stylesheetBytes =
      w.stylesheetBytes + v.budgetBytes d (v.visit d w s) [s] := by
  rw [budgetBytes, List.filter_singleton, spec?_visit v d hs]
  cases hchoice : (v.context d w).choose? s with
  | none =>
      rw [visit_of_none hchoice]
      exact w.stylesheetBytes_noteLoader s
  | some chosen =>
      obtain ⟨⟨id, spec⟩, causes⟩ := chosen
      have hdeclared := (Context.choose?_eq_some hchoice).1.pool.1.declared
      have hbudget : v.repository.inBudget id = spec.spec.content.any ContentSpec.inBudget := by
        rw [Repository.inBudget, show v.repository.spec? id = some spec from hdeclared,
          Option.bind_some]
      rw [visit_of_some hchoice]
      refine (Walk.stylesheetBytes_noteMatch ..).trans ?_
      rw [Walk.stylesheetBytes_noteLoader, Option.map_some, Option.any_some, hbudget]
      cases spec.spec.content.any ContentSpec.inBudget <;> rfl

/-- An element is settled when the walk has come to it. -/
theorem settles_visit (v : Validator) (d : Document) (hs : w.spec? s = none)
    (hf : w.findingsAt s.node = []) : v.Settles d (v.visit d w s) s := by
  have hspec := spec?_visit v d hs
  have hfound : ∀ found, (v.visit d w s).findings = w.findings ++ found →
      (v.visit d w s).findingsAt s.node =
        found.filter fun f => f.place.any (·.node == s.node) := by
    intro found h
    rw [Walk.findingsAt, h, List.filter_append, show w.findings.filter _ = [] from hf,
      List.nil_append]
  cases hchoice : (v.context d w).choose? s with
  | none =>
      rw [hchoice] at hspec
      refine .disallowed hspec ?_
      rw [hfound _ ((congrArg _ (visit_of_none hchoice)).trans
        (congrArg (· ++ _) (w.findings_noteLoader s)))]
      exact List.filter_eq_self.mpr fun f hf => by simp [List.mem_singleton.mp hf, Document.place]
  | some chosen =>
      obtain ⟨⟨id, spec⟩, causes⟩ := chosen
      rw [hchoice] at hspec
      obtain ⟨hbest, rfl⟩ := Context.choose?_eq_some hchoice
      refine .matched hspec hbest.pool.1.declared hbest.pool.1.tag hbest.pool.1.format ?_
      rw [hfound _ ((congrArg _ (visit_of_some hchoice)).trans (congrArg (· ++ _)
        ((Walk.findings_noteMatch ..).trans (w.findings_noteLoader s))))]
      intro f hf
      obtain ⟨cause, hcause, rfl⟩ := List.mem_map.mp (List.mem_of_mem_filter hf)
      exact part_evaluate hcause

/-! ### All elements -/

/-- Other elements that come leave an element settled. -/
theorem Settles.congr {w' : Walk} (h : v.Settles d w s) (hs : w'.spec? s = w.spec? s)
    (hf : w'.findingsAt s.node = w.findingsAt s.node) : v.Settles d w' s := by
  cases h with
  | matched hid hspec htag hformat hfound =>
      exact .matched (hs.trans hid) hspec htag hformat (hf ▸ hfound)
  | disallowed hnone hfound => exact .disallowed (hs.trans hnone) (hf.trans hfound)

theorem budgetBytes_append (v : Validator) (d : Document) (w : Walk) (ss ts : List Subject) :
    v.budgetBytes d w (ss ++ ts) = v.budgetBytes d w ss + v.budgetBytes d w ts := by
  rw [budgetBytes, List.filter_append, List.map_append, List.sum_append]
  rfl

theorem budgetBytes_congr (v : Validator) (d : Document) {w' : Walk} {ss : List Subject}
    (h : ∀ s ∈ ss, w'.spec? s = w.spec? s) : v.budgetBytes d w' ss = v.budgetBytes d w ss := by
  rw [budgetBytes, budgetBytes, List.filter_congr fun s hs => by rw [h s hs]]

/-- An element that comes for the first time keeps the accounts. -/
theorem Accounts.visit (h : v.Accounts d visited w) (hs : ∀ t ∈ visited, t.node ≠ s.node) :
    v.Accounts d (visited ++ [s]) (v.visit d w s) := by
  have hnone : w.spec? s = none := Walk.spec?_eq_none h.matched hs
  have hnil : w.findingsAt s.node = [] := Walk.findingsAt_eq_nil h.findings hs
  have hspec : ∀ t ∈ visited, (v.visit d w s).spec? t = w.spec? t := fun t ht =>
    v.spec?_visit_of_ne d w (hs t ht)
  obtain ⟨found, matched, hjudges, hfound, hmatched⟩ := v.visit_judges d w s
  refine ⟨fun t ht => ?_, fun m hm => ?_, fun f hf => ?_, fun id => ?_, ?_⟩
  · rcases List.mem_append.mp ht with ht | ht
    · exact (h.settled t ht).congr (hspec t ht) (v.findingsAt_visit_of_ne d w (hs t ht))
    · rw [List.mem_singleton.mp ht]
      exact v.settles_visit d hnone hnil
  · rcases List.mem_append.mp (hmatched ▸ hm) with hm | hm
    · exact ⟨s, by simp, hjudges.node m hm⟩
    · obtain ⟨t, ht, he⟩ := h.matched m hm
      exact ⟨t, List.mem_append_left _ ht, he⟩
  · rcases List.mem_append.mp (hfound ▸ hf) with hf | hf
    · obtain ⟨t, ht, he⟩ := h.findings f hf
      exact ⟨t, List.mem_append_left _ ht, he⟩
    · exact ⟨s, by simp, hjudges.place f hf⟩
  · have hcount : visited.countP (fun t => (v.visit d w s).spec? t == some id) = w.uses id := by
      rw [h.uses, List.countP_congr fun t ht => by rw [hspec t ht]]
    rw [uses_visit v d hnone, List.countP_append, List.countP_singleton, hcount]
  · rw [stylesheetBytes_visit v d hnone, h.bytes, budgetBytes_append, v.budgetBytes_congr d hspec]

theorem accounts_nil (v : Validator) (d : Document) : v.Accounts d [] {} where
  settled := nofun
  matched := nofun
  findings := nofun
  uses _ := rfl
  bytes := rfl

/-- Of elements at different nodes those before one are at other nodes. -/
theorem node_ne_of_nodup (h : ((visited ++ s :: rest).map Subject.node).Nodup) :
    ∀ t ∈ visited, t.node ≠ s.node := by
  rw [List.map_append, List.nodup_append] at h
  intro t ht
  exact h.2.2 _ (List.mem_map_of_mem ht) _ (List.mem_map_of_mem List.mem_cons_self)

/-- A walk over elements at different nodes keeps the accounts. -/
theorem Accounts.foldl_visit (h : v.Accounts d visited w) (ss : List Subject)
    (hnodup : ((visited ++ ss).map Subject.node).Nodup) :
    v.Accounts d (visited ++ ss) (ss.foldl (v.visit d) w) := by
  induction ss generalizing visited w with
  | nil => rwa [List.append_nil]
  | cons s ss ih =>
      have hs := node_ne_of_nodup hnodup
      rw [List.append_cons] at hnodup ⊢
      exact ih (h.visit hs) hnodup

end Validator

/-- The elements of a document that is a forest are at different nodes. -/
theorem nodup_node_subjects (hd : d.tree.Forest) : ((subjects d).map Subject.node).Nodup := by
  rw [subjects, List.map_filterMap]
  refine (hd.nodup_descendants _).filterMap fun i j n hi hj => ?_
  obtain ⟨s, hs, rfl⟩ := Option.map_eq_some_iff.mp hi
  obtain ⟨t, ht, he⟩ := Option.map_eq_some_iff.mp hj
  obtain ⟨e, -, rfl⟩ := Option.map_eq_some_iff.mp hs
  obtain ⟨e', -, rfl⟩ := Option.map_eq_some_iff.mp ht
  exact he.symm

namespace Validator

/-- The accounts are right after every prefix of the elements. -/
theorem accounts_of_append (hd : d.tree.Forest) (v : Validator) (h : subjects d = visited ++ rest) :
    v.Accounts d visited (visited.foldl (v.visit d) {}) := by
  have hnodup := nodup_node_subjects hd
  rw [h, List.map_append] at hnodup
  exact (v.accounts_nil d).foldl_visit visited hnodup.of_append_left

/-- A specification is used if an element is matched to it. -/
theorem Accounts.any_matched (h : v.Accounts d visited w) (id : SpecId) :
    w.matched.any (·.2 == id) = true ↔ ∃ s ∈ visited, w.spec? s = some id := by
  have hany : w.matched.any (·.2 == id) = true ↔ 0 < w.uses id := by
    rw [Walk.uses, List.countP_pos_iff, List.any_eq_true]
  rw [hany, h.uses, List.countP_pos_iff]
  simp only [beq_iff_eq]

/-- What a report says of the budget for stylesheets. -/
theorem filter_budget (v : Validator) (d : Document) :
    (v.validate d).findings.filter (·.cause.part == .budget) =
      (v.walk d).budgetFindings v.options.maxStylesheetBytes :=
  filter_part v d .budget

end Validator

/-- After every prefix of the elements the walk has settled each of them once, and it has on record how
many of them use a specification and how large their stylesheets are. Stylesheets over the budget are
found once, and only if those of all elements are too large together. -/
theorem walk_accounts (hd : d.tree.Forest) (v : Validator) :
    (∀ visited rest, subjects d = visited ++ rest →
      v.Accounts d visited (visited.foldl (v.visit d) {}) ∧
      ∀ id, (visited.foldl (v.visit d) {}).matched.any (·.2 == id) = true ↔
        ∃ s ∈ visited, (visited.foldl (v.visit d) {}).spec? s = some id) ∧
    (v.validate d).findings.filter (·.cause.part == .budget) =
      if v.options.maxStylesheetBytes < v.budgetBytes d (v.walk d) (subjects d) then
        [⟨.stylesheetsTooLarge (v.budgetBytes d (v.walk d) (subjects d))
          v.options.maxStylesheetBytes, "style amp-custom", none⟩]
      else [] := by
  refine ⟨fun visited rest h => ?_, ?_⟩
  · have haccounts := v.accounts_of_append hd h
    exact ⟨haccounts, haccounts.any_matched⟩
  · have hall : v.Accounts d (subjects d) (v.walk d) :=
      v.accounts_of_append hd (List.append_nil _).symm
    rw [v.filter_budget d, Walk.budgetFindings, hall.bytes]

/-- Stylesheets whose sizes count. -/
def sheetRules : Repository where
  rules := ⟨[], []⟩
  specs := [⟨{ tag := "style", content := some { inBudget := true } }, [], [], none⟩]

/-- A tree with one more element at the top, which has a text. -/
def withElement (t : Dom.Tree) (tag text : Text) : Dom.Tree :=
  ((t.alloc (.element ⟨tag, .empty⟩)).append Dom.Tree.root t.size).appendText t.size text

theorem forest_withElement {t : Dom.Tree} (h : t.Forest) (hr : Dom.Tree.root < t.size)
    (tag text : Text) : (withElement t tag text).Forest :=
  (h.alloc_append hr _).appendText _ _

/-- Two stylesheets with an element between them that there is no specification for. -/
def twoSheets : Document where
  tree := withElement (withElement (withElement .empty "style" "a{}") "b" "c") "STYLE" "b{}"
  registry := Source.Registry.ofSalt "a".toList
  issues := []

/-- Neither stylesheet is over the budget alone. -/
theorem walk_accounts_twoSheets :
    twoSheets.tree.Forest ∧
      Validator.Accounts ⟨sheetRules, { maxStylesheetBytes := 5 }⟩ twoSheets
        [⟨1, "style", []⟩, ⟨3, "b", []⟩]
        ([⟨1, "style", []⟩, ⟨3, "b", []⟩].foldl
          (Validator.visit ⟨sheetRules, { maxStylesheetBytes := 5 }⟩ twoSheets) {}) ∧
      (Validator.validate ⟨sheetRules, { maxStylesheetBytes := 5 }⟩ twoSheets).findings.filter
        (·.cause.part == .budget) = [⟨.stylesheetsTooLarge 6 5, "style amp-custom", none⟩] := by
  have hforest : twoSheets.tree.Forest := by
    dsimp only [twoSheets]
    refine forest_withElement (forest_withElement (forest_withElement Dom.Tree.forest_empty ?_ _ _)
      ?_ _ _) ?_ _ _ <;> decide
  obtain ⟨hvisited, hbudget⟩ :=
    walk_accounts hforest ⟨sheetRules, { maxStylesheetBytes := 5 }⟩
  have hsubjects : subjects twoSheets =
      [⟨1, "style", []⟩, ⟨3, "b", []⟩] ++ [⟨5, "style", []⟩] := by decide
  refine ⟨hforest, ?_, ?_⟩
  · exact (hvisited _ _ hsubjects).1
  · rw [hbudget]
    decide

end Validation

end AmpMarkup
