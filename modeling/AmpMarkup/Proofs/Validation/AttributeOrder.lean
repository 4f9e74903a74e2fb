import Mathlib.Data.List.Forall2
import AmpMarkup.Proofs.Dom.Shape
import AmpMarkup.Proofs.Lookup
import AmpMarkup.Proofs.Validation.Accounting
import AmpMarkup.Proofs.Validation.Agreement
import AmpMarkup.Proofs.Validation.Extensions

/-! The order of attributes. Where the names that rules see tell the attributes of an element apart, the
rules look attributes up by name or go through all of them, so that another order gives the same
specification and the same findings in another order. Two walks, one for either order, have the same on
record after every element. -/

namespace AmpMarkup

/-- The documents are the same but for the order of attributes. -/
structure Document.Reordered (d d' : Document) : Prop where
  tree : d.tree.Reordered d'.tree
  registry : d.registry = d'.registry

namespace Validation

open Rules

/-- The same element with its attributes in any order. -/
structure Subject.Reordered (s s' : Subject) : Prop where
  node : s.node = s'.node
  tag : s.tag = s'.tag
  attributes : s.attributes.Perm s'.attributes

/-- No two attributes have the same name to the rules. -/
def Subject.Distinct (s : Subject) : Prop :=
  (s.attributes.map RuleAttribute.name).Nodup

/-- The findings are the same, but that those of one element may come in another order: first those of
each element in turn, then the others. -/
inductive SameByElement (d : Document) : List Subject → List Finding → List Finding → Prop where
  | others (findings : List Finding) : SameByElement d [] findings findings
  | element {s : Subject} {ss : List Subject} {found found' rest rest' : List Finding}
      (hplace : ∀ f ∈ found, f.place = some (d.place s.node)) (hfound : found.Perm found')
      (hrest : SameByElement d ss rest rest') :
      SameByElement d (s :: ss) (found ++ rest) (found' ++ rest')

/-- The walks have the same on record, whatever they have found. -/
structure Walk.SameRecord (w w' : Walk) : Prop where
  matched : w.matched = w'.matched
  required : w.required = w'.required
  loaders : w.loaders = w'.loaders
  stylesheetBytes : w.stylesheetBytes = w'.stylesheetBytes

/-- The same entry with the same items in any order. -/
def SameItems {α β : Type} (x y : α × List β) : Prop :=
  x.1 = y.1 ∧ x.2.Perm y.2

variable {c : Context} {v : Validator} {d d' : Document} {w w' : Walk} {s s' : Subject}

/-! ### One element -/

namespace Subject.Reordered

variable (h : s.Reordered s')
include h

theorem extensions : s.extensions = s'.extensions := by
  funext spec
  rw [Subject.extensions, Subject.extensions, h.attributes.any_eq]

theorem candidates (c : Context) : c.candidates s = c.candidates s' := by
  rw [Context.candidates, Context.candidates, h.tag]

variable (hs : s.Distinct)
include hs

theorem attribute? : s.attribute? = s'.attribute? := by
  funext name
  exact find?_key_perm h.attributes hs name

theorem loaded? : s.loaded? = s'.loaded? := by
  rw [Subject.loaded?, Subject.loaded?, h.tag, h.attribute? hs]

theorem pool (c : Context) : c.pool s = c.pool s' := by
  have hrank : c.dispatchRank? s = c.dispatchRank? s' := by
    funext spec
    rw [Context.dispatchRank?, Context.dispatchRank?, h.attribute? hs, h.node]
  funext candidates
  rw [Context.pool, Context.pool, hrank]

theorem evaluate_perm (c : Context) (id : SpecId) (spec : CompiledSpec) :
    (c.evaluate s id spec).Perm (c.evaluate s' id spec) := by
  have hmandatory : checkMandatory s spec = checkMandatory s' spec := by
    rw [checkMandatory, checkMandatory, h.attribute? hs]
  have hlayout : checkLayout s spec.spec = checkLayout s' spec.spec := by
    rw [checkLayout, checkLayout, h.attribute? hs]
  rw [Context.evaluate, Context.evaluate, h.node, hmandatory, hlayout]
  exact (((h.attributes.flatMap_right _).append_left _).append_right _).append_right _

end Subject.Reordered

/-- The number of items does not depend on their order. -/
theorem fewest?_rel {α β : Type} {l l' : List (α × List β)} (h : List.Forall₂ SameItems l l') :
    Option.Rel SameItems (fewest? l) (fewest? l') := by
  induction h with
  | nil => exact .none
  | @cons x y l l' hxy _ ih =>
      rw [fewest?, fewest?]
      generalize fewest? l = o, fewest? l' = o' at ih
      cases ih with
      | none => exact .some hxy
      | some hrest =>
          dsimp only
          rw [hxy.2.length_eq, hrest.2.length_eq]
          split
          · exact .some hrest
          · exact .some hxy

theorem Subject.Reordered.choose? (h : s.Reordered s') (hs : s.Distinct) (c : Context) :
    Option.Rel SameItems (c.choose? s) (c.choose? s') := by
  rw [Context.choose?, Context.choose?, h.pool hs, h.candidates]
  refine fewest?_rel ?_
  rw [List.forall₂_map_left_iff, List.forall₂_map_right_iff, List.forall₂_same]
  exact fun e _ => ⟨rfl, h.evaluate_perm hs c e.1 e.2⟩

/-! ### One step of two walks -/

namespace Walk.SameRecord

theorem noteLoader (hw : w.SameRecord w') (h : s.Reordered s') (hs : s.Distinct) :
    (w.noteLoader s).SameRecord (w'.noteLoader s') := by
  rw [noteLoader_eq, noteLoader_eq]
  exact ⟨hw.matched, hw.required, by simp only [hw.loaders, h.loaded? hs, h.node],
    hw.stylesheetBytes⟩

theorem noteMatch (hw : w.SameRecord w') (h : s.Reordered s') (d : Document) (id : SpecId)
    (spec : TagSpec) : (w.noteMatch d s id spec).SameRecord (w'.noteMatch d s' id spec) := by
  rw [noteMatch_eq, noteMatch_eq]
  exact ⟨by simp only [hw.matched, h.node], by simp only [hw.required, h.extensions], hw.loaders,
    by simp only [hw.stylesheetBytes, h.node]⟩

theorem report (hw : w.SameRecord w') (found found' : List Finding) :
    (w.report found).SameRecord (w'.report found') :=
  ⟨hw.matched, hw.required, hw.loaders, hw.stylesheetBytes⟩

theorem context (hw : w.SameRecord w') (v : Validator) (d : Document) :
    v.context d w = v.context d w' := by
  rw [Validator.context, Validator.context, hw.matched]

theorem documentFindings (hw : w.SameRecord w') (v : Validator) (d : Document) :
    v.documentFindings d w = v.documentFindings d w' := by
  obtain ⟨matched, required, loaders, stylesheetBytes, findings⟩ := w
  obtain ⟨rfl, rfl, rfl, rfl⟩ := hw
  rfl

/-- An element with its attributes in another order leaves the same on record, and what is found at it
is the same in another order. -/
theorem visit (hw : w.SameRecord w') (h : s.Reordered s') (hs : s.Distinct) (v : Validator)
    (d : Document) :
    (v.visit d w s).SameRecord (v.visit d w' s') ∧
      ∃ found found', (v.visit d w s).findings = w.findings ++ found ∧
        (v.visit d w' s').findings = w'.findings ++ found' ∧
        (∀ f ∈ found, f.place = some (d.place s.node)) ∧ found.Perm found' := by
  have hchoice := h.choose? hs (v.context d w)
  generalize hx : (v.context d w).choose? s = x, hx' : (v.context d w).choose? s' = x' at hchoice
  rw [hw.context] at hx'
  cases hchoice with
  | none =>
      rw [v.visit_of_none hx, v.visit_of_none hx', ← h.node, ← h.tag]
      exact ⟨(hw.noteLoader h hs).report _ _, _, _, congrArg (· ++ _) (w.findings_noteLoader s),
        congrArg (· ++ _) (w'.findings_noteLoader s'),
        fun f hf => List.mem_singleton.mp hf ▸ rfl, .refl _⟩
  | @some chosen chosen' hsame =>
      obtain ⟨e, causes⟩ := chosen
      obtain ⟨e', causes'⟩ := chosen'
      obtain ⟨rfl, hcauses⟩ : e = e' ∧ causes.Perm causes' := hsame
      rw [v.visit_of_some hx, v.visit_of_some hx', ← h.node]
      refine ⟨((hw.noteLoader h hs).noteMatch h d _ _).report _ _, _, _,
        congrArg (· ++ _) ((findings_noteMatch ..).trans (w.findings_noteLoader s)),
        congrArg (· ++ _) ((findings_noteMatch ..).trans (w'.findings_noteLoader s')), ?_,
        hcauses.map _⟩
      intro f hf
      obtain ⟨cause, -, rfl⟩ := List.mem_map.mp hf
      rfl

/-! ### All elements -/

/-- Elements with their attributes in another order leave the same on record, and what is found at each
of them is the same in another order. -/
theorem foldl_visit {ss ss' : List Subject} (hw : w.SameRecord w')
    (h : List.Forall₂ Subject.Reordered ss ss') (hss : ∀ s ∈ ss, s.Distinct) (v : Validator)
    (d : Document) :
    (ss.foldl (v.visit d) w).SameRecord (ss'.foldl (v.visit d) w') ∧
      ∃ found found', (ss.foldl (v.visit d) w).findings = w.findings ++ found ∧
        (ss'.foldl (v.visit d) w').findings = w'.findings ++ found' ∧
        ∀ others, SameByElement d ss (found ++ others) (found' ++ others) := by
  -- Element by element: what the visits of one pair leave on record is what the next pair starts from.
  induction h generalizing w w' with
  | nil =>
      exact ⟨hw, [], [], (List.append_nil _).symm, (List.append_nil _).symm, .others⟩
  | @cons s s' ss ss' hs _ ih =>
      rw [List.forall_mem_cons] at hss
      obtain ⟨hvisit, found, found', hfound, hfound', hplace, hperm⟩ := hw.visit hs hss.1 v d
      obtain ⟨hrest, more, more', hmore, hmore', hsame⟩ := ih hvisit hss.2
      refine ⟨hrest, found ++ more, found' ++ more', ?_, ?_, fun others => ?_⟩
      · rw [List.foldl_cons, hmore, hfound, List.append_assoc]
      · rw [List.foldl_cons, hmore', hfound', List.append_assoc]
      · rw [List.append_assoc, List.append_assoc]
        exact .element hplace hperm (hsame others)

end Walk.SameRecord

theorem surroundings_of_reordered (h : d.Reordered d') : SameSurroundings d d' where
  characterData := by
    funext id
    rw [Document.characterData, Document.characterData, h.registry, h.tree.childText]
  place := by
    funext id
    rw [Document.place, Document.place, h.tree.shape.elementPath]
  parent? := h.tree.parent?
  ancestors := h.tree.shape.ancestors
  tag? := h.tree.shape.tag?
  elementIs := h.tree.shape.elementIs

theorem ofElement_reordered (h : d.Reordered d') {e e' : Dom.Element} (he : e.Reordered e')
    (id : Dom.NodeId) : (Subject.ofElement d id e).Reordered (Subject.ofElement d' id e') where
  node := rfl
  tag := congrArg Text.lower he.tag
  attributes := by
    have hattribute : d.ruleAttribute = d'.ruleAttribute := by
      funext a
      rw [Document.ruleAttribute, Document.ruleAttribute, h.registry]
    rw [Subject.ofElement, Subject.ofElement, hattribute]
    exact he.attributes.map _

theorem subjects_of_reordered (h : d.Reordered d') :
    List.Forall₂ Subject.Reordered (subjects d) (subjects d') := by
  rw [subjects, subjects, h.tree.shape.descendants]
  induction d'.tree.descendants Dom.Tree.root with
  | nil => exact .nil
  | cons id ids ih =>
      have helement := h.tree.element? id
      generalize he : d.tree.element? id = e, he' : d'.tree.element? id = e' at helement
      cases helement with
      | none => simpa [he, he'] using ih
      | some hsame =>
          simp only [List.filterMap_cons, he, he', Option.map_some]
          exact .cons (ofElement_reordered h hsame id) ih

/-- A document with the attributes of its elements in another order, where rules tell the attributes of
each element apart by name, has the same specification for every element, and a report that is the same
but for the order of what is found at each element. -/
theorem validate_reordered (v : Validator) (h : d.Reordered d') (hd : ∀ s ∈ subjects d, s.Distinct) :
    (v.walk d').matched = (v.walk d).matched ∧
      SameByElement d (subjects d) (v.validate d).findings (v.validate d').findings := by
  have hsurroundings := surroundings_of_reordered h
  have hstart : Walk.SameRecord {} {} := ⟨rfl, rfl, rfl, rfl⟩
  obtain ⟨hrecord, found, found', hfound, hfound', hsame⟩ :=
    hstart.foldl_visit (subjects_of_reordered h) hd v d
  have hwalk : v.walk d' = (subjects d').foldl (v.visit d) {} := by
    rw [Validator.walk, hsurroundings.visit]
  refine ⟨?_, ?_⟩
  · rw [hwalk, Validator.walk, hrecord.matched]
  · rw [Validator.validate, Validator.validate, hwalk, Validator.walk, hfound, hfound',
      ← hsurroundings.documentFindings, ← hrecord.documentFindings]
    exact hsame _

/-- A link with an attribute on either side of the one that its specification asks for. -/
def spreadLink : Document where
  tree := ⟨#[⟨.document, none, [1]⟩,
    ⟨.element ⟨"a", ⟨[⟨"x", none⟩, ⟨"href", some "b"⟩, ⟨"y", none⟩]⟩⟩, some 0, []⟩]⟩
  registry := ⟨[], "amp-binding-", []⟩
  issues := []

/-- The link with its attributes in reverse. -/
def reversedLink : Document :=
  { spreadLink with tree := spreadLink.tree.mapAttributes 1 fun a => ⟨a.entries.reverse⟩ }

/-- Both links are matched to the first specification, and what is found comes in reverse too. -/
theorem validate_reordered_spreadLink :
    spreadLink.Reordered reversedLink ∧ (∀ s ∈ subjects spreadLink, s.Distinct) ∧
      (Validator.walk ⟨linkRules, {}⟩ reversedLink).matched = [(1, 0)] ∧
      SameByElement spreadLink (subjects spreadLink)
        [⟨.disallowedAttribute "x" "target", "target", some ⟨1, "a"⟩⟩,
          ⟨.disallowedAttribute "y" "target", "target", some ⟨1, "a"⟩⟩]
        [⟨.disallowedAttribute "y" "target", "target", some ⟨1, "a"⟩⟩,
          ⟨.disallowedAttribute "x" "target", "target", some ⟨1, "a"⟩⟩] := by
  have hreordered : spreadLink.Reordered reversedLink :=
    ⟨Dom.Tree.reordered_mapAttributes _ 1 fun a => (List.reverse_perm _).symm, rfl⟩
  have hdistinct : ∀ s ∈ subjects spreadLink, s.Distinct := by
    unfold Subject.Distinct
    decide
  obtain ⟨hmatched, hsame⟩ := validate_reordered ⟨linkRules, {}⟩ hreordered hdistinct
  have hfound : (Validator.validate ⟨linkRules, {}⟩ spreadLink).findings =
      [⟨.disallowedAttribute "x" "target", "target", some ⟨1, "a"⟩⟩,
        ⟨.disallowedAttribute "y" "target", "target", some ⟨1, "a"⟩⟩] := by
    decide
  have hfound' : (Validator.validate ⟨linkRules, {}⟩ reversedLink).findings =
      [⟨.disallowedAttribute "y" "target", "target", some ⟨1, "a"⟩⟩,
        ⟨.disallowedAttribute "x" "target", "target", some ⟨1, "a"⟩⟩] := by
    decide
  rw [hfound, hfound'] at hsame
  exact ⟨hreordered, hdistinct, hmatched.trans (by decide), hsame⟩

end Validation

end AmpMarkup
