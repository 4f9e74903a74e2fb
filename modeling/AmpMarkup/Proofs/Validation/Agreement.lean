import AmpMarkup.Validation.Walk

/-! What a report depends on: the elements as rules see them, the text in them, their places, and the
tags above them. Documents that agree in this have the same report under every validator, and those
that agree in all but the elements themselves judge elements alike. -/

namespace AmpMarkup.Validation

open Dom (NodeId)
open Rules

/-- The documents look the same to the rules. -/
structure Agree (d d' : Document) : Prop where
  subjects : subjects d = subjects d'
  characterData : d.characterData = d'.characterData
  place : d.place = d'.place
  parent? : d.tree.parent? = d'.tree.parent?
  ancestors : d.tree.ancestors = d'.tree.ancestors
  tag? : d.tree.tag? = d'.tree.tag?
  elementIs : d.tree.elementIs = d'.tree.elementIs

/-- Everything around an element looks the same to the rules. -/
structure SameSurroundings (d d' : Document) : Prop where
  characterData : d.characterData = d'.characterData
  place : d.place = d'.place
  parent? : d.tree.parent? = d'.tree.parent?
  ancestors : d.tree.ancestors = d'.tree.ancestors
  tag? : d.tree.tag? = d'.tree.tag?
  elementIs : d.tree.elementIs = d'.tree.elementIs

namespace SameSurroundings

section
variable {c : Context} {d' : Document} (h : SameSurroundings c.document d')
include h

theorem parentMatches : c.parentMatches = { c with document := d' }.parentMatches := by
  funext id required
  rw [Context.parentMatches, Context.parentMatches, h.parent?, h.tag?]

theorem dispatchRank? : c.dispatchRank? = { c with document := d' }.dispatchRank? := by
  funext s spec
  rw [Context.dispatchRank?, Context.dispatchRank?, h.parentMatches]

theorem pool : c.pool = { c with document := d' }.pool := by
  funext s candidates
  rw [Context.pool, Context.pool, h.dispatchRank?]

theorem checkParent : c.checkParent = { c with document := d' }.checkParent := by
  funext id spec
  rw [Context.checkParent, Context.checkParent, h.parentMatches]
  dsimp only
  rw [h.parent?, h.tag?]

theorem checkAncestor : c.checkAncestor = { c with document := d' }.checkAncestor := by
  funext id spec
  rw [Context.checkAncestor, Context.checkAncestor]
  dsimp only
  rw [h.ancestors, h.elementIs]

theorem checkContent : Validation.checkContent c.document = Validation.checkContent d' := by
  funext id spec
  rw [Validation.checkContent, Validation.checkContent, h.characterData]

theorem evaluate : c.evaluate = { c with document := d' }.evaluate := by
  funext s specId spec
  rw [Context.evaluate, Context.evaluate, h.checkParent, h.checkAncestor, h.checkContent]
  rfl

theorem choose? : c.choose? = { c with document := d' }.choose? := by
  funext s
  rw [Context.choose?, Context.choose?, h.pool, h.evaluate]
  rfl

end

variable {d d' : Document}

theorem noteMatch (h : SameSurroundings d d') (w : Walk) : w.noteMatch d = w.noteMatch d' := by
  funext s specId spec
  rw [Walk.noteMatch, Walk.noteMatch, h.characterData]

theorem visit (h : SameSurroundings d d') (v : Validator) : v.visit d = v.visit d' := by
  funext w s
  have hc : (v.context d (w.noteLoader s)).choose? = (v.context d' (w.noteLoader s)).choose? :=
    choose? (c := v.context d (w.noteLoader s)) h
  rw [Validator.visit, Validator.visit, hc, h.place]
  cases (v.context d' (w.noteLoader s)).choose? s with
  | none => rfl
  | some chosen => simp only [h.noteMatch]

theorem documentFindings (h : SameSurroundings d d') (v : Validator) :
    v.documentFindings d = v.documentFindings d' := by
  have hloaders : ∀ w : Walk, w.loaderFindings d = w.loaderFindings d' := fun w => by
    funext extension
    rw [Walk.loaderFindings, Walk.loaderFindings, h.place]
  funext w
  rw [Validator.documentFindings, Validator.documentFindings, Walk.extensionFindings,
    Walk.extensionFindings, hloaders]

end SameSurroundings

namespace Agree

variable {d d' : Document}

theorem surroundings (h : Agree d d') : SameSurroundings d d' :=
  ⟨h.characterData, h.place, h.parent?, h.ancestors, h.tag?, h.elementIs⟩

theorem walk (h : Agree d d') (v : Validator) : v.walk d = v.walk d' := by
  rw [Validator.walk, Validator.walk, h.surroundings.visit, h.subjects]

/-- Documents that look the same to the rules have the same report. -/
theorem validate (h : Agree d d') (v : Validator) : v.validate d = v.validate d' := by
  rw [Validator.validate, Validator.validate, h.walk, h.surroundings.documentFindings]

end Agree

end AmpMarkup.Validation
