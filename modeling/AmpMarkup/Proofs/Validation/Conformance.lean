import AmpMarkup.Proofs.Dom.Growth
import AmpMarkup.Proofs.Text.Occurrence
import AmpMarkup.Validation.Evaluation

/-! When an element conforms to a specification: every part of the specification holds of it, said here
without the checks. The evaluation of an element finds nothing if and only if it conforms, so no check
is skipped on any path and none asks for more than the specification says. -/

namespace AmpMarkup

open Dom (NodeId)

/-- A value that a template fills in, which is only known then. -/
def Text.Templated (value : Text) : Prop :=
  ['{', '{'] <:+: value

/-- The name of the binding of an attribute. -/
def RuleAttribute.bracketed (bound : Text) : Text :=
  '[' :: bound ++ [']']

namespace Rules

/-- A URL rule admits no URL at all and relative ones if it says so, and absolute ones of its
protocols, or of every protocol if it names none. -/
def UrlSpec.Admits (u : UrlSpec) (value : Text) : Prop :=
  match Url.classify value with
  | .empty => u.allowEmpty = true
  | .relative => u.allowRelative = true
  | .absolute scheme =>
    u.protocols = [] ∨ ∃ protocol ∈ u.protocols, protocol.sameIgnoringCase scheme = true
  | .invalid _ => False

/-- A constraint admits the values of a set, those of a set in any case, or URLs. -/
def ValueConstraint.Admits (value : Text) : ValueConstraint → Prop
  | .exact values => value ∈ values
  | .exactIgnoringCase values => ∃ allowed ∈ values, allowed.sameIgnoringCase value = true
  | .url u => u.Admits value

/-- The rule for an attribute admits every value if it has no constraint, and in any case those that a
template fills in. -/
def AttributeSpec.Admits (declared : AttributeSpec) (value : Text) : Prop :=
  ∀ constraint ∈ declared.value, value.Templated ∨ constraint.Admits value

/-- A layout rule admits the names of its layouts in any case, with blanks around them, and values that
a template fills in. -/
def LayoutSpec.Admits (l : LayoutSpec) (value : Text) : Prop :=
  value.Templated ∨ ∃ layout ∈ l.supported, layout.text.sameIgnoringCase value.trimBlank = true

/-- A text keeps to the bound on its bytes, no disallowed pattern occurs in it, the pattern for the
whole of it matches, and all its at-rules are allowed, vendors' marks aside. -/
structure CompiledSpec.AdmitsText (spec : CompiledSpec) (content : ContentSpec) (text : Text) :
    Prop where
  length : ∀ limit ∈ content.maxBytes, text.utf8Length ≤ limit.toNat
  disallowed : ∀ p ∈ spec.disallowed, Pattern.isMatch p.1.pattern text = false
  whole : ∀ p ∈ spec.wholePattern, Pattern.isMatch p.pattern text = true
  atRules : ∀ sheet ∈ content.stylesheet, ∀ rule ∈ Css.atRules text,
    ∃ allowed ∈ sheet.atRules, allowed.sameIgnoringCase rule.plain = true

end Rules

namespace Validation

open Rules RuleAttribute

namespace Context

/-- The parent of a node has a tag, in any case, or is matched to the specification of that name. -/
def ParentIs (c : Context) (id : NodeId) (required : Text) : Prop :=
  ∃ parent, c.document.tree.parent? id = some parent ∧
    ((∃ tag ∈ c.document.tree.tag? parent, tag.sameIgnoringCase required = true) ∨
      ∃ specId ∈ c.matched.lookup parent, ∃ spec ∈ c.repository.spec? specId,
        spec.spec.name = required)

/-- Some ancestor of a node has a tag, in any case. -/
def AncestorIs (c : Context) (id : NodeId) (required : Text) : Prop :=
  ∃ ancestor ∈ c.document.tree.ancestors id,
    ∃ tag ∈ c.document.tree.tag? ancestor, tag.sameIgnoringCase required = true

/-- Attributes that need no declaration: those that go with a layout where there is one, and global
ones unless the settings are strict. -/
inductive AllowsPlain (c : Context) (spec : TagSpec) (name : Text) : Prop where
  | layout (h : spec.layout.isSome = true) (hname : name ∈ layoutAttributes)
  | global (h : c.options.globalAttributes = true) (hname : Vocabulary.isGlobalAttribute name = true)

/-- Names allowed without a declaration: plain ones, bindings of declared or of plain names, and the
binding of the text unless the settings are strict. -/
inductive AllowsUndeclared (c : Context) (spec : CompiledSpec) (name : Text) : Prop where
  | plain (h : c.AllowsPlain spec.spec name)
  | ofDeclared {declared : AttributeSpec} (h : declared ∈ spec.attributes)
      (hname : name = bracketed declared.name)
  | ofPlain {bound : Text} (h : c.AllowsPlain spec.spec bound) (hname : name = bracketed bound)
  | text (h : c.options.globalAttributes = true) (hname : name = bracketed "text")

/-- An attribute is declared and its rule admits the value, or it is allowed without a declaration. -/
inductive Accepts (c : Context) (spec : CompiledSpec) (a : RuleAttribute) : Prop where
  | declared {declared : AttributeSpec} (h : spec.attribute? a.name = some declared)
      (hvalue : declared.Admits a.value)
  | undeclared (h : ∀ declared ∈ spec.attributes, declared.name ≠ a.name)
      (hname : c.AllowsUndeclared spec a.name)

/-- Every part of a specification holds of an element. -/
structure Conforms (c : Context) (s : Subject) (id : SpecId) (spec : CompiledSpec) : Prop where
  parent : ∀ required ∈ spec.spec.mandatoryParent, c.ParentIs s.node required
  ancestor : ∀ required ∈ spec.spec.mandatoryAncestor, c.AncestorIs s.node required
  unused : spec.spec.unique = true → ∀ m ∈ c.matched, m.2 ≠ id
  mandatory : ∀ declared ∈ spec.attributes, declared.mandatory = true →
    ∃ a ∈ s.attributes, a.name = declared.name
  attributes : ∀ a ∈ s.attributes, c.Accepts spec a
  text : ∀ content ∈ spec.spec.content,
    spec.AdmitsText content (c.document.characterData s.node)
  layout : ∀ layouts ∈ spec.spec.layout, ∀ a ∈ s.attribute? "layout".toList, layouts.Admits a.value

end Context

variable {c : Context} {s : Subject} {id : SpecId} {spec : CompiledSpec} {a : RuleAttribute}
  {name value text tag : Text}

/-! ### Where an element stands -/

theorem parentMatches_iff {node : NodeId} {required : Text} :
    c.parentMatches node required = true ↔ c.ParentIs node required := by
  unfold Context.parentMatches Context.ParentIs
  cases c.document.tree.parent? node with
  | none => simp
  | some parent => cases hmatch : c.matched.lookup parent <;> simp [hmatch, Option.any_eq_true]

theorem checkParent_eq_nil_iff {node : NodeId} {spec : TagSpec} :
    c.checkParent node spec = [] ↔ ∀ required ∈ spec.mandatoryParent, c.ParentIs node required := by
  unfold Context.checkParent
  cases spec.mandatoryParent with
  | none => simp
  | some required =>
      simp only [Option.mem_some_iff, forall_eq', ← parentMatches_iff]
      split <;> simp_all

theorem elementIs_iff {t : Dom.Tree} {node : NodeId} :
    t.elementIs node tag = true ↔ ∃ own ∈ t.tag? node, own.sameIgnoringCase tag = true := by
  rw [Dom.Tree.elementIs_eq, Option.any_eq_true]
  exact Iff.rfl

theorem checkAncestor_eq_nil_iff {node : NodeId} {spec : TagSpec} :
    c.checkAncestor node spec = [] ↔
      ∀ required ∈ spec.mandatoryAncestor, c.AncestorIs node required := by
  unfold Context.checkAncestor Context.AncestorIs
  cases spec.mandatoryAncestor with
  | none => simp
  | some required => simp [elementIs_iff]

theorem checkUnique_eq_nil_iff {spec : TagSpec} :
    c.checkUnique id spec = [] ↔ (spec.unique = true → ∀ m ∈ c.matched, m.2 ≠ id) := by
  rw [Context.checkUnique, ite_eq_right_iff]
  simp only [reduceCtorEq, imp_false, Bool.and_eq_true, not_and, List.any_eq_true, not_exists,
    beq_iff_eq, ne_eq]

/-! ### Attributes -/

theorem bound?_eq_some_iff {bound : Text} :
    bound? name = some bound ↔ name = bracketed bound := by
  unfold bound? bracketed
  split
  · next rest =>
      rw [List.cons_append, List.cons_inj_right]
      constructor
      · intro h
        split at h
        · next hlast =>
            obtain ⟨front, rfl⟩ := List.getLast?_eq_some_iff.mp hlast
            simpa using h
        · cases h
      · rintro rfl
        simp
  · next hne =>
      simp only [reduceCtorEq, false_iff]
      exact fun h => hne _ h

theorem allowsPlain_iff {spec : TagSpec} :
    c.allowsPlain spec name = true ↔ c.AllowsPlain spec name := by
  rw [Context.allowsPlain, Bool.or_eq_true, Bool.and_eq_true, Bool.and_eq_true,
    List.contains_iff_mem]
  constructor
  · rintro (⟨h, hname⟩ | ⟨h, hname⟩)
    · exact .layout h hname
    · exact .global h hname
  · rintro (⟨h, hname⟩ | ⟨h, hname⟩)
    · exact .inl ⟨h, hname⟩
    · exact .inr ⟨h, hname⟩

/-- A name in brackets is neither global nor does it go with a layout. -/
theorem not_allowsPlain_bracketed {spec : TagSpec} {bound : Text} :
    ¬ c.AllowsPlain spec (bracketed bound) := by
  have hlayout : ∀ own ∈ layoutAttributes, own.head? ≠ some '[' := by decide
  have hglobal : ∀ own ∈ Vocabulary.globalAttributes, own.head? ≠ some '[' := by decide
  rintro (⟨-, hname⟩ | ⟨-, hname⟩)
  · exact hlayout _ hname rfl
  · have hlower : (bracketed bound).lower = '[' :: Text.lower (bound ++ [']']) := rfl
    rw [Vocabulary.isGlobalAttribute, hlower, Bool.or_eq_true, Bool.or_eq_true, Text.startsWith_iff,
      Text.startsWith_iff, List.contains_iff_mem] at hname
    rcases hname with (hname | hname) | hname
    · simp at hname
    · simp at hname
    · exact hglobal _ hname rfl

theorem attribute?_eq_none_iff :
    spec.attribute? name = none ↔ ∀ declared ∈ spec.attributes, declared.name ≠ name := by
  simp [CompiledSpec.attribute?, List.find?_eq_none]

theorem isSome_attribute? :
    (spec.attribute? name).isSome = true ↔ ∃ declared ∈ spec.attributes, declared.name = name := by
  simp [CompiledSpec.attribute?, List.find?_isSome]

theorem allows_iff : c.allows spec name = true ↔ c.AllowsUndeclared spec name := by
  unfold Context.allows
  cases hbound : bound? name with
  | none =>
      have hne : ∀ bound, name ≠ bracketed bound := fun bound h => by
        rw [bound?_eq_some_iff.2 h] at hbound
        cases hbound
      refine allowsPlain_iff.trans ⟨.plain, fun h => ?_⟩
      cases h with
      | plain h => exact h
      | ofDeclared _ hname | ofPlain _ hname | text _ hname => exact absurd hname (hne _)
  | some bound =>
      have hname := bound?_eq_some_iff.1 hbound
      have hinner : ∀ {other}, name = bracketed other → bound = other := fun h =>
        Option.some.inj (hbound.symm.trans (bound?_eq_some_iff.2 h))
      dsimp only
      rw [Bool.or_eq_true, Bool.or_eq_true, isSome_attribute?, allowsPlain_iff, Bool.and_eq_true]
      constructor
      · rintro ((⟨declared, h, rfl⟩ | h) | ⟨h, htext⟩)
        · exact .ofDeclared h hname
        · exact .ofPlain h hname
        · have htext : bound = "text".toList := by simpa [globalBindings] using htext
          exact .text h (htext ▸ hname)
      · intro h
        cases h with
        | plain h => exact absurd (hname ▸ h) not_allowsPlain_bracketed
        | ofDeclared h hname => exact .inl (.inl ⟨_, h, (hinner hname).symm⟩)
        | ofPlain h hname => exact .inl (.inr (hinner hname ▸ h))
        | text h hname =>
            rw [hinner hname]
            exact .inr ⟨h, by decide⟩

theorem isTemplated_iff : a.isTemplated = true ↔ a.value.Templated :=
  Text.contains_iff

theorem checkUrl_eq_nil_iff {u : UrlSpec} : checkUrl tag a u = [] ↔ u.Admits a.value := by
  unfold checkUrl UrlSpec.Admits
  cases Url.classify a.value with
  | absolute scheme => simp [Classical.or_iff_not_imp_left]
  | empty | relative | invalid => simp

theorem checkValue_eq_nil_iff {constraint : ValueConstraint} :
    checkValue tag a constraint = [] ↔ constraint.Admits a.value := by
  cases constraint with
  | url u => exact checkUrl_eq_nil_iff
  | exact values | exactIgnoringCase values =>
      simp [checkValue, ValueConstraint.contains, ValueConstraint.Admits]

theorem checkDeclared_eq_nil_iff {declared : AttributeSpec} :
    checkDeclared tag a declared = [] ↔ declared.Admits a.value := by
  unfold checkDeclared AttributeSpec.Admits
  cases declared.value with
  | none => simp
  | some constraint =>
      simp only [Option.mem_some_iff, forall_eq', ← isTemplated_iff, ite_eq_left_iff,
        Classical.or_iff_not_imp_left, checkValue_eq_nil_iff]

theorem checkAttribute_eq_nil_iff : c.checkAttribute spec a = [] ↔ c.Accepts spec a := by
  unfold Context.checkAttribute
  cases hdeclared : spec.attribute? a.name with
  | none =>
      have hnone := attribute?_eq_none_iff.1 hdeclared
      simp only [ite_eq_left_iff, reduceCtorEq, imp_false, Classical.not_not, allows_iff]
      refine ⟨.undeclared hnone, fun h => ?_⟩
      cases h with
      | declared h => simp [h] at hdeclared
      | undeclared _ hname => exact hname
  | some declared =>
      refine checkDeclared_eq_nil_iff.trans ⟨.declared hdeclared, fun h => ?_⟩
      cases h with
      | declared h hvalue =>
          obtain rfl := Option.some.inj (hdeclared.symm.trans h)
          exact hvalue
      | undeclared h => simp [attribute?_eq_none_iff.2 h] at hdeclared

theorem checkMandatory_eq_nil_iff :
    checkMandatory s spec = [] ↔ ∀ declared ∈ spec.attributes, declared.mandatory = true →
      ∃ a ∈ s.attributes, a.name = declared.name := by
  simp [checkMandatory, Subject.attribute?]

/-! ### Text and layout -/

theorem checkLength_eq_nil_iff {content : ContentSpec} :
    checkLength tag text content = [] ↔
      ∀ limit ∈ content.maxBytes, text.utf8Length ≤ limit.toNat := by
  unfold checkLength
  cases content.maxBytes with
  | none => simp
  | some limit => simp

theorem checkDisallowed_eq_nil_iff :
    checkDisallowed tag text spec = [] ↔
      ∀ p ∈ spec.disallowed, Pattern.isMatch p.1.pattern text = false := by
  simp [checkDisallowed]

theorem checkWhole_eq_nil_iff :
    checkWhole tag text spec = [] ↔
      ∀ p ∈ spec.wholePattern, Pattern.isMatch p.pattern text = true := by
  unfold checkWhole
  cases spec.wholePattern with
  | none => simp
  | some p => simp

theorem checkAtRules_eq_nil_iff {content : ContentSpec} :
    checkAtRules tag text content = [] ↔
      ∀ sheet ∈ content.stylesheet, ∀ rule ∈ Css.atRules text,
        ∃ allowed ∈ sheet.atRules, allowed.sameIgnoringCase rule.plain = true := by
  unfold checkAtRules
  cases content.stylesheet with
  | none => simp
  | some sheet => simp

theorem checkContent_eq_nil_iff {d : Document} {node : NodeId} :
    checkContent d node spec = [] ↔
      ∀ content ∈ spec.spec.content, spec.AdmitsText content (d.characterData node) := by
  unfold checkContent
  cases spec.spec.content with
  | none => simp
  | some content =>
      simp only [List.append_eq_nil_iff, checkLength_eq_nil_iff, checkDisallowed_eq_nil_iff,
        checkWhole_eq_nil_iff, checkAtRules_eq_nil_iff, Option.mem_some_iff, forall_eq']
      exact ⟨fun ⟨⟨⟨hlength, hdisallowed⟩, hwhole⟩, hatRules⟩ =>
          ⟨hlength, hdisallowed, hwhole, hatRules⟩,
        fun ⟨hlength, hdisallowed, hwhole, hatRules⟩ =>
          ⟨⟨⟨hlength, hdisallowed⟩, hwhole⟩, hatRules⟩⟩

/-- The names of layouts tell them apart in any case. -/
theorem ofText?_eq_some_iff {layout : Layout} :
    Layout.ofText? text = some layout ↔ layout.text.sameIgnoringCase text = true := by
  constructor
  · exact List.find?_some
  · intro h
    have hsame : ∀ other : Layout,
        other.text.sameIgnoringCase text = other.text.sameIgnoringCase layout.text := fun other => by
      rw [Text.sameIgnoringCase, Text.sameIgnoringCase, beq_iff_eq.mp h]
    simp only [Layout.ofText?, hsame]
    cases layout <;> decide

theorem checkLayout_eq_nil_iff {spec : TagSpec} :
    checkLayout s spec = [] ↔
      ∀ layouts ∈ spec.layout, ∀ a ∈ s.attribute? "layout".toList, layouts.Admits a.value := by
  unfold checkLayout
  cases spec.layout with
  | none => simp
  | some layouts =>
      cases s.attribute? "layout".toList with
      | none => simp
      | some a =>
          simp only [Option.mem_some_iff, forall_eq', LayoutSpec.Admits, ← isTemplated_iff,
            ← ofText?_eq_some_iff]
          cases Layout.ofText? a.value.trimBlank with
          | none => simp
          | some layout => simp [Classical.or_iff_not_imp_left]

/-- The evaluation of an element under a specification finds nothing if and only if the element
conforms to it. -/
theorem evaluate_eq_nil_iff (c : Context) (s : Subject) (id : SpecId) (spec : CompiledSpec) :
    c.evaluate s id spec = [] ↔ c.Conforms s id spec := by
  simp only [Context.evaluate, List.append_eq_nil_iff, List.flatMap_eq_nil_iff,
    checkParent_eq_nil_iff, checkAncestor_eq_nil_iff, checkUnique_eq_nil_iff,
    checkMandatory_eq_nil_iff, checkAttribute_eq_nil_iff, checkContent_eq_nil_iff,
    checkLayout_eq_nil_iff]
  constructor
  · rintro ⟨⟨⟨⟨⟨⟨hparent, hancestor⟩, hunused⟩, hmandatory⟩, hattributes⟩, htext⟩, hlayout⟩
    exact ⟨hparent, hancestor, hunused, hmandatory, hattributes, htext, hlayout⟩
  · rintro ⟨hparent, hancestor, hunused, hmandatory, hattributes, htext, hlayout⟩
    exact ⟨⟨⟨⟨⟨⟨hparent, hancestor⟩, hunused⟩, hmandatory⟩, hattributes⟩, htext⟩, hlayout⟩

end Validation

end AmpMarkup
