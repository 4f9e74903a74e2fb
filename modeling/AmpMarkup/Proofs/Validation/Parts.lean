import AmpMarkup.Proofs.Validation.CandidateChoice

/-! What the findings of a report are about. Each part of a validation gives causes of its own, so that
a cause tells which part it comes from. -/

namespace AmpMarkup.Validation

open Rules

/-- The parts of a validation: whether there is a specification for an element, the element under its
specification, and for the document the extensions, the mandatory elements and the size of
stylesheets. -/
inductive Part where
  | tag
  | element
  | extensions
  | mandatory
  | budget
deriving DecidableEq, Repr

/-- The part of a validation that a cause comes from. -/
def Cause.part : Cause → Part
  | .disallowedTag _ => .tag
  | .missingExtension .. | .duplicateExtension _ | .unusedExtension _ => .extensions
  | .missingTag _ => .mandatory
  | .stylesheetsTooLarge .. => .budget
  | _ => .element

/-- Whether a cause is one more use of a specification that is to be used once. -/
def Cause.isSecondUse : Cause → Bool
  | .duplicateUnique _ => true
  | _ => false

/-- Whether a cause is about an element by itself: no other element has to be there for it. -/
def Cause.isPlain (x : Cause) : Bool :=
  x.part == .element && !x.isSecondUse

variable {c : Context} {s : Subject} {spec : CompiledSpec} {x : Cause}

theorem Cause.isPlain_iff : x.isPlain = true ↔ x.part = .element ∧ x.isSecondUse = false := by
  simp [isPlain]

theorem Cause.isSecondUse_eq (x : Cause) :
    x.isSecondUse = (x.code == ("DUPLICATE_UNIQUE_TAG" : Text)) := by
  cases x <;> rfl

/-! ### One element -/

theorem isPlain_checkParent {node : Dom.NodeId} (h : x ∈ c.checkParent node spec.spec) :
    x.isPlain = true := by
  unfold Context.checkParent at h
  split at h
  · cases h
  · split at h
    · cases h
    · rw [List.mem_singleton.mp h]
      rfl

theorem isPlain_checkValue {tag : Text} {a : RuleAttribute} {constraint : ValueConstraint}
    (h : x ∈ checkValue tag a constraint) : x.isPlain = true := by
  cases constraint with
  | url url =>
      unfold checkValue checkUrl at h
      split at h <;> grind [Cause.isPlain, Cause.part, Cause.isSecondUse]
  | exact values | exactIgnoringCase values =>
      unfold checkValue at h
      grind [Cause.isPlain, Cause.part, Cause.isSecondUse]

theorem isPlain_checkAttribute {a : RuleAttribute} (h : x ∈ c.checkAttribute spec a) :
    x.isPlain = true := by
  grind [Context.checkAttribute, checkDeclared, isPlain_checkValue, Cause.isPlain, Cause.part,
    Cause.isSecondUse]

theorem isPlain_checkContent {d : Document} {node : Dom.NodeId}
    (h : x ∈ checkContent d node spec) : x.isPlain = true := by
  grind [checkContent, checkLength, checkDisallowed, checkWhole, checkAtRules, Cause.isPlain,
    Cause.part, Cause.isSecondUse]

theorem isPlain_checkLayout (h : x ∈ checkLayout s spec.spec) : x.isPlain = true := by
  unfold checkLayout at h
  grind [Cause.isPlain, Cause.part, Cause.isSecondUse]

/-- All that is wrong with an element under a specification is about the element by itself, but for
the one check whether the specification has been used. -/
theorem evaluate_eq (c : Context) (s : Subject) (id : SpecId) (spec : CompiledSpec) :
    ∃ before after, c.evaluate s id spec = before ++ (c.checkUnique id spec.spec ++ after) ∧
      ∀ x ∈ before ++ after, x.isPlain = true := by
  refine ⟨c.checkParent s.node spec.spec ++ c.checkAncestor s.node spec.spec,
    checkMandatory s spec ++ (s.attributes.flatMap (c.checkAttribute spec) ++
      (checkContent c.document s.node spec ++ checkLayout s spec.spec)),
    by simp only [Context.evaluate, List.append_assoc], ?_⟩
  intro x h
  simp only [List.mem_append, List.mem_flatMap] at h
  rcases h with (h | h) | h | ⟨a, -, h⟩ | h | h
  · exact isPlain_checkParent h
  · unfold Context.checkAncestor at h
    grind [Cause.isPlain, Cause.part, Cause.isSecondUse]
  · unfold checkMandatory at h
    grind [Cause.isPlain, Cause.part, Cause.isSecondUse]
  · exact isPlain_checkAttribute h
  · exact isPlain_checkContent h
  · exact isPlain_checkLayout h

theorem eq_of_mem_checkUnique {id : SpecId} (h : x ∈ c.checkUnique id spec.spec) :
    x = .duplicateUnique spec.spec.displayName := by
  unfold Context.checkUnique at h
  split at h
  · exact List.mem_singleton.mp h
  · cases h

/-- What is wrong with an element under a specification is about that element. -/
theorem part_evaluate {id : SpecId} (h : x ∈ c.evaluate s id spec) : x.part = .element := by
  obtain ⟨before, after, heq, hplain⟩ := evaluate_eq c s id spec
  rw [heq, List.mem_append, List.mem_append] at h
  rcases h with h | h | h
  · exact (Cause.isPlain_iff.1 (hplain x (List.mem_append_left _ h))).1
  · rw [eq_of_mem_checkUnique h]
    rfl
  · exact (Cause.isPlain_iff.1 (hplain x (List.mem_append_right _ h))).1

/-! ### The walk -/

variable {v : Validator} {d : Document} {w : Walk} {found : List Finding} {matched : Matches}
  {f : Finding}

theorem Validator.Judges.part (h : v.Judges d w s found matched) (hf : f ∈ found) :
    f.cause.part = .tag ∨ f.cause.part = .element := by
  cases h with
  | disallowed =>
      rw [List.mem_singleton.mp hf]
      exact .inl rfl
  | best =>
      obtain ⟨cause, hcause, rfl⟩ := List.mem_map.mp hf
      exact .inr (part_evaluate hcause)

theorem part_foldl_visit (ss : List Subject)
    (hw : ∀ f ∈ w.findings, f.cause.part = .tag ∨ f.cause.part = .element) :
    ∀ f ∈ (ss.foldl (v.visit d) w).findings, f.cause.part = .tag ∨ f.cause.part = .element := by
  induction ss generalizing w with
  | nil => exact hw
  | cons s ss ih =>
      obtain ⟨found, matched, hjudges, hfound, -⟩ := v.visit_judges d w s
      refine ih fun f hf => ?_
      rw [hfound] at hf
      exact (List.mem_append.mp hf).elim (hw f) hjudges.part

/-- The walk finds what is about elements. -/
theorem part_walk (hf : f ∈ (v.walk d).findings) :
    f.cause.part = .tag ∨ f.cause.part = .element :=
  part_foldl_visit (subjects d) (fun _ hf => absurd hf List.not_mem_nil) f hf

/-! ### The document -/

theorem part_extensionFindings (hf : f ∈ w.extensionFindings d) : f.cause.part = .extensions := by
  simp only [Walk.extensionFindings, List.mem_append, List.mem_flatMap] at hf
  rcases hf with ⟨extension, -, hf⟩ | ⟨extension, -, hf⟩
  · unfold Walk.missingExtension at hf
    grind [Cause.part]
  · unfold Walk.loaderFindings at hf
    grind [Cause.part]

theorem part_mandatoryFindings {r : Repository} {format : Format}
    (hf : f ∈ w.mandatoryFindings r format) : f.cause.part = .mandatory := by
  obtain ⟨e, -, rfl⟩ := List.mem_map.mp hf
  rfl

theorem part_budgetFindings {limit : Nat} (hf : f ∈ w.budgetFindings limit) :
    f.cause.part = .budget := by
  unfold Walk.budgetFindings at hf
  split at hf
  · rw [List.mem_singleton.mp hf]
    rfl
  · cases hf

theorem part_checkedExtensions
    (hf : f ∈ if v.options.checkExtensions then w.extensionFindings d else []) :
    f.cause.part = .extensions := by
  split at hf
  · exact part_extensionFindings hf
  · cases hf

theorem part_mandatoryOfFormat {format : Option Format} {r : Repository}
    (hf : f ∈ (format.map (w.mandatoryFindings r)).getD []) : f.cause.part = .mandatory := by
  cases format with
  | none => cases hf
  | some format => exact part_mandatoryFindings hf

/-! ### The report by its parts -/

/-- The findings of a part of a validation. -/
def Validator.partFindings (v : Validator) (d : Document) : Part → List Finding
  | .tag => (v.walk d).findings.filter (·.cause.part == .tag)
  | .element => (v.walk d).findings.filter (·.cause.part == .element)
  | .extensions => if v.options.checkExtensions then (v.walk d).extensionFindings d else []
  | .mandatory => (v.options.format.map ((v.walk d).mandatoryFindings v.repository)).getD []
  | .budget => (v.walk d).budgetFindings v.options.maxStylesheetBytes

theorem filter_part_of_part (p : Part) {q : Part} (h : ∀ f ∈ found, f.cause.part = q) :
    found.filter (·.cause.part == p) = if q = p then found else [] := by
  split
  · next hq => exact List.filter_eq_self.mpr fun f hf => beq_iff_eq.mpr ((h f hf).trans hq)
  · next hq =>
      rw [List.filter_eq_nil_iff]
      intro f hf
      simp [h f hf, hq]

/-- The causes of a report tell its parts from each other. -/
theorem filter_part (v : Validator) (d : Document) (p : Part) :
    (v.validate d).findings.filter (·.cause.part == p) = v.partFindings d p := by
  have hwalk : p ≠ .tag → p ≠ .element →
      (v.walk d).findings.filter (·.cause.part == p) = [] := by
    intro htag helement
    rw [List.filter_eq_nil_iff]
    intro f hf
    rcases part_walk hf with h | h <;> simp [h, htag.symm, helement.symm]
  rw [Validator.validate, Validator.documentFindings, List.filter_append, List.filter_append,
    List.filter_append, filter_part_of_part p fun f hf => part_checkedExtensions hf,
    filter_part_of_part p fun f hf => part_mandatoryOfFormat hf,
    filter_part_of_part p fun f hf => part_budgetFindings hf]
  cases p <;> simp [Validator.partFindings, hwalk]

end AmpMarkup.Validation
