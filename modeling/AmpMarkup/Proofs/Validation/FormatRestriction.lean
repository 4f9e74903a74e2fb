import AmpMarkup.Proofs.Validation.Parts

/-! Validation for a format is validation with the rules of that format. The names of specifications
tell them apart in both sets of rules, so two walks that match elements to specifications of the same
names see the same candidates and find the same faults in them. -/

namespace AmpMarkup

open Dom (NodeId)

namespace Rules.Repository

/-- The name of the specification of an identifier. -/
def name? (r : Repository) (id : SpecId) : Option Text :=
  (r.spec? id).map (·.spec.name)

/-- Matches with the names of the specifications. -/
def named (r : Repository) (matched : List (NodeId × SpecId)) : List (NodeId × Option Text) :=
  matched.map fun m => (m.1, r.name? m.2)

/-- The specifications that apply to a format, in order. -/
def applicable (r : Repository) (format : Option Format) : List CompiledSpec :=
  r.specs.filter (·.spec.appliesTo format)

/-- No two specifications have the same name. -/
def Distinct (r : Repository) : Prop :=
  (r.specs.map (·.spec.name)).Nodup

variable {r : Repository} {id : SpecId} {s : CompiledSpec}

theorem name?_eq (h : r.spec? id = some s) : r.name? id = some s.spec.name := by
  rw [name?, h]
  rfl

/-- A name belongs to one identifier. -/
theorem Distinct.name?_eq_iff (hr : r.Distinct) (h : r.spec? id = some s) (id' : SpecId) :
    r.name? id' = some s.spec.name ↔ id' = id := by
  have hget : ∀ i, (r.specs.map (·.spec.name))[i]? = r.name? i := fun i => List.getElem?_map
  refine ⟨fun hid => ?_, fun hid => hid ▸ name?_eq h⟩
  obtain ⟨s', hs', -⟩ := Option.map_eq_some_iff.mp hid
  have hlt : id' < (r.specs.map (·.spec.name)).length := by
    rw [List.length_map]
    exact (List.getElem?_eq_some_iff.mp hs').1
  exact (List.getElem?_inj hlt hr).mp (by rw [hget, hget, hid, name?_eq h])

theorem lookup_named (r : Repository) (matched : List (NodeId × SpecId)) (id : NodeId) :
    (r.named matched).lookup id = (matched.lookup id).map r.name? := by
  induction matched with
  | nil => rfl
  | cons m matched ih =>
      rw [named, List.map_cons, List.lookup_cons, List.lookup_cons, ← named, ih]
      split <;> rfl

theorem named_cons (r : Repository) (node : NodeId) (id : SpecId)
    (matched : List (NodeId × SpecId)) :
    r.named ((node, id) :: matched) = (node, r.name? id) :: r.named matched :=
  rfl

/-- Uses of a specification are told by its name. -/
theorem Distinct.any_named (hr : r.Distinct) (h : r.spec? id = some s)
    (matched : List (NodeId × SpecId)) :
    (r.named matched).any (·.2 == some s.spec.name) = matched.any (·.2 == id) := by
  rw [named, List.any_map]
  congr 1
  funext m
  rw [Bool.eq_iff_iff, beq_iff_eq, Function.comp_apply, beq_iff_eq, hr.name?_eq_iff h]

end Rules.Repository

namespace Validation

open Rules

variable {c c' : Context} {s : Subject} {spec : CompiledSpec} {v v' : Validator} {w w' : Walk}

/-- The same specifications apply, and elements are matched to ones of the same names. -/
structure Context.Alike (c c' : Context) : Prop where
  document : c.document = c'.document
  globalAttributes : c.options.globalAttributes = c'.options.globalAttributes
  applicable : c.repository.applicable c.options.format =
    c'.repository.applicable c'.options.format
  named : c.repository.named c.matched = c'.repository.named c'.matched
  left : c.repository.Distinct
  right : c'.repository.Distinct

/-! ### One element -/

/-- What the parent is matched to counts by name. -/
theorem any_lookup (c : Context) (parent : NodeId) (required : Text) :
    ((c.matched.lookup parent).bind c.repository.spec?).any (·.spec.name == required) =
      ((c.repository.named c.matched).lookup parent).join.any (· == required) := by
  rw [Repository.lookup_named]
  cases c.matched.lookup parent with
  | none => rfl
  | some id =>
      rw [Option.map_some, Option.join_some, Option.bind_some, Repository.name?, Option.any_map]

namespace Context.Alike

variable (h : c.Alike c')
include h

theorem parentMatches : c.parentMatches = c'.parentMatches := by
  funext id required
  rw [Context.parentMatches, Context.parentMatches, h.document]
  simp only [any_lookup, h.named]

theorem dispatchRank? : c.dispatchRank? = c'.dispatchRank? := by
  funext s spec
  rw [Context.dispatchRank?, Context.dispatchRank?, h.parentMatches]

theorem checkAttribute : c.checkAttribute = c'.checkAttribute := by
  have hplain : c.allowsPlain = c'.allowsPlain := by
    funext spec name
    rw [allowsPlain, allowsPlain, h.globalAttributes]
  have hallows : c.allows = c'.allows := by
    funext spec name
    rw [allows, allows, hplain, h.globalAttributes]
  funext spec a
  rw [Context.checkAttribute, Context.checkAttribute, hallows]

/-- Identifiers do not matter for what is wrong with an element. -/
theorem evaluate {id id' : SpecId} (hid : c.repository.spec? id = some spec)
    (hid' : c'.repository.spec? id' = some spec) : c.evaluate s id spec = c'.evaluate s id' spec := by
  have hparent : c.checkParent = c'.checkParent := by
    funext id spec
    rw [checkParent, checkParent, h.parentMatches, h.document]
  have hancestor : c.checkAncestor = c'.checkAncestor := by
    funext id spec
    rw [checkAncestor, checkAncestor, h.document]
  have hunique : c.checkUnique id spec.spec = c'.checkUnique id' spec.spec := by
    rw [checkUnique, checkUnique, ← h.left.any_named hid, ← h.right.any_named hid', h.named]
  rw [Context.evaluate, Context.evaluate, hparent, hancestor, hunique, h.checkAttribute, h.document]

end Context.Alike

/-! ### The choice -/

/-- Candidates are specifications that apply. -/
theorem map_snd_candidates (c : Context) (s : Subject) :
    (c.candidates s).map Prod.snd =
      (c.repository.applicable c.options.format).filter fun spec =>
        !spec.spec.isReferencePoint && spec.spec.tag.sameIgnoringCase s.tag := by
  have hcandidates : c.candidates s = c.repository.entries.filter
      ((fun spec => (!spec.spec.isReferencePoint && spec.spec.tag.sameIgnoringCase s.tag) &&
        spec.spec.appliesTo c.options.format) ∘ Prod.snd) := by
    rw [Context.candidates, Repository.specsFor, List.filter_filter]
    simp only [Function.comp_def, Bool.and_comm]
  rw [hcandidates, ← List.filter_map, Repository.map_snd_entries, Repository.applicable,
    List.filter_filter]

/-- The pool depends on the specifications alone. -/
theorem map_snd_pool (c : Context) (s : Subject) (l : List Candidate) :
    (c.pool s l).map Prod.snd =
      match ((l.map Prod.snd).filterMap fun spec => c.dispatchRank? s spec.spec).max? with
      | none => l.map Prod.snd
      | some top => (l.map Prod.snd).filter fun spec => c.dispatchRank? s spec.spec == some top := by
  have hranks : ((l.map Prod.snd).filterMap fun spec => c.dispatchRank? s spec.spec) =
      l.filterMap fun e => c.dispatchRank? s e.2.spec := List.filterMap_map
  rw [Context.pool, hranks]
  generalize (l.filterMap fun e => c.dispatchRank? s e.2.spec).max? = top
  cases top with
  | none => rfl
  | some top =>
      dsimp only
      rw [List.filter_map]
      rfl

theorem fewest?_map {α β γ : Type} (f : α → β) (l : List (α × List γ)) :
    fewest? (l.map (Prod.map f id)) = (fewest? l).map (Prod.map f id) := by
  induction l with
  | nil => rfl
  | cons x l ih =>
      rw [List.map_cons, fewest?, fewest?, ih]
      cases fewest? l with
      | none => rfl
      | some y =>
          dsimp only [Option.map_some, Prod.map_snd, id_eq]
          split <;> rfl

/-- Lists that look the same through one view do so through another one that it decides. -/
theorem map_congr_of_map_eq {α β γ δ : Type} {f : α → γ} {f' : β → γ} {g : α → δ} {g' : β → δ}
    {l : List α} {l' : List β} (h : l.map f = l'.map f')
    (hg : ∀ a ∈ l, ∀ b ∈ l', f a = f' b → g a = g' b) : l.map g = l'.map g' := by
  induction l generalizing l' with
  | nil =>
      rw [List.map_nil, eq_comm, List.map_eq_nil_iff] at h
      rw [h]
      rfl
  | cons a l ih =>
      obtain ⟨b, l', rfl, hb, hl⟩ := List.map_eq_cons_iff.mp h.symm
      rw [List.map_cons, List.map_cons, hg a List.mem_cons_self b List.mem_cons_self hb.symm,
        ih hl.symm fun a ha b hb => hg a (List.mem_cons_of_mem _ ha) b (List.mem_cons_of_mem _ hb)]

/-- The same specification is chosen with the same findings. -/
theorem Context.Alike.choose? (h : c.Alike c') (s : Subject) :
    (c.choose? s).map (Prod.map Prod.snd id) = (c'.choose? s).map (Prod.map Prod.snd id) := by
  have hcandidates : (c.candidates s).map Prod.snd = (c'.candidates s).map Prod.snd := by
    rw [map_snd_candidates, map_snd_candidates, h.applicable]
  have hpool : (c.pool s (c.candidates s)).map Prod.snd =
      (c'.pool s (c'.candidates s)).map Prod.snd := by
    rw [map_snd_pool, map_snd_pool, hcandidates, h.dispatchRank?]
  rw [Context.choose?, Context.choose?, ← fewest?_map, ← fewest?_map, List.map_map, List.map_map]
  congr 1
  refine map_congr_of_map_eq hpool fun e he e' he' heq => ?_
  have hid := (mem_pool_iff.1 he).1.declared
  have hid' := (mem_pool_iff.1 he').1.declared
  rw [← heq] at hid'
  have heval : c.evaluate s e.1 e.2 = c'.evaluate s e'.1 e'.2 := heq ▸ h.evaluate hid hid'
  exact Prod.ext heq heval

/-! ### The walk -/

namespace Walk

/-- A walk with other matches. -/
def withMatched (w : Walk) (matched : Matches) : Walk :=
  { w with matched }

theorem noteLoader_withMatched (w : Walk) (matched : Matches) (s : Subject) :
    (w.withMatched matched).noteLoader s = (w.noteLoader s).withMatched matched := by
  rw [noteLoader_eq, noteLoader_eq]
  rfl

theorem noteMatch_withMatched (w : Walk) (matched : Matches) (d : Document) (s : Subject)
    (id id' : SpecId) (spec : TagSpec) :
    (w.withMatched matched).noteMatch d s id' spec =
      (w.noteMatch d s id spec).withMatched ((s.node, id') :: matched) := by
  rw [noteMatch_eq, noteMatch_eq]
  rfl

theorem findings_withMatched (w : Walk) (matched : Matches) :
    (w.withMatched matched).findings = w.findings :=
  rfl

theorem extensionFindings_withMatched (w : Walk) (matched : Matches) (d : Document) :
    (w.withMatched matched).extensionFindings d = w.extensionFindings d :=
  rfl

theorem budgetFindings_withMatched (w : Walk) (matched : Matches) (limit : Nat) :
    (w.withMatched matched).budgetFindings limit = w.budgetFindings limit :=
  rfl

/-- Elements are matched to specifications of the same names, and all else that the walks have seen
is the same. -/
structure Alike (r r' : Repository) (w w' : Walk) : Prop where
  named : r.named w.matched = r'.named w'.matched
  eq : w' = w.withMatched w'.matched

end Walk

/-- The same specifications apply under both validators, and the settings but for the format are the
same. -/
structure Validator.Alike (v v' : Validator) : Prop where
  options : v'.options = { v.options with format := v'.options.format }
  applicable : v.repository.applicable v.options.format =
    v'.repository.applicable v'.options.format
  left : v.repository.Distinct
  right : v'.repository.Distinct

namespace Validator.Alike

variable (hv : v.Alike v')
include hv

theorem context (h : Walk.Alike v.repository v'.repository w w') (d : Document) :
    (v.context d w).Alike (v'.context d w') where
  document := rfl
  globalAttributes := (congrArg Options.globalAttributes hv.options).symm
  applicable := hv.applicable
  named := h.named
  left := hv.left
  right := hv.right

/-- An element keeps walks alike. -/
theorem visit (h : Walk.Alike v.repository v'.repository w w') (d : Document) (s : Subject) :
    Walk.Alike v.repository v'.repository (v.visit d w s) (v'.visit d w' s) := by
  have hchoice := (hv.context h d).choose? s
  obtain ⟨hnamed, heq⟩ := h
  cases hc : (v.context d w).choose? s with
  | none =>
      rw [hc] at hchoice
      have hc' := Option.map_eq_none_iff.mp hchoice.symm
      rw [visit_of_none hc, visit_of_none hc', heq, Walk.noteLoader_withMatched]
      refine ⟨?_, rfl⟩
      rw [← w.matched_noteLoader s] at hnamed
      exact hnamed
  | some chosen =>
      obtain ⟨⟨id, spec⟩, causes⟩ := chosen
      rw [hc] at hchoice
      obtain ⟨⟨⟨id', spec'⟩, causes'⟩, hc', he⟩ := Option.map_eq_some_iff.mp hchoice.symm
      obtain ⟨rfl, rfl⟩ : spec' = spec ∧ causes' = causes := Prod.mk.inj he
      -- The identifiers of the chosen specification may differ, but its name is one.
      have hid : v.repository.name? id = some spec'.spec.name :=
        Repository.name?_eq (Context.choose?_eq_some hc).1.pool.1.declared
      have hid' : v'.repository.name? id' = some spec'.spec.name :=
        Repository.name?_eq (Context.choose?_eq_some hc').1.pool.1.declared
      rw [visit_of_some hc, visit_of_some hc', heq, Walk.noteLoader_withMatched,
        Walk.noteMatch_withMatched _ _ d s id]
      refine ⟨?_, rfl⟩
      calc v.repository.named ((w.noteLoader s).noteMatch d s id spec'.spec).matched
          = (s.node, some spec'.spec.name) :: v.repository.named w.matched := by
            rw [Walk.matched_noteMatch, Walk.matched_noteLoader, Repository.named_cons, hid]
        _ = v'.repository.named ((s.node, id') :: w'.matched) := by
            rw [Repository.named_cons, hid', hnamed]

theorem foldl_visit (h : Walk.Alike v.repository v'.repository w w') (d : Document)
    (ss : List Subject) : Walk.Alike v.repository v'.repository (ss.foldl (v.visit d) w)
      (ss.foldl (v'.visit d) w') := by
  induction ss generalizing w w' with
  | nil => exact h
  | cons s ss ih => exact ih (hv.visit h d s)

/-- All elements of a document. -/
theorem walk (d : Document) :
    Walk.Alike v.repository v'.repository (v.walk d) (v'.walk d) :=
  hv.foldl_visit ⟨rfl, rfl⟩ d (subjects d)

end Validator.Alike

/-! ### Missing elements -/

/-- Whether the cause is that a specification is not used. -/
def Cause.isMissingTag : Cause → Bool
  | .missingTag _ => true
  | _ => false

/-- Whether an element is matched to the specification of a name. -/
def Validator.uses (v : Validator) (d : Document) (name : Text) : Bool :=
  (v.repository.named (v.walk d).matched).any (·.2 == some name)

theorem Cause.isMissingTag_eq (x : Cause) : x.isMissingTag = (x.part == .mandatory) := by
  cases x <;> rfl

variable {d : Document} {x : Finding}

theorem isMissingTag_eq_false (h : x.cause.part ≠ .mandatory) : x.cause.isMissingTag = false := by
  rw [Cause.isMissingTag_eq, beq_eq_false_iff_ne]
  exact h

/-- What is missing is told by the names of specifications. -/
theorem mandatoryFindings_eq {r : Repository} (hr : r.Distinct) (w : Walk) (format : Format) :
    w.mandatoryFindings r format =
      (((r.specs.map (·.spec)).filter (·.appliesTo (some format))).filter fun s =>
        s.mandatory && !s.isReferencePoint && !(r.named w.matched).any (·.2 == some s.name)).map
          fun s => ⟨.missingTag s.displayName, s.name, none⟩ := by
  have hspecs : r.specs.map (·.spec) = r.entries.map fun e => e.2.spec := by
    rw [← r.map_snd_entries, List.map_map]
    rfl
  rw [Walk.mandatoryFindings, List.filter_filter, hspecs, List.filter_map, List.map_map]
  refine congrArg (List.map _) (List.filter_congr fun e hmem => ?_)
  dsimp only [Function.comp_apply]
  rw [← hr.any_named (Repository.mem_entries_iff.1 hmem), Bool.and_right_comm]

/-- The findings that are not about missing elements. -/
def Validator.presentFindings (v : Validator) (d : Document) : List Finding :=
  (v.walk d).findings ++
    ((if v.options.checkExtensions then (v.walk d).extensionFindings d else []) ++
      (v.walk d).budgetFindings v.options.maxStylesheetBytes)

theorem isMissingTag_presentFindings (hx : x ∈ v.presentFindings d) :
    x.cause.isMissingTag = false := by
  refine isMissingTag_eq_false fun hpart => ?_
  rcases List.mem_append.mp hx with hx | hx
  · rcases part_walk hx with h | h <;> simp [h] at hpart
  · rcases List.mem_append.mp hx with hx | hx
    · simp [part_checkedExtensions hx] at hpart
    · simp [part_budgetFindings hx] at hpart

/-- A filter tells apart what stands between other things. -/
theorem filter_between {α : Type} {p : α → Bool} {first second between last : List α}
    (hothers : ∀ x ∈ first ++ (second ++ last), p x = false) (hbetween : ∀ x ∈ between, p x = true) :
    (first ++ (second ++ between ++ last)).filter (fun x => !p x) = first ++ (second ++ last) ∧
      (first ++ (second ++ between ++ last)).filter p = between := by
  have hkept : (first ++ (second ++ last)).filter (fun x => !p x) = first ++ (second ++ last) :=
    List.filter_eq_self.mpr fun x hx => by rw [hothers x hx]; rfl
  have hgone : between.filter (fun x => !p x) = [] :=
    List.filter_eq_nil_iff.mpr fun x hx => by rw [hbetween x hx]; exact Bool.false_ne_true
  have hothers : (first ++ (second ++ last)).filter p = [] :=
    List.filter_eq_nil_iff.mpr fun x hx => by rw [hothers x hx]; exact Bool.false_ne_true
  simp only [List.filter_append, List.append_eq_nil_iff] at hkept hothers ⊢
  obtain ⟨hfirst, hsecond, hlast⟩ := hothers
  rw [hgone, List.append_nil, hkept, hfirst, hsecond, hlast, List.filter_eq_self.mpr hbetween]
  exact ⟨rfl, List.append_nil _⟩

/-- A report consists of the other findings and those about missing elements. -/
theorem filter_validate (v : Validator) (d : Document) :
    (v.validate d).findings.filter (fun x => !x.cause.isMissingTag) = v.presentFindings d ∧
      (v.validate d).findings.filter (fun x => x.cause.isMissingTag) =
        (v.options.format.map ((v.walk d).mandatoryFindings v.repository)).getD [] := by
  refine filter_between (fun x => isMissingTag_presentFindings) fun x hx => ?_
  rw [Cause.isMissingTag_eq, part_mandatoryOfFormat hx]
  rfl

/-- Without a format nothing is missing. -/
theorem findings_validate (h : v.options.format = none) (d : Document) :
    (v.validate d).findings = v.presentFindings d := by
  rw [Validator.validate, Validator.documentFindings, h, Option.map_none, Option.getD_none,
    List.append_nil]
  rfl

theorem Validator.Alike.presentFindings (hv : v.Alike v') (d : Document) :
    v.presentFindings d = v'.presentFindings d := by
  have hwalk := (hv.walk d).eq
  have hextensions : v'.options.checkExtensions = v.options.checkExtensions :=
    by rw [hv.options]
  have hlimit : v'.options.maxStylesheetBytes = v.options.maxStylesheetBytes :=
    by rw [hv.options]
  rw [Validator.presentFindings, Validator.presentFindings, hwalk, hextensions, hlimit,
    Walk.findings_withMatched, Walk.extensionFindings_withMatched, Walk.budgetFindings_withMatched]

/-- Apart from what is missing, validation for a format finds what validation with the rules of that
format finds. Missing is each specification of these rules that is mandatory and not used. -/
theorem validate_restrict {rules : RuleSet} {r : Repository} (h : Repository.ofRules rules = .ok r)
    (format : Format) :
    ∃ r', Repository.ofRules (rules.restrict format) = .ok r' ∧ ∀ (o : Options) (d : Document),
      (Validator.validate ⟨r, { o with format := some format }⟩ d).findings.filter
          (fun x => !x.cause.isMissingTag) =
        (Validator.validate ⟨r', { o with format := none }⟩ d).findings ∧
      (Validator.validate ⟨r, { o with format := some format }⟩ d).findings.filter
          (fun x => x.cause.isMissingTag) =
        ((rules.restrict format).tags.filter fun s => s.mandatory && !s.isReferencePoint &&
          !Validator.uses ⟨r, { o with format := some format }⟩ d s.name).map
            fun s => ⟨.missingTag s.displayName, s.name, none⟩ := by
  have hdistinct : r.Distinct := Repository.nodup_names_ofRules h
  refine ⟨_, Repository.ofRules_restrict h format, fun o d => ?_⟩
  have hv : Validator.Alike ⟨r, { o with format := some format }⟩
      ⟨⟨rules.restrict format, r.specs.filter (·.spec.appliesTo (some format))⟩,
        { o with format := none }⟩ :=
    { options := rfl
      applicable := (List.filter_eq_self.mpr fun _ _ => rfl).symm
      left := hdistinct
      right := hdistinct.sublist (List.filter_sublist.map _) }
  obtain ⟨hpresent, hmissing⟩ :=
    filter_validate ⟨r, { o with format := some format }⟩ d
  constructor
  · rw [hpresent, hv.presentFindings d, findings_validate rfl]
  · rw [hmissing, Option.map_some, Option.getD_some, mandatoryFindings_eq hdistinct,
      Repository.map_spec_ofRules h]
    rfl

/-- A specification for ads alone and one that every document has to use. -/
def linkVariants : RuleSet where
  attributeLists := []
  tags :=
    [{ tag := "a", specName := some "ad link", formats := [.amp4ads] },
      { tag := "a", specName := some "link", mandatory := true }]

/-- Here the identifiers of the two sets of rules differ. -/
theorem validate_restrict_linkVariants :
    Repository.ofRules linkVariants = .ok ⟨linkVariants,
        [⟨{ tag := "a", specName := some "ad link", formats := [.amp4ads] }, [], [], none⟩,
          ⟨{ tag := "a", specName := some "link", mandatory := true }, [], [], none⟩]⟩ ∧
      ∃ r', Repository.ofRules (linkVariants.restrict .amp) = .ok r' ∧
        (Validator.validate ⟨r', { format := none }⟩ bareLink).findings.map (·.cause) =
          [.disallowedTag "html"] := by
  have h : Repository.ofRules linkVariants = .ok ⟨linkVariants,
      [⟨{ tag := "a", specName := some "ad link", formats := [.amp4ads] }, [], [], none⟩,
        ⟨{ tag := "a", specName := some "link", mandatory := true }, [], [], none⟩]⟩ := rfl
  obtain ⟨r', hr', hvalidate⟩ := validate_restrict h .amp
  refine ⟨h, r', hr', ?_⟩
  rw [← (hvalidate {} bareLink).1]
  decide

end Validation

end AmpMarkup
