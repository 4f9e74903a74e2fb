import Mathlib.Data.Char
import Mathlib.Data.List.Induction
import Mathlib.Data.List.Lex
import AmpMarkup.Proofs.Validation.Parts

/-! Extensions that are required and those that scripts load. A walk notes requirements when it matches
elements and loaders before it matches anything, in whatever order they come, and the report reconciles
them: what it says of an extension depends only on whether some matched element requires it and on how
many scripts load it. -/

namespace AmpMarkup.Validation

open Rules

/-- The extension that a cause is about. -/
def Cause.extension? : Cause → Option Text
  | .missingExtension _ extension | .duplicateExtension extension | .unusedExtension extension =>
    some extension
  | _ => none

/-- Number of findings with a code that are about an extension. -/
def Report.countAbout (r : Report) (code extension : Text) : Nat :=
  r.findings.countP fun f => f.cause.code == code && f.cause.extension? == some extension

/-- An extension is required if one of the elements is matched to a specification that lists it, and
the one for bindings if a matched element has a binding. -/
def Validator.Requires (v : Validator) (w : Walk) (ss : List Subject) (extension : Text) : Prop :=
  ∃ s ∈ ss, ∃ m ∈ w.matched, m.1 = s.node ∧
    ((∃ spec ∈ v.repository.spec? m.2, extension ∈ spec.spec.requiredExtensions) ∨
      extension = bindExtension ∧ ∃ a ∈ s.attributes, a.isBinding = true)

instance (v : Validator) (w : Walk) (ss : List Subject) (extension : Text) :
    Decidable (v.Requires w ss extension) :=
  inferInstanceAs (Decidable (∃ s ∈ ss, ∃ m ∈ w.matched, m.1 = s.node ∧ (_ ∨ _)))

/-- Number of elements that load an extension. -/
def loaderCount (ss : List Subject) (extension : Text) : Nat :=
  ss.countP fun s => s.loaded? == some extension

/-- What a report says of an extension that is or is not required and that a number of scripts load. -/
structure Report.Reconciles (r : Report) (extension : Text) (required : Prop) [Decidable required]
    (loaders : Nat) : Prop where
  missing : r.countAbout "MISSING_EXTENSION" extension =
    if required ∧ loaders = 0 then 1 else 0
  duplicate : r.countAbout "DUPLICATE_EXTENSION" extension = loaders - 1
  unused : r.countAbout "UNUSED_EXTENSION" extension =
    if 0 < loaders ∧ ¬ required then 1 else 0

variable {v : Validator} {d : Document} {w : Walk} {s : Subject} {visited ss : List Subject}
  {e : Text} {ts : List Text}

/-! ### Extensions in ascending order -/

theorem mem_insertAscending {t u : Text} : u ∈ insertAscending t ts ↔ u = t ∨ u ∈ ts := by
  induction ts with
  | nil => simp [insertAscending]
  | cons x ts ih =>
      unfold insertAscending
      split
      · next h => simp [h]
      · split
        · simp
        · simp only [List.mem_cons, ih]
          exact or_left_comm

theorem pairwise_insertAscending {t : Text} (h : ts.Pairwise (· < ·)) :
    (insertAscending t ts).Pairwise (· < ·) := by
  induction ts with
  | nil => exact List.pairwise_singleton ..
  | cons x ts ih =>
      obtain ⟨hx, hts⟩ := List.pairwise_cons.mp h
      unfold insertAscending
      split
      · exact h
      · next hne =>
          split
          · next hlt =>
              refine List.pairwise_cons.mpr ⟨List.forall_mem_cons.mpr ⟨hlt, fun u hu => ?_⟩, h⟩
              exact lt_trans hlt (hx u hu)
          · next hge =>
              refine List.pairwise_cons.mpr ⟨fun u hu => ?_, ih hts⟩
              rcases mem_insertAscending.1 hu with rfl | hu
              · exact (lt_or_gt_of_ne hne).resolve_left hge
              · exact hx u hu

theorem mem_ascending : e ∈ ascending ts ↔ e ∈ ts := by
  induction ts with
  | nil => rfl
  | cons t ts ih => rw [ascending, List.foldr_cons, mem_insertAscending, ← ascending, ih, List.mem_cons]

theorem nodup_ascending (ts : List Text) : (ascending ts).Nodup := by
  have hascending : (ascending ts).Pairwise (· < ·) := by
    induction ts with
    | nil => exact .nil
    | cons t ts ih => exact pairwise_insertAscending ih
  exact hascending.imp ne_of_lt

/-- Of what is listed key by key a filter that picks out one key leaves what is listed for that. -/
theorem filter_flatMap_of_nodup {κ α : Type} [BEq κ] [LawfulBEq κ] {f : κ → List α}
    {key : α → Option κ} (hf : ∀ k, ∀ a ∈ f k, key a = some k) {ks : List κ} (hks : ks.Nodup) (k : κ) :
    (ks.flatMap f).filter (key · == some k) = if k ∈ ks then f k else [] := by
  induction ks with
  | nil => rfl
  | cons k' ks ih =>
      obtain ⟨hnew, hks⟩ := List.nodup_cons.mp hks
      rw [List.flatMap_cons, List.filter_append, ih hks]
      by_cases h : k' = k
      · subst h
        rw [List.filter_eq_self.mpr fun a ha => beq_iff_eq.mpr (hf k' a ha), if_neg hnew,
          List.append_nil, if_pos List.mem_cons_self]
      · have hother : (f k').filter (key · == some k) = [] := by
          rw [List.filter_eq_nil_iff]
          intro a ha
          simp [hf k' a ha, h]
        rw [hother, List.nil_append]
        exact if_congr (by simp [Ne.symm h]) rfl rfl

/-- The same where nothing is listed for texts that are not there. -/
theorem filter_flatMap_ascending {α : Type} {f : Text → List α} {key : α → Option Text}
    (hf : ∀ t, ∀ a ∈ f t, key a = some t) (hnone : e ∉ ts → f e = []) :
    ((ascending ts).flatMap f).filter (key · == some e) = f e := by
  rw [filter_flatMap_of_nodup hf (nodup_ascending ts)]
  split
  · rfl
  · next h => exact (hnone (mt mem_ascending.2 h)).symm

/-! ### One element -/

namespace Walk

theorem isSome_lookup_iff {required : List (Text × Text)} :
    (required.lookup e).isSome = true ↔ e ∈ required.map Prod.fst := by
  rw [List.lookup_isSome_iff, List.mem_map]
  exact exists_congr fun r => and_congr_right fun _ => beq_iff_eq.trans eq_comm

theorem mem_addRequired {required : List (Text × Text)} {spec : Text} {extensions : List Text} :
    e ∈ (addRequired required spec extensions).map Prod.fst ↔
      e ∈ required.map Prod.fst ∨ e ∈ extensions := by
  induction extensions generalizing required with
  | nil => simp [addRequired]
  | cons extension extensions ih =>
      rw [addRequired, List.foldl_cons, ← addRequired, ih, List.mem_cons, ← or_assoc]
      refine or_congr_left ?_
      split
      · next h =>
          refine (or_iff_left_of_imp ?_).symm
          rintro rfl
          exact isSome_lookup_iff.1 h
      · simp

end Walk

theorem mem_extensions {spec : TagSpec} :
    e ∈ s.extensions spec ↔ e ∈ spec.requiredExtensions ∨
      e = bindExtension ∧ ∃ a ∈ s.attributes, a.isBinding = true := by
  rw [Subject.extensions, List.mem_append, ← List.any_eq_true]
  refine or_congr_right ?_
  split
  · next h => simp [h]
  · next h => simp [h]

namespace Validator

theorem loaders_visit (v : Validator) (d : Document) (w : Walk) (s : Subject) :
    (v.visit d w s).loaders = w.loaders ++ (s.loaded?.map (·, s.node)).toList := by
  cases hchoice : (v.context d w).choose? s with
  | none =>
      rw [visit_of_none hchoice, Walk.noteLoader_eq]
      rfl
  | some chosen =>
      rw [visit_of_some hchoice, Walk.noteMatch_eq, Walk.noteLoader_eq]
      rfl

/-- An element that comes is on record for its specification, and adds what it needs under it. -/
theorem required_visit (v : Validator) (d : Document) (w : Walk) (s : Subject) :
    ((v.visit d w s).matched = w.matched ∧ (v.visit d w s).required = w.required) ∨
      ∃ id spec, v.repository.spec? id = some spec ∧
        (v.visit d w s).matched = (s.node, id) :: w.matched ∧
        ∀ e, e ∈ (v.visit d w s).required.map Prod.fst ↔
          e ∈ w.required.map Prod.fst ∨ e ∈ s.extensions spec.spec := by
  cases hchoice : (v.context d w).choose? s with
  | none =>
      rw [visit_of_none hchoice, Walk.noteLoader_eq]
      exact .inl ⟨rfl, rfl⟩
  | some chosen =>
      obtain ⟨⟨id, spec⟩, causes⟩ := chosen
      have hdeclared := (Context.choose?_eq_some hchoice).1.pool.1.declared
      rw [visit_of_some hchoice, Walk.noteMatch_eq, Walk.noteLoader_eq]
      exact .inr ⟨id, spec, hdeclared, rfl, fun e => Walk.mem_addRequired⟩

/-! ### All elements -/

theorem loaders_foldl_visit (v : Validator) (d : Document) (w : Walk) (ss : List Subject) :
    (ss.foldl (v.visit d) w).loaders =
      w.loaders ++ ss.filterMap fun s => s.loaded?.map (·, s.node) := by
  induction ss generalizing w with
  | nil => exact (List.append_nil _).symm
  | cons s ss ih =>
      rw [List.foldl_cons, ih, loaders_visit, List.append_assoc]
      congr 1
      cases hloaded : s.loaded? <;> simp [hloaded]

/-- The loaders that the walk has on record for an extension are the elements that load it. -/
theorem length_loadersOf (v : Validator) (d : Document) (e : Text) :
    ((v.walk d).loadersOf e).length = loaderCount (subjects d) e := by
  rw [Walk.loadersOf, List.length_map, walk, loaders_foldl_visit, List.nil_append]
  induction subjects d with
  | nil => rfl
  | cons s ss ih =>
      rw [loaderCount, List.countP_cons, ← loaderCount, ← ih]
      cases hloaded : s.loaded? with
      | none => simp [hloaded]
      | some extension => by_cases h : extension = e <;> simp [hloaded, h]

/-- A node is that of one subject. -/
theorem eq_of_mem_subjects {t : Subject} (hs : s ∈ subjects d) (ht : t ∈ subjects d)
    (h : s.node = t.node) : s = t := by
  obtain ⟨i, -, hi⟩ := List.mem_filterMap.mp hs
  obtain ⟨j, -, hj⟩ := List.mem_filterMap.mp ht
  obtain ⟨x, hx, rfl⟩ := Option.map_eq_some_iff.mp hi
  obtain ⟨y, hy, rfl⟩ := Option.map_eq_some_iff.mp hj
  obtain rfl : i = j := h
  obtain rfl : x = y := Option.some.inj (hx.symm.trans hy)
  rfl

/-- An element that has not been matched yet requires nothing. -/
theorem requires_append_singleton (hsub : ∀ t ∈ visited ++ [s], t ∈ subjects d)
    (hmatched : ∀ m ∈ w.matched, ∃ t ∈ visited, m.1 = t.node) :
    v.Requires w (visited ++ [s]) e ↔ v.Requires w visited e := by
  constructor
  · rintro ⟨t, ht, m, hm, hnode, h⟩
    obtain ⟨t', ht', hnode'⟩ := hmatched m hm
    obtain rfl : t = t' := eq_of_mem_subjects (hsub t ht) (hsub t' (List.mem_append_left _ ht'))
      (hnode.symm.trans hnode')
    exact ⟨t, ht', m, hm, hnode, h⟩
  · rintro ⟨t, ht, h⟩
    exact ⟨t, List.mem_append_left _ ht, h⟩

/-- With one more match what that element needs is required too. -/
theorem requires_of_matched_eq_cons {w' : Walk} {id : SpecId} {spec : CompiledSpec}
    (hsub : ∀ t ∈ ss, t ∈ subjects d) (hs : s ∈ ss) (hid : v.repository.spec? id = some spec)
    (h : w'.matched = (s.node, id) :: w.matched) :
    v.Requires w' ss e ↔ v.Requires w ss e ∨ e ∈ s.extensions spec.spec := by
  rw [mem_extensions]
  constructor
  · rintro ⟨t, ht, m, hm, hnode, hneeds⟩
    rcases List.mem_cons.mp (h ▸ hm) with rfl | hm
    · obtain rfl : s = t := eq_of_mem_subjects (hsub s hs) (hsub t ht) hnode
      refine .inr (hneeds.imp_left ?_)
      rintro ⟨spec', hid', hlisted⟩
      rwa [Option.some.inj (hid.symm.trans hid')]
    · exact .inl ⟨t, ht, m, hm, hnode, hneeds⟩
  · rintro (⟨t, ht, m, hm, hneeds⟩ | hneeds)
    · exact ⟨t, ht, m, h ▸ List.mem_cons_of_mem _ hm, hneeds⟩
    · exact ⟨s, hs, (s.node, id), h ▸ List.mem_cons_self, rfl,
        hneeds.imp_left fun hlisted => ⟨spec, hid, hlisted⟩⟩

/-- The requirements that the walk has on record are those of the elements matched so far. -/
theorem requires_foldl_visit (hsub : ∀ s ∈ visited, s ∈ subjects d) :
    v.Requires (visited.foldl (v.visit d) {}) visited e ↔
      e ∈ (visited.foldl (v.visit d) {}).required.map Prod.fst := by
  induction visited using List.reverseRecOn with
  | nil => simp [Requires]
  | append_singleton visited s ih =>
      have ih := ih fun t ht => hsub t (List.mem_append_left _ ht)
      -- Matches are those of elements visited, so the element that comes has none yet.
      obtain ⟨-, matched, -, hmatched, hnodes⟩ := v.foldl_visit d visited {}
      rw [List.append_nil] at hmatched
      have hbefore := requires_append_singleton (v := v) (e := e) hsub (hmatched ▸ hnodes)
      rw [List.foldl_append, List.foldl_cons, List.foldl_nil]
      rcases v.required_visit d (visited.foldl (v.visit d) {}) s with
        ⟨hmatched', hrequired⟩ | ⟨id, spec, hid, hmatched', hrequired⟩
      · rw [hrequired, ← ih, ← hbefore, Requires, hmatched', ← Requires]
      · rw [hrequired, ← ih, ← hbefore]
        exact requires_of_matched_eq_cons hsub (by simp) hid hmatched'

/-! ### The report -/

theorem requires_iff_lookup (v : Validator) (d : Document) (e : Text) :
    v.Requires (v.walk d) (subjects d) e ↔ ((v.walk d).required.lookup e).isSome = true := by
  rw [Walk.isSome_lookup_iff]
  exact requires_foldl_visit fun _ hs => hs

end Validator

theorem extension?_missingExtension {f : Finding} (h : f ∈ w.missingExtension e) :
    f.cause.extension? = some e := by
  unfold Walk.missingExtension at h
  grind [Cause.extension?]

theorem extension?_loaderFindings {f : Finding} (h : f ∈ w.loaderFindings d e) :
    f.cause.extension? = some e := by
  unfold Walk.loaderFindings at h
  grind [Cause.extension?]

/-- What the report says of the extensions, extension by extension. -/
theorem filter_extensionFindings (w : Walk) (d : Document) (e : Text) :
    (w.extensionFindings d).filter (·.cause.extension? == some e) =
      w.missingExtension e ++ w.loaderFindings d e := by
  have hmissing : e ∉ w.required.map Prod.fst → w.missingExtension e = [] := by
    intro h
    rw [← Walk.isSome_lookup_iff, Option.not_isSome_iff_eq_none] at h
    rw [Walk.missingExtension, h]
  have hloaders : e ∉ w.loaders.map Prod.fst → w.loaderFindings d e = [] := by
    intro h
    have hnone : w.loadersOf e = [] := by
      rw [Walk.loadersOf, List.map_eq_nil_iff, List.filter_eq_nil_iff]
      exact fun l hl he => h (beq_iff_eq.mp he ▸ List.mem_map_of_mem hl)
    rw [Walk.loaderFindings, hnone]
  rw [Walk.extensionFindings, List.filter_append]
  exact congrArg₂ (· ++ ·)
    (filter_flatMap_ascending (fun _ _ h => extension?_missingExtension h) hmissing)
    (filter_flatMap_ascending (fun _ _ h => extension?_loaderFindings h) hloaders)

theorem part_of_extension? {x : Cause} (h : x.extension? = some e) : x.part = .extensions := by
  cases x with
  | missingExtension | duplicateExtension | unusedExtension => rfl
  | _ => cases h

/-- Only one part of a report is about extensions. -/
theorem filter_extension_validate (v : Validator) (d : Document) (e : Text) :
    (v.validate d).findings.filter (·.cause.extension? == some e) =
      if v.options.checkExtensions then
        (v.walk d).missingExtension e ++ (v.walk d).loaderFindings d e
      else [] := by
  have hpart : ∀ f ∈ (v.validate d).findings, (f.cause.extension? == some e) =
      (f.cause.extension? == some e && f.cause.part == .extensions) := by
    intro f _
    cases habout : f.cause.extension? == some e with
    | false => rfl
    | true => rw [part_of_extension? (beq_iff_eq.mp habout)]; rfl
  rw [List.filter_congr hpart, ← List.filter_filter, filter_part, Validator.partFindings]
  split
  · exact filter_extensionFindings ..
  · rfl

/-- Findings about an extension by their kind: one is missing if the extension is required and has no
loader, and of its loaders all but the first are duplicates, and the first is unused if it is not
required. -/
theorem countAbout_eq {r : Report} {code : Text} (missing duplicate unused : Bool)
    (h : r.findings.filter (·.cause.extension? == some e) =
      w.missingExtension e ++ w.loaderFindings d e)
    (hmissing : ∀ spec, ((Cause.missingExtension spec e).code == code) = missing)
    (hduplicate : ((Cause.duplicateExtension e).code == code) = duplicate)
    (hunused : ((Cause.unusedExtension e).code == code) = unused) :
    r.countAbout code e =
      (if missing ∧ (w.required.lookup e).isSome ∧ (w.loadersOf e).length = 0 then 1 else 0) +
        ((if duplicate then (w.loadersOf e).length - 1 else 0) +
          if unused ∧ 0 < (w.loadersOf e).length ∧ ¬ (w.required.lookup e).isSome then 1 else 0) := by
  have hsplit : r.countAbout code e =
      (w.missingExtension e).countP (·.cause.code == code) +
        (w.loaderFindings d e).countP (·.cause.code == code) := by
    rw [← List.countP_append, ← h, List.countP_filter]
    rfl
  rw [hsplit, Walk.missingExtension, Walk.loaderFindings]
  congr 1
  · cases w.required.lookup e with
    | none => simp
    | some spec => cases w.loadersOf e <;> simp [List.countP_singleton, hmissing]
  · cases w.loadersOf e with
    | nil => simp
    | cons first others =>
        have hothers : others.countP (fun _ => duplicate) = if duplicate then others.length else 0 := by
          cases duplicate <;> simp
        cases w.required.lookup e <;>
          simp [List.countP_map, Function.comp_def, hduplicate, hunused, List.countP_singleton,
            hothers]

/-- A report that says of an extension what a walk has found reconciles what the walk has on record. -/
theorem reconciles_of_filter {r : Report}
    (h : r.findings.filter (·.cause.extension? == some e) =
      w.missingExtension e ++ w.loaderFindings d e) :
    r.Reconciles e ((w.required.lookup e).isSome = true) (w.loadersOf e).length where
  missing := by
    simpa only [Bool.false_eq_true, false_and, if_false, true_and, Nat.add_zero] using
      countAbout_eq true false false h (fun _ => rfl) rfl rfl
  duplicate := by
    simpa only [Bool.false_eq_true, false_and, if_false, if_true, Nat.add_zero, Nat.zero_add] using
      countAbout_eq false true false h (fun _ => rfl) rfl rfl
  unused := by
    simpa only [Bool.false_eq_true, false_and, if_false, true_and, Nat.zero_add] using
      countAbout_eq false false true h (fun _ => rfl) rfl rfl

/-- Of every extension the report says whether it is required but not loaded, one finding for each
script too many and whether it is loaded but not required, whatever the order of the scripts and of the
elements that require it. Without checks of extensions it says nothing. -/
theorem validate_extensions (v : Validator) (d : Document) (e : Text) :
    if v.options.checkExtensions then
      (v.validate d).Reconciles e (v.Requires (v.walk d) (subjects d) e) (loaderCount (subjects d) e)
    else ∀ f ∈ (v.validate d).findings, f.cause.extension? = none := by
  have hfilter := filter_extension_validate v d
  split
  · next hchecks =>
      have hreconciles := reconciles_of_filter ((hfilter e).trans (if_pos hchecks))
      simpa only [v.requires_iff_lookup d, v.length_loadersOf d] using hreconciles
  · next hchecks =>
      intro f hf
      by_contra habout
      obtain ⟨e, he⟩ := Option.ne_none_iff_exists'.mp habout
      have hnone := List.filter_eq_nil_iff.mp ((hfilter e).trans (if_neg hchecks)) f hf
      exact hnone (beq_iff_eq.mpr he)

end AmpMarkup.Validation
