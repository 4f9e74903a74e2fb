import AmpMarkup.Proofs.Rules.Loading
import AmpMarkup.Validation.Walk

/-! The choice of the specification for an element. Among the candidates that the best satisfied
dispatch key leaves, the one with the fewest findings is chosen, and the first declared of several.
What the walk reports of an element and what it is matched to come from that choice alone. -/

namespace AmpMarkup.Validation

open Rules

namespace Context

/-- A specification for the elements of the tag that applies to the format. -/
structure IsCandidate (c : Context) (s : Subject) (e : Candidate) : Prop where
  declared : c.repository.spec? e.1 = some e.2
  element : e.2.spec.isReferencePoint = false
  tag : e.2.spec.tag.sameIgnoringCase s.tag = true
  format : e.2.spec.appliesTo c.options.format = true

/-- The specification has a dispatch key, and the element has its attribute, with one of its values
and below the right parent if the key asks for that. -/
def Satisfies (c : Context) (s : Subject) (spec : TagSpec) (key : DispatchKey) : Prop :=
  ∃ declared a, spec.dispatch? = some (declared, key) ∧ s.attribute? declared.name = some a ∧
    (key ≠ .name → ∀ constraint ∈ declared.value, constraint.contains a.value = true) ∧
    (key = .nameValueParent →
      ∀ parent ∈ spec.mandatoryParent, c.parentMatches s.node parent = true)

/-- A candidate such that no satisfied dispatch key of a candidate outranks its own. -/
def InPool (c : Context) (s : Subject) (e : Candidate) : Prop :=
  c.IsCandidate s e ∧ ∀ e' key', c.IsCandidate s e' → c.Satisfies s e'.2.spec key' →
    ∃ key, c.Satisfies s e.2.spec key ∧ key'.rank ≤ key.rank

/-- The first declared in the pool of those with the fewest findings. -/
structure IsBest (c : Context) (s : Subject) (e : Candidate) : Prop where
  pool : c.InPool s e
  fewest : ∀ e', c.InPool s e' → (c.evaluate s e.1 e.2).length ≤ (c.evaluate s e'.1 e'.2).length
  first : ∀ e', c.InPool s e' → e'.1 < e.1 →
    (c.evaluate s e.1 e.2).length < (c.evaluate s e'.1 e'.2).length

variable {c : Context} {s : Subject} {e : Candidate} {spec : TagSpec} {rank : Nat}

/-! ### Candidates and pool -/

theorem mem_candidates_iff : e ∈ c.candidates s ↔ c.IsCandidate s e := by
  simp only [candidates, Repository.specsFor, List.mem_filter, Bool.and_eq_true, Bool.not_eq_true']
  constructor
  · rintro ⟨⟨hm, hr, ht⟩, hf⟩
    exact ⟨Repository.mem_entries_iff.1 hm, hr, ht, hf⟩
  · rintro ⟨hm, hr, ht, hf⟩
    exact ⟨⟨Repository.mem_entries_iff.2 hm, hr, ht⟩, hf⟩

/-- Candidates come in the order of declaration. -/
theorem pairwise_candidates (c : Context) (s : Subject) :
    (c.candidates s).Pairwise fun e e' => e.1 < e'.1 :=
  (c.repository.pairwise_entries.filter _).filter _

theorem dispatchRank?_eq_some_iff :
    c.dispatchRank? s spec = some rank ↔ ∃ key, c.Satisfies s spec key ∧ key.rank = rank := by
  unfold dispatchRank? Satisfies
  cases hd : spec.dispatch? with
  | none => simp
  | some declaredKey =>
      obtain ⟨declared, key⟩ := declaredKey
      cases ha : s.attribute? declared.name with
      | none => simp [ha]
      | some a => cases key <;> simp [ha, Option.all_eq_true, DispatchKey.rank, and_assoc]

theorem pool_sublist (c : Context) (s : Subject) (l : List Candidate) :
    (c.pool s l).Sublist l := by
  unfold pool
  split
  · exact .refl l
  · exact List.filter_sublist

theorem mem_pool_iff : e ∈ c.pool s (c.candidates s) ↔ c.InPool s e := by
  have hmem : ∀ n, n ∈ (c.candidates s).filterMap (fun e => c.dispatchRank? s e.2.spec) ↔
      ∃ e' key', c.IsCandidate s e' ∧ c.Satisfies s e'.2.spec key' ∧ key'.rank = n := by
    intro n
    simp only [List.mem_filterMap, mem_candidates_iff, dispatchRank?_eq_some_iff]
    exact ⟨fun ⟨e', he', key', hk⟩ => ⟨e', key', he', hk⟩,
      fun ⟨e', key', he', hk⟩ => ⟨e', he', key', hk⟩⟩
  unfold pool
  cases htop : ((c.candidates s).filterMap fun e => c.dispatchRank? s e.2.spec).max? with
  | none =>
      rw [List.max?_eq_none_iff] at htop
      rw [htop] at hmem
      refine mem_candidates_iff.trans ⟨fun he => ⟨he, fun e' key' he' hk => ?_⟩, And.left⟩
      exact absurd ((hmem _).mpr ⟨e', key', he', hk, rfl⟩) List.not_mem_nil
  | some top =>
      obtain ⟨hattained, hmax⟩ := List.max?_eq_some_iff.mp htop
      simp only [List.mem_filter, mem_candidates_iff, beq_iff_eq, dispatchRank?_eq_some_iff]
      constructor
      · rintro ⟨he, key, hk, rfl⟩
        exact ⟨he, fun e' key' he' hk' => ⟨key, hk, hmax _ ((hmem _).mpr ⟨e', key', he', hk', rfl⟩)⟩⟩
      · rintro ⟨he, hrank⟩
        -- A candidate attains the top rank, and the key of this one does not fall behind it.
        obtain ⟨e', key', he', hk', rfl⟩ := (hmem top).mp hattained
        obtain ⟨key, hk, hle⟩ := hrank e' key' he' hk'
        exact ⟨he, key, hk, Nat.le_antisymm (hmax _ ((hmem _).mpr ⟨e, key, he, hk, rfl⟩)) hle⟩

end Context

/-! ### The choice -/

theorem fewest?_eq_none_iff {α β : Type} {l : List (α × List β)} : fewest? l = none ↔ l = [] := by
  cases l with
  | nil => exact ⟨fun _ => rfl, fun _ => rfl⟩
  | cons x xs =>
      refine ⟨fun h => ?_, nofun⟩
      unfold fewest? at h
      split at h
      · cases h
      · split at h <;> cases h

/-- No entry has fewer items, and those before have more. -/
theorem fewest?_eq_some {α β : Type} {l : List (α × List β)} {x : α × List β}
    (h : fewest? l = some x) :
    ∃ before after, l = before ++ x :: after ∧ (∀ y ∈ before, x.2.length < y.2.length) ∧
      ∀ y ∈ after, x.2.length ≤ y.2.length := by
  induction l generalizing x with
  | nil => cases h
  | cons z l ih =>
      unfold fewest? at h
      cases hl : fewest? l with
      | none =>
          rw [hl] at h
          cases h
          rw [fewest?_eq_none_iff.1 hl]
          exact ⟨[], [], rfl, nofun, nofun⟩
      | some y =>
          rw [hl] at h
          obtain ⟨before, after, rfl, hbefore, hafter⟩ := ih hl
          dsimp only at h
          split at h
          · next hlt =>
              cases h
              exact ⟨z :: before, after, rfl, List.forall_mem_cons.mpr ⟨hlt, hbefore⟩, hafter⟩
          · next hle =>
              cases h
              have hle := Nat.le_of_not_lt hle
              refine ⟨[], before ++ y :: after, rfl, nofun, fun u hu => ?_⟩
              rcases List.mem_append.mp hu with hu | hu
              · exact Nat.le_of_lt (Nat.lt_of_le_of_lt hle (hbefore u hu))
              · rcases List.mem_cons.mp hu with rfl | hu
                · exact hle
                · exact Nat.le_trans hle (hafter u hu)

namespace Context

variable {c : Context} {s : Subject} {e : Candidate} {causes : List Cause}

theorem pool_eq_nil_iff {l : List Candidate} : c.pool s l = [] ↔ l = [] := by
  refine ⟨fun h => ?_, fun h => List.sublist_nil.mp (h ▸ c.pool_sublist s l)⟩
  unfold pool at h
  cases htop : (l.filterMap fun e => c.dispatchRank? s e.2.spec).max? with
  | none => rwa [htop] at h
  | some top =>
      rw [htop] at h
      obtain ⟨e, he, hrank⟩ := List.mem_filterMap.mp (List.max?_eq_some_iff.mp htop).1
      exact absurd (beq_iff_eq.mpr hrank) (List.filter_eq_nil_iff.mp h e he)

theorem choose?_eq_none_iff : c.choose? s = none ↔ ∀ e, ¬ c.IsCandidate s e := by
  rw [choose?, fewest?_eq_none_iff, List.map_eq_nil_iff, pool_eq_nil_iff, List.eq_nil_iff_forall_not_mem]
  exact forall_congr' fun e => not_congr mem_candidates_iff

theorem choose?_eq_some (h : c.choose? s = some (e, causes)) :
    c.IsBest s e ∧ causes = c.evaluate s e.1 e.2 := by
  obtain ⟨before, after, heq, hbefore, hafter⟩ := fewest?_eq_some h
  obtain ⟨front, rest, hpool, rfl, hrest⟩ := List.map_eq_append_iff.mp heq
  obtain ⟨e', back, rfl, he, rfl⟩ := List.map_eq_cons_iff.mp hrest
  obtain ⟨rfl, rfl⟩ := Prod.mk.inj he
  simp only [List.forall_mem_map] at hbefore hafter
  have hmem : ∀ u, c.InPool s u ↔ u ∈ front ∨ u = e' ∨ u ∈ back := fun u => by
    rw [← mem_pool_iff, hpool, List.mem_append, List.mem_cons]
  -- What is declared earlier than the chosen one stands before it in the pool.
  have horder : (front ++ e' :: back).Pairwise fun u v => u.1 < v.1 :=
    hpool ▸ (c.pairwise_candidates s).sublist (c.pool_sublist s _)
  refine ⟨⟨(hmem e').mpr (.inr (.inl rfl)), fun u hu => ?_, fun u hu hlt => ?_⟩, rfl⟩
  · rcases (hmem u).mp hu with hu | rfl | hu
    · exact Nat.le_of_lt (hbefore u hu)
    · exact Nat.le_refl _
    · exact hafter u hu
  · rcases (hmem u).mp hu with hu | rfl | hu
    · exact hbefore u hu
    · exact absurd hlt (Nat.lt_irrefl _)
    · have hgt := List.rel_of_pairwise_cons (List.pairwise_append.mp horder).2.1 hu
      exact absurd hlt (Nat.lt_asymm hgt)

end Context

/-! ### The walk -/

/-- What an element adds to a walk: one finding and no match without candidates, and otherwise the
findings under the best candidate and the match with it. -/
inductive Validator.Judges (v : Validator) (d : Document) (w : Walk) (s : Subject) :
    List Finding → Matches → Prop where
  | disallowed : (∀ e, ¬ (v.context d w).IsCandidate s e) →
      v.Judges d w s [⟨.disallowedTag s.tag, s.tag, some (d.place s.node)⟩] []
  | best {e : Candidate} : (v.context d w).IsBest s e →
      v.Judges d w s (((v.context d w).evaluate s e.1 e.2).map
        (⟨·, e.2.spec.name, some (d.place s.node)⟩)) [(s.node, e.1)]

namespace Walk

/-- Requirements with those of a specification. -/
def addRequired (required : List (Text × Text)) (spec : Text) (extensions : List Text) :
    List (Text × Text) :=
  extensions.foldl (fun required extension =>
    if (required.lookup extension).isSome then required else required ++ [(extension, spec)]) required

/-- Requirements are kept apart from all else. -/
theorem foldl_require (w : Walk) (spec : Text) (extensions : List Text) :
    extensions.foldl (·.require spec) w =
      { w with required := addRequired w.required spec extensions } := by
  induction extensions generalizing w with
  | nil => rfl
  | cons extension extensions ih =>
      rw [List.foldl_cons, ih, addRequired, addRequired, List.foldl_cons]
      unfold require
      split <;> rfl

/-- What is on record with the extension that an element loads. -/
theorem noteLoader_eq (w : Walk) (s : Subject) : w.noteLoader s =
    { w with loaders := w.loaders ++ (s.loaded?.map (·, s.node)).toList } := by
  unfold noteLoader
  cases s.loaded? with
  | none => rw [Option.map_none, Option.toList_none, List.append_nil]
  | some extension => rfl

/-- What is on record with a match. -/
theorem noteMatch_eq (w : Walk) (d : Document) (s : Subject) (id : SpecId) (spec : TagSpec) :
    w.noteMatch d s id spec =
      { w with
        matched := (s.node, id) :: w.matched
        required := addRequired w.required spec.name (s.extensions spec)
        stylesheetBytes := w.stylesheetBytes +
          if spec.content.any ContentSpec.inBudget then (d.characterData s.node).utf8Length
          else 0 } := by
  unfold noteMatch
  dsimp only
  rw [foldl_require]
  cases spec.content with
  | none => rfl
  | some content =>
      rw [Option.map_some, Option.getD_some, Option.any_some]
      split <;> rfl

theorem matched_noteLoader (w : Walk) (s : Subject) : (w.noteLoader s).matched = w.matched := by
  rw [noteLoader_eq]

theorem findings_noteLoader (w : Walk) (s : Subject) : (w.noteLoader s).findings = w.findings := by
  rw [noteLoader_eq]

theorem matched_noteMatch (w : Walk) (d : Document) (s : Subject) (id : SpecId) (spec : TagSpec) :
    (w.noteMatch d s id spec).matched = (s.node, id) :: w.matched := by
  rw [noteMatch_eq]

theorem findings_noteMatch (w : Walk) (d : Document) (s : Subject) (id : SpecId) (spec : TagSpec) :
    (w.noteMatch d s id spec).findings = w.findings := by
  rw [noteMatch_eq]

end Walk

namespace Validator

variable {v : Validator} {d : Document} {w : Walk} {s : Subject} {e : Candidate}
  {causes : List Cause} {found : List Finding} {matched : Matches}

/-- Loaders do not matter for the choice. -/
theorem context_noteLoader (v : Validator) (d : Document) (w : Walk) (s : Subject) :
    v.context d (w.noteLoader s) = v.context d w := by
  rw [context, context, Walk.matched_noteLoader]

theorem visit_of_none (h : (v.context d w).choose? s = none) :
    v.visit d w s =
      (w.noteLoader s).report [⟨.disallowedTag s.tag, s.tag, some (d.place s.node)⟩] := by
  rw [← context_noteLoader] at h
  rw [visit, h]

theorem visit_of_some (h : (v.context d w).choose? s = some (e, causes)) :
    v.visit d w s = ((w.noteLoader s).noteMatch d s e.1 e.2.spec).report
      (causes.map (⟨·, e.2.spec.name, some (d.place s.node)⟩)) := by
  rw [← context_noteLoader] at h
  rw [visit, h]

theorem visit_judges (v : Validator) (d : Document) (w : Walk) (s : Subject) :
    ∃ found matched, v.Judges d w s found matched ∧
      (v.visit d w s).findings = w.findings ++ found ∧
      (v.visit d w s).matched = matched ++ w.matched := by
  cases hchoice : (v.context d w).choose? s with
  | none =>
      rw [visit_of_none hchoice]
      refine ⟨_, _, .disallowed (Context.choose?_eq_none_iff.1 hchoice), ?_, ?_⟩
      · exact congrArg (· ++ _) (w.findings_noteLoader s)
      · exact w.matched_noteLoader s
  | some chosen =>
      obtain ⟨e, causes⟩ := chosen
      rw [visit_of_some hchoice]
      obtain ⟨hbest, rfl⟩ := Context.choose?_eq_some hchoice
      refine ⟨_, _, .best hbest, ?_, ?_⟩
      · exact congrArg (· ++ _)
          ((Walk.findings_noteMatch ..).trans (w.findings_noteLoader s))
      · exact (Walk.matched_noteMatch ..).trans (congrArg _ (w.matched_noteLoader s))

theorem Judges.node (h : v.Judges d w s found matched) : ∀ m ∈ matched, m.1 = s.node := by
  cases h with
  | disallowed => exact nofun
  | best => exact fun m hm => List.mem_singleton.mp hm ▸ rfl

/-- Elements add findings and matches of their own to a walk. -/
theorem foldl_visit (v : Validator) (d : Document) (ss : List Subject) (w : Walk) :
    ∃ found matched, (ss.foldl (v.visit d) w).findings = w.findings ++ found ∧
      (ss.foldl (v.visit d) w).matched = matched ++ w.matched ∧
      ∀ m ∈ matched, ∃ s ∈ ss, m.1 = s.node := by
  induction ss generalizing w with
  | nil => exact ⟨[], [], (List.append_nil _).symm, rfl, nofun⟩
  | cons s ss ih =>
      obtain ⟨found, matched, hjudges, hfound, hmatched⟩ := v.visit_judges d w s
      obtain ⟨found', matched', hfound', hmatched', hnodes⟩ := ih (v.visit d w s)
      refine ⟨found ++ found', matched' ++ matched, ?_, ?_, fun m hm => ?_⟩
      · rw [List.foldl_cons, hfound', hfound, List.append_assoc]
      · rw [List.foldl_cons, hmatched', hmatched, List.append_assoc]
      · rcases List.mem_append.mp hm with hm | hm
        · obtain ⟨s', hs', he⟩ := hnodes m hm
          exact ⟨s', List.mem_cons_of_mem _ hs', he⟩
        · exact ⟨s, List.mem_cons_self, hjudges.node m hm⟩

/-- Every element is judged by the rules and by what the walk has seen before it. Elements before and
after it add findings and matches of their own only. -/
theorem walk_judges (v : Validator) {d : Document} {before after : List Subject} {s : Subject}
    (h : subjects d = before ++ s :: after) :
    ∃ found matched laterFound laterMatched,
      v.Judges d (before.foldl (v.visit d) {}) s found matched ∧
      (v.walk d).findings = (before.foldl (v.visit d) {}).findings ++ found ++ laterFound ∧
      (v.walk d).matched = laterMatched ++ matched ++ (before.foldl (v.visit d) {}).matched ∧
      (∀ m ∈ (before.foldl (v.visit d) {}).matched, ∃ s' ∈ before, m.1 = s'.node) ∧
      ∀ m ∈ laterMatched, ∃ s' ∈ after, m.1 = s'.node := by
  obtain ⟨-, earlier, -, hearlier, hbefore⟩ := v.foldl_visit d before {}
  rw [List.append_nil] at hearlier
  obtain ⟨found, matched, hjudges, hfound, hmatched⟩ :=
    v.visit_judges d (before.foldl (v.visit d) {}) s
  obtain ⟨laterFound, laterMatched, hlater, hlater', hafter⟩ :=
    v.foldl_visit d after (v.visit d (before.foldl (v.visit d) {}) s)
  refine ⟨found, matched, laterFound, laterMatched, hjudges, ?_, ?_, ?_, hafter⟩
  · rw [walk, h, List.foldl_append, List.foldl_cons, hlater, hfound]
  · rw [walk, h, List.foldl_append, List.foldl_cons, hlater', hmatched, List.append_assoc]
  · rwa [hearlier]

end Validator

/-- Two specifications for a link, each of which asks for an attribute of its own. -/
def linkRules : Repository where
  rules := ⟨[], []⟩
  specs :=
    [⟨{ tag := "a", specName := some "target" }, [{ name := "href", mandatory := true }], [], none⟩,
      ⟨{ tag := "a", specName := some "anchor" }, [{ name := "name", mandatory := true }], [], none⟩]

/-- A link without attributes, below an element that the rules for links say nothing of. -/
def bareLink : Document where
  tree := ⟨#[⟨.document, none, [1]⟩, ⟨.element ⟨"html", .empty⟩, some 0, [2]⟩,
    ⟨.element ⟨"A", .empty⟩, some 1, []⟩]⟩
  registry := Source.Registry.ofSalt "a".toList
  issues := []

/-- The two specifications of the link are equally far off, so that it is matched to the first. -/
theorem walk_judges_bareLink :
    subjects bareLink = [⟨1, "html", []⟩] ++ ⟨2, "a", []⟩ :: [] ∧
      ∃ found, Validator.Judges ⟨linkRules, {}⟩ bareLink
        ([⟨1, "html", []⟩].foldl (Validator.visit ⟨linkRules, {}⟩ bareLink) {}) ⟨2, "a", []⟩
        found [(2, 0)] := by
  have h : subjects bareLink = [⟨1, "html", []⟩] ++ ⟨2, "a", []⟩ :: [] := by decide
  obtain ⟨found, matched, laterFound, laterMatched, hjudges, -, hmatched, -, hafter⟩ :=
    Validator.walk_judges ⟨linkRules, {}⟩ h
  have hlater : laterMatched = [] := List.eq_nil_iff_forall_not_mem.mpr fun m hm => by
    obtain ⟨s', hs', -⟩ := hafter m hm
    cases hs'
  have hbefore :
      ([⟨1, "html", []⟩].foldl (Validator.visit ⟨linkRules, {}⟩ bareLink) {}).matched = [] := by
    decide
  have hwalk : (Validator.walk ⟨linkRules, {}⟩ bareLink).matched = [(2, 0)] := by decide
  rw [hwalk, hlater, hbefore, List.append_nil, List.nil_append] at hmatched
  exact ⟨h, found, hmatched ▸ hjudges⟩

end AmpMarkup.Validation
