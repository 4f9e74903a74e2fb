import AmpMarkup.Proofs.Rules.Loading

/-! Which rules cannot be loaded, and for what reason. Loading goes through the specifications in order,
and within one it looks at the name, the shared lists, the disallowed patterns and the pattern for the
whole content, in this order. The first fault on this way is the answer. -/

namespace AmpMarkup.Rules

/-- Whether a text can be read as a pattern. -/
def Compiles (text : Text) : Prop :=
  (Pattern.parse? text).isSome = true

/-- The patterns of a specification in order, each with the text that is read for it. -/
def TagSpec.patterns (s : TagSpec) : List (Text × Text) :=
  ((s.content.map ContentSpec.disallowed).getD []).map (fun d => (d.pattern, d.pattern)) ++
    (s.content.bind ContentSpec.pattern).toList.map fun p => (p, anchored p)

/-- The first entry of a list that fails a test. -/
def FirstFailing {α : Type} (ok : α → Prop) (l : List α) (a : α) : Prop :=
  ∃ before after, l = before ++ a :: after ∧ (∀ b ∈ before, ok b) ∧ ¬ ok a

/-- What a specification lacks by itself, whatever the others are: the first shared list that the rules
do not have or, if they have all of them, the first pattern that cannot be read. -/
inductive TagSpec.Lacks (rules : RuleSet) (s : TagSpec) : LoadError → Prop where
  | list {name : Text}
      (h : FirstFailing (fun name => (rules.attributeList? name).isSome = true) s.attributeLists name) :
      s.Lacks rules (.unknownAttributeList s.name name)
  | pattern {written text : Text}
      (hlists : ∀ name ∈ s.attributeLists, (rules.attributeList? name).isSome = true)
      (h : FirstFailing (fun p => Compiles p.2) s.patterns (written, text)) :
      s.Lacks rules (.invalidPattern s.name written)

/-- Specifications without a fault. -/
structure Sound (rules : RuleSet) (tags : List TagSpec) : Prop where
  names : (tags.map TagSpec.name).Nodup
  lists : ∀ s ∈ tags, ∀ name ∈ s.attributeLists, (rules.attributeList? name).isSome = true
  patterns : ∀ s ∈ tags, ∀ p ∈ s.patterns, Compiles p.2

/-- The fault of a specification that stands behind others: a name that one of them has or, if the name
is new, what it lacks by itself. -/
inductive FaultBehind (rules : RuleSet) (before : List TagSpec) (s : TagSpec) : LoadError → Prop where
  | name (h : s.name ∈ before.map TagSpec.name) : FaultBehind rules before s (.duplicateSpecName s.name)
  | lack {e : LoadError} (hnew : s.name ∉ before.map TagSpec.name) (h : s.Lacks rules e) :
      FaultBehind rules before s e

/-- The fault of the first specification that has one. -/
def FirstFault (rules : RuleSet) (e : LoadError) : Prop :=
  ∃ before s after, rules.tags = before ++ s :: after ∧ Sound rules before ∧ FaultBehind rules before s e

variable {ε α β : Type} {rules : RuleSet} {s : TagSpec} {tags : List TagSpec} {seen : List Text}
  {e : LoadError}

/-! ### First failures -/

section
variable {ok : α → Prop} {l l' : List α} {a b : α}

theorem firstFailing_nil : ¬ FirstFailing ok [] a := by
  rintro ⟨before, after, h, -⟩
  cases before <;> cases h

theorem firstFailing_cons : FirstFailing ok (a :: l) b ↔ ¬ ok a ∧ b = a ∨ ok a ∧ FirstFailing ok l b := by
  constructor
  · rintro ⟨_ | ⟨_, before⟩, after, h, hbefore, hb⟩
    · cases h
      exact .inl ⟨hb, rfl⟩
    · cases h
      obtain ⟨ha, hbefore⟩ := List.forall_mem_cons.mp hbefore
      exact .inr ⟨ha, before, after, rfl, hbefore, hb⟩
  · rintro (⟨hb, rfl⟩ | ⟨ha, before, after, rfl, hbefore, hb⟩)
    · exact ⟨[], l, rfl, nofun, hb⟩
    · exact ⟨a :: before, after, rfl, List.forall_mem_cons.mpr ⟨ha, hbefore⟩, hb⟩

theorem firstFailing_append : FirstFailing ok (l ++ l') b ↔
    FirstFailing ok l b ∨ (∀ a ∈ l, ok a) ∧ FirstFailing ok l' b := by
  induction l with
  | nil => simp [firstFailing_nil]
  | cons a l ih =>
      rw [List.cons_append, firstFailing_cons, ih, firstFailing_cons, List.forall_mem_cons]
      tauto

theorem firstFailing_map {f : β → α} {l : List β} : FirstFailing ok (l.map f) b ↔
    ∃ a, FirstFailing (fun a => ok (f a)) l a ∧ b = f a := by
  induction l with
  | nil => simp [firstFailing_nil]
  | cons a l ih =>
      simp only [List.map_cons, firstFailing_cons, ih]
      constructor
      · rintro (⟨ha, rfl⟩ | ⟨ha, c, hc, rfl⟩)
        · exact ⟨a, .inl ⟨ha, rfl⟩, rfl⟩
        · exact ⟨c, .inr ⟨ha, hc⟩, rfl⟩
      · rintro ⟨c, ⟨hc, rfl⟩ | ⟨ha, hc⟩, rfl⟩
        · exact .inl ⟨hc, rfl⟩
        · exact .inr ⟨ha, c, hc, rfl⟩

end

/-! ### Computations that fail -/

theorem bind_eq_error_iff {x : Except ε α} {f : α → Except ε β} {e : ε} :
    x >>= f = .error e ↔ x = .error e ∨ ∃ a, x = .ok a ∧ f a = .error e := by
  cases x with
  | error e' => simp [bind, Except.bind]
  | ok a => simp [bind, Except.bind]

theorem exists_mapM_eq_ok_iff {f : α → Except ε β} {l : List α} :
    (∃ bs, l.mapM f = .ok bs) ↔ ∀ a ∈ l, ∃ b, f a = .ok b := by
  simp only [mapM_eq_ok_iff]
  induction l with
  | nil => exact ⟨nofun, fun _ => ⟨[], .nil⟩⟩
  | cons a l ih =>
      rw [List.forall_mem_cons, ← ih]
      constructor
      · rintro ⟨_, hb | ⟨hb, hrest⟩⟩
        exact ⟨⟨_, hb⟩, _, hrest⟩
      · rintro ⟨⟨b, hb⟩, bs, hrest⟩
        exact ⟨b :: bs, .cons hb hrest⟩

/-- A list of computations fails with the error of the first one that does. -/
theorem mapM_eq_error_iff {f : α → Except ε β} {l : List α} {ok : α → Prop} {error : α → ε} {e : ε}
    (hok : ∀ a, ok a → ∃ b, f a = .ok b) (herror : ∀ a, ¬ ok a → f a = .error (error a)) :
    l.mapM f = .error e ↔ ∃ a, FirstFailing ok l a ∧ e = error a := by
  induction l with
  | nil => exact ⟨nofun, fun ⟨_, h, _⟩ => absurd h firstFailing_nil⟩
  | cons a l ih =>
      rw [List.mapM_cons, bind_eq_error_iff]
      by_cases ha : ok a
      · obtain ⟨b, hb⟩ := hok a ha
        simp [hb, firstFailing_cons, ha, bind_eq_error_iff, ih, pure, Except.pure]
      · simp [herror a ha, firstFailing_cons, ha, eq_comm]

/-! ### One specification -/

namespace TagSpec

theorem exists_pattern_eq_ok_iff {text written : Text} :
    (∃ p, s.pattern text written = .ok p) ↔ Compiles text := by
  rw [Compiles, pattern, CompiledPattern.ofText?]
  cases Pattern.parse? text <;> simp

theorem pattern_eq_error {text written : Text} (h : ¬ Compiles text) :
    s.pattern text written = .error (.invalidPattern s.name written) := by
  rw [Compiles, Option.not_isSome_iff_eq_none] at h
  rw [pattern, CompiledPattern.ofText?, h]
  rfl

theorem exists_sharedLists_eq_ok_iff : (∃ lists, s.sharedLists rules = .ok lists) ↔
    ∀ name ∈ s.attributeLists, (rules.attributeList? name).isSome = true := by
  rw [sharedLists, exists_mapM_eq_ok_iff]
  refine forall₂_congr fun name _ => ?_
  cases rules.attributeList? name <;> simp

theorem sharedLists_eq_error_iff : s.sharedLists rules = .error e ↔
    ∃ name, FirstFailing (fun name => (rules.attributeList? name).isSome = true) s.attributeLists name ∧
      e = .unknownAttributeList s.name name := by
  refine mapM_eq_error_iff (fun name h => ?_) fun name h => ?_
  · obtain ⟨list, hlist⟩ := Option.isSome_iff_exists.mp h
    exact ⟨list, by rw [hlist]⟩
  · rw [Option.not_isSome_iff_eq_none.mp h]

/-- The disallowed patterns as the rules have them. -/
theorem exists_disallowedPatterns_eq_ok_iff : (∃ d, s.disallowedPatterns = .ok d) ↔
    ∀ d ∈ (s.content.map ContentSpec.disallowed).getD [], Compiles d.pattern := by
  rw [disallowedPatterns, exists_mapM_eq_ok_iff]
  refine forall₂_congr fun d _ => ?_
  rw [← exists_pattern_eq_ok_iff]
  constructor
  · rintro ⟨_, h⟩
    obtain ⟨p, hp, -⟩ := exists_of_bind_eq_ok h
    exact ⟨p, hp⟩
  · rintro ⟨p, hp⟩
    exact ⟨_, by rw [hp]; rfl⟩

theorem disallowedPatterns_eq_error_iff : s.disallowedPatterns = .error e ↔
    ∃ d, FirstFailing (fun d => Compiles d.pattern) ((s.content.map ContentSpec.disallowed).getD []) d ∧
      e = .invalidPattern s.name d.pattern := by
  refine mapM_eq_error_iff (fun d h => ?_) fun d h => ?_
  · obtain ⟨p, hp⟩ := exists_pattern_eq_ok_iff.2 h
    exact ⟨_, by rw [hp]; rfl⟩
  · rw [pattern_eq_error h]
    rfl

theorem exists_wholePattern_eq_ok_iff : (∃ w, s.wholePattern = .ok w) ↔
    ∀ p ∈ s.content.bind ContentSpec.pattern, Compiles (anchored p) := by
  rw [wholePattern]
  cases s.content.bind ContentSpec.pattern with
  | none => exact ⟨nofun, fun _ => ⟨none, rfl⟩⟩
  | some p =>
      simp only [Option.mem_some_iff, forall_eq']
      rw [← exists_pattern_eq_ok_iff]
      constructor
      · rintro ⟨_, h⟩
        obtain ⟨q, hq, -⟩ := exists_of_bind_eq_ok h
        exact ⟨q, hq⟩
      · rintro ⟨q, hq⟩
        exact ⟨some q, by rw [Option.mapM_some, hq]; rfl⟩

theorem wholePattern_eq_error_iff : s.wholePattern = .error e ↔
    ∃ p ∈ s.content.bind ContentSpec.pattern, ¬ Compiles (anchored p) ∧
      e = .invalidPattern s.name p := by
  rw [wholePattern]
  cases s.content.bind ContentSpec.pattern with
  | none => exact ⟨nofun, nofun⟩
  | some p =>
      simp only [Option.mem_some_iff, exists_eq_left']
      by_cases h : Compiles (anchored p)
      · obtain ⟨q, hq⟩ := exists_pattern_eq_ok_iff.2 h
        rw [Option.mapM_some, hq]
        exact ⟨nofun, fun hn => absurd h hn.1⟩
      · rw [Option.mapM_some, pattern_eq_error h]
        constructor
        · rintro ⟨⟩
          exact ⟨h, rfl⟩
        · rintro ⟨-, rfl⟩
          rfl

theorem forall_mem_patterns_iff : (∀ p ∈ s.patterns, Compiles p.2) ↔
    (∀ d ∈ (s.content.map ContentSpec.disallowed).getD [], Compiles d.pattern) ∧
      ∀ p ∈ s.content.bind ContentSpec.pattern, Compiles (anchored p) := by
  simp only [patterns, List.mem_append, List.mem_map, Option.mem_toList, or_imp, forall_and]
  simp

theorem exists_compile_eq_ok_iff : (∃ c, s.compile rules = .ok c) ↔
    (∀ name ∈ s.attributeLists, (rules.attributeList? name).isSome = true) ∧
      ∀ p ∈ s.patterns, Compiles p.2 := by
  rw [← exists_sharedLists_eq_ok_iff, forall_mem_patterns_iff, ← exists_disallowedPatterns_eq_ok_iff,
    ← exists_wholePattern_eq_ok_iff]
  constructor
  · rintro ⟨c, h⟩
    obtain ⟨lists, hlists, hdisallowed, hwhole, -⟩ := compile_eq_ok_iff.1 h
    exact ⟨⟨lists, hlists⟩, ⟨_, hdisallowed⟩, _, hwhole⟩
  · rintro ⟨⟨lists, hlists⟩, ⟨d, hdisallowed⟩, w, hwhole⟩
    exact ⟨⟨s, _, d, w⟩, compile_eq_ok_iff.2 ⟨lists, hlists, hdisallowed, hwhole, rfl, rfl⟩⟩

/-- Making a specification ready fails where the first of its three parts does. -/
theorem compile_eq_error_iff_parts : s.compile rules = .error e ↔ s.sharedLists rules = .error e ∨
    (∃ lists, s.sharedLists rules = .ok lists) ∧ (s.disallowedPatterns = .error e ∨
      (∃ d, s.disallowedPatterns = .ok d) ∧ s.wholePattern = .error e) := by
  rw [compile]
  cases s.sharedLists rules with
  | error _ => simp [bind, Except.bind]
  | ok lists =>
      cases s.disallowedPatterns with
      | error _ => simp [bind, Except.bind]
      | ok d => cases s.wholePattern <;> simp [bind, Except.bind, pure, Except.pure]

theorem firstFailing_patterns_iff {p : Text × Text} : FirstFailing (fun p => Compiles p.2) s.patterns p ↔
    (∃ d, FirstFailing (fun d => Compiles d.pattern) ((s.content.map ContentSpec.disallowed).getD []) d ∧
      p = (d.pattern, d.pattern)) ∨
    (∀ d ∈ (s.content.map ContentSpec.disallowed).getD [], Compiles d.pattern) ∧
      ∃ q ∈ s.content.bind ContentSpec.pattern, ¬ Compiles (anchored q) ∧ p = (q, anchored q) := by
  rw [patterns, firstFailing_append, firstFailing_map, List.forall_mem_map]
  refine or_congr_right (and_congr_right fun _ => ?_)
  cases s.content.bind ContentSpec.pattern with
  | none => simp [firstFailing_nil]
  | some q => simp [firstFailing_cons, firstFailing_nil]

theorem compile_eq_error_iff : s.compile rules = .error e ↔ s.Lacks rules e := by
  rw [compile_eq_error_iff_parts, exists_sharedLists_eq_ok_iff, sharedLists_eq_error_iff,
    exists_disallowedPatterns_eq_ok_iff, disallowedPatterns_eq_error_iff, wholePattern_eq_error_iff]
  constructor
  · rintro (⟨name, h, rfl⟩ | ⟨hlists, ⟨d, h, rfl⟩ | ⟨hd, p, hp, hfail, rfl⟩⟩)
    · exact .list h
    · exact .pattern hlists (firstFailing_patterns_iff.2 (.inl ⟨d, h, rfl⟩))
    · exact .pattern hlists (firstFailing_patterns_iff.2 (.inr ⟨hd, p, hp, hfail, rfl⟩))
  · rintro (⟨h⟩ | ⟨hlists, h⟩)
    · exact .inl ⟨_, h, rfl⟩
    · rcases firstFailing_patterns_iff.1 h with ⟨d, hd, he⟩ | ⟨hd, p, hp, hfail, he⟩
      · obtain ⟨rfl, -⟩ := Prod.mk.inj he
        exact .inr ⟨hlists, .inl ⟨d, hd, rfl⟩⟩
      · obtain ⟨rfl, -⟩ := Prod.mk.inj he
        exact .inr ⟨hlists, .inr ⟨hd, _, hp, hfail, rfl⟩⟩

end TagSpec

/-! ### Specifications in order -/

namespace Repository

theorem sound_cons_iff : Sound rules (s :: tags) ↔
    (∀ s' ∈ tags, s'.name ≠ s.name) ∧ (∃ c, s.compile rules = .ok c) ∧ Sound rules tags := by
  rw [TagSpec.exists_compile_eq_ok_iff]
  constructor
  · rintro ⟨hnames, hlists, hpatterns⟩
    obtain ⟨hs, hnames⟩ := List.nodup_cons.mp hnames
    obtain ⟨hl, hlists⟩ := List.forall_mem_cons.mp hlists
    obtain ⟨hp, hpatterns⟩ := List.forall_mem_cons.mp hpatterns
    exact ⟨fun s' hs' he => hs (he ▸ List.mem_map_of_mem hs'), ⟨hl, hp⟩, hnames, hlists, hpatterns⟩
  · rintro ⟨hs, ⟨hl, hp⟩, hnames, hlists, hpatterns⟩
    refine ⟨List.nodup_cons.mpr ⟨fun hm => ?_, hnames⟩, List.forall_mem_cons.mpr ⟨hl, hlists⟩,
      List.forall_mem_cons.mpr ⟨hp, hpatterns⟩⟩
    obtain ⟨s', hs', he⟩ := List.mem_map.mp hm
    exact hs s' hs' he

theorem sound_nil (rules : RuleSet) : Sound rules [] where
  names := List.nodup_nil
  lists := List.forall_mem_nil _
  patterns := List.forall_mem_nil _

theorem exists_compileAfter_cons_eq_ok_iff :
    (∃ specs, compileAfter rules seen (s :: tags) = .ok specs) ↔
      s.name ∉ seen ∧ (∃ c, s.compile rules = .ok c) ∧
        ∃ rest, compileAfter rules (s.name :: seen) tags = .ok rest := by
  simp only [compileAfter_cons_eq_ok_iff]
  constructor
  · rintro ⟨_, hs, c, rest, hc, hrest, -⟩
    exact ⟨hs, ⟨c, hc⟩, rest, hrest⟩
  · rintro ⟨hs, ⟨c, hc⟩, rest, hrest⟩
    exact ⟨_, hs, c, rest, hc, hrest, rfl⟩

theorem exists_compileAfter_eq_ok_iff : (∃ specs, compileAfter rules seen tags = .ok specs) ↔
    Sound rules tags ∧ ∀ s ∈ tags, s.name ∉ seen := by
  induction tags generalizing seen with
  | nil => exact iff_of_true ⟨[], rfl⟩ ⟨sound_nil rules, List.forall_mem_nil _⟩
  | cons s tags ih =>
      rw [exists_compileAfter_cons_eq_ok_iff, ih, sound_cons_iff, List.forall_mem_cons]
      simp only [List.mem_cons, not_or, forall_and]
      tauto

theorem compileAfter_cons_eq_error_iff : compileAfter rules seen (s :: tags) = .error e ↔
    s.name ∈ seen ∧ e = .duplicateSpecName s.name ∨ s.name ∉ seen ∧ (s.Lacks rules e ∨
      (∃ c, s.compile rules = .ok c) ∧ compileAfter rules (s.name :: seen) tags = .error e) := by
  rw [← TagSpec.compile_eq_error_iff, compileAfter]
  by_cases hs : s.name ∈ seen
  · rw [if_pos (List.contains_iff_mem.mpr hs)]
    simp [hs, throw, throwThe, MonadExceptOf.throw, bind, Except.bind, eq_comm]
  · rw [if_neg (mt List.contains_iff_mem.mp hs)]
    cases s.compile rules <;> cases compileAfter rules (s.name :: seen) tags <;>
      simp [hs, bind, Except.bind, pure, Except.pure]

/-- Loading fails at the first specification with a fault: a name that was seen or stands before, or
something that is lacking. -/
theorem compileAfter_eq_error_iff : compileAfter rules seen tags = .error e ↔
    ∃ before s after, tags = before ++ s :: after ∧ (Sound rules before ∧ ∀ s ∈ before, s.name ∉ seen) ∧
      ((s.name ∈ seen ∨ s.name ∈ before.map TagSpec.name) ∧ e = .duplicateSpecName s.name ∨
        (s.name ∉ seen ∧ s.name ∉ before.map TagSpec.name) ∧ s.Lacks rules e) := by
  induction tags generalizing seen with
  | nil =>
      refine iff_of_false nofun ?_
      rintro ⟨before, s, after, h, -⟩
      exact List.append_ne_nil_of_right_ne_nil before (List.cons_ne_nil s after) h.symm
  | cons s tags ih =>
      rw [compileAfter_cons_eq_error_iff, ih]
      constructor
      · rintro (⟨hs, rfl⟩ | ⟨hs, hlack | ⟨hc, before, s', after, rfl, ⟨hsound, hnew⟩, hfault⟩⟩)
        · exact ⟨[], s, tags, rfl, ⟨sound_nil rules, List.forall_mem_nil _⟩, .inl ⟨.inl hs, rfl⟩⟩
        · exact ⟨[], s, tags, rfl, ⟨sound_nil rules, List.forall_mem_nil _⟩,
            .inr ⟨⟨hs, List.not_mem_nil⟩, hlack⟩⟩
        · simp only [List.mem_cons, not_or, forall_and] at hnew
          refine ⟨s :: before, s', after, rfl,
            ⟨sound_cons_iff.2 ⟨hnew.1, hc, hsound⟩, List.forall_mem_cons.mpr ⟨hs, hnew.2⟩⟩, ?_⟩
          simp only [List.map_cons, List.mem_cons] at hfault ⊢
          tauto
      · rintro ⟨_ | ⟨_, before⟩, s', after, h, ⟨hsound, hnew⟩, hfault⟩
        · cases h
          simp only [List.map_nil, List.not_mem_nil, or_false, not_false_eq_true, and_true] at hfault
          exact hfault.imp_right (.imp_right .inl)
        · cases h
          obtain ⟨hs, hnew⟩ := List.forall_mem_cons.mp hnew
          obtain ⟨hdistinct, hc, hsound⟩ := sound_cons_iff.1 hsound
          refine .inr ⟨hs, .inr ⟨hc, before, s', after, rfl, ⟨hsound, ?_⟩, ?_⟩⟩
          · exact fun b hb => by simp [hdistinct b hb, hnew b hb]
          · simp only [List.map_cons, List.mem_cons] at hfault ⊢
            tauto

theorem faultBehind_iff {before : List TagSpec} : FaultBehind rules before s e ↔
    s.name ∈ before.map TagSpec.name ∧ e = .duplicateSpecName s.name ∨
      s.name ∉ before.map TagSpec.name ∧ s.Lacks rules e := by
  constructor
  · rintro (h | ⟨hnew, h⟩)
    · exact .inl ⟨h, rfl⟩
    · exact .inr ⟨hnew, h⟩
  · rintro (⟨h, rfl⟩ | ⟨hnew, h⟩)
    · exact .name h
    · exact .lack hnew h

theorem exists_ofRules_eq_ok_iff : (∃ r, ofRules rules = .ok r) ↔ Sound rules rules.tags := by
  have hspecs : (∃ r, ofRules rules = .ok r) ↔ ∃ specs, compileAfter rules [] rules.tags = .ok specs := by
    simp only [ofRules_eq_ok_iff]
    constructor
    · rintro ⟨r, -, h⟩
      exact ⟨r.specs, h⟩
    · rintro ⟨specs, h⟩
      exact ⟨⟨rules, specs⟩, rfl, h⟩
  rw [hspecs, exists_compileAfter_eq_ok_iff]
  exact and_iff_left fun _ _ => List.not_mem_nil

theorem ofRules_eq_error_iff : ofRules rules = .error e ↔ FirstFault rules e := by
  have hspecs : ofRules rules = .error e ↔ compileAfter rules [] rules.tags = .error e := by
    rw [ofRules, bind_eq_error_iff]
    simp [pure, Except.pure]
  rw [hspecs, compileAfter_eq_error_iff, FirstFault]
  simp only [faultBehind_iff, List.not_mem_nil, false_or, not_false_eq_true, implies_true, and_true,
    true_and]

/-- Rules can be loaded if and only if no specification has a fault, and if one has, the answer is the
fault of the first. -/
theorem ofRules_faults (rules : RuleSet) :
    ((∃ r, ofRules rules = .ok r) ↔ Sound rules rules.tags) ∧
      ∀ e, ofRules rules = .error e ↔ FirstFault rules e :=
  ⟨exists_ofRules_eq_ok_iff, fun _ => ofRules_eq_error_iff⟩

/-- An unknown list comes before a pattern of the same specification, and both before a name that is
repeated behind them. -/
example : ofRules ⟨[], [{ tag := "p" },
      { tag := "q", attributeLists := ["shared"], content := some { pattern := some "(" } },
      { tag := "p" }]⟩ =
    .error (.unknownAttributeList "q" "shared") :=
  rfl

end Repository

end AmpMarkup.Rules
