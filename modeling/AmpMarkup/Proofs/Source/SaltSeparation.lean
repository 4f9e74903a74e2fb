import AmpMarkup.Proofs.Source.Template

/-! Registries of different salts. What one registry has substituted another one restores only where
both digest the same text. The salt stands right before the delimiter in what is digested, so this
happens to salts of which one is the other with a brace behind it, and to no others as long as different
texts have different fingerprints. -/

namespace AmpMarkup.Source

variable {r : Registry} {s : Spelling} {z : List Symbol} {a b d e t w x : Text}

/-! ### Substitutes in a text -/

theorem not_infix_restoreTemplates (hr : r.WellFormed) (hw : w ∈ r.substitutes) (t : Text) :
    ¬ w <:+: r.restoreTemplates t := by
  obtain ⟨p, hp, rfl⟩ := List.mem_map.1 hw
  rw [hr.restoreTemplates_eq_restoreWith]
  refine Text.not_infix_foldl_replace (fun q hq => ⟨?_, ?_, fun c hc => ?_⟩) hp t
  · exact (hr.isSubstitute q hq).ne_nil
  · exact delimiter_ne_nil _ (hr.delimiter_mem hq)
  · exact (hr.isSubstitute p hp).not_mem_delimiter (hr.delimiter_mem hq) hc

/-- Restoring leaves alone exactly the texts in which no substitute stands. -/
theorem restoreTemplates_eq_self_iff (hr : r.WellFormed) :
    r.restoreTemplates t = t ↔ ∀ w ∈ r.substitutes, ¬ w <:+: t := by
  constructor
  · intro h w hw hi
    rw [← h] at hi
    exact not_infix_restoreTemplates hr hw t hi
  · intro h
    rw [hr.restoreTemplates_eq_restoreWith]
    exact Text.foldl_replace_of_not_infix fun p hp => h _ (List.mem_map_of_mem hp)

/-- A substitute in symbols written out stands for one of them or stands in their source. -/
theorem infix_source_or_delimiter (hz : Delimited z) (hm : .mark ∉ z)
    (hs : ∀ d ∈ delimiters, IsSubstitute (s.delimiter d)) (hw : IsSubstitute w)
    (h : w <:+: spell s z) : w <:+: spell .source z ∨ ∃ d ∈ delimiters, s.delimiter d = w := by
  induction z with
  | nil => exact .inl h
  | cons y z ih =>
      have hmz : Symbol.mark ∉ z := fun h => hm (List.mem_cons_of_mem _ h)
      have hrest := ih hz.tail hmz
      cases y with
      | char c =>
          rcases List.infix_cons_iff.1 h with hp | hi
          · have hsource := prefix_source_of_prefix_char hz.tail hmz (fun d hd => .inr (hs d hd)) hw hp
            exact .inl hsource.isInfix
          · exact (hrest hi).imp_left fun h => List.infix_cons_iff.2 (.inr h)
      | delimiter d =>
          have hd := hz d List.mem_cons_self
          rcases Text.infix_append_iff.1 h with ⟨v, hv, hsuf, hp⟩ | hi
          · by_cases he : w = s.delimiter d
            · exact .inr ⟨d, hd, he.symm⟩
            · exact absurd hp (hw.not_prefix_append (hs d hd) he hv hsuf _)
          · exact (hrest hi).imp_left fun h => List.infix_append_of_infix_right h
      | mark => exact absurd List.mem_cons_self hm

/-- Where none stood before, substituting puts in substitutes of the registry only. -/
theorem mem_substitutes_substituteTemplates (hr : r.WellFormed) (ht : ¬ substituteMark <:+: t)
    (hw : IsSubstitute w) (h : w <:+: r.substituteTemplates t) : w ∈ r.substitutes := by
  obtain ⟨z, hz, hspell, hsource, hm, -⟩ := exists_spell_eq_substituteTemplates (delimited_map_char t)
  have hspell := hspell r hr
  rw [spell_map_char] at hspell hsource
  rw [← hspell] at h
  have hmark : Symbol.mark ∉ z := fun h => by simpa using hm h
  rcases infix_source_or_delimiter hz hmark (fun d hd => hr.isSubstitute_spelling hd) hw h with hi | hd
  · exact absurd (hw.startsMarked.isInfix.trans (hsource ▸ hi)) ht
  · obtain ⟨d, hd, rfl⟩ := hd
    obtain ⟨p, hp, -, he⟩ := hr.exists_placeholder hd
    exact he ▸ List.mem_map_of_mem hp

/-! ### A delimiter by itself -/

theorem IsSubstitute.delimiter_free (hw : IsSubstitute w) (hd : d ∈ delimiters) : ¬ d <:+: w := by
  intro h
  obtain ⟨c, hc⟩ := List.exists_mem_of_ne_nil d (delimiter_ne_nil d hd)
  exact hw.not_mem_delimiter hd (h.subset hc) hc

/-- No delimiter stands in one that is replaced after it. -/
theorem delimiters_pairwise : delimiters.Pairwise fun d e => ¬ d <:+: e := by
  decide

/-- A delimiter by itself is replaced whole. -/
theorem substituteTemplates_delimiter (hr : r.WellFormed) (hd : d ∈ delimiters) :
    r.substituteTemplates d = r.spelling.delimiter d := by
  have hpair := delimiters_pairwise
  have hfree : ∀ e ∈ delimiters, ¬ e <:+: r.spelling.delimiter d := fun e he =>
    (hr.isSubstitute_spelling hd).delimiter_free he
  rw [hr.substituteTemplates_eq]
  obtain ⟨before, later, hsplit⟩ := List.append_of_mem hd
  rw [hsplit] at hpair hfree ⊢
  have hbefore : before.foldl (fun t e => Text.replace e (r.spelling.delimiter e) t) d = d :=
    Text.foldl_replace_of_not_infix fun e he =>
      (List.pairwise_append.1 hpair).2.2 e he d List.mem_cons_self
  rw [List.foldl_append, hbefore, List.foldl_cons, Text.replace_self (delimiter_ne_nil d hd)]
  exact Text.foldl_replace_of_not_infix fun e he =>
    hfree e (List.mem_append_right _ (List.mem_cons_of_mem _ he))

/-! ### What salts and delimiters have in common -/

theorem mem_substitutes_ofSalt :
    w ∈ (Registry.ofSalt a).substitutes ↔
      ∃ d ∈ delimiters, substituteMark ++ Registry.fingerprint a d = w := by
  simp [Registry.substitutes, Registry.ofSalt]

theorem substituteTemplates_ofSalt_delimiter (hd : d ∈ delimiters) :
    (Registry.ofSalt a).substituteTemplates d = substituteMark ++ Registry.fingerprint a d := by
  have hr := Registry.ofSalt_wellFormed a
  obtain ⟨p, hp, rfl, he⟩ := hr.exists_placeholder hd
  obtain ⟨d, -, rfl⟩ := List.mem_map.1 hp
  exact (substituteTemplates_delimiter hr hd).trans he

theorem not_infix_delimiter : ∀ d ∈ delimiters, ¬ substituteMark <:+: d := by
  decide

/-- Of what two salts digest, different texts have different fingerprints. -/
def FingerprintsApart (a b : Text) : Prop :=
  ∀ d ∈ delimiters, ∀ e ∈ delimiters,
    Registry.fingerprint a d = Registry.fingerprint b e → a ++ d = b ++ e

instance (a b : Text) : Decidable (FingerprintsApart a b) :=
  inferInstanceAs (Decidable (∀ d ∈ delimiters, ∀ e ∈ delimiters,
    Registry.fingerprint a d = Registry.fingerprint b e → a ++ d = b ++ e))

/-- A delimiter that ends with a shorter one is a run of braces, and the other one a brace shorter. -/
theorem eq_runs_of_suffix : ∀ d ∈ delimiters, ∀ e ∈ delimiters, e <:+ d → d ≠ e →
    d = ['{', '{', '{'] ∧ e = ['{', '{'] ∨ d = ['}', '}', '}'] ∧ e = ['}', '}'] := by
  decide

theorem exists_brace_of_append (hd : x ++ e ∈ delimiters) (he : e ∈ delimiters) (hx : x ≠ []) :
    ∃ c ∈ ['{', '}'], x = [c] ∧ e = [c, c] := by
  have hne : x ++ e ≠ e := by simpa using hx
  rcases eq_runs_of_suffix _ hd e he (List.suffix_append ..) hne with ⟨hrun, rfl⟩ | ⟨hrun, rfl⟩
  · have hx : x = ['{'] := List.append_cancel_right (hrun : x ++ ['{', '{'] = ['{'] ++ ['{', '{'])
    exact ⟨'{', by simp, hx, rfl⟩
  · have hx : x = ['}'] := List.append_cancel_right (hrun : x ++ ['}', '}'] = ['}'] ++ ['}', '}'])
    exact ⟨'}', by simp, hx, rfl⟩

/-- Salts that differ digest one text only if one is the other with a brace behind it. -/
theorem exists_brace_of_append_eq (hab : a ≠ b) (hd : d ∈ delimiters) (he : e ∈ delimiters)
    (h : a ++ d = b ++ e) :
    ∃ c ∈ ['{', '}'], b = a ++ [c] ∧ d = [c, c, c] ∨ a = b ++ [c] ∧ d = [c, c] := by
  rcases List.append_eq_append_iff.1 h with ⟨x, rfl, rfl⟩ | ⟨x, rfl, rfl⟩
  · obtain ⟨c, hc, rfl, rfl⟩ := exists_brace_of_append hd he (by rintro rfl; simp at hab)
    exact ⟨c, hc, .inl ⟨rfl, rfl⟩⟩
  · obtain ⟨c, hc, rfl, rfl⟩ := exists_brace_of_append he hd (by rintro rfl; simp at hab)
    exact ⟨c, hc, .inr ⟨rfl, rfl⟩⟩

theorem run_mem_delimiters {c : Char} (hc : c ∈ ['{', '}']) :
    [c, c] ∈ delimiters ∧ [c, c, c] ∈ delimiters := by
  rcases List.mem_pair.1 hc with rfl | rfl <;> decide

/-! ### Two registries -/

/-- A registry finds something to restore in what another one has substituted exactly where a
delimiter has been replaced that gives a text which both registries digest. -/
theorem restoreTemplates_ofSalt_eq_self_iff (h : FingerprintsApart a b)
    (ht : ¬ substituteMark <:+: t) :
    (Registry.ofSalt b).restoreTemplates ((Registry.ofSalt a).substituteTemplates t) =
        (Registry.ofSalt a).substituteTemplates t ↔
      ∀ d ∈ delimiters, ∀ e ∈ delimiters, a ++ d = b ++ e →
        ¬ substituteMark ++ Registry.fingerprint a d <:+:
          (Registry.ofSalt a).substituteTemplates t := by
  have hra := Registry.ofSalt_wellFormed a
  rw [restoreTemplates_eq_self_iff (Registry.ofSalt_wellFormed b)]
  constructor
  · intro hfree d _ e he heq
    have hsame : Registry.fingerprint a d = Registry.fingerprint b e := by
      rw [Registry.fingerprint, Registry.fingerprint, heq]
    rw [hsame]
    exact hfree _ (mem_substitutes_ofSalt.2 ⟨e, he, rfl⟩)
  · intro hshared w hw hi
    obtain ⟨e, he, rfl⟩ := mem_substitutes_ofSalt.1 hw
    have hsub : IsSubstitute (substituteMark ++ Registry.fingerprint b e) :=
      ⟨_, fingerprint_isFingerprint b e, rfl⟩
    obtain ⟨d, hd, heq⟩ := mem_substitutes_ofSalt.1 (mem_substitutes_substituteTemplates hra ht hsub hi)
    refine hshared d hd e he (h d hd e he (List.append_cancel_left heq)) ?_
    rwa [heq]

/-- Of different salts one registry leaves alone what the other has substituted, except where one salt is
the other with a brace behind it and a run of this brace has been replaced. -/
theorem restoreTemplates_ofSalt_iff (hab : a ≠ b) (h : FingerprintsApart a b)
    (ht : ¬ substituteMark <:+: t) :
    (Registry.ofSalt b).restoreTemplates ((Registry.ofSalt a).substituteTemplates t) =
        (Registry.ofSalt a).substituteTemplates t ↔
      ∀ c ∈ ['{', '}'],
        (b = a ++ [c] → ¬ (Registry.ofSalt a).substituteTemplates [c, c, c] <:+:
          (Registry.ofSalt a).substituteTemplates t) ∧
        (a = b ++ [c] → ¬ (Registry.ofSalt a).substituteTemplates [c, c] <:+:
          (Registry.ofSalt a).substituteTemplates t) := by
  rw [restoreTemplates_ofSalt_eq_self_iff h ht]
  constructor
  · intro hshared c hc
    obtain ⟨htwo, hthree⟩ := run_mem_delimiters hc
    rw [substituteTemplates_ofSalt_delimiter htwo, substituteTemplates_ofSalt_delimiter hthree]
    constructor
    · rintro rfl
      exact hshared _ hthree _ htwo (by simp)
    · rintro rfl
      exact hshared _ htwo _ hthree (by simp)
  · intro hruns d hd e he heq
    rw [← substituteTemplates_ofSalt_delimiter hd]
    obtain ⟨c, hc, ⟨hb, rfl⟩ | ⟨ha, rfl⟩⟩ := exists_brace_of_append_eq hab hd he heq
    · exact (hruns c hc).1 hb
    · exact (hruns c hc).2 ha

theorem fingerprintsApart_brace : FingerprintsApart "a".toList ['a', '{'] := by
  decide +kernel

/-- Behind `a\x7b` two braces give the text that three give behind `a`: two that were replaced under `a`
are left alone, three are not. -/
theorem restoreTemplates_ofSalt_iff_brace :
    "a".toList ≠ ['a', '{'] ∧ FingerprintsApart "a".toList ['a', '{'] ∧
      (Registry.ofSalt ['a', '{']).restoreTemplates
          ((Registry.ofSalt "a".toList).substituteTemplates ['{', '{', 'x']) =
        (Registry.ofSalt "a".toList).substituteTemplates ['{', '{', 'x'] ∧
      (Registry.ofSalt ['a', '{']).restoreTemplates
          ((Registry.ofSalt "a".toList).substituteTemplates ['{', '{', '{']) ≠
        (Registry.ofSalt "a".toList).substituteTemplates ['{', '{', '{'] := by
  have hne : "a".toList ≠ ['a', '{'] := by decide
  have htwo : ¬ (Registry.ofSalt "a".toList).substituteTemplates ['{', '{', '{'] <:+:
      (Registry.ofSalt "a".toList).substituteTemplates ['{', '{', 'x'] := by
    rw [Registry.ofSalt_eq fingerprints_a]
    decide +kernel
  refine ⟨hne, fingerprintsApart_brace, ?_, ?_⟩
  · refine (restoreTemplates_ofSalt_iff hne fingerprintsApart_brace (by decide)).2 fun c hc => ?_
    rcases List.mem_pair.1 hc with rfl | rfl
    · exact ⟨fun _ => htwo, fun h => absurd h (by decide)⟩
    · exact ⟨fun h => absurd h (by decide), fun h => absurd h (by decide)⟩
  · intro hkept
    have hruns := (restoreTemplates_ofSalt_iff hne fingerprintsApart_brace (by decide)).1 hkept
    exact (hruns '{' List.mem_cons_self).1 rfl List.infix_rfl

/-- What is digested twice is restored by the other registry. -/
theorem exists_restored (h : FingerprintsApart a b) (hd : d ∈ delimiters) (he : e ∈ delimiters)
    (heq : a ++ d = b ++ e) : ¬ ∀ t, ¬ substituteMark <:+: t →
      (Registry.ofSalt b).restoreTemplates ((Registry.ofSalt a).substituteTemplates t) =
        (Registry.ofSalt a).substituteTemplates t := by
  intro hall
  have hfree := not_infix_delimiter d hd
  have hsub := substituteTemplates_ofSalt_delimiter (a := a) hd
  exact (restoreTemplates_ofSalt_eq_self_iff h hfree).1 (hall d hfree) d hd e he heq
    (hsub ▸ List.infix_rfl)

/-- Two registries do not decode each other exactly if neither salt is the other with a brace behind it. -/
theorem restoreTemplates_ofSalt_forall_iff (hab : a ≠ b) (h : FingerprintsApart a b) :
    (∀ t, ¬ substituteMark <:+: t →
      (Registry.ofSalt b).restoreTemplates ((Registry.ofSalt a).substituteTemplates t) =
        (Registry.ofSalt a).substituteTemplates t) ↔
      ∀ c ∈ ['{', '}'], b ≠ a ++ [c] ∧ a ≠ b ++ [c] := by
  constructor
  · intro hall c hc
    obtain ⟨htwo, hthree⟩ := run_mem_delimiters hc
    constructor
    · rintro rfl
      exact exists_restored h hthree htwo (by simp) hall
    · rintro rfl
      exact exists_restored h htwo hthree (by simp) hall
  · intro hsalts t ht
    refine (restoreTemplates_ofSalt_eq_self_iff h ht).2 fun d hd e he heq => ?_
    obtain ⟨c, hc, ⟨hb, -⟩ | ⟨ha, -⟩⟩ := exists_brace_of_append_eq hab hd he heq
    · exact absurd hb (hsalts c hc).1
    · exact absurd ha (hsalts c hc).2

end AmpMarkup.Source
