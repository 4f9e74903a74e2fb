import Mathlib.Data.List.Nodup
import AmpMarkup.Proofs.Lookup
import AmpMarkup.Proofs.Source.Symbol
import AmpMarkup.Proofs.Text.Replacement

/-! Templates under a registry. Substituting gives the registry's spelling of symbols whose source
spelling is the markup, and restoring leads back to that spelling, provided that no substitute
stands in the source by itself. The substitutes can be put back in any order: two of them never overlap,
and a delimiter has no character of a substitute. -/

namespace AmpMarkup.Source

open Text (replace)

variable {r : Registry} {ps : List Placeholder} {p q : Placeholder} {s : Spelling} {z : List Symbol}
  {d t u w : Text}

/-! ### The spelling of a registry -/

theorem Registry.WellFormed.delimiters_nodup (h : r.WellFormed) :
    (r.placeholders.map Placeholder.delimiter).Nodup :=
  h.delimiter_eq ▸ Source.delimiters_nodup

theorem Registry.WellFormed.delimiter_mem (h : r.WellFormed) {p : Placeholder}
    (hp : p ∈ r.placeholders) : p.delimiter ∈ delimiters :=
  h.delimiter_eq ▸ List.mem_map_of_mem hp

theorem Registry.WellFormed.spelling_delimiter (h : r.WellFormed) {p : Placeholder}
    (hp : p ∈ r.placeholders) : r.spelling.delimiter p.delimiter = p.substitute := by
  have hfind : r.placeholders.find? (·.delimiter == p.delimiter) = some p :=
    (find?_key_eq_some_iff h.delimiters_nodup).mpr ⟨hp, rfl⟩
  simp [Registry.spelling, hfind]

/-- Every delimiter has a placeholder. -/
theorem Registry.WellFormed.exists_placeholder (h : r.WellFormed) (hd : d ∈ delimiters) :
    ∃ p ∈ r.placeholders, p.delimiter = d ∧ r.spelling.delimiter d = p.substitute := by
  rw [← h.delimiter_eq] at hd
  obtain ⟨p, hp, rfl⟩ := List.mem_map.1 hd
  exact ⟨p, hp, rfl, h.spelling_delimiter hp⟩

theorem Registry.WellFormed.isSubstitute_spelling (h : r.WellFormed) (hd : d ∈ delimiters) :
    IsSubstitute (r.spelling.delimiter d) := by
  obtain ⟨p, hp, -, he⟩ := h.exists_placeholder hd
  exact he ▸ h.isSubstitute p hp

theorem Registry.WellFormed.wordy (h : r.WellFormed) : r.spelling.Wordy where
  delimiter_ne _ hd := (h.isSubstitute_spelling hd).ne_nil
  delimiter_chars _ hd _ hc := ((h.isSubstitute_spelling hd).isNameChar_of_mem hc).1
  mark_ne := by
    obtain ⟨t, ht⟩ := h.isBindingMark.eq_cons
    exact fun hn => List.cons_ne_nil _ _ (ht.symm.trans hn)
  mark_chars _ hc := h.isBindingMark.isNameChar_of_mem hc

theorem Registry.WellFormed.substituteTemplates_eq (h : r.WellFormed) (t : Text) :
    r.substituteTemplates t =
      delimiters.foldl (fun t d => replace d (r.spelling.delimiter d) t) t := by
  have hgen : ∀ ps : List Placeholder, (∀ p ∈ ps, p ∈ r.placeholders) → ∀ t,
      ps.foldl (fun t p => replace p.delimiter p.substitute t) t =
        (ps.map Placeholder.delimiter).foldl
          (fun t d => replace d (r.spelling.delimiter d) t) t := by
    intro ps
    induction ps with
    | nil => exact fun _ _ => rfl
    | cons p ps ih =>
        intro hp t
        rw [List.map_cons, List.foldl_cons, List.foldl_cons,
          h.spelling_delimiter (hp p List.mem_cons_self),
          ih fun q hq => hp q (List.mem_cons_of_mem _ hq)]
  rw [Registry.substituteTemplates, hgen _ fun _ hp => hp, h.delimiter_eq]

/-- Substituting templates is a change of the symbols that is the same under every registry and does
not show in the source. -/
theorem exists_spell_eq_substituteTemplates (hz : Delimited z) :
    ∃ z', Delimited z' ∧
      (∀ r : Registry, r.WellFormed →
        spell r.spelling z' = r.substituteTemplates (spell r.spelling z)) ∧
      spell .source z' = spell .source z ∧ (.mark ∈ z' → .mark ∈ z) ∧
      ∀ b, Spaced b z → Spaced b z' := by
  obtain ⟨z', h⟩ := exists_placed (fun _ hd => hd) hz
  exact ⟨z', h.delimited, fun r hr => by rw [h.replaced _ hr.wordy, hr.substituteTemplates_eq],
    h.source .source fun _ _ => rfl, h.mark, h.spaced⟩

/-! ### Restoring -/

theorem IsSubstitute.not_mem_delimiter {c : Char} (hw : IsSubstitute w) (hd : d ∈ delimiters)
    (hc : c ∈ w) : c ∉ d :=
  Source.not_mem_delimiter hd (hw.isNameChar_of_mem hc).1

/-- A part of a substitute that starts in symbols starts in their source too. -/
theorem prefix_source_of_prefix_spell (hz : Delimited z) (hm : .mark ∉ z)
    (hs : ∀ d ∈ delimiters, s.delimiter d = d ∨ IsSubstitute (s.delimiter d))
    (hw : IsSubstitute w) (hu : u <:+ w) (hl : u.length < 46) (h : u <+: spell s z) :
    u <+: spell .source z := by
  induction z generalizing u with
  | nil => exact h
  | cons a z ih =>
      cases u with
      | nil => exact List.nil_prefix
      | cons c u =>
          have hchars : ∀ e ∈ c :: u, isNameChar e = true := fun e he =>
            (hw.isNameChar_of_mem (hu.subset he)).1
          cases a with
          | char e =>
              obtain ⟨rfl, hp⟩ := List.cons_prefix_cons.1 h
              refine List.cons_prefix_cons.2 ⟨rfl, ih hz.tail ?_ ?_ ?_ hp⟩
              · exact fun h => hm (List.mem_cons_of_mem _ h)
              · exact (List.suffix_cons ..).trans hu
              · exact Nat.lt_of_succ_lt hl
          | delimiter d =>
              have hd := hz d List.mem_cons_self
              rcases hs d hd with he | he
              · rw [spell_cons, Symbol.spell, he] at h
                exact absurd h (Text.not_prefix_append_of_disjoint (List.cons_ne_nil c u)
                  (delimiter_ne_nil d hd) (fun e he => not_mem_delimiter hd (hchars e he)) _)
              · have hp : c :: u <+: s.delimiter d :=
                  Text.prefix_of_prefix_append h (he.length_eq ▸ Nat.le_of_lt hl)
                exact absurd hp (hw.not_prefix_of_suffix he hu (List.cons_ne_nil _ _) hl)
          | mark => exact absurd List.mem_cons_self hm

/-- A substitute that starts with a character of the symbols starts in their source too. -/
theorem prefix_source_of_prefix_char {c : Char} (hz : Delimited z) (hm : .mark ∉ z)
    (hs : ∀ d ∈ delimiters, s.delimiter d = d ∨ IsSubstitute (s.delimiter d))
    (hw : IsSubstitute w) (h : w <+: c :: spell s z) : w <+: c :: spell .source z := by
  obtain ⟨u, rfl⟩ := hw.eq_cons
  obtain ⟨rfl, hp⟩ := List.cons_prefix_cons.1 h
  have hl : u.length < 46 := hw.length_eq ▸ Nat.lt_succ_self _
  exact List.cons_prefix_cons.2
    ⟨rfl, prefix_source_of_prefix_spell hz hm hs hw (List.suffix_cons ..) hl hp⟩

/-- Putting one delimiter back turns its places into the delimiter and changes nothing else. -/
theorem replace_spell (hz : Delimited z) (hm : .mark ∉ z)
    (hs : ∀ d ∈ delimiters, s.delimiter d = d ∨ IsSubstitute (s.delimiter d))
    (hw : IsSubstitute (s.delimiter d))
    (hinj : ∀ e ∈ delimiters, s.delimiter e = s.delimiter d → e = d)
    (hfree : ¬ s.delimiter d <:+: spell .source z) :
    replace (s.delimiter d) d (spell s z) = spell (s.set d d) z := by
  induction z with
  | nil => exact Text.replace_nil ..
  | cons a z ih =>
      have hmz : Symbol.mark ∉ z := fun h => hm (List.mem_cons_of_mem _ h)
      have ih := ih hz.tail hmz fun h =>
        hfree (List.infix_append_of_infix_right h)
      cases a with
      | char c =>
          have hnp : ¬ s.delimiter d <+: c :: spell s z := fun h =>
            hfree (prefix_source_of_prefix_char hz.tail hmz hs hw h).isInfix
          exact (Text.replace_cons hnp).trans (congrArg (c :: ·) ih)
      | delimiter e =>
          have he := hz e List.mem_cons_self
          by_cases hed : e = d
          · subst hed
            rw [spell_cons, spell_cons, ← ih, Symbol.spell, Text.replace_append_self hw.ne_nil]
            simp [Symbol.spell, Spelling.set]
          · have hset : (s.set d d).delimiter e = s.delimiter e := if_neg hed
            rw [spell_cons, spell_cons, ← ih, Symbol.spell, Symbol.spell, hset]
            refine Text.replace_append_of_not_prefix fun v hv hsuf => ?_
            rcases hs e he with hself | hsub
            · rw [hself] at hsuf
              exact Text.not_prefix_append_of_disjoint hw.ne_nil hv
                (fun c hc hcv => hw.not_mem_delimiter he hc (hsuf.subset hcv)) _
            · exact hw.not_prefix_append hsub (fun h => hed (hinj e he h.symm)) hv hsuf _
      | mark => exact absurd List.mem_cons_self hm

/-- A spelling in which delimiters stand for themselves is that of the source. -/
theorem spell_eq_source (hz : Delimited z) (hm : .mark ∉ z)
    (hself : ∀ d ∈ delimiters, s.delimiter d = d) : spell s z = spell .source z := by
  induction z with
  | nil => rfl
  | cons a z ih =>
      rw [spell_cons, spell_cons, ← ih hz.tail fun h => hm (List.mem_cons_of_mem _ h)]
      refine congrArg (· ++ spell s z) ?_
      cases a with
      | char c => rfl
      | delimiter d => exact hself d (hz d List.mem_cons_self)
      | mark => exact absurd List.mem_cons_self hm

/-- Putting the delimiters of some placeholders back, one after the other. -/
theorem restoreWith_spell {ps : List Placeholder} (hz : Delimited z) (hm : .mark ∉ z)
    (hp : ∀ p ∈ ps, p.delimiter ∈ delimiters ∧ s.delimiter p.delimiter = p.substitute ∧
      IsSubstitute p.substitute ∧ ¬ p.substitute <:+: spell .source z)
    (hrest : ∀ d ∈ delimiters, d ∉ ps.map Placeholder.delimiter → s.delimiter d = d)
    (hd : (ps.map Placeholder.delimiter).Nodup) (hn : (ps.map Placeholder.substitute).Nodup) :
    Registry.restoreWith ps (spell s z) = spell .source z := by
  induction ps generalizing s with
  | nil => exact spell_eq_source hz hm fun d hd => hrest d hd (by simp)
  | cons p ps ih =>
      obtain ⟨hpd, hps, hsub, hfree⟩ := hp p List.mem_cons_self
      rw [List.map_cons, List.nodup_cons] at hd hn
      have hcase : ∀ d ∈ delimiters, s.delimiter d = d ∨
          ∃ q ∈ p :: ps, q.delimiter = d ∧ s.delimiter d = q.substitute := by
        intro d hdd
        by_cases hmem : d ∈ (p :: ps).map Placeholder.delimiter
        · obtain ⟨q, hq, rfl⟩ := List.mem_map.1 hmem
          exact .inr ⟨q, hq, rfl, (hp q hq).2.1⟩
        · exact .inl (hrest d hdd hmem)
      have hsubs : ∀ d ∈ delimiters, s.delimiter d = d ∨ IsSubstitute (s.delimiter d) := by
        intro d hdd
        refine (hcase d hdd).imp_right ?_
        rintro ⟨q, hq, -, he⟩
        exact he ▸ (hp q hq).2.2.1
      have hinj : ∀ e ∈ delimiters, s.delimiter e = s.delimiter p.delimiter →
          e = p.delimiter := by
        intro e he hse
        rw [hps] at hse
        rcases hcase e he with hself | ⟨q, hq, rfl, hqs⟩
        · -- A delimiter is no substitute: it has no letters.
          have heq : p.substitute = e := hse.symm.trans hself
          obtain ⟨c, hc⟩ := List.exists_mem_of_ne_nil _ hsub.ne_nil
          exact absurd (heq ▸ hc) (hsub.not_mem_delimiter he hc)
        · rcases List.mem_cons.1 hq with rfl | hq
          · rfl
          · exact absurd (List.mem_map_of_mem hq) ((hqs.symm.trans hse) ▸ hn.1)
      have hstep := replace_spell hz hm hsubs (hps ▸ hsub) hinj (hps ▸ hfree)
      rw [hps] at hstep
      rw [Registry.restoreWith, List.foldl_cons, hstep]
      refine ih ?_ ?_ hd.2 hn.2
      · intro q hq
        obtain ⟨h1, h2, h3, h4⟩ := hp q (List.mem_cons_of_mem _ hq)
        have hne : q.delimiter ≠ p.delimiter := fun he =>
          hd.1 (he ▸ List.mem_map_of_mem hq)
        exact ⟨h1, (if_neg hne).trans h2, h3, h4⟩
      · intro d hdd hdn
        by_cases he : d = p.delimiter
        · exact (if_pos he).trans he.symm
        · refine (if_neg he).trans (hrest d hdd ?_)
          simp only [List.map_cons, List.mem_cons, not_or]
          exact ⟨he, hdn⟩

/-- Restoring undoes the spelling of a registry where no substitute stands in the source. -/
theorem restoreTemplates_spell (hr : r.WellFormed) (hn : r.substitutes.Nodup)
    (hz : Delimited z) (hm : .mark ∉ z) (hfree : ∀ w ∈ r.substitutes, ¬ w <:+: spell .source z) :
    r.restoreTemplates (spell r.spelling z) = spell .source z := by
  rw [hr.restoreTemplates_eq_restoreWith]
  refine restoreWith_spell hz hm ?_ ?_ hr.delimiters_nodup hn
  · exact fun p hp => ⟨hr.delimiter_mem hp, hr.spelling_delimiter hp, hr.isSubstitute p hp,
      hfree _ (List.mem_map_of_mem hp)⟩
  · exact fun d hd hnot => absurd (hr.delimiter_eq ▸ hd) hnot

/-- Restoring undoes substituting in text that holds no substitute. -/
theorem restoreTemplates_substituteTemplates (hr : r.WellFormed) (hn : r.substitutes.Nodup)
    (hfree : ∀ w ∈ r.substitutes, ¬ w <:+: t) :
    r.restoreTemplates (r.substituteTemplates t) = t := by
  obtain ⟨z, hz, hs, hsrc, hm, -⟩ := exists_spell_eq_substituteTemplates (delimited_map_char t)
  rw [spell_map_char] at hsrc
  have hs := hs r hr
  rw [spell_map_char] at hs
  rw [← hs, restoreTemplates_spell hr hn hz (fun h => by simpa using hm h) (hsrc ▸ hfree), hsrc]

/-! ### Characters -/

/-- Substituting brings in characters of names only. -/
theorem mem_substituteTemplates (hr : r.WellFormed) {c : Char}
    (h : c ∈ r.substituteTemplates t) : c ∈ t ∨ isNameChar c = true := by
  refine List.foldlRecOn (motive := fun u => c ∈ u → c ∈ t ∨ isNameChar c = true)
    r.placeholders _ .inl (fun u hu p hp h => ?_) h
  rcases Text.mem_replace h with h | h
  · exact hu h
  · exact .inr ((hr.isSubstitute p hp).isNameChar_of_mem h).1

/-- A text that is not of a class without characters of names does not become so. -/
theorem all_substituteTemplates (hr : r.WellFormed) {p : Char → Bool}
    (hp : ∀ c, isNameChar c = true → p c = false) (h : t.all p = false) :
    (r.substituteTemplates t).all p = false := by
  refine List.foldlRecOn (motive := fun u => List.all u p = false) r.placeholders _ h
    fun u hu q hq => Text.all_replace_eq_false ?_ hu
  obtain ⟨c, v, hcv⟩ := List.exists_cons_of_ne_nil (hr.isSubstitute q hq).ne_nil
  have hc := ((hr.isSubstitute q hq).isNameChar_of_mem (hcv ▸ List.mem_cons_self (a := c))).1
  rw [hcv, List.all_cons, hp c hc, Bool.false_and]

theorem substituteTemplates_ne_nil (hr : r.WellFormed) (h : t ≠ []) :
    r.substituteTemplates t ≠ [] := by
  have hall : t.all (fun _ => false) = false := by
    obtain ⟨c, u, rfl⟩ := List.exists_cons_of_ne_nil h
    rfl
  intro hn
  have := all_substituteTemplates hr (fun _ _ => rfl) hall
  rw [hn] at this
  cases this

/-! ### Delimiters in the result of substituting -/

/-- Every delimiter is replaced, and substitutes bring none in. -/
theorem not_infix_substituteTemplates (hr : r.WellFormed) (hd : d ∈ delimiters) (t : Text) :
    ¬ d <:+: r.substituteTemplates t := by
  obtain ⟨p, hp, rfl, -⟩ := hr.exists_placeholder hd
  refine Text.not_infix_foldl_replace (fun q hq => ⟨?_, ?_, fun c hc hcs => ?_⟩) hp t
  · exact delimiter_ne_nil _ (hr.delimiter_mem hq)
  · exact (hr.isSubstitute q hq).ne_nil
  · exact (hr.isSubstitute q hq).not_mem_delimiter hd hcs hc

/-- No two braces of a kind stand together after substituting, and where no substitute stood in the text
by itself, restoring leads back to it. -/
theorem substituteTemplates_delimiterFree {salt : Text}
    (hn : (Registry.ofSalt salt).substitutes.Nodup) (t : Text) :
    ¬ ['{', '{'] <:+: (Registry.ofSalt salt).substituteTemplates t ∧
      ¬ ['}', '}'] <:+: (Registry.ofSalt salt).substituteTemplates t ∧
      ((∀ w ∈ (Registry.ofSalt salt).substitutes, ¬ w <:+: t) →
        (Registry.ofSalt salt).restoreTemplates
          ((Registry.ofSalt salt).substituteTemplates t) = t) := by
  have hr := Registry.ofSalt_wellFormed salt
  refine ⟨?_, ?_, ?_⟩
  · exact not_infix_substituteTemplates hr (by decide) t
  · exact not_infix_substituteTemplates hr (by decide) t
  · exact restoreTemplates_substituteTemplates hr hn

theorem nodup_substitutes_a : (Registry.ofSalt "a".toList).substitutes.Nodup := by
  rw [Registry.ofSalt_eq fingerprints_a]
  decide

/-- Runs of braces in which delimiters can be found at several places, before the start of a
substitute. -/
theorem substituteTemplates_delimiterFree_runs :
    (Registry.ofSalt "a".toList).substitutes.Nodup ∧
      (∀ w ∈ (Registry.ofSalt "a".toList).substitutes,
        ¬ w <:+: "\x7b\x7b\x7b\x7b\x7b#a\x7d\x7d\x7d\x7d_amp_mustache_".toList) ∧
      (Registry.ofSalt "a".toList).restoreTemplates ((Registry.ofSalt "a".toList).substituteTemplates
        "\x7b\x7b\x7b\x7b\x7b#a\x7d\x7d\x7d\x7d_amp_mustache_") =
          ("\x7b\x7b\x7b\x7b\x7b#a\x7d\x7d\x7d\x7d_amp_mustache_" : Text) := by
  have hfree : ∀ w ∈ (Registry.ofSalt "a".toList).substitutes,
      ¬ w <:+: "\x7b\x7b\x7b\x7b\x7b#a\x7d\x7d\x7d\x7d_amp_mustache_".toList := by
    rw [Registry.ofSalt_eq fingerprints_a]
    decide +kernel
  have hrestored := (substituteTemplates_delimiterFree nodup_substitutes_a _).2.2 hfree
  exact ⟨nodup_substitutes_a, hfree, hrestored⟩

/-! ### The order of restoring -/

/-- Putting a delimiter back leaves the other substitutes alone. -/
theorem Registry.WellFormed.spares (hr : r.WellFormed) (hp : p ∈ r.placeholders)
    (hq : q ∈ r.placeholders) (hne : q.substitute ≠ p.substitute) :
    Text.Spares p.substitute p.delimiter q.substitute where
  old_ne := (hr.isSubstitute p hp).ne_nil
  new_ne := delimiter_ne_nil _ (hr.delimiter_mem hp)
  apart _ hv hs t := (hr.isSubstitute q hq).not_prefix_append (hr.isSubstitute p hp) hne hv hs t
  disjoint _ hc := (hr.isSubstitute q hq).not_mem_delimiter (hr.delimiter_mem hp) hc

/-- The delimiters can be put back in any order. -/
theorem restoreWith_perm {salt : Text} (hn : (Registry.ofSalt salt).substitutes.Nodup)
    (hp : ps.Perm (Registry.ofSalt salt).placeholders) (t : Text) :
    Registry.restoreWith ps t = (Registry.ofSalt salt).restoreTemplates t := by
  have hr := Registry.ofSalt_wellFormed salt
  rw [hr.restoreTemplates_eq_restoreWith]
  refine hp.foldl_eq' (fun p hmp q hmq t => ?_) t
  have hmp := hp.mem_iff.1 hmp
  have hmq := hp.mem_iff.1 hmq
  by_cases he : p = q
  · rw [he]
  · have hne : p.substitute ≠ q.substitute := fun hs =>
      he (List.inj_on_of_nodup_map hn hmp hmq hs)
    exact Text.replace_comm (hr.spares hmp hmq hne.symm) (hr.spares hmq hmp hne) t

/-- Backwards, where a part of a substitute stands between two whole ones. -/
theorem restoreWith_perm_reverse :
    (Registry.ofSalt "a".toList).substitutes.Nodup ∧
      (Registry.ofSalt "a".toList).placeholders.reverse.Perm
        (Registry.ofSalt "a".toList).placeholders ∧
      Registry.restoreWith (Registry.ofSalt "a".toList).placeholders.reverse
        ((Registry.ofSalt "a".toList).substituteTemplates "\x7b\x7b_amp_mustache_\x7b\x7b\x7b") =
          (Registry.ofSalt "a".toList).restoreTemplates
            ((Registry.ofSalt "a".toList).substituteTemplates
              "\x7b\x7b_amp_mustache_\x7b\x7b\x7b") := by
  have hperm := List.reverse_perm (Registry.ofSalt "a".toList).placeholders
  exact ⟨nodup_substitutes_a, hperm, restoreWith_perm nodup_substitutes_a hperm _⟩

end AmpMarkup.Source
