import AmpMarkup.Proofs.Source.Template

/-! Texts that the same symbols spell under two registries. As long as no stand-in shows in what they
stand for, the texts stand for the same. -/

namespace AmpMarkup.Source

open Text (replace)

/-- Everything that the registry writes in the place of something else. -/
def Registry.standIns (r : Registry) : List Text :=
  r.bindingMark :: r.substitutes

/-- None of the words stands in the text. -/
def Hides (words : List Text) (t : Text) : Prop :=
  ∀ w ∈ words, ¬ w <:+: t

instance (words : List Text) (t : Text) : Decidable (Hides words t) :=
  inferInstanceAs (Decidable (∀ w ∈ words, ¬ w <:+: t))

/-- The texts are spelled by the same symbols. -/
def Alike (r r' : Registry) (t t' : Text) : Prop :=
  ∃ z, Delimited z ∧ t = spell r.spelling z ∧ t' = spell r'.spelling z

/-- The texts are spelled by the same symbols, none of which is a mark. -/
def AlikeUnmarked (r r' : Registry) (t t' : Text) : Prop :=
  ∃ z, Delimited z ∧ .mark ∉ z ∧ t = spell r.spelling z ∧ t' = spell r'.spelling z

/-- The texts are alike as the names of attributes are: only the front may be a mark. -/
def AlikeName (r r' : Registry) (n n' : Text) : Prop :=
  AlikeUnmarked r r' n n' ∨
    ∃ x x', AlikeUnmarked r r' x x' ∧ n = r.bindingMark ++ x ∧ n' = r'.bindingMark ++ x'

variable {r r' : Registry} {t t' u u' w n n' : Text} {c : Char} {d : Text} {z : List Symbol}

theorem Hides.of_infix {words : List Text} (h : Hides words t) (hu : u <:+: t) : Hides words u :=
  fun w hw hi => h w hw (hi.trans hu)

/-! ### Alike texts -/

theorem Alike.same (t : Text) : Alike r r' t t :=
  ⟨t.map .char, delimited_map_char t, (spell_map_char ..).symm, (spell_map_char ..).symm⟩

theorem Alike.append (h : Alike r r' t t') (hu : Alike r r' u u') :
    Alike r r' (t ++ u) (t' ++ u') := by
  obtain ⟨y, hy, rfl, rfl⟩ := h
  obtain ⟨z, hz, rfl, rfl⟩ := hu
  refine ⟨y ++ z, fun d hd => ?_, (spell_append ..).symm, (spell_append ..).symm⟩
  exact (List.mem_append.1 hd).elim (hy d) (hz d)

theorem alike_symbol {a : Symbol} (ha : ∀ d, a = .delimiter d → d ∈ delimiters) :
    Alike r r' (a.spell r.spelling) (a.spell r'.spelling) := by
  refine ⟨[a], fun d hd => ha d (List.mem_singleton.1 hd).symm, ?_, ?_⟩ <;> simp

namespace AlikeUnmarked

theorem same (t : Text) : AlikeUnmarked r r' t t :=
  ⟨t.map .char, delimited_map_char t, by simp, (spell_map_char ..).symm, (spell_map_char ..).symm⟩

theorem append (h : AlikeUnmarked r r' t t') (hu : AlikeUnmarked r r' u u') :
    AlikeUnmarked r r' (t ++ u) (t' ++ u') := by
  obtain ⟨y, hy, hm, rfl, rfl⟩ := h
  obtain ⟨z, hz, hm', rfl, rfl⟩ := hu
  refine ⟨y ++ z, fun d hd => ?_, ?_, (spell_append ..).symm, (spell_append ..).symm⟩
  · exact (List.mem_append.1 hd).elim (hy d) (hz d)
  · exact fun h => (List.mem_append.1 h).elim hm hm'

theorem delimiter (hd : d ∈ delimiters) :
    AlikeUnmarked r r' (r.spelling.delimiter d) (r'.spelling.delimiter d) := by
  refine ⟨[.delimiter d], fun e he => ?_, by simp, ?_, ?_⟩
  · rw [Symbol.delimiter.inj (List.mem_singleton.1 he)]
    exact hd
  · simp [Symbol.spell]
  · simp [Symbol.spell]

/-- Unmarked texts are equal or hold a substitute each, with equal characters before it. -/
theorem eq_or_substitute (hr : r.WellFormed) (hr' : r'.WellFormed) (h : AlikeUnmarked r r' t t') :
    t = t' ∨ ∃ u v v', ∃ w ∈ r.substitutes, ∃ w' ∈ r'.substitutes,
      t = u ++ w ++ v ∧ t' = u ++ w' ++ v' := by
  obtain ⟨z, hz, hm, rfl, rfl⟩ := h
  induction z with
  | nil => exact .inl rfl
  | cons a z ih =>
      cases a with
      | char c =>
          rcases ih hz.tail fun h => hm (List.mem_cons_of_mem _ h) with
            h | ⟨u, v, v', w, hw, w', hw', h, h'⟩
          · exact .inl (congrArg (c :: ·) h)
          · exact .inr ⟨c :: u, v, v', w, hw, w', hw', congrArg (c :: ·) h, congrArg (c :: ·) h'⟩
      | delimiter d =>
          obtain ⟨p, hp, -, he⟩ := hr.exists_placeholder (hz d List.mem_cons_self)
          obtain ⟨p', hp', -, he'⟩ := hr'.exists_placeholder (hz d List.mem_cons_self)
          refine .inr ⟨[], spell r.spelling z, spell r'.spelling z, _, List.mem_map_of_mem hp, _,
            List.mem_map_of_mem hp', ?_, ?_⟩
          · rw [spell_cons, Symbol.spell, he, List.nil_append]
          · rw [spell_cons, Symbol.spell, he', List.nil_append]
      | mark => exact absurd List.mem_cons_self hm

end AlikeUnmarked

theorem AlikeName.append (h : AlikeName r r' n n') (hu : AlikeUnmarked r r' u u') :
    AlikeName r r' (n ++ u) (n' ++ u') := by
  rcases h with h | ⟨x, x', hx, rfl, rfl⟩
  · exact .inl (h.append hu)
  · exact .inr ⟨x ++ u, x' ++ u', hx.append hu, List.append_assoc .., List.append_assoc ..⟩

/-! ### Names of attributes -/

/-- The names are the same once the marks are taken for brackets, and no stand-in shows in them. -/
def SameName (r r' : Registry) (n n' : Text) : Prop :=
  (n = n' ∧ Hides (r.standIns ++ r'.standIns) n) ∨
    ∃ x, x ≠ [] ∧ Hides (r.standIns ++ r'.standIns) x ∧
      n = r.bindingMark ++ x ∧ n' = r'.bindingMark ++ x

theorem sourceName_marked {x : Text} (hx : x ≠ []) :
    r.sourceName (r.bindingMark ++ x) = '[' :: x ++ [']'] := by
  rw [Registry.sourceName, Registry.bracketed?, Text.after?_append]
  cases x with
  | nil => exact absurd rfl hx
  | cons c x => rfl

theorem sourceName_mark (r : Registry) : r.sourceName r.bindingMark = r.bindingMark := by
  have h := Text.after?_append r.bindingMark []
  rw [List.append_nil] at h
  rw [Registry.sourceName, Registry.bracketed?, h]
  rfl

theorem sourceName_bare (h : ¬ r.bindingMark <+: n) : r.sourceName n = n := by
  rw [Registry.sourceName, Registry.bracketed?, Text.after?_eq_none_iff.2 h]
  rfl

theorem Registry.mark_mem_standIns (r : Registry) : r.bindingMark ∈ r.standIns :=
  List.mem_cons_self

theorem infix_bracketed (h : w <:+: t) : w <:+: '[' :: t ++ [']'] :=
  List.infix_append_of_infix_left (List.infix_cons_iff.2 (.inr h))

theorem exists_of_mark_prefix {words : List Text} (hmem : r.bindingMark ∈ words)
    (hp : r.bindingMark <+: n) (h : Hides words (r.sourceName n)) :
    ∃ x, x ≠ [] ∧ Hides words x ∧ n = r.bindingMark ++ x := by
  obtain ⟨x, rfl⟩ := hp
  by_cases hx : x = []
  · rw [hx, List.append_nil, sourceName_mark] at h
    exact absurd List.infix_rfl (h _ hmem)
  · rw [sourceName_marked hx] at h
    exact ⟨x, hx, h.of_infix (infix_bracketed List.infix_rfl), rfl⟩

/-- A substitute behind a mark does not start in the mark. -/
theorem infix_of_infix_mark_append {mark x : Text} (hm : IsBindingMark mark) (hw : IsSubstitute w)
    (h : w <:+: mark ++ x) : w <:+: x := by
  rcases Text.infix_append_iff.1 h with ⟨v, hv, hs, hp⟩ | h
  · obtain ⟨u, rfl⟩ := hw.eq_cons
    obtain ⟨c, v, rfl⟩ := List.exists_cons_of_ne_nil hv
    obtain ⟨rfl, -⟩ := List.cons_prefix_cons.1 hp
    obtain ⟨f, hf, rfl⟩ := hm
    have hmem : '_' ∈ bindingMarkStart ++ f ++ ['-'] := hs.subset List.mem_cons_self
    rcases List.mem_append.1 hmem with hmem | hmem
    · rcases List.mem_append.1 hmem with hmem | hmem
      · exact absurd hmem (by decide)
      · exact absurd rfl (isLowerHex_ne (hf.digits _ hmem) (by decide) : '_' ≠ '_')
    · exact absurd hmem (by decide)
  · exact h

section
variable (hr : r.WellFormed) (hr' : r'.WellFormed)
include hr

theorem isSubstitute_of_mem (hw : w ∈ r.substitutes) : IsSubstitute w := by
  obtain ⟨p, hp, rfl⟩ := List.mem_map.1 hw
  exact hr.isSubstitute p hp

/-- A substitute in a kept name shows in the name that it is kept for. -/
theorem infix_sourceName (hw : IsSubstitute w) (h : w <:+: n) : w <:+: r.sourceName n := by
  by_cases hp : r.bindingMark <+: n
  · obtain ⟨x, rfl⟩ := hp
    by_cases hx : x = []
    · rwa [hx, List.append_nil, sourceName_mark, ← List.append_nil r.bindingMark, ← hx]
    · rw [sourceName_marked hx]
      exact infix_bracketed (infix_of_infix_mark_append hr.isBindingMark hw h)
  · rwa [sourceName_bare hp]

include hr'

/-- Alike names in which no stand-in shows are the same. -/
theorem AlikeName.same_of_hides (h : AlikeName r r' n n')
    (hn : Hides (r.standIns ++ r'.standIns) (r.sourceName n))
    (hn' : Hides (r.standIns ++ r'.standIns) (r'.sourceName n')) : SameName r r' n n' := by
  have hmark : r.bindingMark ∈ r.standIns ++ r'.standIns :=
    List.mem_append_left _ r.mark_mem_standIns
  have hsub : ∀ w ∈ r.substitutes, w ∈ r.standIns ++ r'.standIns := fun w hw =>
    List.mem_append_left _ (List.mem_cons_of_mem _ hw)
  rcases h with h | ⟨x, x', hx, rfl, rfl⟩
  · rcases h.eq_or_substitute hr hr' with rfl | ⟨u, v, v', w, hw, w', hw', rfl, rfl⟩
    · by_cases hp : r.bindingMark <+: n
      · obtain ⟨x, hx, hhides, rfl⟩ := exists_of_mark_prefix hmark hp hn
        by_cases hp' : r'.bindingMark <+: r.bindingMark ++ x
        · have hl : r'.bindingMark.length = r.bindingMark.length := by
            obtain ⟨v, hv, he⟩ := hr.isBindingMark.eq_append_hyphen
            obtain ⟨v', hv', he'⟩ := hr'.isBindingMark.eq_append_hyphen
            rw [he, he', List.length_append, List.length_append, hv, hv']
          have he : r'.bindingMark = r.bindingMark :=
            (Text.prefix_of_prefix_append hp' (Nat.le_of_eq hl)).eq_of_length hl
          exact .inr ⟨x, hx, hhides, rfl, by rw [he]⟩
        · rw [sourceName_bare hp'] at hn'
          exact absurd (List.prefix_append ..).isInfix (hn' _ hmark)
      · rw [sourceName_bare hp] at hn
        exact .inl ⟨rfl, hn⟩
    · exact absurd (infix_sourceName hr (isSubstitute_of_mem hr hw) ⟨u, v, rfl⟩) (hn w (hsub w hw))
  · obtain ⟨y, hy, hhides, he⟩ := exists_of_mark_prefix hmark (List.prefix_append ..) hn
    obtain rfl := List.append_cancel_left he
    rcases hx.eq_or_substitute hr hr' with rfl | ⟨u, v, v', w, hw, w', hw', rfl, rfl⟩
    · exact .inr ⟨x, hy, hhides, rfl, rfl⟩
    · exact absurd ⟨u, v, rfl⟩ (hhides w (hsub w hw))

omit hr hr'

theorem SameName.sourceName_eq (h : SameName r r' n n') : r.sourceName n = r'.sourceName n' := by
  rcases h with ⟨rfl, h⟩ | ⟨x, hx, -, rfl, rfl⟩
  · rw [sourceName_bare, sourceName_bare]
    · exact fun hp => h _ (List.mem_append_right _ r'.mark_mem_standIns) hp.isInfix
    · exact fun hp => h _ (List.mem_append_left _ r.mark_mem_standIns) hp.isInfix
  · rw [sourceName_marked hx, sourceName_marked hx]

/-- Names that are the same under both registries are told apart under both or under neither. -/
theorem SameName.eq_iff {m m' : Text} (hn : SameName r r' n n') (hm : SameName r r' m m') :
    n = m ↔ n' = m' := by
  have hmark : r.bindingMark ∈ r.standIns ++ r'.standIns :=
    List.mem_append_left _ r.mark_mem_standIns
  have hmark' : r'.bindingMark ∈ r.standIns ++ r'.standIns :=
    List.mem_append_right _ r'.mark_mem_standIns
  rcases hn with ⟨rfl, hn⟩ | ⟨x, -, -, rfl, rfl⟩ <;> rcases hm with ⟨rfl, hm⟩ | ⟨y, -, -, rfl, rfl⟩
  · rfl
  · constructor
    · rintro rfl
      exact absurd (List.prefix_append ..).isInfix (hn _ hmark)
    · rintro rfl
      exact absurd (List.prefix_append ..).isInfix (hn _ hmark')
  · constructor
    · rintro rfl
      exact absurd (List.prefix_append ..).isInfix (hm _ hmark)
    · rintro rfl
      exact absurd (List.prefix_append ..).isInfix (hm _ hmark')
  · rw [List.append_cancel_left_eq, List.append_cancel_left_eq]

end

/-! ### Restored text -/

/-- A text of characters of names that stands in the source stands among the symbols. -/
theorem prefix_of_prefix_source (hz : Delimited z) (hm : .mark ∉ z)
    (hw : ∀ c ∈ w, isNameChar c = true) (h : w <+: spell .source z) : w.map .char <+: z := by
  induction z generalizing w with
  | nil =>
      rw [List.prefix_nil.1 h]
      exact List.nil_prefix
  | cons a z ih =>
      cases w with
      | nil => exact List.nil_prefix
      | cons c w =>
          cases a with
          | char e =>
              obtain ⟨rfl, hp⟩ := List.cons_prefix_cons.1 h
              exact List.cons_prefix_cons.2 ⟨rfl, ih hz.tail (fun h => hm (List.mem_cons_of_mem _ h))
                (fun c hc => hw c (List.mem_cons_of_mem _ hc)) hp⟩
          | delimiter d =>
              have hd := hz d List.mem_cons_self
              exact absurd h (Text.not_prefix_append_of_disjoint (List.cons_ne_nil c w)
                (delimiter_ne_nil d hd) (fun e he => not_mem_delimiter hd (hw e he)) _)
          | mark => exact absurd List.mem_cons_self hm

theorem infix_of_infix_source (hz : Delimited z) (hm : .mark ∉ z) (hne : w ≠ [])
    (hw : ∀ c ∈ w, isNameChar c = true) (h : w <:+: spell .source z) : w.map .char <:+: z := by
  induction z with
  | nil => exact absurd (List.infix_nil.1 h) hne
  | cons a z ih =>
      have ih := ih hz.tail fun h => hm (List.mem_cons_of_mem _ h)
      rcases Text.infix_append_iff.1 h with ⟨v, hv, hs, hp⟩ | h
      · cases a with
        | char e =>
            rcases List.suffix_cons_iff.1 hs with rfl | hs
            · exact (prefix_of_prefix_source hz hm hw hp).isInfix
            · exact absurd (List.suffix_nil.1 hs) hv
        | delimiter d =>
            have hd := hz d List.mem_cons_self
            exact absurd hp (Text.not_prefix_append_of_disjoint hne hv
              (fun e he hev => not_mem_delimiter hd (hw e he) (hs.subset hev)) _)
        | mark => exact absurd List.mem_cons_self hm
      · exact List.infix_cons_iff.2 (.inr (ih h))

/-- A replacement of one substitute leaves the others. -/
theorem IsSubstitute.infix_replace {old : Text} (hw : IsSubstitute w) (hold : IsSubstitute old)
    (hne : w ≠ old) (new : Text) (h : w <:+: t) : w <:+: replace old new t := by
  induction t using Text.occurrenceInduction hold.ne_nil with
  | nil => exact absurd (List.infix_nil.1 h) hw.ne_nil
  | found rest ih =>
      rw [Text.replace_append_self hold.ne_nil]
      rcases Text.infix_append_iff.1 h with ⟨v, hv, hs, hp⟩ | h
      · exact absurd hp (hw.not_prefix_append hold hne hv hs rest)
      · exact List.infix_append_of_infix_right (ih h)
  | cons c rest hp ih =>
      rcases List.infix_cons_iff.1 h with ⟨k, hk⟩ | h
      · rw [← hk, Text.replace_append_of_not_prefix fun v hv hs =>
          hold.not_prefix_append hw hne.symm hv hs k]
        exact (List.prefix_append ..).isInfix
      · rw [Text.replace_cons hp]
        exact List.infix_cons_iff.2 (.inr (ih h))

theorem IsSubstitute.infix_restoreTemplates (hr : r.WellFormed) (hw : IsSubstitute w)
    (hmem : w ∉ r.substitutes) (h : w <:+: t) : w <:+: r.restoreTemplates t := by
  rw [hr.restoreTemplates_eq_restoreWith]
  refine List.foldlRecOn (motive := fun u => w <:+: u) r.placeholders _ h fun u hu p hp => ?_
  refine hw.infix_replace (hr.isSubstitute p hp) ?_ _ hu
  rintro rfl
  exact hmem (List.mem_map_of_mem hp)

/-- A substitute of one registry that stands in the source shows in what the other restores. -/
theorem not_infix_source (hr : r.WellFormed) (hr' : r'.WellFormed) (hz : Delimited z)
    (hm : .mark ∉ z) (hw : w ∈ r.substitutes) (hmem : w ∉ r'.substitutes)
    (h : ¬ w <:+: r'.restoreTemplates (spell r'.spelling z)) : ¬ w <:+: spell .source z := by
  intro hi
  have hsub := isSubstitute_of_mem hr hw
  obtain ⟨x, y, he⟩ := infix_of_infix_source hz hm hsub.ne_nil
    (fun c hc => (hsub.isNameChar_of_mem hc).1) hi
  refine h (hsub.infix_restoreTemplates hr' hmem ⟨spell r'.spelling x, spell r'.spelling y, ?_⟩)
  rw [← he, spell_append, spell_append, spell_map_char]

/-- Alike texts without a mark, in which no substitute shows once they are restored, are restored to
the same text. -/
theorem Alike.restoreTemplates_eq (hr : r.WellFormed) (hr' : r'.WellFormed)
    (hn : (r.substitutes ++ r'.substitutes).Nodup) (h : Alike r r' t t')
    (hm : ¬ r.bindingMark <:+: t) (ht : Hides r'.substitutes (r.restoreTemplates t))
    (ht' : Hides r.substitutes (r'.restoreTemplates t')) :
    r.restoreTemplates t = r'.restoreTemplates t' := by
  obtain ⟨z, hz, rfl, rfl⟩ := h
  obtain ⟨hnr, hnr', hdisjoint⟩ := List.nodup_append.1 hn
  have hmz : Symbol.mark ∉ z := by
    intro hmem
    obtain ⟨x, y, rfl⟩ := List.append_of_mem hmem
    refine hm ⟨spell r.spelling x, spell r.spelling y, ?_⟩
    rw [spell_append, spell_cons, List.append_assoc]
    rfl
  rw [restoreTemplates_spell hr hnr hz hmz, restoreTemplates_spell hr' hnr' hz hmz]
  · exact fun w hw => not_infix_source hr' hr hz hmz hw
      (fun hmem => hdisjoint w hmem w hw rfl) (ht w hw)
  · exact fun w hw => not_infix_source hr hr' hz hmz hw
      (fun hmem => hdisjoint w hw w hmem rfl) (ht' w hw)

end AmpMarkup.Source
