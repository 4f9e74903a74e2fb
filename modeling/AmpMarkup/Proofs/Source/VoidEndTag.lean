import AmpMarkup.Proofs.Text.Occurrence
import AmpMarkup.Source.VoidElement

/-! End tags of void elements in any markup: where one starts, and what is left when they are taken
out. -/

namespace AmpMarkup.Source

/-- Whether an end tag of a void element stands somewhere in the markup. -/
def HasVoidEndTag (t : Text) : Prop :=
  ∃ v, v <:+ t ∧ (afterVoidEndTag? v).isSome = true

theorem not_hasVoidEndTag_nil : ¬ HasVoidEndTag [] := by
  rintro ⟨v, hv, ha⟩
  rw [List.suffix_nil.1 hv] at ha
  cases ha

theorem hasVoidEndTag_cons {c : Char} {t : Text} :
    HasVoidEndTag (c :: t) ↔ (afterVoidEndTag? (c :: t)).isSome = true ∨ HasVoidEndTag t := by
  constructor
  · rintro ⟨v, hv, ha⟩
    rcases List.suffix_cons_iff.1 hv with rfl | hv
    · exact .inl ha
    · exact .inr ⟨v, hv, ha⟩
  · rintro (ha | ⟨v, hv, ha⟩)
    · exact ⟨c :: t, List.suffix_rfl, ha⟩
    · exact ⟨v, hv.trans (List.suffix_cons ..), ha⟩

instance HasVoidEndTag.decide : (t : Text) → Decidable (HasVoidEndTag t)
  | [] => .isFalse not_hasVoidEndTag_nil
  | _ :: t =>
    have := HasVoidEndTag.decide t
    decidable_of_iff _ hasVoidEndTag_cons.symm

/-! ### Names of void elements -/

theorem lower_mem_of_isVoid {name : Text} (h : Vocabulary.isVoid name = true) :
    name.lower ∈ Vocabulary.voidElements := by
  simpa [Vocabulary.isVoid] using h

theorem lower_mem_of_isTextOnly {name : Text} (h : Vocabulary.isTextOnly name = true) :
    name.lower ∈ Vocabulary.rawTextElements ++ Vocabulary.escapableTextElements := by
  simpa [Vocabulary.isTextOnly, Vocabulary.isRawText, Vocabulary.isEscapableText] using h

/-- Names of the vocabulary are made of letters. -/
theorem isLower_of_mem_textOnly :
    ∀ v ∈ Vocabulary.rawTextElements ++ Vocabulary.escapableTextElements,
      ∀ c ∈ v, c.isLower = true := by
  have hall : ∀ v ∈ Vocabulary.rawTextElements ++ Vocabulary.escapableTextElements,
      v.all Char.isLower = true := by decide
  exact fun v hv => List.all_eq_true.1 (hall v hv)

theorem toLower_mem_of_isTextOnly {name : Text} {c : Char}
    (h : Vocabulary.isTextOnly name = true) (hc : c ∈ name) : c.toLower.isLower = true :=
  isLower_of_mem_textOnly name.lower (lower_mem_of_isTextOnly h) _ (List.mem_map_of_mem hc)

/-- No element of plain text is void. -/
theorem isVoid_of_isTextOnly {name : Text} (h : Vocabulary.isTextOnly name = true) :
    Vocabulary.isVoid name = false := by
  have hall : ∀ v ∈ Vocabulary.rawTextElements ++ Vocabulary.escapableTextElements,
      Vocabulary.voidElements.contains v = false := by decide
  exact hall _ (lower_mem_of_isTextOnly h)

theorem length_le_of_isVoid {name : Text} (h : Vocabulary.isVoid name = true) :
    name.length ≤ 8 := by
  rw [← Text.lower_length]
  exact (by decide : ∀ v ∈ Vocabulary.voidElements, v.length ≤ 8) _ (lower_mem_of_isVoid h)

theorem isLower_of_mem_voidElements :
    ∀ v ∈ Vocabulary.voidElements, ∀ c ∈ v, c.isLower = true := by
  have hall : ∀ v ∈ Vocabulary.voidElements, v.all Char.isLower = true := by decide
  exact fun v hv => List.all_eq_true.1 (hall v hv)

theorem toLower_mem_of_isVoid {name : Text} {c : Char} (h : Vocabulary.isVoid name = true)
    (hc : c ∈ name) : c.toLower.isLower = true :=
  isLower_of_mem_voidElements _ (lower_mem_of_isVoid h) _ (List.mem_map_of_mem hc)

theorem isSpace_of_isVoid {name : Text} (h : Vocabulary.isVoid name = true) :
    ∀ c ∈ name, isSpace c = false := by
  intro c hc
  cases hs : isSpace c with
  | false => rfl
  | true =>
      have hl := toLower_mem_of_isVoid h hc
      simp only [isSpace, Bool.or_eq_true, beq_iff_eq] at hs
      rcases hs with (((hs | hs) | hs) | hs) | hs <;> subst hs <;> exact absurd hl (by decide)

/-! ### Where one starts -/

variable {t u rest : Text} {c : Char}

theorem foldLetter_of_isLower {c : Char} (h : c.toLower.isLower = true) :
    foldLetter c = c.toLower := by
  have h1 : c ≠ '\u212a' := by
    rintro rfl
    exact absurd h (by decide)
  have h2 : c ≠ '\u017f' := by
    rintro rfl
    exact absurd h (by decide)
  rw [foldLetter, if_neg h1, if_neg h2]

/-- A name in any case, and the `>` behind it. -/
theorem afterName?_eq_some_iff {name : Text} : afterName? name t = some rest ↔
    ∃ w, t = w ++ '>' :: rest ∧ w.map foldLetter = name := by
  induction name generalizing t with
  | nil =>
      constructor
      · intro h
        cases t with
        | nil => simp [afterName?] at h
        | cons c t =>
            by_cases hc : c = '>'
            · subst hc
              exact ⟨[], by rw [Option.some.inj h, List.nil_append], rfl⟩
            · simp [afterName?, hc] at h
      · rintro ⟨w, rfl, hw⟩
        rw [List.map_eq_nil_iff.1 hw]
        rfl
  | cons n name ih =>
      constructor
      · intro h
        cases t with
        | nil => cases h
        | cons c t =>
            rw [afterName?] at h
            split at h
            · next hc =>
                obtain ⟨w, rfl, rfl⟩ := ih.1 h
                exact ⟨c :: w, rfl, hc ▸ rfl⟩
            · cases h
      · rintro ⟨w, rfl, hw⟩
        obtain ⟨c, w, rfl, hc, hname⟩ := List.map_eq_cons_iff.1 hw
        rw [List.cons_append, afterName?, if_pos hc]
        exact ih.2 ⟨w, rfl, hname⟩

theorem not_mem_of_map_foldLetter {w : Text} (hw : w.map foldLetter ∈ Vocabulary.voidElements) :
    '>' ∉ w := fun h =>
  absurd (isLower_of_mem_voidElements _ hw _ (List.mem_map_of_mem h)) (by decide)

/-- The end tag of a void element has the letters of its name in any case. -/
theorem afterVoidEndTag?_eq_some_iff : afterVoidEndTag? t = some rest ↔
    ∃ w, t = '<' :: '/' :: w ++ '>' :: rest ∧ w.map foldLetter ∈ Vocabulary.voidElements := by
  constructor
  · intro h
    unfold afterVoidEndTag? at h
    split at h
    · obtain ⟨name, hname, hafter⟩ := List.exists_of_findSome?_eq_some h
      obtain ⟨w, rfl, rfl⟩ := afterName?_eq_some_iff.1 hafter
      exact ⟨w, rfl, hname⟩
    · cases h
  · rintro ⟨w, rfl, hw⟩
    have hsome : ((Vocabulary.voidElements.findSome?
        (afterName? · (w ++ '>' :: rest))).isSome) = true :=
      List.findSome?_isSome_iff.2 ⟨_, hw, Option.isSome_of_mem (afterName?_eq_some_iff.2 ⟨w, rfl, rfl⟩)⟩
    obtain ⟨rest', hfound⟩ := Option.isSome_iff_exists.1 hsome
    obtain ⟨name, hname, hafter⟩ := List.exists_of_findSome?_eq_some hfound
    obtain ⟨w', heq, rfl⟩ := afterName?_eq_some_iff.1 hafter
    obtain ⟨-, rfl⟩ := Text.append_cons_inj (not_mem_of_map_foldLetter hw)
      (not_mem_of_map_foldLetter hname) heq
    exact hfound

theorem stripVoidEndTags_of_some (h : afterVoidEndTag? t = some rest) :
    stripVoidEndTags t = stripVoidEndTags rest := by
  cases t with
  | nil => cases h
  | cons c t =>
      rw [stripVoidEndTags]
      split
      · next hr => rw [Option.some.inj (hr.symm.trans h)]
      · next hr => rw [hr] at h; cases h

theorem stripVoidEndTags_of_none (h : afterVoidEndTag? (c :: t) = none) :
    stripVoidEndTags (c :: t) = c :: stripVoidEndTags t := by
  rw [stripVoidEndTags]
  split
  · next hr => rw [hr] at h; cases h
  · rfl

theorem length_stripVoidEndTags_le (t : Text) : (stripVoidEndTags t).length ≤ t.length := by
  fun_induction stripVoidEndTags t with
  | case1 => exact Nat.le_refl _
  | case2 c t rest ha ih =>
      exact Nat.le_trans ih (Nat.le_of_lt (afterVoidEndTag?_length_lt ha))
  | case3 c t ha ih => exact Nat.succ_le_succ ih

/-- Taking end tags of void elements out leaves those texts alone that have none. -/
theorem stripVoidEndTags_eq_self_iff : stripVoidEndTags t = t ↔ ¬ HasVoidEndTag t := by
  constructor
  · intro h hv
    have hlt : (stripVoidEndTags t).length < t.length := by
      clear h
      fun_induction stripVoidEndTags t with
      | case1 => exact absurd hv not_hasVoidEndTag_nil
      | case2 c t rest ha ih =>
          exact Nat.lt_of_le_of_lt (length_stripVoidEndTags_le rest) (afterVoidEndTag?_length_lt ha)
      | case3 c t ha ih =>
          refine Nat.succ_lt_succ (ih ((hasVoidEndTag_cons.1 hv).resolve_left fun hs => ?_))
          rw [ha] at hs
          cases hs
    exact Nat.ne_of_lt hlt (congrArg List.length h)
  · intro hfree
    fun_induction stripVoidEndTags t with
    | case1 => rfl
    | case2 c t rest ha ih => exact absurd (hasVoidEndTag_cons.2 (.inl (by rw [ha]; rfl))) hfree
    | case3 c t ha ih => rw [ih fun h => hfree (hasVoidEndTag_cons.2 (.inr h))]

/-- An end tag that was put in is found, in the letters of the start tag. -/
theorem stripVoidEndTags_endTag {name : Text} (hv : Vocabulary.isVoid name = true) (t : Text) :
    stripVoidEndTags (endTag name ++ t) = stripVoidEndTags t := by
  have hlower : name.map foldLetter = name.lower :=
    List.map_congr_left fun c hc => foldLetter_of_isLower (toLower_mem_of_isVoid hv hc)
  apply stripVoidEndTags_of_some
  exact afterVoidEndTag?_eq_some_iff.2 ⟨name, by simp [endTag], hlower ▸ lower_mem_of_isVoid hv⟩

/-! ### Texts one after the other -/

/-- A character with which an end tag of a void element does not go on behind its `<`. -/
def BreaksEndTag (c : Char) : Prop :=
  c ≠ '/' ∧ c ≠ '>' ∧ (foldLetter c).isLower = false

instance (c : Char) : Decidable (BreaksEndTag c) :=
  inferInstanceAs (Decidable (c ≠ '/' ∧ c ≠ '>' ∧ (foldLetter c).isLower = false))

theorem BreaksEndTag.not_mem {w : Text} (hc : BreaksEndTag c)
    (hw : w.map foldLetter ∈ Vocabulary.voidElements) : c ∉ '/' :: w := by
  intro h
  rcases List.mem_cons.1 h with h | h
  · exact hc.1 h
  · have hlower := isLower_of_mem_voidElements _ hw _ (List.mem_map_of_mem h)
    exact Bool.false_ne_true (hc.2.2.symm.trans hlower)

/-- An end tag of a void element stands before such a character or starts with it. -/
theorem afterVoidEndTag?_append (hc : BreaksEndTag c) (ht : t ≠ []) (k : Text) :
    afterVoidEndTag? (t ++ c :: k) = (afterVoidEndTag? t).map (· ++ c :: k) := by
  cases ha : afterVoidEndTag? t with
  | some rest =>
      obtain ⟨w, rfl, hw⟩ := afterVoidEndTag?_eq_some_iff.1 ha
      exact afterVoidEndTag?_eq_some_iff.2 ⟨w, by simp, hw⟩
  | none =>
      refine Option.eq_none_iff_forall_not_mem.2 fun rest hrest => ?_
      obtain ⟨w, heq, hw⟩ := afterVoidEndTag?_eq_some_iff.1 hrest
      rcases List.append_eq_append_iff.1 heq with ⟨v, hv, hopen⟩ | ⟨v, hv, hclose⟩
      · cases v with
        | nil => exact hc.2.1 (List.cons.inj hopen).1
        | cons d v =>
            obtain rfl := (List.cons.inj hopen).1
            obtain ⟨e, t, rfl⟩ := List.exists_cons_of_ne_nil ht
            apply hc.not_mem hw
            rw [List.cons_append] at hv
            rw [(List.cons.inj hv).2]
            exact List.mem_append_right _ List.mem_cons_self
      · cases v with
        | nil => exact hc.2.1 (List.cons.inj hclose).1.symm
        | cons d v =>
            obtain ⟨rfl, -⟩ := List.cons.inj hclose
            rw [afterVoidEndTag?_eq_some_iff.2 ⟨w, hv, hw⟩] at ha
            cases ha

theorem stripVoidEndTags_append (hc : BreaksEndTag c) (t k : Text) :
    stripVoidEndTags (t ++ c :: k) = stripVoidEndTags t ++ stripVoidEndTags (c :: k) := by
  fun_induction stripVoidEndTags t with
  | case1 => rfl
  | case2 d t rest ha ih =>
      have happend := afterVoidEndTag?_append hc (List.cons_ne_nil d t) k
      rw [ha, Option.map_some] at happend
      rw [stripVoidEndTags_of_some happend, ih]
  | case3 d t ha ih =>
      have happend := afterVoidEndTag?_append hc (List.cons_ne_nil d t) k
      rw [ha, Option.map_none] at happend
      exact (stripVoidEndTags_of_none happend).trans (congrArg (d :: ·) ih)

theorem stripVoidEndTags_text (hu : '<' ∉ u) (t : Text) :
    stripVoidEndTags (u ++ t) = u ++ stripVoidEndTags t := by
  induction u with
  | nil => rfl
  | cons c u ih =>
      obtain ⟨hc, hu⟩ := not_or.1 (mt List.mem_cons.2 hu)
      have hnone : afterVoidEndTag? (c :: (u ++ t)) = none := by
        rw [afterVoidEndTag?]
        rintro v he
        exact hc (List.cons.inj he).1.symm
      rw [List.cons_append, stripVoidEndTags_of_none hnone, ih hu, List.cons_append]

end AmpMarkup.Source
