import AmpMarkup.Proofs.Text.Occurrence
import AmpMarkup.Source.Binding

/-! The attributes that a span splits into. Each stands after spaces and has a name, a value starts
with an equals sign, and together they make up the span. -/

namespace AmpMarkup.Source

variable {t u span body solidus : Text} {a : SourceAttribute} {as : List SourceAttribute}

/-- Whether the text does not go on with a character of a name. -/
def EndsWord (t : Text) : Prop :=
  ∀ c, t.head? = some c → isNameChar c = false

/-- A value as written behind a name: text between two quotes of one kind, or text without quotes and
spaces. -/
inductive IsWrittenValue : Text → Prop where
  | quoted {quote : Char} {inside : Text} (hquote : quote = '"' ∨ quote = '\'')
      (hinside : quote ∉ inside) : IsWrittenValue ('=' :: quote :: (inside ++ [quote]))
  | unquoted {w : Text} (hne : w ≠ [])
      (hchars : ∀ c ∈ w, c ≠ '"' ∧ c ≠ '\'' ∧ isSpace c = false) : IsWrittenValue ('=' :: w)

/-- The form of an attribute as written in a span. -/
structure SourceAttribute.Written (a : SourceAttribute) : Prop where
  leading_ne : a.leading ≠ []
  leading_space : ∀ c ∈ a.leading, isSpace c = true
  name_ne : a.name ≠ []
  name_chars : ∀ c ∈ a.name, isNameChar c = true
  value : ∀ v, a.value = some v → IsWrittenValue v

/-! ### Words -/

theorem EndsWord.nil : EndsWord [] := by
  simp [EndsWord]

theorem endsWord_cons {c : Char} : EndsWord (c :: t) ↔ isNameChar c = false := by
  simp [EndsWord]

theorem takeWhile_word {name : Text} (hn : ∀ c ∈ name, isNameChar c = true) (ht : EndsWord t) :
    (name ++ t).takeWhile isNameChar = name :=
  Text.takeWhile_append_stop hn ht

theorem dropWhile_word {name : Text} (hn : ∀ c ∈ name, isNameChar c = true) (ht : EndsWord t) :
    (name ++ t).dropWhile isNameChar = t :=
  Text.dropWhile_append_stop hn ht

theorem endsWord_dropWhile (t : Text) : EndsWord (t.dropWhile isNameChar) :=
  fun _ => Text.of_head?_dropWhile

theorem toNat_of_isNameChar {c : Char} (h : isNameChar c = true) : 45 ≤ c.toNat ∧ c.toNat ≤ 122 := by
  unfold isNameChar Char.isAlphanum Char.isAlpha Char.isUpper Char.isLower Char.isDigit at h
  simp only [Bool.or_eq_true, Bool.and_eq_true, decide_eq_true_eq, beq_iff_eq,
    UInt32.le_iff_toNat_le, ge_iff_le] at h
  rcases h with (((h | h) | h) | rfl) | rfl
  · exact ⟨Nat.le_trans (by decide) h.1, Nat.le_trans h.2 (by decide)⟩
  · exact ⟨Nat.le_trans (by decide) h.1, h.2⟩
  · exact ⟨Nat.le_trans (by decide) h.1, Nat.le_trans h.2 (by decide)⟩
  · decide
  · decide

theorem isBlank_of_isNameChar {c : Char} (h : isNameChar c = true) : isBlank c = false := by
  have hrange := toNat_of_isNameChar h
  refine Bool.eq_false_iff.2 fun hb => ?_
  simp only [isBlank, Bool.or_eq_true, Bool.and_eq_true, decide_eq_true_eq, beq_iff_eq] at hb
  omega

theorem isSpace_of_isNameChar {c : Char} (h : isNameChar c = true) : isSpace c = false :=
  Bool.eq_false_iff.2 fun hs =>
    Bool.eq_false_iff.1 (isBlank_of_isNameChar h) (isBlank_of_isSpace hs)

theorem isNameChar_of_isSpace {c : Char} (h : isSpace c = true) : isNameChar c = false :=
  Bool.eq_false_iff.2 fun hn => Bool.eq_false_iff.1 (isSpace_of_isNameChar hn) h

theorem ne_of_isNameChar {c d : Char} (h : isNameChar c = true) (hd : isNameChar d = false) :
    c ≠ d := by
  rintro rfl
  rw [h] at hd
  cases hd

/-! ### Splitting a span -/

theorem IsWrittenValue.exists_eq_cons {v : Text} (h : IsWrittenValue v) : ∃ w, v = '=' :: w := by
  cases h with
  | quoted hquote hinside => exact ⟨_, rfl⟩
  | unquoted hne hchars => exact ⟨_, rfl⟩

theorem isUnquoted_iff {c : Char} :
    isUnquoted c = true ↔ c ≠ '"' ∧ c ≠ '\'' ∧ isSpace c = false := by
  simp [isUnquoted, and_assoc]

/-- The first `stop` ends what is read up to one. -/
theorem spanThrough?_eq_some {stop : Char} {inside rest : Text}
    (h : spanThrough? stop t = some (inside, rest)) : ∃ u, stop ∉ u ∧ inside = u ++ [stop] := by
  induction t generalizing inside with
  | nil => simp [spanThrough?] at h
  | cons c t ih =>
      by_cases hc : c = stop
      · simp only [spanThrough?, hc, if_true, Option.some.injEq, Prod.mk.injEq] at h
        exact ⟨[], by simp, h.1.symm⟩
      · rw [spanThrough?, if_neg hc] at h
        obtain ⟨⟨inside', rest'⟩, hr, he⟩ := Option.map_eq_some_iff.1 h
        obtain ⟨rfl, rfl⟩ := Prod.mk.inj he
        obtain ⟨u, hu, rfl⟩ := ih hr
        exact ⟨c :: u, by simp [hu, Ne.symm hc], rfl⟩

theorem readValue?_written {value rest : Text} (h : readValue? t = some (value, rest)) :
    IsWrittenValue value := by
  cases t with
  | nil => simp [readValue?] at h
  | cons c t =>
      by_cases hquote : c = '"' ∨ c = '\''
      · rw [readValue?, if_pos hquote] at h
        obtain ⟨⟨inside, rest'⟩, hr, he⟩ := Option.map_eq_some_iff.1 h
        obtain ⟨rfl, rfl⟩ := Prod.mk.inj he
        obtain ⟨u, hu, rfl⟩ := spanThrough?_eq_some hr
        exact .quoted hquote hu
      · rw [readValue?, if_neg hquote] at h
        split at h
        · simp at h
        · next hs =>
            obtain ⟨rfl, rfl⟩ := Prod.mk.inj (Option.some.inj h)
            refine .unquoted (by simp) fun d hd => ?_
            rcases List.mem_cons.1 hd with rfl | hd
            · simpa [not_or, and_assoc] using And.intro hquote hs
            · exact isUnquoted_iff.1 (List.all_eq_true.1 List.all_takeWhile d hd)

theorem SourceAttribute.read?_name_value {leading rest : Text}
    (h : SourceAttribute.read? leading t = some (a, rest)) :
    (∀ c ∈ a.name, isNameChar c = true) ∧ ∀ v, a.value = some v → IsWrittenValue v := by
  unfold SourceAttribute.read? at h
  generalize readBracket '[' t = p at h
  obtain ⟨opened, u⟩ := p
  dsimp only at h
  split at h
  · simp at h
  · generalize readBracket ']' (u.dropWhile isNameChar) = q at h
    obtain ⟨closed, v⟩ := q
    have hname : ∀ c ∈ u.takeWhile isNameChar, isNameChar c = true := fun c hc =>
      List.all_eq_true.1 List.all_takeWhile c hc
    dsimp only at h
    split at h
    · obtain ⟨⟨value, rest'⟩, hr, he⟩ := Option.map_eq_some_iff.1 h
      obtain ⟨rfl, rfl⟩ := Prod.mk.inj he
      exact ⟨hname, fun v hv => Option.some.inj hv ▸ readValue?_written hr⟩
    · obtain ⟨rfl, rfl⟩ := Prod.mk.inj (Option.some.inj h)
      exact ⟨hname, fun v hv => nomatch hv⟩

theorem SourceAttribute.read?_written {leading rest : Text} (hl : leading ≠ [])
    (hs : ∀ c ∈ leading, isSpace c = true) (h : SourceAttribute.read? leading t = some (a, rest)) :
    a.Written := by
  obtain ⟨hn, he⟩ := read?_name_ne_nil h
  obtain ⟨hc, hv⟩ := read?_name_value h
  exact ⟨he ▸ hl, he ▸ hs, hn, hc, hv⟩

/-- A span is its attributes in the source, and spaces after the last one. -/
theorem splitAttributes?_spec (h : splitAttributes? t = some as) :
    (∀ a ∈ as, a.Written) ∧
      ∃ trailing, (∀ c ∈ trailing, isSpace c = true) ∧
        t = as.flatMap SourceAttribute.source ++ trailing := by
  have hspace : ∀ c ∈ t.takeWhile isSpace, isSpace c = true := fun c hc =>
    List.all_eq_true.1 List.all_takeWhile c hc
  induction hn : t.length using Nat.strongRecOn generalizing t as with
  | ind n ih =>
      have ht := List.takeWhile_append_dropWhile (p := isSpace) (l := t)
      rw [splitAttributes?] at h
      split at h
      · next hd =>
          obtain rfl := Option.some.inj h
          refine ⟨by simp, t.takeWhile isSpace, hspace, ?_⟩
          rw [hd, List.append_nil] at ht
          exact ht.symm
      · next c rest hd =>
          split at h
          · simp at h
          · next hl =>
              split at h
              · simp at h
              · next a rest' hr =>
                  obtain ⟨as', has, rfl⟩ := Option.map_eq_some_iff.1 h
                  -- An attribute has a name, so less text is left behind it.
                  have hlt : rest'.length < n := by
                    have h1 := SourceAttribute.read?_length_lt hr
                    have h2 := (List.dropWhile_sublist isSpace (l := t)).length_le
                    rw [hd] at h2
                    omega
                  obtain ⟨hw, trailing, hts, he⟩ := ih rest'.length hlt has
                    (fun c hc => List.all_eq_true.1 List.all_takeWhile c hc) rfl
                  have hwa := SourceAttribute.read?_written (by simpa using hl) hspace hr
                  refine ⟨?_, trailing, hts, ?_⟩
                  · intro b hb
                    rcases List.mem_cons.1 hb with rfl | hb
                    · exact hwa
                    · exact hw b hb
                  · rw [List.flatMap_cons, List.append_assoc, ← he,
                      ← SourceAttribute.read?_source hr, ← hd, ht]

/-- The attributes of a span without spaces at its end are the whole span. -/
theorem eq_of_splitAttributes? (h : splitAttributes? t = some as)
    (hlast : ∀ c, t.getLast? = some c → isSpace c = false) :
    t = as.flatMap SourceAttribute.source := by
  obtain ⟨-, trailing, hs, rfl⟩ := splitAttributes?_spec h
  cases hc : trailing.getLast? with
  | none => rw [List.getLast?_eq_none_iff.1 hc, List.append_nil]
  | some c =>
      have hns := hlast c (by rw [List.getLast?_append, hc]; rfl)
      rw [hs c (List.mem_of_getLast? hc)] at hns
      cases hns

theorem getLast?_trimEnd (t : Text) :
    ∀ c, ((t.reverse.dropWhile isSpace).reverse).getLast? = some c → isSpace c = false := by
  intro c hc
  rw [List.getLast?_reverse] at hc
  exact Text.of_head?_dropWhile hc

theorem trimEnd_append (t : Text) :
    ∃ trailing, (∀ c ∈ trailing, isSpace c = true) ∧
      t = (t.reverse.dropWhile isSpace).reverse ++ trailing := by
  refine ⟨(t.reverse.takeWhile isSpace).reverse, ?_, ?_⟩
  · exact fun c hc => List.all_eq_true.1 List.all_takeWhile c (List.mem_reverse.1 hc)
  · rw [← List.reverse_append, List.takeWhile_append_dropWhile, List.reverse_reverse]

/-- The part before the solidus has no spaces at its end, and what follows it is no word. -/
theorem splitSolidus_spec (span : Text) :
    span = (splitSolidus span).1 ++ (splitSolidus span).2 ∧
      (∀ c, (splitSolidus span).1.getLast? = some c → isSpace c = false) ∧
      EndsWord (splitSolidus span).2 := by
  obtain ⟨trailing, hts, ht⟩ := trimEnd_append span
  have hend : EndsWord trailing := by
    cases trailing with
    | nil => exact .nil
    | cons c trailing =>
        exact endsWord_cons.2 (isNameChar_of_isSpace (hts c List.mem_cons_self))
  have hsplit : ∀ body rest, span = body ++ rest → body ++ span.drop body.length = span := by
    rintro body rest rfl
    rw [List.drop_left]
  unfold splitSolidus
  dsimp only
  split
  · next before hb =>
      rw [List.reverse_reverse] at hb
      obtain ⟨spaces, hss, hbefore⟩ := trimEnd_append before.reverse
      rw [List.reverse_reverse] at hbefore
      have hspan : span = (before.dropWhile isSpace).reverse ++
          (spaces ++ '/' :: trailing) := by
        conv => lhs; rw [ht, hb, List.reverse_cons, hbefore]
        simp
      refine ⟨(hsplit _ _ hspan).symm, ?_, ?_⟩
      · have := getLast?_trimEnd before.reverse
        rwa [List.reverse_reverse] at this
      · rw [hspan, List.drop_left]
        cases spaces with
        | nil => exact endsWord_cons.2 (by decide)
        | cons c spaces =>
            exact endsWord_cons.2 (isNameChar_of_isSpace (hss c List.mem_cons_self))
  · refine ⟨(hsplit _ _ ht).symm, getLast?_trimEnd span, ?_⟩
    have : span.drop (span.reverse.dropWhile isSpace).reverse.length = trailing := by
      conv => lhs; arg 2; rw [ht]
      rw [List.drop_left]
    exact this ▸ hend

end AmpMarkup.Source
