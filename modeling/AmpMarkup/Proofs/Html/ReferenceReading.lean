import AmpMarkup.Proofs.Html.TagEnd
import AmpMarkup.Proofs.Source.SymbolScan

/-! Character references in front of other text. Neither an underscore nor a space is a part of a
reference, so a reference ends before the next stand-in and takes the same symbols under every
registry. -/

namespace AmpMarkup.Html.CharacterReference

open Source (Registry Symbol Delimited Spaced spell)

variable {inValue : Bool} {c : Char} {u k : Text} {z : List Symbol}

/-- Whether a character may belong to a reference or have a say in where it ends. -/
def isReferenceChar (c : Char) : Bool :=
  c.isAlphanum || c == '#' || c == ';' || c == '='

/-- No reference goes on in this text. -/
def EndsReference (k : Text) : Prop :=
  ∀ c, k.head? = some c → isReferenceChar c = false

theorem isAlphanum_eq_false (h : isReferenceChar c = false) : c.isAlphanum = false := by
  simp only [isReferenceChar, Bool.or_eq_false_iff] at h
  exact h.1.1.1

theorem ne_of_isReferenceChar {d : Char} (h : isReferenceChar c = false)
    (hd : isReferenceChar d = true) : c ≠ d := by
  rintro rfl
  rw [h] at hd
  cases hd

theorem takeWhile_append_end {p : Char → Bool} (hp : ∀ c, p c = true → c.isAlphanum = true)
    (hk : EndsReference k) :
    (u ++ k).takeWhile p = u.takeWhile p ∧ (u ++ k).dropWhile p = u.dropWhile p ++ k := by
  induction u with
  | nil =>
      cases k with
      | nil => exact ⟨rfl, rfl⟩
      | cons c k =>
          have hc : ¬ p c = true := fun h => by
            have := isAlphanum_eq_false (hk c rfl)
            rw [hp c h] at this
            cases this
          rw [List.nil_append, List.takeWhile_cons_of_neg hc, List.dropWhile_cons_of_neg hc]
          exact ⟨rfl, rfl⟩
  | cons c u ih =>
      rw [List.cons_append]
      by_cases hc : p c = true
      · rw [List.takeWhile_cons_of_pos hc, List.takeWhile_cons_of_pos hc,
          List.dropWhile_cons_of_pos hc, List.dropWhile_cons_of_pos hc, ih.1, ih.2]
        exact ⟨rfl, rfl⟩
      · rw [List.takeWhile_cons_of_neg hc, List.takeWhile_cons_of_neg hc,
          List.dropWhile_cons_of_neg hc, List.dropWhile_cons_of_neg hc]
        exact ⟨rfl, rfl⟩

theorem dropSemicolon_append (hk : EndsReference k) (u : Text) :
    dropSemicolon (u ++ k) = dropSemicolon u ++ k := by
  cases u with
  | nil =>
      cases k with
      | nil => rfl
      | cons c k =>
          have hc := ne_of_isReferenceChar (hk c rfl) (d := ';') rfl
          rw [List.nil_append, dropSemicolon]
          · rfl
          · exact fun x h => hc (List.cons.inj h).1
  | cons c u =>
      by_cases hc : c = ';'
      · subst hc
        rfl
      · rw [List.cons_append, dropSemicolon, dropSemicolon]
        · rfl
        · exact fun x h => hc (List.cons.inj h).1
        · exact fun x h => hc (List.cons.inj h).1

theorem readDigits?_append {base : Nat} {p : Char → Bool}
    (hp : ∀ c, p c = true → c.isAlphanum = true) (hk : EndsReference k) (u : Text) :
    readDigits? base p (u ++ k) = (readDigits? base p u).map fun q => (q.1, q.2 ++ k) := by
  obtain ⟨ht, hd⟩ := takeWhile_append_end (u := u) hp hk
  rw [readDigits?, readDigits?, ht, hd, dropSemicolon_append hk]
  generalize u.takeWhile p = digits
  cases digits <;> rfl

section
variable {n : Name} {t rest : Text} {length : Nat} (hn : lookup? (t.take (length + 1)) = some n)
include hn

theorem readName?_semicolon (hd : t.drop (length + 1) = ';' :: rest) :
    readName? inValue t (length + 1) = some (n.character, rest) := by
  rw [readName?, hn, hd]
  rfl

theorem readName?_bare (hd : (t.drop (length + 1)).head? ≠ some ';') :
    readName? inValue t (length + 1) =
      if n.bare then
        if inValue && (t.drop (length + 1)).head?.any (fun c => c == '=' || c.isAlphanum) then none
        else some (n.character, t.drop (length + 1))
      else readName? inValue t length := by
  rw [readName?, hn]
  split
  · next hm => exact absurd (congrArg List.head? hm) hd
  · next hm _ => rw [Option.some.inj hm]
  · next hm => cases hm

end

theorem readName?_append (hk : EndsReference k) {length : Nat} (hl : length ≤ u.length) :
    readName? inValue (u ++ k) length =
      (readName? inValue u length).map fun q => (q.1, q.2 ++ k) := by
  induction length with
  | zero => rfl
  | succ length ih =>
      have ih := ih (Nat.le_of_succ_le hl)
      have htake : (u ++ k).take (length + 1) = u.take (length + 1) :=
        List.take_append_of_le_length hl
      have hdrop : (u ++ k).drop (length + 1) = u.drop (length + 1) ++ k :=
        List.drop_append_of_le_length hl
      cases hn : lookup? (u.take (length + 1)) with
      | none => rw [readName?, readName?, htake, hn, ih]
      | some n =>
          have hn' : lookup? ((u ++ k).take (length + 1)) = some n := by rw [htake, hn]
          -- What decides is the next character, and the text behind has none that counts.
          have hhead : ∀ p : Char → Bool, (∀ c, isReferenceChar c = false → p c = false) →
              (u.drop (length + 1) ++ k).head?.any p = (u.drop (length + 1)).head?.any p := by
            intro p hp
            cases u.drop (length + 1) with
            | cons d rest => rfl
            | nil =>
                cases k with
                | nil => rfl
                | cons c k => exact hp c (hk c rfl)
          by_cases hd : (u.drop (length + 1)).head? = some ';'
          · obtain ⟨rest, hrest⟩ : ∃ rest, u.drop (length + 1) = ';' :: rest := by
              cases hu : u.drop (length + 1) with
              | nil => rw [hu] at hd; cases hd
              | cons d rest => exact ⟨rest, by rw [hu] at hd; rw [Option.some.inj hd]⟩
            have hrest' : (u ++ k).drop (length + 1) = ';' :: (rest ++ k) := by
              rw [hdrop, hrest]
              rfl
            rw [readName?_semicolon hn hrest, readName?_semicolon hn' hrest']
            rfl
          · have hd' : ((u ++ k).drop (length + 1)).head? ≠ some ';' := by
              intro h
              have hsemi := hhead (· == ';') fun c hc => by
                simpa using ne_of_isReferenceChar hc (d := ';') rfl
              rw [← hdrop, h] at hsemi
              obtain ⟨c, hc, he⟩ := (Option.any_eq_true _ _).1 hsemi.symm
              exact hd (hc.trans (congrArg some (by simpa using he)))
            have hstop := hhead (fun c => c == '=' || c.isAlphanum) fun c hc => by
              rw [isAlphanum_eq_false hc, Bool.or_false, beq_eq_false_iff_ne]
              exact ne_of_isReferenceChar hc rfl
            rw [readName?_bare hn hd, readName?_bare hn' hd', hdrop, hstop, ih]
            split
            · split <;> rfl
            · rfl

theorem read?_of_ne {t : Text} (h : t.head? ≠ some '#') :
    read? inValue t = readName? inValue t (t.takeWhile Char.isAlphanum).length := by
  unfold read?
  split
  · exact absurd rfl h
  · exact absurd rfl h
  · exact absurd rfl h
  · rfl

theorem read?_decimal {t : Text} (hx : t.head? ≠ some 'x') (hX : t.head? ≠ some 'X') :
    read? inValue ('#' :: t) = readDigits? 10 Char.isDigit t := by
  rw [read?]
  · exact fun u h => hx (congrArg List.head? h)
  · exact fun u h => hX (congrArg List.head? h)

/-- A reference is read from the text in front alone. -/
theorem read?_append (hk : EndsReference k) (u : Text) :
    read? inValue (u ++ k) = (read? inValue u).map fun q => (q.1, q.2 ++ k) := by
  have hhex : ∀ c, isHexDigit c = true → c.isAlphanum = true := fun _ => isAlphanum_of_isHexDigit
  have hdec : ∀ c : Char, c.isDigit = true → c.isAlphanum = true := fun _ => isAlphanum_of_isDigit
  have hend : ∀ c, isReferenceChar c = true → k.head? ≠ some c := fun c hc h => by
    rw [hk c h] at hc
    cases hc
  cases u with
  | nil =>
      rw [List.nil_append, read?_of_ne (hend '#' rfl), read?_of_ne (t := []) (by simp)]
      have ht := (takeWhile_append_end (u := []) (fun _ h => h) hk).1
      rw [List.nil_append] at ht
      rw [ht]
      rfl
  | cons c u =>
      by_cases hc : c = '#'
      · subst hc
        cases u with
        | nil =>
            rw [List.singleton_append, read?_decimal (hend 'x' rfl) (hend 'X' rfl),
              read?_decimal (t := []) (by simp) (by simp)]
            exact readDigits?_append hdec hk []
        | cons d u =>
            by_cases hx : d = 'x'
            · subst hx
              exact readDigits?_append hhex hk u
            · by_cases hX : d = 'X'
              · subst hX
                exact readDigits?_append hhex hk u
              · have hd : ∀ e, d ≠ e → ∀ v : Text, (d :: v).head? ≠ some e := fun e he v h =>
                  he (Option.some.inj h)
                rw [read?_decimal (hd 'x' hx u) (hd 'X' hX u), List.cons_append, List.cons_append,
                  read?_decimal (hd 'x' hx _) (hd 'X' hX _)]
                exact readDigits?_append hdec hk (d :: u)
      · have hd : ∀ v : Text, (c :: v).head? ≠ some '#' := fun v h => hc (Option.some.inj h)
        rw [read?_of_ne (hd u), List.cons_append, read?_of_ne (hd _), ← List.cons_append,
          (takeWhile_append_end (fun _ h => h) hk).1]
        exact readName?_append hk (List.takeWhile_sublist _).length_le

/-- The characters that a reference can take come first, and what follows them ends a reference under
every registry. -/
theorem exists_referenceChars (hz : Delimited z) (hs : Spaced false z) :
    ∃ (u : Text) (y : List Symbol), z = u.map .char ++ y ∧ Spaced false y ∧
      ∀ r : Registry, r.WellFormed → EndsReference (spell r.spelling y) := by
  induction z with
  | nil => exact ⟨[], [], rfl, trivial, fun _ _ _ h => nomatch h⟩
  | cons a z ih =>
      cases a with
      | char c =>
          by_cases hc : isReferenceChar c = true
          · have hspace : isSpace c = false := by
              refine Bool.eq_false_iff.2 fun h => ?_
              simp only [isSpace, Bool.or_eq_true, beq_iff_eq] at h
              rcases h with (((rfl | rfl) | rfl) | rfl) | rfl <;> exact absurd hc (by decide)
            obtain ⟨u, y, rfl, hy, h⟩ := ih hz.tail (hspace ▸ hs)
            exact ⟨c :: u, y, rfl, hy, h⟩
          · rw [Bool.not_eq_true] at hc
            exact ⟨[], _, rfl, hs, fun _ _ d hd => Option.some.inj hd ▸ hc⟩
      | delimiter d =>
          -- However it is spelled, a substitute starts with an underscore.
          refine ⟨[], _, rfl, hs, fun r hr e he => ?_⟩
          obtain ⟨t, ht⟩ := (hr.isSubstitute_spelling (hz d List.mem_cons_self)).eq_cons
          rw [Source.spell_cons, Symbol.spell, ht] at he
          exact Option.some.inj he ▸ rfl
      | mark => cases hs.1

/-- A reference takes the same symbols under every registry. -/
theorem exists_read?_spell (inValue : Bool) (hz : Delimited z) (hs : Spaced false z) :
    (∀ r : Registry, r.WellFormed → read? inValue (spell r.spelling z) = none) ∨
      ∃ c y, y.length ≤ z.length ∧ Delimited y ∧ Spaced false y ∧ ∀ r : Registry, r.WellFormed →
        read? inValue (spell r.spelling z) = some (c, spell r.spelling y) := by
  obtain ⟨u, y, rfl, hsy, hend⟩ := exists_referenceChars hz hs
  have hy : Delimited y := fun d hd => hz d (List.mem_append_right _ hd)
  have hread : ∀ r : Registry, r.WellFormed →
      read? inValue (spell r.spelling (u.map .char ++ y)) =
        (read? inValue u).map fun q => (q.1, q.2 ++ spell r.spelling y) := by
    intro r hr
    rw [Source.spell_append, Source.spell_map_char]
    exact read?_append (hend r hr) u
  cases hu : read? inValue u with
  | none => exact .inl fun r hr => by rw [hread r hr, hu]; rfl
  | some q =>
      obtain ⟨c, rest⟩ := q
      refine .inr ⟨c, rest.map .char ++ y, ?_, ?_, (Source.spaced_map_char false rest).append hsy,
        fun r hr => ?_⟩
      · have := read?_length_le hu
        simp only [List.length_append, List.length_map]
        omega
      · exact fun d hd => (List.mem_append.1 hd).elim (Source.delimited_map_char rest d) (hy d)
      · rw [hread r hr, hu, Source.spell_append, Source.spell_map_char]
        rfl

end AmpMarkup.Html.CharacterReference
