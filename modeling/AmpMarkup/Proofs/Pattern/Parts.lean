import AmpMarkup.Proofs.Pattern.Continuation

/-! The parts of sets, groups and repetitions, read with `)$` behind the pattern and without. -/

namespace AmpMarkup.Pattern

variable {w u u' : Text} {fs : Flags}

/-- What is left behind blanks and behind a mark of a comment with the blanks after it. -/
def pastMark (t : Text) : Text :=
  match t.dropWhile isBlank with
  | '#' :: t => t.dropWhile isBlank
  | t => t

/-- A character that is no blank and starts no comment comes after the next one if it is first in what is left
behind blanks. -/
theorem peekAfter_of_extended {c : Char} (hblank : isBlank c = false) (hmark : c ≠ '#')
    (hfs : fs.has .extended = true) : peekAfter fs u = some c ↔ (pastMark u).head? = some c := by
  have hpeek : peekAfter fs u = (pastMark u).head?.or u.head? := by
    rw [peekAfter, if_pos hfs]
    rfl
  rw [hpeek]
  cases hseen : pastMark u with
  | cons d seen => rfl
  | nil =>
      refine iff_of_false (fun hu => ?_) nofun
      obtain ⟨t, rfl⟩ := List.head?_eq_some_iff.mp hu
      rw [pastMark, List.dropWhile_cons_of_neg (by simp [hblank])] at hseen
      simp [hmark] at hseen

/-- A circumflex at the front of a text, and what is left behind it. -/
def readCaret (behind : Text → Text) : Text → Bool × Text
  | '^' :: t => (true, behind t)
  | t => (false, t)

theorem splitAt?_colon (t : Text) : splitAt? ":" t = Text.splitOnce? ':' t := by
  change splitAt? [':'] t = _
  induction t with
  | nil => rfl
  | cons c t ih =>
      rw [splitAt?, Text.splitOnce?]
      by_cases hc : ':' = c
      · subst hc
        rfl
      · rw [if_neg (Ne.symm hc), Text.after?, if_neg hc, ih]

theorem readAsciiClass?_eq (t : Text) : readAsciiClass? t =
    (Text.after? "[:" t).bind fun t => (splitAt? ":" (readCaret id t).2).bind fun (name, rest) =>
      (Text.after? "]" rest).bind fun rest => (asciiRanges? name).bind fun ranges =>
        some (ranges, (readCaret id t).1, rest) :=
  rfl

theorem readHyphens_of_ne {bound : Nat} (h : ∀ t, u ≠ '-' :: t) : readHyphens fs bound u = ([], u) := by
  rw [readHyphens.eq_def]
  split
  · next t => exact absurd rfl (h t)
  · rfl

/-- A set starts with a circumflex or without and then with hyphens, or else with a bracket that stands for
itself. -/
theorem readSetStart_eq (fs : Flags) (t : Text) : readSetStart fs t =
    let start := readCaret fs.skip (fs.skip t)
    let hyphens := readHyphens fs start.2.length start.2
    match hyphens.1, hyphens.2 with
    | [], ']' :: rest => (⟨start.1, none, [⟨.single ']', 0⟩]⟩, fs.skip rest)
    | hyphens, rest => (⟨start.1, none, hyphens⟩, rest) :=
  rfl

namespace Continued

/-! ### Sets -/

theorem readSetItem?_cons (c : Char) (h : Continued w u u') :
    Agree (Read w) (fun x => Swallowed x ∨ BraceLeft fs x) (Pattern.readSetItem? fs (c :: u))
      (Pattern.readSetItem? fs (c :: u')) := by
  by_cases hslash : c = '\\'
  · subst hslash
    exact h.readEscape?
  · simp only [Pattern.readSetItem?]
    exact .some (.intro _ h)

theorem readSetItem? (h : Continued w u u') :
    Agree (Read w) (fun x => Swallowed x ∨ BraceLeft fs x) (readSetItem? fs u) (readSetItem? fs u') := by
  cases u with
  | nil =>
      rcases h.of_nil with rfl | rfl
      · exact .useless (.inl rfl)
      · exact .none
  | cons c t =>
      obtain ⟨t', rfl, ht⟩ := h.of_cons
      exact ht.readSetItem?_cons c

theorem head?_eq_some_iff {c : Char} (hc : c ≠ ')') (h : Continued w u u') :
    u'.head? = some c ↔ u.head? = some c := by
  simp only [List.head?_eq_some_iff]
  rcases h.uncons c hc with ⟨t, t', rfl, rfl, -⟩ | ⟨hne, hne'⟩
  · exact iff_of_true ⟨t', rfl⟩ ⟨t, rfl⟩
  · exact iff_of_false (fun ⟨t, ht⟩ => hne' t ht) fun ⟨t, ht⟩ => hne t ht

theorem peekAfter_eq_some_iff {c : Char} (hc : c ≠ ')') (hblank : isBlank c = false) (hmark : c ≠ '#')
    (h : Continued w u u') : peekAfter fs u' = some c ↔ peekAfter fs u = some c := by
  by_cases hfs : fs.has .extended = true
  · rw [peekAfter_of_extended hblank hmark hfs, peekAfter_of_extended hblank hmark hfs, pastMark, pastMark]
    rcases h.dropBlanks.uncons '#' (by decide) with ⟨t, t', ht, ht', hcont⟩ | ⟨hne, hne'⟩
    · rw [ht, ht']
      exact hcont.dropBlanks.head?_eq_some_iff hc
    · simp only
      exact h.dropBlanks.head?_eq_some_iff hc
  · rw [peekAfter, peekAfter, if_neg hfs, if_neg hfs]
    exact h.head?_eq_some_iff hc

theorem readSetRange?_cons (fs : Flags) (c : Char) (h : Continued w u u') :
    Agree (Read w) Overrun (readSetRange? fs (c :: u)) (readSetRange? fs (c :: u')) := by
  rw [readSetRange?, readSetRange?]
  refine (h.readSetItem?_cons c).bind (fun x x' hx => ?_) fun x' hx => ?_
  · obtain @⟨first, rest, rest', hrest⟩ := hx
    dsimp only
    have hskip := hrest.skip fs
    -- A `-` makes a range unless a `]` or another `-` follows it, so two characters are looked at.
    rcases hskip.uncons '-' (by decide) with ⟨t, t', ht, ht', hcont⟩ | ⟨hne, hne'⟩
    · have hpeek (c : Char) (hc : c ≠ ')') (hblank : isBlank c = false) (hmark : c ≠ '#') :
          (peekAfter fs t' == some c) = (peekAfter fs t == some c) := by
        rw [Bool.eq_iff_iff, beq_iff_eq, beq_iff_eq, hcont.peekAfter_eq_some_iff hc hblank hmark]
      simp only [ht, ht']
      rw [hpeek ']' (by decide) (by decide) (by decide), hpeek '-' (by decide) (by decide) (by decide)]
      split
      · rw [ht, ht'] at hskip
        exact .bind_left fun c => .some (.intro c hskip)
      · refine (hcont.skip fs).readSetItem?.bind (fun x x' hx => ?_) fun x' hx => .of_none fun y hy => ?_
        · obtain ⟨second, hend⟩ := hx
          refine .bind_left fun low => .bind_left fun high => ?_
          dsimp only
          split
          · exact .some (.intro _ hend)
          · exact .none
        · obtain ⟨low, -, hy⟩ := Option.bind_eq_some_iff.mp hy
          obtain ⟨high, hhigh, hy⟩ := Option.bind_eq_some_iff.mp hy
          rcases hx with hx | ⟨l, inner, rfl, -⟩
          · split at hy
            · cases hy
              exact .inl hx
            · cases hy
          · cases hhigh
    · cases hx : fs.skip rest with
      | nil =>
          rw [hx] at hskip
          rcases hskip.of_nil with hx' | hx'
          · simp only [hx']
            refine .of_none fun y hy => ?_
            obtain ⟨c, -, hy⟩ := Option.bind_eq_some_iff.mp hy
            cases hy
            exact .inr rfl
          · simp only [hx']
            exact .none
      | cons c x =>
          rw [hx] at hskip hne
          obtain ⟨x', hx', -⟩ := hskip.of_cons
          rw [hx'] at hskip hne'
          simp only [hx']
          exact .bind_left fun c => .some (.intro c hskip)
  · refine .of_none fun y hy => ?_
    rcases hx with hx | ⟨l, inner, rfl, -⟩
    · obtain ⟨first, rest⟩ := x'
      obtain rfl : rest = ['$'] := hx
      simp only [fs.skip_cons (c := '$') (by decide) (by decide)] at hy
      obtain ⟨c, -, hy⟩ := Option.bind_eq_some_iff.mp hy
      cases hy
      exact .inl rfl
    · simp only [fs.skip_cons (c := '\x7b') (by decide) (by decide)] at hy
      cases hy

theorem after? {start : Text} (hstart : ')' ∉ start) (h : Continued w u u') :
    Agree (Continued w) never (Text.after? start u) (Text.after? start u') := by
  induction start generalizing u u' with
  | nil => exact .some h
  | cons c start ih =>
      rw [List.mem_cons, not_or] at hstart
      rcases h.uncons c (Ne.symm hstart.1) with ⟨t, t', rfl, rfl, ht⟩ | ⟨hne, hne'⟩
      · rw [Text.after?, Text.after?, if_pos rfl, if_pos rfl]
        exact ih hstart.2 ht
      · have hnone {v : Text} (hv : ∀ t, v ≠ c :: t) : Text.after? (c :: start) v = none := by
          cases v with
          | nil => rfl
          | cons d v =>
              rw [Text.after?, if_neg]
              rintro rfl
              exact hv v rfl
        rw [hnone hne, hnone hne']
        exact .none

theorem splitOnce? {c : Char} (hc : c ∉ [')', '$']) (h : Continued w u u') :
    Agree (Read w) never (Text.splitOnce? c u) (Text.splitOnce? c u') := by
  induction u generalizing u' with
  | nil =>
      have hend : Text.splitOnce? c [')', '$'] = none := by
        simp only [List.mem_cons, List.not_mem_nil, or_false, not_or] at hc
        simp [Text.splitOnce?, Ne.symm hc.1, Ne.symm hc.2]
      rcases h.of_nil with rfl | rfl
      · rw [hend]
        exact .none
      · exact .none
  | cons d u ih =>
      obtain ⟨t, rfl, ht⟩ := h.of_cons
      rw [Text.splitOnce?, Text.splitOnce?]
      split
      · exact .some (.intro [] ht)
      · refine (ih ht).map fun x x' hx => ?_
        obtain ⟨before, hrest⟩ := hx
        exact .intro (d :: before) hrest

theorem readCaret (behind : Text → Text) (h : Continued w u u')
    (hbehind : ∀ t t', Continued w t t' → Continued w (behind t) (behind t')) :
    Read w (readCaret behind u) (readCaret behind u') := by
  rcases h.uncons '^' (by decide) with ⟨t, t', rfl, rfl, ht⟩ | ⟨hne, hne'⟩
  · exact .intro true (hbehind t t' ht)
  · simp only [Pattern.readCaret]
    exact .intro false h

theorem readAsciiClass?_cons (c : Char) (h : Continued w u u') :
    Agree (fun x x' => x.1 = x'.1 ∧ x.2.1 = x'.2.1 ∧ Continued w x.2.2 x'.2.2) never
      (readAsciiClass? (c :: u)) (readAsciiClass? (c :: u')) := by
  have hopen : Agree (Continued w) never (Text.after? "[:" (c :: u)) (Text.after? "[:" (c :: u')) := by
    change Agree _ _ (Text.after? ['[', ':'] (c :: u)) (Text.after? ['[', ':'] (c :: u'))
    rw [Text.after?, Text.after?]
    split
    · exact h.after? (by decide)
    · exact .none
  rw [readAsciiClass?_eq, readAsciiClass?_eq]
  refine hopen.bind_of_never fun t t' ht => ?_
  have hcaret := ht.readCaret id fun _ _ h => h
  generalize Pattern.readCaret id t = x at hcaret ⊢
  generalize Pattern.readCaret id t' = x' at hcaret ⊢
  obtain ⟨negated, hs⟩ := hcaret
  rw [splitAt?_colon, splitAt?_colon]
  refine (hs.splitOnce? (by decide)).bind_of_never fun x x' hx => ?_
  obtain ⟨name, hrest⟩ := hx
  refine (hrest.after? (by decide)).bind_of_never fun rest rest' hend => ?_
  exact .bind_left fun ranges => .some ⟨rfl, rfl, hend⟩

theorem readHyphens (fs : Flags) {bound bound' : Nat} (hb : u.length ≤ bound) (hb' : u.length ≤ bound')
    (h : Continued w u u') : Read w (readHyphens fs bound u) (readHyphens fs bound' u') := by
  induction bound generalizing bound' u u' with
  | zero =>
      obtain rfl := List.length_eq_zero_iff.mp (Nat.eq_zero_of_le_zero hb)
      rw [readHyphens_of_ne (u := []) nofun, readHyphens_of_ne fun t ht => ?_]
      · exact .intro [] h
      · rcases h.of_nil with rfl | rfl <;> cases ht
  | succ bound ih =>
      rcases h.uncons '-' (by decide) with ⟨t, t', rfl, rfl, ht⟩ | ⟨hne, hne'⟩
      · cases bound' with
        | zero => exact absurd hb' (Nat.not_succ_le_zero _)
        | succ bound' =>
            have hlength := fs.length_skip_le t
            have hrest := ih (Nat.le_trans hlength (Nat.le_of_succ_le_succ hb))
              (Nat.le_trans hlength (Nat.le_of_succ_le_succ hb')) (ht.skip fs)
            rw [Pattern.readHyphens, Pattern.readHyphens]
            generalize Pattern.readHyphens fs bound (fs.skip t) = x at hrest ⊢
            generalize Pattern.readHyphens fs bound' (fs.skip t') = x' at hrest ⊢
            obtain ⟨hyphens, hrest⟩ := hrest
            exact .intro _ hrest
      · rw [readHyphens_of_ne hne, readHyphens_of_ne hne']
        exact .intro [] h

theorem readSetStart (fs : Flags) (h : Continued w u u') : Read w (readSetStart fs u) (readSetStart fs u') := by
  have hcaret := (h.skip fs).readCaret fs.skip fun _ _ h => h.skip fs
  rw [readSetStart_eq, readSetStart_eq]
  generalize Pattern.readCaret fs.skip (fs.skip u) = x at hcaret ⊢
  generalize Pattern.readCaret fs.skip (fs.skip u') = x' at hcaret ⊢
  obtain @⟨negated, s, s', hs⟩ := hcaret
  have hhyphens := hs.readHyphens fs (Nat.le_refl _) hs.length_le_right
  dsimp only
  generalize Pattern.readHyphens fs s.length s = y at hhyphens ⊢
  generalize Pattern.readHyphens fs s'.length s' = y' at hhyphens ⊢
  obtain ⟨hyphens, hrest⟩ := hhyphens
  cases hyphens with
  | cons hyphen hyphens => exact .intro _ hrest
  | nil =>
      rcases hrest.uncons ']' (by decide) with ⟨t, t', rfl, rfl, ht⟩ | ⟨hne, hne'⟩
      · exact .intro _ (ht.skip fs)
      · simp only [hne, hne', imp_self, implies_true]
        exact .intro _ hrest

/-! ### Groups -/

theorem readGroupName? (h : Continued w u u') : Agree (Read w) never (readGroupName? u) (readGroupName? u') := by
  rw [Pattern.readGroupName?, Pattern.readGroupName?]
  refine (h.splitOnce? (by decide)).bind_of_never fun x x' hx => ?_
  obtain ⟨name, hrest⟩ := hx
  cases name with
  | nil => exact .none
  | cons c name =>
      dsimp only
      split
      · exact .some (.intro _ hrest)
      · exact .none

theorem readFlags? {named : List (Option Flag)} {on : Bool} (h : Continued w u u') :
    Agree (FlagsRead w) (fun x => x.2.2.2 = ['$']) (readFlags? named on fs u) (readFlags? named on fs u') := by
  induction u generalizing named on fs u' with
  | nil =>
      rcases h.of_nil with rfl | rfl
      · refine .of_none fun x hx => ?_
        rw [Pattern.readFlags?, if_pos (by decide)] at hx
        split at hx
        · cases hx
        · cases hx
          rfl
      · exact .none
  | cons c u ih =>
      obtain ⟨t, rfl, ht⟩ := h.of_cons
      rw [Pattern.readFlags?, Pattern.readFlags?]
      split_ifs
      · exact .none
      · exact .some (.intro named fs c ht)
      · exact .none
      · exact ih ht
      · cases Flag.ofLetter? c with
        | none => exact .none
        | some f =>
            dsimp only
            split
            · exact .none
            · exact ih ht

/-! ### Repetitions -/

theorem afterGreed (h : Continued w u u') : Continued w (Reader.afterGreed u) (Reader.afterGreed u') := by
  rcases h.uncons '?' (by decide) with ⟨t, t', rfl, rfl, ht⟩ | ⟨hne, hne'⟩
  · exact ht
  · simp only [Reader.afterGreed]
    exact h

theorem readCount (fs : Flags) (h : Continued w u u') : Read w (Reader.readCount fs u) (Reader.readCount fs u') := by
  have hblanks := h.dropBlanks
  have hd := hblanks.readDigits fs Char.isDigit (by decide)
    (.inr ⟨Nat.le_refl _, hblanks.length_le_right⟩)
  rw [Reader.readCount, Reader.readCount]
  dsimp only
  generalize Pattern.readDigits fs Char.isDigit _ (u.dropWhile isBlank) = x at hd ⊢
  generalize Pattern.readDigits fs Char.isDigit _ (u'.dropWhile isBlank) = x' at hd ⊢
  obtain @⟨digits, rest, rest', hrest⟩ := hd
  refine .intro _ ?_
  cases rest with
  | nil => rcases hrest.of_nil with rfl | rfl <;> exact hrest
  | cons c t =>
      obtain ⟨t', rfl, ht⟩ := hrest.of_cons
      dsimp only
      split
      · exact hrest.dropBlanks.skip fs
      · exact hrest

end Continued

end AmpMarkup.Pattern
