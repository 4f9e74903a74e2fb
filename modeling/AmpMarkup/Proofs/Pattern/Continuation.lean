import Mathlib.Tactic.SplitIfs
import AmpMarkup.Pattern.Parser

/-! Reading a pattern by itself and reading it with `)$` behind it. The readers of its parts do the same in
both cases, as long as a part ends before the pattern does; the rest of the pattern is then followed by `)$`
again. There are two ways to part: a comment that the pattern leaves open runs over `)$` as well, and a part
that the pattern breaks off may take characters of it. -/

namespace AmpMarkup.Pattern

/-- The last line of a text has the mark of a comment in it. -/
def MarkedLast (w : Text) : Prop :=
  ∃ before comment, w = before ++ '#' :: comment ∧ '\n' ∉ comment

/-- What is left to read of a text, and what is left where `)$` follows it. After a comment that the text
leaves open nothing is left in either case. -/
inductive Continued (w : Text) : Text → Text → Prop where
  | more {u : Text} (hu : u <:+ w) : Continued w u (u ++ [')', '$'])
  | comment (hw : MarkedLast w) : Continued w [] []

/-- Two answers that agree. Where the first one fails the second one may be of no use. -/
inductive Agree {α : Type} (same : α → α → Prop) (useless : α → Prop) : Option α → Option α → Prop where
  | none : Agree same useless none none
  | some {a a' : α} (h : same a a') : Agree same useless (some a) (some a')
  | useless {a' : α} (h : useless a') : Agree same useless none (some a')

/-- The same part has been read. -/
inductive Read {α : Type} (w : Text) : α × Text → α × Text → Prop where
  | intro (a : α) {u u' : Text} (h : Continued w u u') : Read w (a, u) (a, u')

/-- No answer is of no use. -/
def never {α : Type} (_ : α) : Prop := False

/-- The parenthesis behind the pattern has become a part of it. -/
def Swallowed {α : Type} (x : α × Text) : Prop := x.2 = ['$']

/-- A part of a set has been read of which the pattern lacks the end. -/
def Overrun {α : Type} (x : α × Text) : Prop := x.2 = ['$'] ∨ x.2 = [')', '$']

/-- Flags have been read up to the same mark. -/
inductive FlagsRead (w : Text) : List (Option Flag) × Flags × Char × Text →
    List (Option Flag) × Flags × Char × Text → Prop where
  | intro (named : List (Option Flag)) (fs : Flags) (mark : Char) {u u' : Text} (h : Continued w u u') :
      FlagsRead w (named, fs, mark, u) (named, fs, mark, u')

/-- The assertion of an edge has been read, and the pattern ends with the brace behind it. -/
def BraceLeft (fs : Flags) (x : Escape × Text) : Prop :=
  ∃ l inner, x = (.look l, '\x7b' :: inner) ∧ fs.skip inner = [')', '$']

variable {α β : Type} {w u u' v : Text} {fs : Flags}

/-! ### Agreement -/

namespace Agree

variable {same : α → α → Prop} {useless : α → Prop} {same' : β → β → Prop} {useless' : β → Prop}
  {a a' : Option α}

theorem bind {f g : α → Option β} (h : Agree same useless a a')
    (hsame : ∀ x x', same x x' → Agree same' useless' (f x) (g x'))
    (huseless : ∀ x', useless x' → Agree same' useless' Option.none (g x')) :
    Agree same' useless' (a.bind f) (a'.bind g) := by
  cases h with
  | none => exact .none
  | some h => exact hsame _ _ h
  | useless h => exact huseless _ h

theorem bind_of_never {f g : α → Option β} (h : Agree same never a a')
    (hsame : ∀ x x', same x x' → Agree same' useless' (f x) (g x')) :
    Agree same' useless' (a.bind f) (a'.bind g) :=
  h.bind hsame fun _ h => h.elim

theorem map {f g : α → β} (h : Agree same never a a') (hsame : ∀ x x', same x x' → same' (f x) (g x')) :
    Agree same' useless' (a.map f) (a'.map g) := by
  cases h with
  | none => exact .none
  | some h => exact .some (hsame _ _ h)
  | useless h => exact h.elim

/-- Where the first answer fails it is enough that the second one is of no use if there is one. -/
theorem of_none (h : ∀ x', a' = Option.some x' → useless x') : Agree same useless Option.none a' := by
  cases a' with
  | none => exact .none
  | some x' => exact .useless (h x' rfl)

theorem mono {useless' : α → Prop} (h : Agree same useless a a') (himp : ∀ x', useless x' → useless' x') :
    Agree same useless' a a' := by
  cases h with
  | none => exact .none
  | some h => exact .some h
  | useless h => exact .useless (himp _ h)

theorem map_same {f g : β → α} (o : Option β) (h : ∀ b, same (f b) (g b)) :
    Agree same useless (o.map f) (o.map g) := by
  cases o with
  | none => exact .none
  | some b => exact .some (h b)

/-- What is done with the same value on both sides does not change that they agree. -/
theorem bind_left {o : Option β} {f g : β → Option α} (h : ∀ b, Agree same useless (f b) (g b)) :
    Agree same useless (o.bind f) (o.bind g) := by
  cases o with
  | none => exact .none
  | some b => exact h b

end Agree

/-! ### Blanks and comments -/

namespace Continued

theorem mono (h : Continued w u u') (hwv : w <:+ v) : Continued v u u' := by
  cases h with
  | more hu => exact .more (hu.trans hwv)
  | comment hw =>
      obtain ⟨first, rfl⟩ := hwv
      obtain ⟨before, comment, rfl, hcomment⟩ := hw
      exact .comment ⟨first ++ before, comment, (List.append_assoc _ _ _).symm, hcomment⟩

theorem suffix (h : Continued w u u') : u <:+ w := by
  cases h with
  | more hu => exact hu
  | comment => exact List.nil_suffix

theorem of_cons {c : Char} (h : Continued w (c :: u) u') : ∃ t, u' = c :: t ∧ Continued w u t := by
  cases h with
  | more hu => exact ⟨u ++ [')', '$'], rfl, .more ((List.suffix_cons c u).trans hu)⟩

theorem tail {c : Char} (h : Continued w (c :: u) u') : ∃ t, u' = c :: t ∧ Continued u u t := by
  cases h with
  | more => exact ⟨u ++ [')', '$'], rfl, .more (List.suffix_refl u)⟩

/-- What is not taken from `)$` was there before. -/
theorem of_cons_right {c : Char} {t : Text} (h : Continued w u (c :: t)) (hc : c ≠ ')') :
    ∃ s, u = c :: s ∧ Continued w s t := by
  generalize ht : c :: t = v at h
  cases h with
  | @more u hu =>
      cases u with
      | nil =>
          cases ht
          exact absurd rfl hc
      | cons d u =>
          cases ht
          exact ⟨u, rfl, .more ((List.suffix_cons c u).trans hu)⟩
  | comment => cases ht

/-- A character other than a parenthesis comes next in both cases or in neither. -/
theorem uncons (c : Char) (hc : c ≠ ')') (h : Continued w u u') :
    (∃ t t', u = c :: t ∧ u' = c :: t' ∧ Continued w t t') ∨ (∀ t, u ≠ c :: t) ∧ ∀ t, u' ≠ c :: t := by
  by_cases hu : ∃ t, u = c :: t
  · obtain ⟨t, rfl⟩ := hu
    obtain ⟨t', rfl, ht⟩ := h.of_cons
    exact .inl ⟨t, t', rfl, rfl, ht⟩
  · rw [not_exists] at hu
    refine .inr ⟨hu, ?_⟩
    rintro t rfl
    obtain ⟨s, rfl, -⟩ := h.of_cons_right hc
    exact hu s rfl

theorem length_le_right (h : Continued w u u') : u.length ≤ u'.length := by
  cases h with
  | more => simp
  | comment => exact Nat.le_refl _

theorem of_nil (h : Continued w [] u') : u' = [')', '$'] ∨ u' = [] := by
  cases h with
  | more => exact .inl rfl
  | comment => exact .inr rfl

/-- Only a comment leaves nothing where `)$` follows. -/
theorem markedLast (h : Continued w u u') (hu' : u' = []) : MarkedLast w := by
  cases h with
  | more => exact absurd hu' (List.append_ne_nil_of_right_ne_nil _ (List.cons_ne_nil _ _))
  | comment hw => exact hw

/-- What blanks and comments leave of a text. Within a comment its mark stands on the same line before. -/
theorem skipBlanks (comment : Bool) (hu : u <:+ w)
    (hcomment : comment = true → ∃ before line, w = before ++ '#' :: line ++ u ∧ '\n' ∉ line) :
    Continued w (Flags.skipBlanks comment u) (Flags.skipBlanks comment (u ++ [')', '$'])) := by
  induction u generalizing comment with
  | nil =>
      cases comment with
      | false => exact .more List.nil_suffix
      | true =>
          obtain ⟨before, line, rfl, hline⟩ := hcomment rfl
          exact .comment ⟨before, line, List.append_nil _, hline⟩
  | cons c u ih =>
      have hrest : u <:+ w := (List.suffix_cons c u).trans hu
      rw [List.cons_append, Flags.skipBlanks, Flags.skipBlanks]
      cases comment with
      | true =>
          obtain ⟨before, line, rfl, hline⟩ := hcomment rfl
          refine ih _ hrest fun hc => ⟨before, line ++ [c], by simp, ?_⟩
          rw [bne_iff_ne] at hc
          simp [hline, hc.symm]
      | false =>
          by_cases hblank : isBlank c = true
          · rw [if_neg Bool.false_ne_true, if_neg Bool.false_ne_true, if_pos hblank, if_pos hblank]
            exact ih _ hrest nofun
          · by_cases hmark : c = '#'
            · simp only [Bool.false_eq_true, if_false, if_neg hblank, if_pos hmark]
              obtain ⟨before, rfl⟩ := hu
              exact ih _ hrest fun _ => ⟨before, [], by simp [hmark], List.not_mem_nil⟩
            · simp only [Bool.false_eq_true, if_false, if_neg hblank, if_neg hmark]
              exact .more hu

theorem skip (fs : Flags) (h : Continued w u u') : Continued w (fs.skip u) (fs.skip u') := by
  rw [Flags.skip, Flags.skip]
  split
  · cases h with
    | more hu => exact skipBlanks false hu nofun
    | comment hw => exact .comment hw
  · exact h

end Continued

theorem Flags.length_skip_le (fs : Flags) (u : Text) : (fs.skip u).length ≤ u.length :=
  ((Continued.more (List.suffix_refl u)).skip fs).suffix.length_le

theorem Flags.skip_cons {c : Char} (fs : Flags) (hblank : isBlank c = false) (hmark : c ≠ '#') (t : Text) :
    fs.skip (c :: t) = c :: t := by
  rw [Flags.skip]
  split
  · simp [Flags.skipBlanks, hblank, hmark]
  · rfl

namespace Continued

theorem dropBlanks (h : Continued w u u') : Continued w (u.dropWhile isBlank) (u'.dropWhile isBlank) := by
  cases h with
  | comment hw => exact .comment hw
  | more hu =>
      rw [List.dropWhile_append]
      split
      · next hblank =>
          rw [List.isEmpty_iff.mp hblank]
          exact .more List.nil_suffix
      · exact .more ((List.dropWhile_suffix _).trans hu)

/-! ### Numbers and names -/

theorem readDigits_nil {isDigit : Char → Bool} (hclosing : isDigit ')' = false) (h : Continued w [] u')
    (bound : Nat) : readDigits fs isDigit bound u' = ([], u') := by
  rcases h.of_nil with rfl | rfl
  · cases bound with
    | zero => rfl
    | succ bound => rw [readDigits, hclosing, if_neg Bool.false_ne_true]
  · cases bound <;> rfl

/-- Digits end before `)$`. A bound on them counts if it is the same or leaves room for all of them. -/
theorem readDigits (fs : Flags) (isDigit : Char → Bool) (hclosing : isDigit ')' = false) {bound bound' : Nat}
    (hb : bound = bound' ∨ u.length ≤ bound ∧ u.length ≤ bound') (h : Continued w u u') :
    Read w (readDigits fs isDigit bound u) (readDigits fs isDigit bound' u') := by
  induction bound generalizing bound' u u' with
  | zero =>
      rcases hb with rfl | ⟨hu, -⟩
      · exact .intro [] h
      · obtain rfl := List.length_eq_zero_iff.mp (Nat.eq_zero_of_le_zero hu)
        rw [readDigits_nil hclosing h]
        exact .intro [] h
  | succ bound ih =>
      cases u with
      | nil =>
          rw [readDigits_nil hclosing h]
          exact .intro [] h
      | cons c u =>
          obtain ⟨t, rfl, ht⟩ := h.of_cons
          cases bound' with
          | zero => simp at hb
          | succ bound' =>
              rw [Pattern.readDigits, Pattern.readDigits]
              split
              · have hlength : (fs.skip u).length ≤ u.length := fs.length_skip_le u
                have hb' : bound = bound' ∨ (fs.skip u).length ≤ bound ∧ (fs.skip u).length ≤ bound' := by
                  rw [List.length_cons] at hb
                  omega
                have hrest := ih hb' (ht.skip fs)
                generalize Pattern.readDigits fs isDigit bound (fs.skip u) = x at hrest ⊢
                generalize Pattern.readDigits fs isDigit bound' (fs.skip t) = x' at hrest ⊢
                obtain ⟨digits, hrest⟩ := hrest
                exact .intro (c :: digits) hrest
              · exact .intro [] h

/-! ### Escapes -/

theorem readHex? (width : Nat) (h : Continued w u u') :
    Agree (Read w) never (readHex? fs width u) (readHex? fs width u') := by
  rcases (h.skip fs).uncons '\x7b' (by decide) with ⟨t, t', ht, ht', hcont⟩ | ⟨hne, hne'⟩
  · have hlength := fs.length_skip_le t
    have hd := (hcont.skip fs).readDigits fs isHexDigit (by decide)
      (.inr ⟨hlength, Nat.le_trans hlength hcont.length_le_right⟩)
    simp only [Pattern.readHex?, ht, ht']
    generalize Pattern.readDigits fs isHexDigit t.length (fs.skip t) = x at hd ⊢
    generalize Pattern.readDigits fs isHexDigit t'.length (fs.skip t') = x' at hd ⊢
    obtain ⟨digits, hrest⟩ := hd
    rcases hrest.uncons '\x7d' (by decide) with ⟨rest, rest', rfl, rfl, hend⟩ | ⟨hne, hne'⟩
    · exact Agree.map_same _ fun c => .intro _ (hend.skip fs)
    · simp only [Prod.mk.injEq, hne, hne', and_false, imp_self, implies_true]
      exact .none
  · simp only [Pattern.readHex?]
    have hd := (h.skip fs).readDigits fs isHexDigit (by decide) (.inl (Eq.refl width))
    generalize Pattern.readDigits fs isHexDigit width (fs.skip u) = x at hd ⊢
    generalize Pattern.readDigits fs isHexDigit width (fs.skip u') = x' at hd ⊢
    obtain ⟨digits, hrest⟩ := hd
    dsimp only
    split
    · exact Agree.map_same _ fun c => .intro _ hrest
    · exact .none

theorem mem_of_mem_skipBlanks {c : Char} {comment : Bool} (h : c ∈ Flags.skipBlanks comment u) : c ∈ u := by
  induction u generalizing comment with
  | nil => exact h
  | cons d u ih =>
      rw [Flags.skipBlanks] at h
      split_ifs at h
      · exact List.mem_cons_of_mem d (ih h)
      · exact List.mem_cons_of_mem d (ih h)
      · exact List.mem_cons_of_mem d (ih h)
      · exact h

theorem mem_of_mem_skip {c : Char} (h : c ∈ fs.skip u) : c ∈ u := by
  rw [Flags.skip] at h
  split at h
  · exact mem_of_mem_skipBlanks h
  · exact h

/-- A name in braces needs the brace at its end. -/
theorem readBraced?_eq_none {bound : Nat} (h : '\x7d' ∉ u) : Pattern.readBraced? fs bound u = none := by
  induction bound generalizing u with
  | zero => rfl
  | succ bound ih =>
      cases u with
      | nil => rfl
      | cons c u =>
          rw [List.mem_cons, not_or] at h
          rw [Pattern.readBraced?, if_neg (Ne.symm h.1), ih (mt mem_of_mem_skip h.2), Option.map_none]

theorem readBraced? (fs : Flags) {bound bound' : Nat} (hb : u.length ≤ bound) (hb' : u.length ≤ bound')
    (h : Continued w u u') :
    Agree (Read w) never (readBraced? fs bound u) (readBraced? fs bound' u') := by
  induction bound generalizing bound' u u' with
  | zero =>
      obtain rfl := List.length_eq_zero_iff.mp (Nat.eq_zero_of_le_zero hb)
      rw [readBraced?_eq_none (u := u') (by rcases h.of_nil with rfl | rfl <;> decide)]
      exact .none
  | succ bound ih =>
      cases u with
      | nil =>
          rw [readBraced?_eq_none (u := u') (by rcases h.of_nil with rfl | rfl <;> decide)]
          exact .none
      | cons c u =>
          obtain ⟨t, rfl, ht⟩ := h.of_cons
          cases bound' with
          | zero => exact absurd hb' (Nat.not_succ_le_zero _)
          | succ bound' =>
              rw [Pattern.readBraced?, Pattern.readBraced?]
              split
              · exact .some (.intro [] ht)
              · have hlength := fs.length_skip_le u
                have hrest := ih (Nat.le_trans hlength (Nat.le_of_succ_le_succ hb))
                  (Nat.le_trans hlength (Nat.le_of_succ_le_succ hb')) (ht.skip fs)
                refine hrest.map fun x x' hx => ?_
                obtain ⟨name, hx⟩ := hx
                exact .intro (c :: name) hx

theorem readPropertyName? (h : Continued w u u') :
    Agree (Read w) Swallowed (readPropertyName? fs u) (readPropertyName? fs u') := by
  have hskip := h.skip fs
  rw [Pattern.readPropertyName?, Pattern.readPropertyName?]
  generalize fs.skip u = x at hskip ⊢
  generalize fs.skip u' = x' at hskip ⊢
  cases x with
  | nil =>
      rcases hskip.of_nil with rfl | rfl
      · change Agree _ _ none ((namedClass? [')']).map (·, fs.skip ['$']))
        rw [fs.skip_cons (by decide) (by decide)]
        refine .of_none fun x' hx => ?_
        obtain ⟨c, -, rfl⟩ := Option.map_eq_some_iff.mp hx
        rfl
      · exact .none
  | cons c t =>
      obtain ⟨t', rfl, ht⟩ := hskip.of_cons
      by_cases hbrace : c = '\x7b'
      · subst hbrace
        have hlength := fs.length_skip_le t
        have hname := (ht.skip fs).readBraced? fs (Nat.le_succ_of_le hlength)
          (Nat.le_succ_of_le (Nat.le_trans hlength ht.length_le_right))
        refine hname.bind_of_never fun x x' hx => ?_
        obtain ⟨name, hrest⟩ := hx
        exact .bind_left fun c => .some (.intro c hrest)
      · by_cases hslash : c = '\\'
        · subst hslash
          exact .none
        · simp only
          exact .map_same _ fun c => .intro c (ht.skip fs)

theorem readProperty? (negated : Bool) (h : Continued w u u') :
    Agree (Read w) Swallowed (readProperty? fs negated u) (readProperty? fs negated u') := by
  rw [Pattern.readProperty?, Pattern.readProperty?]
  split
  · exact .none
  · refine h.readPropertyName?.bind (fun x x' hx => ?_) fun x' hx => ?_
    · obtain ⟨c, hrest⟩ := hx
      exact .bind_left fun c => .some (.intro (Escape.cls c) hrest)
    · refine .of_none fun y hy => ?_
      obtain ⟨c, -, hc⟩ := Option.bind_eq_some_iff.mp hy
      cases hc
      exact hx

theorem readEdge? (h : Continued w u u') :
    Agree (Read w) (BraceLeft fs) (readEdge? fs u) (readEdge? fs u') := by
  rcases h.uncons '\x7b' (by decide) with ⟨t, t', rfl, rfl, ht⟩ | ⟨hne, hne'⟩
  · have hskip := ht.skip fs
    rw [Pattern.readEdge?, Pattern.readEdge?]
    cases hx : fs.skip t with
    | nil =>
        rw [hx] at hskip
        rcases hskip.of_nil with hx' | hx'
        · simp only [hx']
          exact .useless ⟨_, t', rfl, hx'⟩
        · simp only [hx']
          exact .none
    | cons c x =>
        rw [hx] at hskip
        obtain ⟨x', hx', hcont⟩ := hskip.of_cons
        simp only [hx']
        split
        · have hlength : (c :: x).length ≤ t.length := hx ▸ fs.length_skip_le t
          have hd := hskip.readDigits fs (fun c => c.isAlpha || c == '-') (by decide)
            (.inr ⟨hlength, Nat.le_trans hlength ht.length_le_right⟩)
          rw [hx'] at hd
          generalize Pattern.readDigits fs _ t.length (c :: x) = y at hd ⊢
          generalize Pattern.readDigits fs _ t'.length (c :: x') = y' at hd ⊢
          obtain ⟨name, hrest⟩ := hd
          rcases hrest.uncons '\x7d' (by decide) with ⟨rest, rest', rfl, rfl, hend⟩ | ⟨hne, hne'⟩
          · exact .map_same _ fun edge => .intro _ hend
          · simp only [Prod.mk.injEq, hne, hne', and_false, imp_self, implies_true]
            exact .none
        · exact .some (.intro _ h)
  · simp only [Pattern.readEdge?]
    exact .some (.intro _ h)

theorem readEscape? (h : Continued w u u') :
    Agree (Read w) (fun x => Swallowed x ∨ BraceLeft fs x) (readEscape? fs u) (readEscape? fs u') := by
  cases u with
  | nil =>
      rcases h.of_nil with rfl | rfl
      · exact .useless (.inl rfl)
      · exact .none
  | cons c t =>
      obtain ⟨t', rfl, ht⟩ := h.of_cons
      rw [Pattern.readEscape?.eq_def, Pattern.readEscape?.eq_def]
      split
      · next heq => cases heq
      · next heq =>
          cases heq
          exact (ht.readHex? 2).mono fun _ h => h.elim
      · next heq =>
          cases heq
          exact (ht.readHex? 4).mono fun _ h => h.elim
      · next heq =>
          cases heq
          exact (ht.readHex? 8).mono fun _ h => h.elim
      · next heq =>
          cases heq
          exact (ht.readProperty? false).mono fun _ h => .inl h
      · next heq =>
          cases heq
          exact (ht.readProperty? true).mono fun _ h => .inl h
      · next heq =>
          cases heq
          exact ht.readEdge?.mono fun _ h => .inr h
      · next heq =>
          cases heq
          simp only
          exact .map_same _ fun e => .intro e ht

end Continued

end AmpMarkup.Pattern
