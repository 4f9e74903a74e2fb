import Mathlib.Data.Nat.Bitwise
import AmpMarkup.Pattern.Matching

/-! What it means that a pattern matches a text between two places, said without sets of places, and that
the sets of the matcher are those of the places where matches end. -/

namespace AmpMarkup.Pattern

/-- The character before a place. At the start of a text there is none. -/
def charBefore (t : Text) : Nat → Option Char
  | 0 => none
  | i + 1 => t[i]?

/-- A smallest part matches one character of its class, or nothing at a place where it holds. -/
inductive Atom.Matches (t : Text) : Atom → Nat → Nat → Prop where
  | char {c : CharClass} {x : Char} {i : Nat} (hx : t[i]? = some x) (hc : c.contains x = true) :
      Matches t (.char c) i (i + 1)
  | look {l : Look} {i : Nat} (hi : i ≤ t.length) (hl : l.holds (charBefore t i) t[i]? = true) :
      Matches t (.look l) i i

/-- So many turns of a relation, one after the other. -/
inductive Turns (R : Nat → Nat → Prop) : Nat → Nat → Nat → Prop where
  | zero (i : Nat) : Turns R 0 i i
  | succ {n i j k : Nat} (hij : R i j) (hjk : Turns R n j k) : Turns R (n + 1) i k

/-- A pattern matches a text from one place to another. -/
def Expr.Matches (t : Text) : Pattern → Nat → Nat → Prop
  | .empty => fun i j => i = j
  | .part a => a.Matches t
  | .seq p q => fun i k => ∃ j, p.Matches t i j ∧ q.Matches t j k
  | .alt p q => fun i j => p.Matches t i j ∨ q.Matches t i j
  | .repeated p least most => fun i j =>
      ∃ n, least ≤ n ∧ (∀ m ∈ most, n ≤ max least m) ∧ Turns (p.Matches t) n i j

/-- A map on sets of places leads to where a relation does. -/
def Follows (step : Places → Places) (R : Nat → Nat → Prop) : Prop :=
  ∀ s j, (step s).testBit j = true ↔ ∃ i, s.testBit i = true ∧ R i j

variable {t : Text} {p q : Pattern} {R : Nat → Nat → Prop} {step : Places → Places} {i j k m n : Nat}

/-! ### Smallest parts -/

theorem testBit_ofBits (bits : List Bool) (i : Nat) : (ofBits bits).testBit i = bits.getD i false := by
  induction bits generalizing i with
  | nil => rw [ofBits, List.foldr_nil, Nat.zero_testBit, List.getD_nil]
  | cons b bits ih =>
      have hbit : ofBits (b :: bits) = Nat.bit b (ofBits bits) := (Nat.bit_val b _).symm
      rw [hbit]
      cases i with
      | zero => rw [Nat.testBit_bit_zero, List.getD_cons_zero]
      | succ i => rw [Nat.testBit_bit_succ, List.getD_cons_succ, ih]

theorem Atom.testBit_places_char {c : CharClass} :
    (Atom.passage t (.char c)).places.testBit i = true ↔ ∃ x, t[i]? = some x ∧ c.contains x = true := by
  rw [passage, testBit_ofBits, List.getD_eq_getElem?_getD, List.getElem?_map]
  cases t[i]? <;> simp

theorem getElem?_none_cons_map (t : Text) (i : Nat) :
    (none :: t.map some)[i]? = if i ≤ t.length then some (charBefore t i) else none := by
  cases i with
  | zero => rfl
  | succ i =>
      rw [List.getElem?_cons_succ, List.getElem?_map, charBefore]
      by_cases hi : i < t.length
      · rw [if_pos (Nat.succ_le_of_lt hi), List.getElem?_eq_getElem hi, Option.map_some]
      · rw [if_neg (mt Nat.lt_of_succ_le hi), List.getElem?_eq_none (Nat.le_of_not_lt hi), Option.map_none]

theorem getElem?_map_append_none (t : Text) (i : Nat) :
    (t.map some ++ [none])[i]? = if i ≤ t.length then some t[i]? else none := by
  rcases Nat.lt_trichotomy i t.length with hi | rfl | hi
  · rw [List.getElem?_append_left (by rwa [List.length_map]), List.getElem?_map, if_pos hi.le,
      List.getElem?_eq_getElem hi, Option.map_some]
  · simp
  · rw [List.getElem?_eq_none (by simpa using Nat.succ_le_of_lt hi), if_neg (Nat.not_le_of_lt hi)]

theorem Atom.testBit_places_look {l : Look} : (Atom.passage t (.look l)).places.testBit i = true ↔
    i ≤ t.length ∧ l.holds (charBefore t i) t[i]? = true := by
  rw [passage, testBit_ofBits, List.getD_eq_getElem?_getD, List.getElem?_zipWith, getElem?_none_cons_map,
    getElem?_map_append_none]
  by_cases hi : i ≤ t.length <;> simp [hi]

theorem Atom.matches_iff {a : Atom} : a.Matches t i j ↔
    (a.passage t).places.testBit i = true ∧ j = i + (a.passage t).width := by
  cases a with
  | char c =>
      rw [testBit_places_char]
      constructor
      · rintro ⟨hx, hc⟩
        exact ⟨⟨_, hx, hc⟩, rfl⟩
      · rintro ⟨⟨x, hx, hc⟩, rfl⟩
        exact .char hx hc
  | look l =>
      rw [testBit_places_look]
      constructor
      · rintro (_ | ⟨hi, hl⟩)
        exact ⟨⟨hi, hl⟩, rfl⟩
      · rintro ⟨⟨hi, hl⟩, rfl⟩
        exact .look hi hl

theorem follows_part (a : Atom) :
    Follows (fun s => (s &&& (a.passage t).places) <<< (a.passage t).width) (a.Matches t) := by
  intro s j
  simp only [Nat.testBit_shiftLeft, Nat.testBit_and, Bool.and_eq_true, decide_eq_true_eq, Atom.matches_iff]
  constructor
  · rintro ⟨hj, hs, ha⟩
    exact ⟨_, hs, ha, (Nat.sub_add_cancel hj).symm⟩
  · rintro ⟨i, hs, ha, rfl⟩
    rw [Nat.add_sub_cancel]
    exact ⟨Nat.le_add_left _ _, hs, ha⟩

/-! ### Turns -/

theorem turns_zero_iff : Turns R 0 i j ↔ i = j := by
  constructor
  · rintro ⟨⟩
    rfl
  · rintro rfl
    exact .zero i

theorem turns_succ_iff : Turns R (n + 1) i k ↔ ∃ j, R i j ∧ Turns R n j k := by
  constructor
  · rintro (_ | ⟨hij, hjk⟩)
    exact ⟨_, hij, hjk⟩
  · rintro ⟨j, hij, hjk⟩
    exact .succ hij hjk

theorem turns_add_iff : Turns R (m + n) i k ↔ ∃ j, Turns R m i j ∧ Turns R n j k := by
  induction m generalizing i with
  | zero => simp [turns_zero_iff]
  | succ m ih =>
      rw [Nat.succ_add, turns_succ_iff]
      simp only [ih, turns_succ_iff]
      constructor
      · rintro ⟨l, hil, j, hlj, hjk⟩
        exact ⟨j, ⟨l, hil, hlj⟩, hjk⟩
      · rintro ⟨j, ⟨l, hil, hlj⟩, hjk⟩
        exact ⟨l, hil, j, hlj, hjk⟩

theorem Turns.le (hR : ∀ i j, R i j → i ≤ j) (h : Turns R n i j) : i ≤ j := by
  induction h with
  | zero => exact le_rfl
  | succ hij _ ih => exact (hR _ _ hij).trans ih

/-- Turns that stay at their place can be left out. Those that remain are no more than the characters. -/
theorem Turns.shorten (hR : ∀ i j, R i j → i ≤ j) (h : Turns R n i j) : ∃ m ≤ j - i, m ≤ n ∧ Turns R m i j := by
  induction h with
  | zero i => exact ⟨0, Nat.zero_le _, le_rfl, .zero i⟩
  | @succ n i j k hij hjk ih =>
      obtain ⟨m, hlength, hmn, hm⟩ := ih
      rcases (hR i j hij).eq_or_lt with rfl | hlt
      · exact ⟨m, hlength, hmn.trans n.le_succ, hm⟩
      · have hle := hjk.le hR
        exact ⟨m + 1, by omega, Nat.succ_le_succ hmn, .succ hij hm⟩

theorem turns_eq_iterate (step : Places → Places) (n : Nat) (s : Places) : turns step n s = step^[n] s := by
  induction n generalizing s with
  | zero => rfl
  | succ n ih =>
      rw [turns, ih, Function.iterate_succ_apply]
      split
      · next h => rw [h, Function.iterate_fixed h]
      · rfl

theorem turnsUpTo_eq_iterate (step : Places → Places) (n : Nat) (s : Places) :
    turnsUpTo step n s = (fun s => s ||| step s)^[n] s := by
  induction n generalizing s with
  | zero => rfl
  | succ n ih =>
      rw [turnsUpTo, ih, Function.iterate_succ_apply]
      split
      · next h => rw [h, Function.iterate_fixed h]
      · rfl

theorem follows_turns (h : Follows step R) (n : Nat) : Follows (turns step n) (Turns R n) := by
  intro s j
  rw [turns_eq_iterate]
  induction n generalizing s with
  | zero => simp [turns_zero_iff]
  | succ n ih =>
      rw [Function.iterate_succ_apply, ih]
      simp only [h s _, turns_succ_iff]
      constructor
      · rintro ⟨l, ⟨i, hs, hil⟩, hlj⟩
        exact ⟨i, hs, l, hil, hlj⟩
      · rintro ⟨i, hs, l, hil, hlj⟩
        exact ⟨l, ⟨i, hs, hil⟩, hlj⟩

theorem follows_turnsUpTo (h : Follows step R) (n : Nat) :
    Follows (turnsUpTo step n) fun i j => ∃ m ≤ n, Turns R m i j := by
  intro s j
  rw [turnsUpTo_eq_iterate]
  induction n generalizing s with
  | zero => simp [turns_zero_iff]
  | succ n ih =>
      rw [Function.iterate_succ_apply, ih]
      simp only [Nat.testBit_or, Bool.or_eq_true, h s _]
      constructor
      · rintro ⟨l, hs | ⟨i, hs, hil⟩, m, hm, hlj⟩
        · exact ⟨l, hs, m, hm.trans n.le_succ, hlj⟩
        · exact ⟨i, hs, m + 1, Nat.succ_le_succ hm, .succ hil hlj⟩
      · rintro ⟨i, hs, _ | m, hm, hij⟩
        · exact ⟨i, .inl hs, 0, n.zero_le, hij⟩
        · obtain ⟨l, hil, hlj⟩ := turns_succ_iff.1 hij
          exact ⟨l, .inr ⟨i, hs, hil⟩, m, Nat.le_of_succ_le_succ hm, hlj⟩

/-! ### Patterns -/

/-- A match ends where it starts or behind that, and then within the text. -/
theorem Expr.Matches.bounds (h : p.Matches t i j) : i ≤ j ∧ (i < j → j ≤ t.length) := by
  induction p generalizing i j with
  | empty =>
      obtain rfl : i = j := h
      exact ⟨le_rfl, fun hi => absurd hi (lt_irrefl i)⟩
  | part a =>
      rcases (h : a.Matches t i j) with ⟨hx, -⟩ | ⟨hi, -⟩
      · exact ⟨i.le_succ, fun _ => (List.getElem?_eq_some_iff.mp hx).1⟩
      · exact ⟨le_rfl, fun _ => hi⟩
  | seq p q ihp ihq =>
      obtain ⟨l, hp, hq⟩ := h
      have hil := ihp hp
      have hlj := ihq hq
      omega
  | alt p q ihp ihq => exact h.elim ihp ihq
  | repeated p least most ih =>
      obtain ⟨n, -, -, hn⟩ := h
      induction hn with
      | zero i => exact ⟨le_rfl, fun hi => absurd hi (lt_irrefl i)⟩
      | succ hil _ ihn =>
          have hil := ih hil
          omega

/-- Of the turns beyond the least number no more are needed than the text has characters. -/
theorem Expr.matches_repeated_iff {least : Nat} {most : Option Nat} : (Expr.repeated p least most).Matches t i j ↔
    ∃ l, Turns (p.Matches t) least i l ∧
      ∃ m ≤ most.elim (t.length + 1) (· - least), Turns (p.Matches t) m l j := by
  have hle : ∀ i j, p.Matches t i j → i ≤ j := fun i j h => h.bounds.1
  constructor
  · rintro ⟨n, hn, hmost, h⟩
    obtain ⟨extra, rfl⟩ := Nat.exists_eq_add_of_le hn
    obtain ⟨l, hleast, hextra⟩ := turns_add_iff.1 h
    obtain ⟨m, hm, hmn, hshort⟩ := hextra.shorten hle
    refine ⟨l, hleast, m, ?_, hshort⟩
    cases most with
    | some most =>
        have hmost := hmost most rfl
        rw [Option.elim_some]
        omega
    | none =>
        have hlj : (Expr.repeated p 0 none).Matches t l j := ⟨m, m.zero_le, nofun, hshort⟩
        have hbounds := hlj.bounds
        rw [Option.elim_none]
        omega
  · rintro ⟨l, hleast, m, hm, hextra⟩
    refine ⟨least + m, Nat.le_add_right _ _, ?_, turns_add_iff.2 ⟨l, hleast, hextra⟩⟩
    rintro most ⟨⟩
    rw [Option.elim_some] at hm
    omega

/-- The matcher goes where the pattern matches. -/
theorem follows_endsFrom (p : Pattern) (t : Text) : Follows (endsFrom p t) (p.Matches t) := by
  induction p with
  | empty => exact fun s j => by simp [endsFrom, Expr.map, Expr.ends, Expr.Matches]
  | part a => exact follows_part a
  | seq p q ihp ihq =>
      intro s j
      have hseq : endsFrom (.seq p q) t s = endsFrom q t (endsFrom p t s) := rfl
      rw [hseq, ihq]
      simp only [ihp s _]
      constructor
      · rintro ⟨l, ⟨i, hs, hil⟩, hlj⟩
        exact ⟨i, hs, l, hil, hlj⟩
      · rintro ⟨i, hs, l, hil, hlj⟩
        exact ⟨l, ⟨i, hs, hil⟩, hlj⟩
  | alt p q ihp ihq =>
      intro s j
      have halt : endsFrom (.alt p q) t s = endsFrom p t s ||| endsFrom q t s := rfl
      rw [halt, Nat.testBit_or, Bool.or_eq_true, ihp, ihq, ← exists_or]
      simp only [← and_or_left]
      rfl
  | repeated p least most ih =>
      intro s j
      have hrepeated : endsFrom (.repeated p least most) t s =
          turnsUpTo (endsFrom p t) (most.elim (t.length + 1) (· - least)) (turns (endsFrom p t) least s) := rfl
      rw [hrepeated, follows_turnsUpTo ih]
      simp only [follows_turns ih least s _, Expr.matches_repeated_iff]
      constructor
      · rintro ⟨l, ⟨i, hs, hil⟩, hlj⟩
        exact ⟨i, hs, l, hil, hlj⟩
      · rintro ⟨i, hs, l, hil, hlj⟩
        exact ⟨l, ⟨i, hs, hil⟩, hlj⟩

theorem isWholeMatch_iff : isWholeMatch p t = true ↔ p.Matches t 0 t.length := by
  rw [isWholeMatch, follows_endsFrom]
  simp only [Nat.testBit_one_eq_true_iff_self_eq_zero, exists_eq_left]

theorem testBit_allPlaces : (allPlaces t).testBit i = true ↔ i ≤ t.length := by
  rw [allPlaces, testBit_ofBits, List.getD_eq_getElem?_getD, List.getElem?_replicate]
  by_cases hi : i < t.length + 1 <;> simp [hi] <;> omega

theorem isMatch_iff : isMatch p t = true ↔ ∃ i ≤ t.length, ∃ j, p.Matches t i j := by
  rw [isMatch, bne_iff_ne]
  constructor
  · intro h
    obtain ⟨j, hj⟩ := Nat.exists_testBit_of_ne_zero h
    obtain ⟨i, hi, hij⟩ := (follows_endsFrom p t _ j).mp hj
    exact ⟨i, testBit_allPlaces.1 hi, j, hij⟩
  · rintro ⟨i, hi, j, hij⟩ h
    have hj := (follows_endsFrom p t (allPlaces t) j).mpr ⟨i, testBit_allPlaces.2 hi, hij⟩
    rw [h, Nat.zero_testBit] at hj
    cases hj

/-! ### Patterns between the ends of a text -/

/-- A pattern that may match between the ends of a text only. -/
def Expr.betweenEnds (p : Pattern) : Pattern :=
  .seq (.part (.look .textStart)) (.seq p (.part (.look .textEnd)))

theorem Atom.matches_textStart : (Atom.look .textStart).Matches t i j ↔ i = 0 ∧ j = 0 := by
  constructor
  · rintro (_ | ⟨hi, hl⟩)
    cases i with
    | zero => exact ⟨rfl, rfl⟩
    | succ i =>
        rw [Look.holds, charBefore, List.getElem?_eq_getElem hi] at hl
        cases hl
  · rintro ⟨rfl, rfl⟩
    exact .look t.length.zero_le rfl

theorem Atom.matches_textEnd : (Atom.look .textEnd).Matches t i j ↔ i = t.length ∧ j = t.length := by
  constructor
  · rintro (_ | ⟨hi, hl⟩)
    rw [Look.holds, Option.isNone_iff_eq_none, List.getElem?_eq_none_iff] at hl
    exact ⟨le_antisymm hi hl, le_antisymm hi hl⟩
  · rintro ⟨rfl, rfl⟩
    exact .look le_rfl (by rw [Look.holds, List.getElem?_eq_none le_rfl, Option.isNone_none])

theorem isMatch_betweenEnds : isMatch p.betweenEnds t = true ↔ p.Matches t 0 t.length := by
  rw [isMatch_iff]
  constructor
  · rintro ⟨i, -, j, l, hstart, m, hp, hend⟩
    obtain ⟨rfl, rfl⟩ := Atom.matches_textStart.1 hstart
    obtain ⟨rfl, rfl⟩ := Atom.matches_textEnd.1 hend
    exact hp
  · intro hp
    exact ⟨0, t.length.zero_le, t.length, 0, Atom.matches_textStart.2 ⟨rfl, rfl⟩, t.length, hp,
      Atom.matches_textEnd.2 ⟨rfl, rfl⟩⟩

end AmpMarkup.Pattern
