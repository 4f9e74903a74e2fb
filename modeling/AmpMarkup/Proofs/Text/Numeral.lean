import Mathlib.Algebra.Group.Nat.Defs
import Mathlib.Data.List.Basic
import AmpMarkup.Text.Numeral

/-! Numbers are read back from their digits, decimal and hexadecimal ones. -/

namespace AmpMarkup

variable {c : Char} {n : Nat}

theorem digitValue_of_isDigit (h : c.isDigit = true) : digitValue c = c.toNat - '0'.toNat :=
  if_pos h

theorem isHexDigit_hexDigit (h : n < 16) : isHexDigit (hexDigit n) = true :=
  (by decide : ∀ n < 16, isHexDigit (hexDigit n) = true) n h

theorem digitValue_hexDigit (h : n < 16) : digitValue (hexDigit n) = n :=
  (by decide : ∀ n < 16, digitValue (hexDigit n) = n) n h

namespace Text

/-! ### Decimal digits -/

theorem ofNat_eq_toDigits (n : Nat) : ofNat n = Nat.toDigits 10 n := by
  rw [ofNat, Nat.toString_eq_repr, Nat.toList_repr]

theorem isDigit_of_mem_ofNat (h : c ∈ ofNat n) : c.isDigit = true := by
  rw [ofNat_eq_toDigits] at h
  exact Nat.isDigit_of_mem_toDigits (by omega) (by omega) h

theorem ofNat_ne_nil (n : Nat) : ofNat n ≠ [] := by
  rw [ofNat_eq_toDigits]
  exact Nat.toDigits_ne_nil

theorem numeral_ofNat (n : Nat) : numeral 10 (ofNat n) = n := by
  have hdigits : numeral 10 (ofNat n) = Nat.ofDigitChars 10 (ofNat n) 0 := by
    rw [numeral, Nat.ofDigitChars_eq_foldl]
    refine List.foldl_ext _ _ _ fun m c hc => ?_
    rw [digitValue_of_isDigit (isDigit_of_mem_ofNat hc), Nat.mul_comm]
  rw [hdigits, ofNat_eq_toDigits, Nat.ofDigitChars_ten_toDigits]

/-- Only zero is written with a zero at the front. -/
theorem eq_zero_of_ofNat_eq_zero_cons {digits : Text} (h : ofNat n = '0' :: digits) : n = 0 := by
  rw [ofNat_eq_toDigits] at h
  induction n using Nat.strongRecOn generalizing digits with
  | _ n ih =>
      by_cases hn : n < 10
      · rw [Nat.toDigits_of_lt_base hn] at h
        exact (by decide : ∀ n < 10, n.digitChar = '0' → n = 0) n hn (List.cons.inj h).1
      · rw [Nat.toDigits_of_base_le (by decide) (Nat.le_of_not_lt hn)] at h
        cases hfront : Nat.toDigits 10 (n / 10) with
        | nil => exact absurd hfront Nat.toDigits_ne_nil
        | cons d front =>
            rw [hfront, List.cons_append] at h
            obtain ⟨rfl, -⟩ := List.cons.inj h
            have hzero := ih (n / 10) (by omega) hfront
            omega

/-! ### Hexadecimal digits -/

theorem isHexDigit_of_mem_hex {width : Nat} (h : c ∈ hex width n) : isHexDigit c = true := by
  induction width generalizing n with
  | zero => exact absurd h List.not_mem_nil
  | succ width ih =>
      rcases List.mem_append.mp h with h | h
      · exact ih h
      · rw [List.mem_singleton.mp h]
        exact isHexDigit_hexDigit (Nat.mod_lt n (by decide))

theorem numeral_append_singleton (base : Nat) (digits : Text) (c : Char) :
    numeral base (digits ++ [c]) = numeral base digits * base + digitValue c := by
  rw [numeral, List.foldl_append]
  rfl

theorem numeral_hex {width : Nat} (h : n < 16 ^ width) : numeral 16 (hex width n) = n := by
  induction width generalizing n with
  | zero => exact (Nat.lt_one_iff.mp h).symm
  | succ width ih =>
      have hfront : n / 16 < 16 ^ width := Nat.div_lt_of_lt_mul (by rwa [Nat.pow_succ'] at h)
      rw [hex, numeral_append_singleton, ih hfront, digitValue_hexDigit (Nat.mod_lt n (by decide))]
      exact Nat.div_add_mod' n 16

end Text

end AmpMarkup
