import AmpMarkup.Text.Basic

/-! Numerals written in ASCII digits, as character references, escapes and numbers use them. -/

namespace AmpMarkup

/-- Whether a character is a hexadecimal digit, in either case. -/
def isHexDigit (c : Char) : Bool :=
  c.isDigit || ('a' ≤ c && c ≤ 'f') || ('A' ≤ c && c ≤ 'F')

/-- The value of a digit; letters continue after nine, in either case. -/
def digitValue (c : Char) : Nat :=
  if c.isDigit then c.toNat - '0'.toNat
  else if 'a' ≤ c ∧ c ≤ 'z' then c.toNat - 'a'.toNat + 10
  else c.toNat - 'A'.toNat + 10

/-- The number that a sequence of digits denotes, the most significant one first. -/
def Text.numeral (base : Nat) (digits : Text) : Nat :=
  digits.foldl (fun n c => n * base + digitValue c) 0

/-- The lowercase hexadecimal digit of a value below sixteen. -/
def hexDigit (n : Nat) : Char :=
  if n < 10 then Char.ofNat ('0'.toNat + n) else Char.ofNat ('a'.toNat + (n - 10))

/-- The last `width` hexadecimal digits of a number. -/
def Text.hex : (width n : Nat) → Text
  | 0, _ => []
  | width + 1, n => Text.hex width (n / 16) ++ [hexDigit (n % 16)]

/-- The hexadecimal digits of a number, without leading zeros. -/
def Text.shortHex (n : Nat) : Text :=
  match (Text.hex 16 n).dropWhile (· == '0') with
  | [] => ['0']
  | digits => digits

/-- The character with a code point, if the number is one that a character can have. -/
def scalar? (n : Nat) : Option Char :=
  if h : n.isValidChar then some (Char.ofNatAux n h) else none

/-- The replacement character stands for a code point that no character may have. -/
def replacement : Char :=
  Char.ofNat 0xFFFD

/-- The character with a non-zero code point, or the replacement character. -/
def scalarOrReplacement (n : Nat) : Char :=
  if n = 0 then replacement else (scalar? n).getD replacement

end AmpMarkup
