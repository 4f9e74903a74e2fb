import AmpMarkup.Text.Numeral

/-! Punycode: labels of domain names in ASCII that stand for labels with other characters. The
characters beyond ASCII follow as steps through pairs of a code point and a place in the label. -/

namespace AmpMarkup.Url

/-- The value of a digit: letters come before the decimal digits. -/
def punycodeDigit? (c : Char) : Option Nat :=
  if c.isAlpha then some (c.toLower.toNat - 'a'.toNat)
  else if c.isDigit then some (c.toNat - '0'.toNat + 26)
  else none

/-- The smallest digit that is not the last one of its number, at the place counted by `k`. -/
def threshold (k bias : Nat) : Nat :=
  if k ≤ bias then 1 else if bias + 26 ≤ k then 26 else k - bias

/-- Divides a step until it is small, counting the divisions. -/
def shrink (step k : Nat) : Nat × Nat :=
  if 455 < step then shrink (step / 35) (k + 36) else (step, k)
termination_by step

/-- The bias after a step that made a label of `length` characters. -/
def adapt (step length : Nat) (first : Bool) : Nat :=
  let step := if first then step / 700 else step / 2
  let (step, k) := shrink (step + step / length) 0
  k + 36 * step / (step + 38)

/-- A number added to `sum`, with digits of growing weight, and the rest. -/
def readStep? (bias : Nat) : (sum weight k : Nat) → Text → Option (Nat × Text)
  | _, _, _, [] => none
  | sum, weight, k, c :: t => do
    let digit ← punycodeDigit? c
    let sum := sum + digit * weight
    let limit := threshold k bias
    if digit < limit then return (sum, t)
    else readStep? bias sum (weight * (36 - limit)) (k + 36) t

/-- Inserts the characters that steps describe, starting from a code point and a place. `bound` is
at least the length of the text. -/
def insertSteps? : (bound codePoint place bias : Nat) → (label text : Text) → Option Text
  | _, _, _, _, label, [] => some label
  | 0, _, _, _, _, _ :: _ => none
  | bound + 1, codePoint, place, bias, label, t => do
    let (sum, rest) ← readStep? bias place 1 36 t
    let length := label.length + 1
    let codePoint := codePoint + sum / length
    let c ← scalar? codePoint
    insertSteps? bound codePoint (sum % length + 1) (adapt (sum - place) length (place == 0))
      (label.insertIdx (sum % length) c) rest

/-- The label for which ASCII text stands. What comes before the last hyphen stands for itself. -/
def decodePunycode? (t : Text) : Option Text :=
  let steps := (t.reverse.takeWhile (· != '-')).reverse
  insertSteps? t.length 128 0 72 (t.take (t.length - steps.length - 1)) steps

end AmpMarkup.Url
