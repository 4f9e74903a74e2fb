import AmpMarkup.Decimal.Binary64

/-! The shortest decimal that reads back as a given number, written positionally. Among decimals of
the same length the one nearest to the number counts, and the larger of two equally near ones. -/

namespace AmpMarkup.Decimal

namespace Binary64

/-- The numbers that read back as a finite non-zero number lie between two bounds, given here with
the number itself as numerators over one denominator; `closed` says whether the bounds belong to
them. -/
structure Span where
  low : Nat
  value : Nat
  high : Nat
  denominator : Nat
  closed : Bool

/-- The span of a number. Below a power of two the neighbour is half as far away. -/
def span (x : Binary64) : Span :=
  let (m, q) := x.parts
  let scale := Nat.pow 2 q.toNat
  let below := if m = Nat.pow 2 52 ∧ -1074 < q then 1 else 2
  ⟨(4 * m - below) * scale, 4 * m * scale, (4 * m + 2) * scale, 4 * Nat.pow 2 (-q).toNat, m % 2 = 0⟩

/-- Whether `n * 10 ^ exponent` lies in a span. -/
def Span.holds (s : Span) (n : Nat) (exponent : Int) : Bool :=
  let scaled := n * Nat.pow 10 exponent.toNat * s.denominator
  let unit := Nat.pow 10 (-exponent).toNat
  if s.closed then s.low * unit ≤ scaled && scaled ≤ s.high * unit
  else s.low * unit < scaled && scaled < s.high * unit

/-- The decimal with the last place `10 ^ exponent` that stands for a span: of the two next to the
value the one that reads back, the nearer one if both do. -/
def Span.decimal? (s : Span) (exponent : Int) : Option Nat :=
  let n := s.value * Nat.pow 10 (-exponent).toNat
  let d := s.denominator * Nat.pow 10 exponent.toNat
  let lower := n / d
  match s.holds lower exponent, s.holds (lower + 1) exponent with
  | true, true => some (if 2 * (n % d) < d then lower else lower + 1)
  | true, false => some lower
  | false, true => some (lower + 1)
  | false, false => none

/-- The decimal exponent of the leading digit of `n / d`. -/
def leading (n d : Nat) : Int :=
  let guess : Int := (Nat.toDigits 10 n).length - (Nat.toDigits 10 d).length
  if n * Nat.pow 10 (-guess).toNat < d * Nat.pow 10 guess.toNat then guess - 1 else guess

/-- Tries ever finer last places; `tries` of them are left. -/
def Span.shortest (s : Span) : (tries : Nat) → (exponent : Int) → Nat × Int
  | 0, exponent => ((s.decimal? exponent).getD 0, exponent)
  | tries + 1, exponent =>
    match s.decimal? exponent with
    | some n => (n, exponent)
    | none => s.shortest tries (exponent - 1)

/-- The shortest decimal of a finite non-zero number as `digits * 10 ^ exponent`. Seventeen digits
always suffice. -/
def shortest (x : Binary64) : Nat × Int :=
  x.span.shortest 16 (leading x.span.value x.span.denominator)

end Binary64

/-- A whole number times a power of ten in positional notation, without trailing zeros after the
point and without a point if nothing follows it. -/
def positional (n : Nat) (exponent : Int) : Text :=
  let digits := Text.ofNat n
  if 0 ≤ exponent then digits ++ List.replicate exponent.toNat '0'
  else
    let places := (-exponent).toNat
    let padded := List.replicate (places + 1 - digits.length) '0' ++ digits
    let fraction := ((padded.drop (padded.length - places)).reverse.dropWhile (· == '0')).reverse
    padded.take (padded.length - places) ++ (if fraction.isEmpty then [] else '.' :: fraction)

/-- The text of a number without its sign. -/
def Binary64.magnitudeText (x : Binary64) : Text :=
  if x.magnitude = 0 then "0"
  else if infinity ≤ x.magnitude then "inf"
  else positional x.shortest.1 x.shortest.2

/-- The text of a number. -/
def Binary64.toText (x : Binary64) : Text :=
  if x.negative then '-' :: x.magnitudeText else x.magnitudeText

end AmpMarkup.Decimal
