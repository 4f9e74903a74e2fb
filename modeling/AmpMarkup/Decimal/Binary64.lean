import AmpMarkup.Text.Numeral

/-! Binary floating point numbers of 64 bits: the one nearest to a decimal numeral, and the value
that its bits stand for. All arithmetic is exact. -/

namespace AmpMarkup.Decimal

/-- A decimal numeral: `digits * 10 ^ exponent` with a sign. -/
structure Numeral where
  negative : Bool
  digits : Nat
  exponent : Int
deriving DecidableEq, Repr, Inhabited

/-- A number of 64 bits: its sign bit and the other 63 bits. -/
structure Binary64 where
  negative : Bool
  magnitude : Nat
deriving DecidableEq, Repr, Inhabited

namespace Binary64

/-- The bits of infinity without the sign. -/
def infinity : Nat :=
  0x7ff * Nat.pow 2 52

/-- The quotient rounded to the nearest whole number, a half to the even neighbour. -/
def roundDiv (n d : Nat) : Nat :=
  let low := n / d
  let twice := 2 * (n % d)
  if twice < d then low else if d < twice then low + 1 else low + low % 2

/-- The bits of the number nearest to the positive ratio `n / d`. With the unit `2 ^ q` chosen so
that the quotient has 53 bits, or the least unit there is, the bits are the rounded quotient plus
the unit's rank; a quotient that rounds up to 54 bits thereby moves to the next unit by itself. -/
def nearestRatio (n d : Nat) : Nat :=
  let scaled (q : Int) : Nat × Nat := (n * Nat.pow 2 (-q).toNat, d * Nat.pow 2 q.toNat)
  let guess : Int := max ((n.log2 : Int) - d.log2 - 52) (-1074)
  let quotient : Nat := (scaled guess).1 / (scaled guess).2
  let q : Int := if quotient < Nat.pow 2 52 then max (guess - 1) (-1074) else guess
  min infinity ((q + 1074).toNat * Nat.pow 2 52 + roundDiv (scaled q).1 (scaled q).2)

/-- The number nearest to a decimal numeral. Numerals beyond 400 places on either side of the point
are infinite or zero. -/
def nearest (x : Numeral) : Binary64 :=
  let places := x.exponent + (Nat.toDigits 10 x.digits).length
  ⟨x.negative,
    if x.digits = 0 ∨ places < -400 then 0
    else if 400 < places then infinity
    else nearestRatio (x.digits * Nat.pow 10 x.exponent.toNat) (Nat.pow 10 (-x.exponent).toNat)⟩

/-- The significand and the exponent of the unit: the value is `significand * 2 ^ unit`. -/
def parts (x : Binary64) : Nat × Int :=
  let e : Nat := x.magnitude / Nat.pow 2 52
  let f : Nat := x.magnitude % Nat.pow 2 52
  if e = 0 then (f, -1074) else (f + Nat.pow 2 52, (e : Int) - 1075)

/-- All 64 bits as a number. -/
def bits (x : Binary64) : Nat :=
  (if x.negative then Nat.pow 2 63 else 0) + x.magnitude

end Binary64

end AmpMarkup.Decimal
