import AmpMarkup.Pattern.Basic

/-! Matching. A set of places in a text is a number whose bit `i` says whether the place before
character `i` is in it, and a pattern is a map on such sets: from where a match may start to where
it may end. -/

namespace AmpMarkup.Pattern

/-- A set of places. -/
abbrev Places := Nat

/-- A smallest part over one text: the places where it applies, and how many characters it
consumes there. -/
structure Passage where
  places : Places
  width : Nat
deriving DecidableEq, Repr, Inhabited

/-- The number with the given bits, the lowest first. -/
def ofBits (bits : List Bool) : Nat :=
  bits.foldr (fun b n => 2 * n + b.toNat) 0

/-- Where a smallest part applies in a text. -/
def Atom.passage (t : Text) : Atom → Passage
  | .char c => ⟨ofBits (t.map c.contains), 1⟩
  | .look l => ⟨ofBits (List.zipWith l.holds (none :: t.map some) (t.map some ++ [none])), 0⟩

/-- The places that `count` turns of a step lead to. Nothing changes once a turn changes nothing. -/
def turns (step : Places → Places) : (count : Nat) → Places → Places
  | 0, s => s
  | count + 1, s => if step s = s then s else turns step count (step s)

/-- The places that at most `count` turns of a step lead to. -/
def turnsUpTo (step : Places → Places) : (count : Nat) → Places → Places
  | 0, s => s
  | count + 1, s => if s ||| step s = s then s else turnsUpTo step count (s ||| step s)

/-- Where matches end that start in a set of places. A match without a bound on its turns needs no
more than `bound` of them. -/
def Expr.ends (bound : Nat) : Expr Passage → Places → Places
  | .empty, s => s
  | .part a, s => (s &&& a.places) <<< a.width
  | .seq p q, s => q.ends bound (p.ends bound s)
  | .alt p q, s => p.ends bound s ||| q.ends bound s
  | .repeated p least most, s =>
    turnsUpTo (p.ends bound) (most.elim bound (· - least)) (turns (p.ends bound) least s)

/-- Where matches in a text end that start in a set of places. -/
def endsFrom (p : Pattern) (t : Text) (s : Places) : Places :=
  (p.map (Atom.passage t)).ends (t.length + 1) s

/-- All places of a text. -/
def allPlaces (t : Text) : Places :=
  ofBits (List.replicate (t.length + 1) true)

/-- Whether the pattern matches somewhere in a text. -/
def isMatch (p : Pattern) (t : Text) : Bool :=
  endsFrom p t (allPlaces t) != 0

/-- Whether the pattern matches the whole of a text. -/
def isWholeMatch (p : Pattern) (t : Text) : Bool :=
  (endsFrom p t 1).testBit t.length

end AmpMarkup.Pattern
