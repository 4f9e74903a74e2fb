import AmpMarkup.Unicode.Runs

/-! Characters that differ in case alone. Each character has a simple folding, one character too,
and two characters are variants of each other if their foldings agree. -/

namespace AmpMarkup.Unicode

/-- Characters with foldings at one distance: `count` of them from `start` on, each or every second
one, whose foldings are `distance` above or, if `down`, below them. -/
structure FoldingRun where
  start : Nat
  count : Nat
  stride : Nat
  distance : Nat
  down : Bool

/-- Three numbers a run: how far the start is from the one before, the count doubled, with one
added if every second character is meant, and the distance doubled, with one added if it goes
down. -/
def foldingNumerals : List String :=
  ["1t 1g 1s 38 2 172 b 1a 1s o e 1s 14 1d 2 1e 7 2 7 h 2 h 1b 2 1a 2 6r 1 7 2 6 2 ex 2 2 bo 1 ",
   "5 2 4 2 bg 1 2 2 2 4 be 2 2 2 3 2 4e 1 2 b8 1 2 ba 1 2 2 2 2 be 1 2 bi 2 2 bq 1 2 bm 1 2 2 ",
   "4 2 bq 1 2 bu 2 2 bw 1 7 2 6 2 c4 1 2 2 2 2 c4 3 2 2 2 2 c4 1 2 2 2 4 c2 2 5 2 4 2 c6 1 2 2",
   " 4 2 2 8 2 4 1 2 2 2 2 4 1 2 2 2 2 4 1 j 2 j j 2 j 2 4 1 5 2 4 2 5f 1 2 35 1 15 2 14 2 79 2",
   " j 2 o 2 gnq 1 2 2 2 2 93 1 2 gnk 3 2 2 2 2 av 1 2 3u 1 2 3y 1 b 2 73 2 6g 17 5 2 6 2 2 9 2",
   " 6g 7 2 24 2 6 22 4 2 3k 2 4 3i 3 y 1s i i 1s v 2 2 d 2 g 1 2 1p 1 2 1f 4 2 v 1 2 19 2 p 2 ",
   "o 2 31 1 2 2p 3 2 3d 1 2 3l 2 2 2 2 2 f 1 2 2 3 6 79 3 w 4g g 1s 1s 28 z 2 16 1j 2 1i 2 u 1",
   " f 2 f 2p 2 2p 24 2o 29b 24 b7k 13 2 b7k 6 2 b7k mj c h 1oo 2 9lp 1 2 9ln 1 2 9l5 1 4 9l1 2",
   " 2 9l3 1 2 9kp 1 2 9jd 1 2 1ifa 8 2e 4n5 19 6 4n5 8z 47 2 4b 2 39 3 2 br3 2 2p 2 2w g h g c",
   " h g g h g g h g c h h 9 h f g h w g h g g h g g h g 4 h 2 4 45 2 2 j 2 2 b2j a 8 4t 4 2 j ",
   "7 2 b5z 5 4 h 2 4 5l 9 2 b53 5 4 h 2 4 69 2 2 f c 4 75 2 4 71 2 2 j 8a 2 bln 4 2 cxr 1 2 cr",
   "1 7 2 1k 1a w w z 2 2 mr 1g 1g 1fu 2o 2o 2o 2 2 2 2 gkv 1 2 5vx 1 2 gjz 3 7 2 6 2 gmx 1 2 g",
   "l7 1 2 gn3 1 2 gn1 2 2 2 3 2 2 9 4 gov 2 2t 2 2z 5 2 7 2 2 nym 1b 2 1s t 2 4i f 2 g 1r 2 1z",
   " 5 2 4 2 1iix 1 b 2 d 2 2 2 2 1t8x 3 5 2 6 l 2 k 2 1tah 1 2 1tb3 1 2 1tav 1 2 1tab 1 2 1tah",
   " 2 2 1t7p 1 2 1t91 1 2 1t7v 1 2 1fk 1 h 2 g 2 2p 1 2 1taf 1 2 1ilt 1 5 2 9 2 2 6 5 2 v 2 2 ",
   "or 4g 1nz5 fpx 2 2 t8 1g 1s yn 28 28 4w 20 28 5c m 26 c u 26 g e 26 8 4 26 1d8 2u 3k 2e8 1s",
   " 1s gww 1s 1s o8w 1w 1w"]

/-- The runs after a start. -/
def foldingRunsAfter (start : Nat) : List Nat → List FoldingRun
  | gap :: count :: distance :: rest =>
    ⟨start + gap, count / 2, count % 2 + 1, distance / 2, distance % 2 == 1⟩ ::
      foldingRunsAfter (start + gap) rest
  | _ => []

/-- All characters that are not their own folding. -/
def foldingRuns : List FoldingRun :=
  foldingRunsAfter 0 (numerals (foldingNumerals.flatMap String.toList))

namespace FoldingRun

/-- Whether a code point belongs to the run. -/
def contains (r : FoldingRun) (n : Nat) : Bool :=
  r.start ≤ n && n < r.start + r.count * r.stride && (n - r.start) % r.stride == 0

/-- The folding of a code point of the run. -/
def target (r : FoldingRun) (n : Nat) : Nat :=
  if r.down then n - r.distance else n + r.distance

/-- The code point of the run that has the given folding. -/
def source? (r : FoldingRun) (folded : Nat) : Option Nat :=
  let n := if r.down then folded + r.distance else folded - r.distance
  if r.contains n && r.target n == folded then some n else none

end FoldingRun

/-- The simple case folding of a code point. -/
def simpleFolding (n : Nat) : Nat :=
  ((foldingRuns.find? (·.contains n)).map (·.target n)).getD n

/-- The characters with the same folding as `c`, itself among them. -/
def caseVariants (c : Char) : List Char :=
  let folded := simpleFolding c.toNat
  (folded :: foldingRuns.filterMap (·.source? folded)).filterMap scalar?

end AmpMarkup.Unicode
