import AmpMarkup.Text.Numeral

/-! Properties of characters as runs: where a property changes its value on the way through all
code points, and which value it takes there. -/

namespace AmpMarkup.Unicode

/-- How many of the entries from place `low` up to `high` of an ascending array are at most `n`,
with `low` added. -/
def countUpTo (a : Array Nat) (n low high : Nat) : Nat :=
  if low < high then
    let middle := (low + high) / 2
    if a.getD middle 0 ≤ n then countUpTo a n (middle + 1) high else countUpTo a n low middle
  else low
termination_by high - low

/-- Values with the places where their runs start, in ascending order. -/
structure Runs (α : Type) where
  starts : Array Nat
  values : Array α

namespace Runs

/-- The value of the run in which a place lies. -/
def valueAt [Inhabited α] (r : Runs α) (n : Nat) : α :=
  match countUpTo r.starts n 0 r.starts.size with
  | 0 => default
  | i + 1 => r.values.getD i default

/-- Adds a run of the given length. The first component is where it starts. -/
def push (r : Nat × Runs α) (value : α) (length : Nat) : Nat × Runs α :=
  (r.1 + length, ⟨r.2.starts.push r.1, r.2.values.push value⟩)

/-- Letters with the numbers after them, the last first. Numbers are in base 36. -/
def letterCounts (t : Text) : List (Char × Option Nat) :=
  t.foldl
    (fun counts c =>
      match counts with
      | (letter, n) :: rest =>
        if c.isDigit || c.isLower then (letter, some (n.getD 0 * 36 + digitValue c)) :: rest
        else (c, none) :: counts
      | [] => [(c, none)])
    []

/-- The runs that letters with their lengths describe. A letter alone is a run of one. -/
def ofLetters (value : Char → α) (t : Text) : Runs α :=
  ((letterCounts t).reverse.foldl (fun r (letter, n) => push r (value letter) (n.getD 1))
    (0, ⟨#[], #[]⟩)).2

end Runs

/-- Numbers in base 36 between spaces. -/
def numerals (t : Text) : List Nat :=
  (t.foldl
    (fun numbers c =>
      match numbers with
      | n :: rest => if c = ' ' then 0 :: numbers else (n * 36 + digitValue c) :: rest
      | [] => [digitValue c])
    []).reverse

/-- The sums of the initial parts of a list. -/
def runningSums (ns : List Nat) : Array Nat :=
  (ns.foldl (fun (sums, total) n => (sums.push (total + n), total + n))
    ((#[], 0) : Array Nat × Nat)).1

/-- A set of code points: the lengths of the stretches outside and inside of it, in turn. -/
structure Stretches where
  ends : Array Nat

namespace Stretches

/-- The set that the lengths of its stretches describe. -/
def ofText (t : Text) : Stretches :=
  ⟨runningSums (numerals t)⟩

/-- Whether a code point is in the set. -/
def contains (s : Stretches) (n : Nat) : Bool :=
  countUpTo s.ends n 0 s.ends.size % 2 == 1

end Stretches

end AmpMarkup.Unicode
