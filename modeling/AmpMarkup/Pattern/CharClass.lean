import AmpMarkup.Text.Space
import AmpMarkup.Unicode.CaseFolding
import AmpMarkup.Unicode.Property
import AmpMarkup.Unicode.Script

/-! Classes of characters, built from ranges and properties by the operations on sets. A class says
of every character whether it belongs, and each operation is defined by what it says. -/

namespace AmpMarkup.Pattern

/-- A property by which characters are classed. -/
inductive Property where
  | word
  | digit
  | blank
  | alphabetic
  | uppercase
  | lowercase
  | category (among : List Unicode.Category)
  | script (number : Nat)
deriving DecidableEq, Repr, Inhabited

/-- Whether a character has a property. -/
def Property.holds : Property → Char → Bool
  | word, c => Unicode.isWord c
  | digit, c => Unicode.isDecimalDigit c
  | blank, c => isBlank c
  | alphabetic, c => Unicode.isAlphabetic c
  | uppercase, c => Unicode.isUppercase c
  | lowercase, c => Unicode.isLowercase c
  | category among, c => among.contains (Unicode.category c)
  | script number, c => Unicode.script c == number

/-- The other case of an ASCII letter, every other character unchanged. -/
def swapCase (c : Char) : Char :=
  if c.isUpper then c.toLower else c.toUpper

/-- A class of characters. `folded` adds all variants of case, `foldedAscii` those of ASCII
letters among themselves. -/
inductive CharClass where
  | empty
  | range (low high : Char)
  | property (p : Property)
  | union (a b : CharClass)
  | inter (a b : CharClass)
  | diff (a b : CharClass)
  | symmDiff (a b : CharClass)
  | complement (a : CharClass)
  | folded (a : CharClass)
  | foldedAscii (a : CharClass)
deriving DecidableEq, Repr, Inhabited

namespace CharClass

/-- Whether a character belongs to a class. -/
def contains : CharClass → Char → Bool
  | empty, _ => false
  | range low high, c => low ≤ c && c ≤ high
  | property p, c => p.holds c
  | union a b, c => a.contains c || b.contains c
  | inter a b, c => a.contains c && b.contains c
  | diff a b, c => a.contains c && !b.contains c
  | symmDiff a b, c => a.contains c != b.contains c
  | complement a, c => !a.contains c
  | folded a, c => a.contains c || (Unicode.caseVariants c).any a.contains
  | foldedAscii a, c => a.contains c || a.contains (swapCase c)

/-- The class of one character. -/
def single (c : Char) : CharClass :=
  .range c c

/-- The class of every character. -/
def all : CharClass :=
  .complement .empty

/-- The class of the listed characters. -/
def ofList (cs : List Char) : CharClass :=
  cs.foldr (fun c a => .union (single c) a) .empty

/-- The union of ranges. -/
def ofRanges (rs : List (Char × Char)) : CharClass :=
  rs.foldr (fun (low, high) a => .union (.range low high) a) .empty

/-- About how many bytes a matcher needs for a class. -/
def weight : CharClass → Nat
  | empty => 64
  | range low high => if high.toNat < 0x80 then 40 else if low == high then 96 else 320
  | property .digit => 4000
  | property .blank => 700
  | property (.script _) => 3000
  | property _ => 50000
  | union a b | inter a b | diff a b | symmDiff a b => a.weight + b.weight
  | complement a => a.weight + 400
  | folded a => 2 * a.weight
  | foldedAscii a => 2 * a.weight

end CharClass

end AmpMarkup.Pattern
