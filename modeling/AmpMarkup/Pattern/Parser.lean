import AmpMarkup.Pattern.Escape

/-! Reading patterns. The reader goes through a pattern once and keeps what is open, the innermost
first: groups with the branches before them, and the sets of characters in brackets. -/

namespace AmpMarkup.Pattern

/-- Something with the number of levels in it. -/
structure Nested (α : Type) where
  value : α
  depth : Nat
deriving Repr, Inhabited

/-- Several values in one. A single one adds no level. -/
def Nested.combine (f : List α → α) (xs : List (Nested α)) : Nested α :=
  ⟨f (xs.map Nested.value),
    match xs with
    | [] => 0
    | [x] => x.depth
    | xs => (xs.map Nested.depth).foldl max 0 + 1⟩

/-- A value one level further in. -/
def Nested.wrap (f : α → β) (x : Nested α) : Nested β :=
  ⟨f x.value, x.depth + 1⟩

/-- An operation between the parts of a set. -/
inductive SetOp where
  | inter
  | diff
  | symmDiff

/-- A set in brackets that is open: the operation that waits for its right side, with its left
side, and the parts since then, the latest first. -/
structure OpenSet where
  negated : Bool
  pending : Option (SetOp × Nested CharClass)
  parts : List (Nested CharClass)

/-- What stands in a row: flags for what follows, which cannot be repeated, or a pattern. -/
inductive Item where
  | flags
  | pattern (p : Nested Pattern)

/-- Branches of which the last is still open, both the latest first, with the flags that hold again
after them. -/
structure Level where
  branches : List (Nested Pattern)
  items : List Item
  outer : Flags

/-- A reader: what is left to read, the flags that hold, the level that is open and those around
it, the sets that are open and the names of groups so far. -/
structure Reader where
  rest : Text
  flags : Flags
  level : Level
  around : List Level
  sets : List OpenSet
  names : List Text

/-- Levels that a pattern may have. -/
def depthLimit : Nat :=
  250

/-- Bytes that a matcher for a pattern may need. -/
def weightLimit : Nat :=
  10485760

namespace Level

/-- A level at its start. -/
def start (outer : Flags) : Level :=
  ⟨[], [], outer⟩

/-- The pattern of items in a row. -/
def row (items : List Item) : Nested Pattern :=
  .combine Expr.ofSeq <| items.reverse.map fun
    | .flags => ⟨.empty, 0⟩
    | .pattern p => p

/-- A level with its last branch finished. -/
def nextBranch (l : Level) : Level :=
  { l with branches := row l.items :: l.branches, items := [] }

/-- The pattern of all branches. -/
def close (l : Level) : Nested Pattern :=
  .combine Expr.ofAlt l.nextBranch.branches.reverse

/-- Adds an item. -/
def push (l : Level) (i : Item) : Level :=
  { l with items := i :: l.items }

/-- Repeats the last item, which has to be a pattern. -/
def repeat? (l : Level) (least : Nat) (most : Option Nat) : Option Level :=
  match l.items with
  | .pattern p :: items =>
    some { l with items := .pattern (p.wrap (.repeated · least most)) :: items }
  | _ => none

end Level

namespace OpenSet

/-- The class of the operation that waits, with the parts so far on its right. -/
def close (fs : Flags) (s : OpenSet) : Nested CharClass :=
  let right := Nested.combine (List.foldl .union .empty) s.parts.reverse
  match s.pending with
  | none => right
  | some (op, left) =>
    let f := match op with
      | .inter => CharClass.inter
      | .diff => CharClass.diff
      | .symmDiff => CharClass.symmDiff
    ⟨f (fs.fold left.value) (fs.fold right.value), max left.depth right.depth + 1⟩

/-- Starts the right side of an operation. -/
def operate (fs : Flags) (s : OpenSet) (op : SetOp) : OpenSet :=
  { s with pending := some (op, s.close fs), parts := [] }

/-- Adds a part. -/
def push (s : OpenSet) (c : Nested CharClass) : OpenSet :=
  { s with parts := c :: s.parts }

/-- The class between the brackets. -/
def finish? (fs : Flags) (s : OpenSet) : Option (Nested CharClass) :=
  let inner := s.close fs
  (fs.negateIf? s.negated (fs.fold inner.value)).map (⟨·, inner.depth + 1⟩)

end OpenSet

/-- What stands alone in a set: a character, maybe as a byte, or a class. -/
def readSetItem? (fs : Flags) : Text → Option (Escape × Text)
  | '\\' :: t => readEscape? fs t
  | c :: t => some (.char c false, t)
  | [] => none

/-- The character at an end of a range. Without Unicode it has to be one of ASCII. -/
def setChar? (fs : Flags) : Escape → Option Char
  | .char c _ => if fs.has .unicode || c.toNat < 0x80 then some c else none
  | _ => none

/-- The class of what stands alone in a set. -/
def setClass? (fs : Flags) : Escape → Option CharClass
  | .cls c => some c
  | e => (setChar? fs e).map .single

/-- The character after the next one, without what the flags ignore in between. Of comments only the
mark at their start is ignored. -/
def peekAfter (fs : Flags) (t : Text) : Option Char :=
  if fs.has .extended then
    let plain := t.dropWhile isBlank
    let seen := match plain with
      | '#' :: t => t.dropWhile isBlank
      | t => t
    seen.head?.or t.head?
  else t.head?

/-- A range of characters or a single part of a set. -/
def readSetRange? (fs : Flags) (t : Text) : Option (CharClass × Text) := do
  let (first, rest) ← readSetItem? fs t
  match fs.skip rest with
  | [] => none
  | '-' :: t =>
    let next := peekAfter fs t
    if next == some ']' || next == some '-' then return (← setClass? fs first, '-' :: t)
    else
      let (second, rest) ← readSetItem? fs (fs.skip t)
      let low ← setChar? fs first
      let high ← setChar? fs second
      if low ≤ high then return (.range low high, rest) else none
  | rest => return (← setClass? fs first, rest)

/-- The class of an ASCII class in its brackets, and the rest. -/
def readAsciiClass? (t : Text) : Option (List (Char × Char) × Bool × Text) := do
  let t ← Text.after? "[:" t
  let (negated, t) := match t with
    | '^' :: t => (true, t)
    | t => (false, t)
  let (name, rest) ← splitAt? ":" t
  let rest ← Text.after? "]" rest
  return (← asciiRanges? name, negated, rest)

/-- Hyphens at the start of a set, which stand for themselves, and the rest. -/
def readHyphens (fs : Flags) : (bound : Nat) → Text → List (Nested CharClass) × Text
  | bound + 1, '-' :: t =>
    let (hyphens, rest) := readHyphens fs bound (fs.skip t)
    (⟨.single '-', 0⟩ :: hyphens, rest)
  | _, t => ([], t)

/-- A set after its opening bracket. A closing bracket at its start stands for itself. -/
def readSetStart (fs : Flags) (t : Text) : OpenSet × Text :=
  let (negated, t) := match fs.skip t with
    | '^' :: t => (true, fs.skip t)
    | t => (false, t)
  let (hyphens, rest) := readHyphens fs t.length t
  match hyphens, rest with
  | [], ']' :: rest => (⟨negated, none, [⟨.single ']', 0⟩]⟩, fs.skip rest)
  | hyphens, rest => (⟨negated, none, hyphens⟩, rest)

/-- Whether a character can stand in the name of a group. -/
def isGroupNameChar (first : Bool) (c : Char) : Bool :=
  if first then c == '_' || Unicode.isAlphabetic c
  else c == '_' || c == '.' || c == '[' || c == ']' || Unicode.isAlphanumeric c

/-- The name of a group up to the angle bracket after it, and the rest. -/
def readGroupName? (t : Text) : Option (Text × Text) := do
  let (name, rest) ← Text.splitOnce? '>' t
  match name with
  | [] => none
  | c :: cs =>
    if isGroupNameChar true c && cs.all (isGroupNameChar false) then return (name, rest) else none

/-- Flags up to what ends them: a closing parenthesis or a colon. Each may be named once, and the
minus sign too, which may not be the last. -/
def readFlags? (named : List (Option Flag)) (on : Bool) (fs : Flags) :
    Text → Option (List (Option Flag) × Flags × Char × Text)
  | [] => none
  | c :: t =>
    if c = ':' ∨ c = ')' then
      if named.head? == some none then none else some (named, fs, c, t)
    else if c = '-' then
      if named.contains none then none else readFlags? (none :: named) false fs t
    else
      match Flag.ofLetter? c with
      | none => none
      | some f =>
        if named.contains (some f) then none else readFlags? (some f :: named) on (fs.put f on) t

namespace Reader

/-- A reader before a pattern. -/
def start (t : Text) : Reader :=
  ⟨t, .initial, .start .initial, [], [], []⟩

/-- Adds a pattern. -/
def push (r : Reader) (p : Nested Pattern) (rest : Text) : Reader :=
  { r with rest := rest, level := r.level.push (.pattern p) }

/-- Adds one character of a class. -/
def pushChar (r : Reader) (c : CharClass) (rest : Text) : Reader :=
  r.push ⟨.part (.char c), 0⟩ rest

/-- Adds an assertion. -/
def pushLook (r : Reader) (l : Look) (rest : Text) : Reader :=
  r.push ⟨.part (.look l), 0⟩ rest

/-- Opens a group in which the given flags hold. -/
def openGroup (r : Reader) (inner : Flags) (rest : Text) : Reader :=
  { r with rest := rest, flags := inner, level := .start r.flags, around := r.level :: r.around }

/-- Opens a group with a name that no other group has. -/
def openNamed? (r : Reader) (t : Text) : Option Reader := do
  let (name, rest) ← readGroupName? t
  if r.names.contains name then none
  else return { r with names := name :: r.names }.openGroup r.flags rest

/-- Sets flags for the rest of the level, or opens a group with flags. -/
def setFlags? (r : Reader) (t : Text) : Option Reader := do
  let (named, fs, mark, rest) ← readFlags? [] true r.flags t
  if mark = ':' then return r.openGroup fs rest
  else if named.isEmpty then none
  else return { r with rest := rest, flags := fs, level := r.level.push .flags }

/-- What follows an opening parenthesis. Assertions about more than one place are refused. -/
def openAny? (r : Reader) (t : Text) : Option Reader :=
  match r.flags.skip t with
  | '?' :: '=' :: _ | '?' :: '!' :: _ | '?' :: '<' :: '=' :: _ | '?' :: '<' :: '!' :: _ => none
  | '?' :: 'P' :: '<' :: t | '?' :: '<' :: t => r.openNamed? t
  | '?' :: t => r.setFlags? t
  | t => some (r.openGroup r.flags t)

/-- Closes the group that is open. -/
def closeGroup? (r : Reader) (rest : Text) : Option Reader :=
  match r.around with
  | [] => none
  | level :: around =>
    some { r with
      rest := rest
      flags := r.level.outer
      level := level.push (.pattern (r.level.close.wrap id))
      around := around }

/-- Repeats the last item. -/
def repeat? (r : Reader) (least : Nat) (most : Option Nat) (rest : Text) : Option Reader :=
  (r.level.repeat? least most).map fun level => { r with rest := rest, level := level }

/-- What follows a sign of repetition, without the mark that prefers few turns. -/
def afterGreed (t : Text) : Text :=
  match t with
  | '?' :: rest => rest
  | t => t

/-- A count with the blanks around it. It may be missing. -/
def readCount (fs : Flags) (t : Text) : Option Nat × Text :=
  let t := t.dropWhile isBlank
  let (digits, rest) := readDigits fs Char.isDigit t.length t
  let rest := match rest with
    | c :: t => if isBlank c then fs.skip ((c :: t).dropWhile isBlank) else c :: t
    | [] => []
  (if digits.isEmpty then none else some (Text.numeral 10 digits), rest)

/-- A repetition with counts, after the opening brace. -/
def repeatCounted? (r : Reader) (t : Text) : Option Reader := do
  let fs := r.flags
  let (least, rest) := readCount fs (fs.skip t)
  let least ← least
  let (most, rest) ← match rest with
    | ',' :: rest =>
      match fs.skip rest with
      | '\x7d' :: rest => some ((none : Option Nat), rest)
      | rest =>
        match readCount fs rest with
        | (some most, '\x7d' :: rest) => some (some most, rest)
        | _ => none
    | '\x7d' :: rest => some (some least, rest)
    | _ => none
  if UInt32.size ≤ max least (most.getD 0) ∨ most.any (· < least) then none
  else r.repeat? least most (afterGreed (fs.skip rest))

/-- Adds what an escape denotes. -/
def pushEscape? (r : Reader) (t : Text) : Option Reader := do
  let (e, rest) ← readEscape? r.flags t
  match e with
  | .char c byte => return r.pushChar (r.flags.literal (← literalChar? r.flags c byte)) rest
  | .cls c => return r.pushChar c rest
  | .look l => return r.pushLook l rest

/-- Opens a set. -/
def openSet (r : Reader) (t : Text) : Reader :=
  let (s, rest) := readSetStart r.flags t
  { r with rest := rest, sets := s :: r.sets }

/-- The reader after the next character outside of sets. -/
def stepPattern? (r : Reader) (c : Char) (t : Text) : Option Reader :=
  match c with
  | '(' => r.openAny? t
  | ')' => r.closeGroup? t
  | '|' => some { r with rest := t, level := r.level.nextBranch }
  | '[' => some (r.openSet t)
  | '?' => r.repeat? 0 (some 1) (afterGreed t)
  | '*' => r.repeat? 0 none (afterGreed t)
  | '+' => r.repeat? 1 none (afterGreed t)
  | '\x7b' => r.repeatCounted? t
  | '\\' => r.pushEscape? t
  | '.' => r.flags.dot?.map (r.pushChar · t)
  | '^' => some (r.pushLook r.flags.lineStart t)
  | '$' => some (r.pushLook r.flags.lineEnd t)
  | c => some (r.pushChar (r.flags.literal c) t)

/-- Closes the innermost set, which becomes a part of the one around it or a part of the pattern. -/
def closeSet? (r : Reader) (s : OpenSet) (sets : List OpenSet) (rest : Text) : Option Reader := do
  let c ← s.finish? r.flags
  match sets with
  | [] => return { r with sets := [] }.push ⟨.part (.char c.value), c.depth⟩ rest
  | outer :: sets => return { r with rest := rest, sets := outer.push c :: sets }

/-- Adds an ASCII class or else opens a set in a set. -/
def openInner? (r : Reader) (s : OpenSet) (sets : List OpenSet) (c : Char) (t : Text) :
    Option Reader :=
  match readAsciiClass? (c :: t) with
  | some (ranges, negated, rest) => do
    let c ← r.flags.negateIf? negated (r.flags.fold (.ofRanges ranges))
    return { r with rest := rest, sets := s.push ⟨c, 0⟩ :: sets }
  | none => some (r.openSet t)

/-- The reader after the next part of a set. -/
def stepSet? (r : Reader) (s : OpenSet) (sets : List OpenSet) (c : Char) (t : Text) :
    Option Reader :=
  let operate (op : SetOp) (rest : Text) : Option Reader :=
    some { r with rest := rest, sets := s.operate r.flags op :: sets }
  match c, t with
  | '[', t => r.openInner? s sets '[' t
  | ']', t => r.closeSet? s sets t
  | '&', '&' :: t => operate .inter t
  | '-', '-' :: t => operate .diff t
  | '~', '~' :: t => operate .symmDiff t
  | c, t =>
    (readSetRange? r.flags (c :: t)).map fun (part, rest) =>
      { r with rest := rest, sets := s.push ⟨part, 0⟩ :: sets }

/-- The reader after the next character. -/
def step? (r : Reader) (c : Char) (t : Text) : Option Reader :=
  match r.sets with
  | s :: sets => r.stepSet? s sets c t
  | [] => r.stepPattern? c t

/-- The pattern that has been read, with nothing open. -/
def finish? (r : Reader) : Option (Nested Pattern) :=
  match r.around, r.sets with
  | [], [] => some r.level.close
  | _, _ => none

/-- Reads on for at most `bound` steps. -/
def run? : (bound : Nat) → Reader → Option (Nested Pattern)
  | bound, r =>
    match r.flags.skip r.rest, bound with
    | [], _ => r.finish?
    | _ :: _, 0 => none
    | c :: t, bound + 1 => (r.step? c t).bind (run? bound)

end Reader

/-- The pattern that a text describes. Every step reads a character, so the length of the text
bounds their number. -/
def parse? (t : Text) : Option Pattern := do
  let p ← (Reader.start t).run? t.length
  if p.depth ≤ depthLimit ∧ p.value.weight ≤ weightLimit then return p.value else none

end AmpMarkup.Pattern
