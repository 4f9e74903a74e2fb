import AmpMarkup.Pattern.CharClass

/-! Patterns: regular expressions over character classes and assertions about the place between two
characters. -/

namespace AmpMarkup.Pattern

/-- Where the edge of a word is asserted: on either side, nowhere, where a word starts or ends, and
where none reaches in from the left or none goes on to the right. -/
inductive WordEdge where
  | boundary
  | inner
  | start
  | finish
  | startHalf
  | finishHalf
deriving DecidableEq, Repr, Inhabited

/-- An assertion about a place in a text. Lines may also end with a carriage return (`crlf`), and
words may be limited to ASCII. -/
inductive Look where
  | textStart
  | textEnd
  | lineStart (crlf : Bool)
  | lineEnd (crlf : Bool)
  | word (edge : WordEdge) (ascii : Bool)
deriving DecidableEq, Repr, Inhabited

/-- Whether a character can be part of a word. -/
def isWordChar (ascii : Bool) (c : Char) : Bool :=
  if ascii then c.isAlphanum || c == '_' else Unicode.isWord c

/-- Whether the edge is between a side inside a word or not and another one. -/
def WordEdge.holds : WordEdge → (before after : Bool) → Bool
  | boundary, before, after => before != after
  | inner, before, after => before == after
  | start, before, after => !before && after
  | finish, before, after => before && !after
  | startHalf, before, _ => !before
  | finishHalf, _, after => !after

/-- Whether an assertion holds between two characters. At the ends of the text one is missing. -/
def Look.holds : Look → (before after : Option Char) → Bool
  | textStart, before, _ => before.isNone
  | textEnd, _, after => after.isNone
  | lineStart false, before, _ => before.all (· == '\n')
  | lineStart true, before, after =>
    before.all (· == '\n') || (before == some '\r' && after != some '\n')
  | lineEnd false, _, after => after.all (· == '\n')
  | lineEnd true, before, after =>
    after.all (· == '\r') || (after == some '\n' && before != some '\r')
  | word edge ascii, before, after =>
    edge.holds (before.any (isWordChar ascii)) (after.any (isWordChar ascii))

/-- The shape of a pattern over its smallest parts. A repetition without a largest number has no
bound. -/
inductive Expr (α : Type) where
  | empty
  | part (a : α)
  | seq (p q : Expr α)
  | alt (p q : Expr α)
  | repeated (p : Expr α) (least : Nat) (most : Option Nat)
deriving Repr, Inhabited

/-- A smallest part: one character of a class, or nothing where an assertion holds. -/
inductive Atom where
  | char (c : CharClass)
  | look (l : Look)
deriving DecidableEq, Repr, Inhabited

namespace Expr

/-- Replaces every smallest part. -/
def map (f : α → β) : Expr α → Expr β
  | empty => empty
  | part a => part (f a)
  | seq p q => seq (p.map f) (q.map f)
  | alt p q => alt (p.map f) (q.map f)
  | repeated p least most => repeated (p.map f) least most

/-- The expressions in order, one after the other. -/
def ofSeq : List (Expr α) → Expr α
  | [] => empty
  | [p] => p
  | p :: ps => seq p (ofSeq ps)

/-- One of the expressions. -/
def ofAlt : List (Expr α) → Expr α
  | [] => empty
  | [p] => p
  | p :: ps => alt p (ofAlt ps)

end Expr

end AmpMarkup.Pattern

namespace AmpMarkup

/-- A pattern. -/
abbrev Pattern :=
  Pattern.Expr Pattern.Atom

namespace Pattern

/-- Whether a pattern consumes no character, wherever it matches. -/
def Expr.isZeroWidth : Pattern → Bool
  | .empty => true
  | .part (.look _) => true
  | .part (.char _) => false
  | .seq p q | .alt p q => p.isZeroWidth && q.isZeroWidth
  | .repeated p _ most => most == some 0 || p.isZeroWidth

/-- About how many bytes a matcher needs for a pattern. A repetition needs room for each of its
turns, but one that consumes nothing only for a single turn. -/
def Expr.weight : Pattern → Nat
  | .empty => 32
  | .part (.look _) => 32
  | .part (.char c) => c.weight
  | .seq p q => p.weight + q.weight
  | .alt p q => p.weight + q.weight + 40
  | .repeated p least most =>
    let turns := max 1 (most.getD least)
    (p.weight + 40) * if p.isZeroWidth then 1 else turns

end Pattern

end AmpMarkup
