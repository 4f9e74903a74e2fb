import AmpMarkup.Pattern.Basic

/-! The flags that change how a pattern is read, and what the parts of a pattern mean under them. -/

namespace AmpMarkup.Pattern

/-- A flag that a pattern can set. -/
inductive Flag where
  | ignoreCase
  | multiLine
  | dotAll
  | swapGreed
  | unicode
  | crlf
  | extended
deriving DecidableEq, Repr, Inhabited

/-- The flag of a letter. -/
def Flag.ofLetter? : Char → Option Flag
  | 'i' => some .ignoreCase
  | 'm' => some .multiLine
  | 's' => some .dotAll
  | 'U' => some .swapGreed
  | 'u' => some .unicode
  | 'R' => some .crlf
  | 'x' => some .extended
  | _ => none

/-- The flags that are set. -/
abbrev Flags := List Flag

namespace Flags

/-- The flags at the start of a pattern. -/
def initial : Flags :=
  [.unicode]

/-- The flags after one is set or cleared. -/
def put (fs : Flags) (f : Flag) (on : Bool) : Flags :=
  if on then f :: fs else fs.filter (· != f)

/-- Whether a flag is set. -/
def has (fs : Flags) (f : Flag) : Bool :=
  fs.contains f

/-- The class of the characters that are not in a class. Without Unicode it would hold bytes that
are no character, which is refused. -/
def complement? (fs : Flags) (c : CharClass) : Option CharClass :=
  if fs.has .unicode then some (.complement c) else none

/-- A class with the variants of case that the flags ask for. -/
def fold (fs : Flags) (c : CharClass) : CharClass :=
  if fs.has .ignoreCase then
    if fs.has .unicode then .folded c else .foldedAscii c
  else c

/-- A class that is negated if asked for. -/
def negateIf? (fs : Flags) (negated : Bool) (c : CharClass) : Option CharClass :=
  if negated then fs.complement? c else some c

/-- The class of a character by itself, with its variants of case. -/
def literal (fs : Flags) (c : Char) : CharClass :=
  if fs.has .ignoreCase then
    if fs.has .unicode then .ofList (Unicode.caseVariants c) else .ofList [c, swapCase c]
  else .single c

/-- The class of the decimal digits. -/
def digits (fs : Flags) : CharClass :=
  if fs.has .unicode then .property .digit else .range '0' '9'

/-- The class of the blank characters. -/
def blanks (fs : Flags) : CharClass :=
  if fs.has .unicode then .property .blank else .ofRanges [('\t', '\r'), (' ', ' ')]

/-- The class of the characters of words. -/
def words (fs : Flags) : CharClass :=
  if fs.has .unicode then .property .word
  else .ofRanges [('0', '9'), ('A', 'Z'), ('_', '_'), ('a', 'z')]

/-- The class of the dot: every character, or all but those that end lines. -/
def dot? (fs : Flags) : Option CharClass :=
  if !fs.has .unicode then none
  else if fs.has .dotAll then some .all
  else if fs.has .crlf then some (.complement (.ofList ['\n', '\r']))
  else some (.complement (.single '\n'))

/-- The assertion of the circumflex. -/
def lineStart (fs : Flags) : Look :=
  if fs.has .multiLine then .lineStart (fs.has .crlf) else .textStart

/-- The assertion of the dollar sign. -/
def lineEnd (fs : Flags) : Look :=
  if fs.has .multiLine then .lineEnd (fs.has .crlf) else .textEnd

/-- An assertion about the edge of a word. -/
def wordEdge (fs : Flags) (edge : WordEdge) : Look :=
  .word edge (!fs.has .unicode)

/-- What is left to read without blanks and comments at its front; `comment` says whether a
comment has begun. -/
def skipBlanks (comment : Bool) : Text → Text
  | [] => []
  | c :: t =>
    if comment then skipBlanks (c != '\n') t
    else if isBlank c then skipBlanks false t
    else if c = '#' then skipBlanks true t
    else c :: t

/-- What is left to read without what the flags ignore at its front. -/
def skip (fs : Flags) (t : Text) : Text :=
  if fs.has .extended then skipBlanks false t else t

end Flags

end AmpMarkup.Pattern
