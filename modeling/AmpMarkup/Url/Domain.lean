import AmpMarkup.Text.Utf8
import AmpMarkup.Unicode.Direction
import AmpMarkup.Unicode.Domain
import AmpMarkup.Unicode.Property
import AmpMarkup.Url.Punycode

/-! Domain names: which texts are one, and their normal form. Characters are replaced by what they
stand for, and every label has to follow the rules for marks, joiners and writing directions. -/

namespace AmpMarkup.Url

open Unicode (Direction direction)

/-- The bytes of a text with those written as a percent sign and two digits in their place. -/
def percentDecoded : Text → List UInt8
  | '%' :: a :: b :: t =>
    if isHexDigit a && isHexDigit b then
      UInt8.ofNat (Text.numeral 16 [a, b]) :: percentDecoded t
    else Text.utf8 ['%'] ++ percentDecoded (a :: b :: t)
  | c :: t => Text.utf8 [c] ++ percentDecoded t
  | [] => []

/-- Whether a domain name may not contain an ASCII character. -/
def isForbidden (c : Char) : Bool :=
  c.toNat ≤ 0x20 || c == '\x7f' || "%#/:<>?@[\\]^|".toList.contains c

/-- What a character stands for in a domain name. -/
def domainForm? (c : Char) : Option Text :=
  if c.toNat < 0x80 then some [c.toLower]
  else
    match Unicode.domainStatus c with
    | .allowed => some [c]
    | .ignored => some []
    | .mapped => some ((Unicode.asciiReplacement? c).getD [c])
    | .refused => none

/-- The label that a label in ASCII stands for, if it is marked as standing for one. It has to
contain more than ASCII, and nothing that stands for something else. -/
def resolveLabel? (label : Text) : Option Text :=
  match Text.after? "xn--" label with
  | none => some label
  | some encoded =>
    if encoded.any (0x80 ≤ ·.toNat) then none
    else
      match decodePunycode? encoded with
      | none => none
      | some decoded =>
        if decoded.any (0x80 ≤ ·.toNat) &&
            decoded.all (fun c => c.toNat < 0x80 || Unicode.domainStatus c == .allowed) then
          some decoded
        else none

/-- Whether a joiner may stand between the reversed text before it and the text after it: behind a
virama, or, for the one that separates, between characters that join each other. -/
def joinerAllowed (joiner : Char) (before after : Text) : Bool :=
  let side (t : Text) := ((t.map Unicode.joining).dropWhile (· == .transparent)).head?
  before.head?.any Unicode.isVirama ||
    (joiner == '\u200c' &&
      (side before == some .both || side before == some .left) &&
      (side after == some .both || side after == some .right))

/-- Whether all joiners in a text may stand where they are, after the reversed text before it. -/
def joinersAllowed (before : Text) : Text → Bool
  | [] => true
  | c :: t =>
    ((c != '\u200c' && c != '\u200d') || joinerAllowed c before t) && joinersAllowed (c :: before) t

/-- Whether a label starts with no mark and has joiners only where they may stand. -/
def isLabel (label : Text) : Bool :=
  !label.head?.any (fun c => (Unicode.category c).isMark) && joinersAllowed [] label

/-- The directions that are part of text from right to left. -/
def isRightward (d : Direction) : Bool :=
  d == .right || d == .arabicLetter || d == .arabicNumber

/-- Whether a label can be written next to labels from right to left: it has one direction, starts
with a letter and ends with a letter or number. -/
def followsDirection (label : Text) : Bool :=
  let ds := label.map direction
  let last := (ds.reverse.dropWhile (· == .mark)).head?
  let weak (d : Direction) :=
    d == .number || d == .separator || d == .commonSeparator || d == .terminator ||
      d == .neutral || d == .boundary || d == .mark
  match ds.head? with
  | some .left =>
    ds.all (fun d => d == .left || weak d) && last.any fun d => d == .left || d == .number
  | some .right | some .arabicLetter =>
    ds.all (fun d => isRightward d || weak d) &&
      last.any (fun d => isRightward d || d == .number) &&
      !(ds.contains .number && ds.contains .arabicNumber)
  | some _ => false
  | none => true

/-- The normal form of a domain name. Characters beyond ASCII stay as they are. -/
def domain? (bytes : List UInt8) : Option Text := do
  let written ← Text.ofUtf8? bytes
  let name := (← written.mapM domainForm?).flatten
  if name.any isForbidden then none
  let labels ← (Text.splitOn '.' name).mapM resolveLabel?
  if !labels.all isLabel then none
  if labels.any (·.any (isRightward <| direction ·)) && !labels.all followsDirection then none
  return name

end AmpMarkup.Url
