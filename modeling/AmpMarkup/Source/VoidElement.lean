import AmpMarkup.Source.StartTag

/-! End tags of void elements. A strict reader needs them, HTML does not write them: they are put
in before reading and taken out after writing. -/

namespace AmpMarkup.Source

/-- The end tag of an element. -/
def endTag (name : Text) : Text :=
  '<' :: '/' :: name ++ ['>']

/-- Whether the text starts with the end tag of an element, in any case. -/
def startsWithEndTag (name t : Text) : Bool :=
  (Text.afterIgnoringCase? (endTag name) t).isSome

/-- The first characters in the source of pieces. -/
def takeSource : Nat → List Piece → Text
  | 0, _ => []
  | _, [] => []
  | n, p :: ps => p.source.take n ++ takeSource (n - p.source.length) ps

theorem takeSource_eq (n : Nat) (ps : List Piece) :
    takeSource n ps = (ps.flatMap Piece.source).take n := by
  induction ps generalizing n with
  | nil => cases n <;> simp [takeSource]
  | cons p ps ih =>
      cases n with
      | zero => simp [takeSource]
      | succ n => simp [takeSource, ih, List.take_append]

/-- Whether the source of pieces starts with the end tag of an element, in any case. -/
def endTagFollows (name : Text) (pieces : List Piece) : Bool :=
  startsWithEndTag name (takeSource (endTag name).length pieces)

theorem endTagFollows_eq (name : Text) (ps : List Piece) :
    endTagFollows name ps = startsWithEndTag name (ps.flatMap Piece.source) := by
  rw [endTagFollows, takeSource_eq, startsWithEndTag, startsWithEndTag,
    Text.isSome_afterIgnoringCase?_take]

/-- The pieces with an end tag after every void start tag that lacks one. -/
def closePieces : List Piece → Text
  | [] => []
  | .text t :: rest => t ++ closePieces rest
  | .tag s :: rest =>
    if Vocabulary.isVoid s.name && !endTagFollows s.name rest then
      s.source ++ endTag s.name ++ closePieces rest
    else s.source ++ closePieces rest

/-- Writes an end tag after every void start tag that lacks one. -/
def closeVoidElements (t : Text) : Text :=
  closePieces (pieces t)

/-- A letter without its case, where the Kelvin sign and the long s count as letters k and s. -/
def foldLetter (c : Char) : Char :=
  if c = '\u212a' then 'k' else if c = '\u017f' then 's' else c.toLower

/-- What follows a name and a `>`, with the letters of the name in any case. -/
def afterName? : (name t : Text) → Option Text
  | [], '>' :: t => some t
  | n :: name, c :: t => if foldLetter c = n then afterName? name t else none
  | _, _ => none

/-- What follows the end tag of a void element at the front of a text. -/
def afterVoidEndTag? : Text → Option Text
  | '<' :: '/' :: t => Vocabulary.voidElements.findSome? (afterName? · t)
  | _ => none

theorem afterName?_length_lt {name t rest : Text} (h : afterName? name t = some rest) :
    rest.length < t.length := by
  fun_induction afterName? name t with
  | case1 t => simp_all
  | case2 name c t ih => exact Nat.lt_succ_of_lt (ih h)
  | case3 => simp at h
  | case4 => simp at h

theorem afterVoidEndTag?_length_lt {t rest : Text} (h : afterVoidEndTag? t = some rest) :
    rest.length < t.length := by
  unfold afterVoidEndTag? at h
  split at h
  · obtain ⟨name, -, hn⟩ := List.exists_of_findSome?_eq_some h
    exact Nat.lt_succ_of_lt (Nat.lt_succ_of_lt (afterName?_length_lt hn))
  · simp at h

/-- Takes the end tags of void elements out. -/
def stripVoidEndTags : Text → Text
  | [] => []
  | c :: t =>
    match _h : afterVoidEndTag? (c :: t) with
    | some rest => stripVoidEndTags rest
    | none => c :: stripVoidEndTags t
termination_by t => t.length
decreasing_by
  · exact afterVoidEndTag?_length_lt _h
  · simp

end AmpMarkup.Source
