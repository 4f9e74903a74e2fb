import AmpMarkup.Text.Space
import AmpMarkup.Vocabulary

/-! Start tags in markup that has not been read as HTML yet. The markup is cut into pieces, start
tags and the text between them, which concatenate to the markup again. Text inside an element of
plain text holds no tags. -/

namespace AmpMarkup.Source

/-- A start tag as written: its name, and everything from there to the closing `>`. -/
structure StartTag where
  name : Text
  attributes : Text
deriving DecidableEq, Repr, Inhabited

/-- A start tag, or text outside of start tags. -/
inductive Piece where
  | text (t : Text)
  | tag (tag : StartTag)
deriving DecidableEq, Repr, Inhabited

/-- The tag in the source. -/
def StartTag.source (tag : StartTag) : Text :=
  '<' :: tag.name ++ tag.attributes ++ ['>']

/-- The piece in the source. -/
def Piece.source : Piece → Text
  | .text t => t
  | .tag s => s.source

/-- Letters, digits, underscore and hyphen: the characters of names. -/
def isNameChar (c : Char) : Bool :=
  c.isAlphanum || c == '_' || c == '-'

/-- What a quote would mean at a place inside a tag: it is an ordinary character, it opens a value,
or it closes the value that the same quote opened. -/
inductive QuoteState where
  | ordinary
  | opening
  | inside (quote : Char)
deriving DecidableEq, Repr, Inhabited

/-- What a quote means after the character `c`. Only an equals sign, with spaces after it allowed,
lets a quote open a value. -/
def QuoteState.next (s : QuoteState) (c : Char) : QuoteState :=
  match s with
  | .inside quote => if c = quote then .ordinary else .inside quote
  | .opening =>
    if c = '"' ∨ c = '\'' then .inside c
    else if c = '=' ∨ isSpace c then .opening
    else .ordinary
  | .ordinary => if c = '=' then .opening else .ordinary

/-- The text up to the `>` that closes a tag, and the text after it. There is none if the markup
ends first. -/
def spanTag? (s : QuoteState) : Text → Option (Text × Text)
  | [] => none
  | c :: t =>
    match s, c with
    | .ordinary, '>' | .opening, '>' => some ([], t)
    | s, c => (spanTag? (s.next c) t).map fun (inside, rest) => (c :: inside, rest)

/-- Whether a name may end before this text. -/
def endsName (t : Text) : Bool :=
  t.head?.any fun c => isSpace c || c == '/' || c == '>'

/-- The start tag whose `<` stands right before this text, and the text after the tag. -/
def StartTag.read? (t : Text) : Option (StartTag × Text) :=
  let name := t.takeWhile isNameChar
  let rest := t.dropWhile isNameChar
  if t.head?.any Char.isAlpha && endsName rest then
    (spanTag? .ordinary rest).map fun (attributes, rest) => (⟨name, attributes⟩, rest)
  else none

/-- Whether the end tag of an element may end before this text; the end of the markup counts. -/
def closesElement (name t : Text) : Bool :=
  match Text.afterIgnoringCase? name t with
  | some rest => rest.isEmpty || endsName rest
  | none => false

/-- The content of an element of plain text, up to its end tag or to the end of the markup. -/
def spanContent (name : Text) : Text → Text × Text
  | [] => ([], [])
  | '<' :: '/' :: t =>
    if closesElement name t then ([], '<' :: '/' :: t)
    else
      let (content, rest) := spanContent name t
      ('<' :: '/' :: content, rest)
  | c :: t =>
    let (content, rest) := spanContent name t
    (c :: content, rest)

theorem spanTag?_source {s : QuoteState} {t inside rest : Text}
    (h : spanTag? s t = some (inside, rest)) : t = inside ++ '>' :: rest := by
  induction t generalizing s inside with
  | nil => simp [spanTag?] at h
  | cons c t ih =>
      unfold spanTag? at h
      split at h
      · obtain ⟨rfl, rfl⟩ := Prod.mk.inj (Option.some.inj h)
        rfl
      · obtain ⟨rfl, rfl⟩ := Prod.mk.inj (Option.some.inj h)
        rfl
      · obtain ⟨⟨inside', rest'⟩, hr, he⟩ := Option.map_eq_some_iff.1 h
        obtain ⟨rfl, rfl⟩ := Prod.mk.inj he
        rw [ih hr, List.cons_append]

theorem StartTag.read?_source {t rest : Text} {tag : StartTag}
    (h : StartTag.read? t = some (tag, rest)) : '<' :: t = tag.source ++ rest := by
  unfold StartTag.read? at h
  dsimp only at h
  split at h
  · obtain ⟨⟨attributes, rest'⟩, hr, he⟩ := Option.map_eq_some_iff.1 h
    obtain ⟨rfl, rfl⟩ := Prod.mk.inj he
    have hs := spanTag?_source hr
    simp only [StartTag.source, List.cons_append, List.append_assoc, List.nil_append]
    rw [← hs, List.takeWhile_append_dropWhile]
  · simp at h

theorem StartTag.read?_length_lt {t rest : Text} {tag : StartTag}
    (h : StartTag.read? t = some (tag, rest)) : rest.length < t.length + 1 := by
  have := congrArg List.length (StartTag.read?_source h)
  simp only [StartTag.source, List.length_cons, List.length_append, List.length_nil] at this
  omega

theorem spanContent_source (name t : Text) :
    (spanContent name t).1 ++ (spanContent name t).2 = t := by
  fun_induction spanContent name t with
  | case1 => rfl
  | case2 => rfl
  | case3 t hc content rest hr ih =>
      rw [hr] at ih
      simp only [List.cons_append, ih]
  | case4 c t hne content rest hr ih =>
      rw [hr] at ih
      simp only [List.cons_append, ih]

theorem spanContent_length_le (name t : Text) : (spanContent name t).2.length ≤ t.length := by
  have := congrArg List.length (spanContent_source name t)
  rw [List.length_append] at this
  omega

/-- The pieces of markup in order. A start tag that the markup cuts off is text. -/
def pieces : Text → List Piece
  | [] => []
  | c :: t =>
    if c = '<' then
      match _h : StartTag.read? t with
      | some (tag, rest) =>
        if Vocabulary.isTextOnly tag.name then
          .tag tag :: .text (spanContent tag.name rest).1 :: pieces (spanContent tag.name rest).2
        else .tag tag :: pieces rest
      | none => .text ['<'] :: pieces t
    else .text [c] :: pieces t
termination_by t => t.length
decreasing_by
  · exact Nat.lt_of_le_of_lt (spanContent_length_le _ _) (StartTag.read?_length_lt _h)
  · exact StartTag.read?_length_lt _h
  · simp
  · simp

/-- Nothing is lost or added by cutting markup into pieces. -/
theorem flatMap_source_pieces (t : Text) : (pieces t).flatMap Piece.source = t := by
  fun_induction pieces t with
  | case1 => rfl
  | case2 t tag rest hr hx ih =>
      rw [List.flatMap_cons, List.flatMap_cons, ih, Piece.source, Piece.source,
        spanContent_source, ← StartTag.read?_source hr]
  | case3 t tag rest hr hx ih =>
      rw [List.flatMap_cons, ih, Piece.source, ← StartTag.read?_source hr]
  | case4 t hr ih => rw [List.flatMap_cons, ih, Piece.source, List.singleton_append]
  | case5 c t hc ih => rw [List.flatMap_cons, ih, Piece.source, List.singleton_append]

end AmpMarkup.Source
