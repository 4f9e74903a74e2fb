import AmpMarkup.Source.AttributeSpan
import AmpMarkup.Source.Registry

/-! Binding attributes, whose names stand in square brackets. Before reading they are renamed to
start with the registry's mark, after writing the brackets come back. -/

namespace AmpMarkup.Source

/-- The spaces at the end of a span with at most one solidus among them, and what stands before. -/
def splitSolidus (span : Text) : Text × Text :=
  let trimmed := (span.reverse.dropWhile isSpace).reverse
  let body :=
    match trimmed.reverse with
    | '/' :: before => (before.dropWhile isSpace).reverse
    | _ => trimmed
  (body, span.drop body.length)

/-- The attribute in the source, with the registry's mark in place of the brackets. -/
def SourceAttribute.encodedSource (r : Registry) (a : SourceAttribute) : Text :=
  a.leading ++ (if a.isBinding then r.bindingName a.name else a.writtenName) ++ a.value.getD []

/-- The attributes of a start tag with binding attributes renamed. A span without them, or one that
cannot be split, stays as it is. -/
def encodeSpan (r : Registry) (span : Text) : Text :=
  let (body, solidus) := splitSolidus span
  match splitAttributes? body with
  | some attributes =>
    if attributes.any SourceAttribute.isBinding then
      attributes.flatMap (·.encodedSource r) ++ solidus
    else span
  | none => span

/-- A piece of markup with binding attributes renamed. -/
def Piece.encodedSource (r : Registry) : Piece → Text
  | .text t => t
  | .tag s => { s with attributes := encodeSpan r s.attributes }.source

/-- Renames the binding attributes of all start tags. -/
def encodeBindings (r : Registry) (t : Text) : Text :=
  (pieces t).flatMap (·.encodedSource r)

/-- The name after the mark at the front of a text, and what follows it. -/
def readMarked? (mark t : Text) : Option (Text × Text) :=
  match Text.after? mark t with
  | none => none
  | some rest =>
    let name := rest.takeWhile isNameChar
    if name.isEmpty then none else some (name, rest.dropWhile isNameChar)

theorem readMarked?_source {mark t name rest : Text} (h : readMarked? mark t = some (name, rest)) :
    t = mark ++ name ++ rest ∧ name ≠ [] := by
  unfold readMarked? at h
  split at h
  · simp at h
  · next u hu =>
      dsimp only at h
      split at h
      · simp at h
      · next hn =>
          obtain ⟨rfl, rfl⟩ := Prod.mk.inj (Option.some.inj h)
          exact ⟨by rw [Text.after?_eq_some_iff.1 hu, List.append_assoc,
            List.takeWhile_append_dropWhile], by simpa using hn⟩

theorem readMarked?_length_lt {mark t name rest : Text}
    (h : readMarked? mark t = some (name, rest)) : rest.length < t.length := by
  obtain ⟨rfl, hn⟩ := readMarked?_source h
  have := List.length_pos_iff.2 hn
  simp only [List.length_append]
  omega

/-- Puts names that carry the mark back into brackets where a space stands before them;
`afterSpace` says whether one stands before the text. -/
def decodeBindingsAfter (mark : Text) (afterSpace : Bool) : Text → Text
  | [] => []
  | c :: t =>
    match _h : readMarked? mark (c :: t) with
    | some (name, rest) =>
      if afterSpace then '[' :: name ++ ']' :: decodeBindingsAfter mark false rest
      else c :: decodeBindingsAfter mark (isSpace c) t
    | none => c :: decodeBindingsAfter mark (isSpace c) t
termination_by t => t.length
decreasing_by
  · exact readMarked?_length_lt _h
  · simp
  · simp

/-- Puts the names of binding attributes back into brackets. -/
def decodeBindings (r : Registry) (t : Text) : Text :=
  decodeBindingsAfter r.bindingMark false t

end AmpMarkup.Source
