import AmpMarkup.Attribute
import AmpMarkup.Source.VoidElement
import AmpMarkup.Proofs.Source.AttributeSpan

/-! Fragments of markup in a fixed way of writing: texts, elements with an end tag and void elements
without one, nested to any depth. -/

namespace AmpMarkup.Source

/-- A sequence of texts, elements and void elements. -/
inductive Fragment where
  | nil
  | text (t : Text) (rest : Fragment)
  | element (tag : Text) (attributes : List Attribute) (content rest : Fragment)
  | void (tag : Text) (attributes : List Attribute) (rest : Fragment)

/-- An attribute after a space, with its value as it is between double quotes. -/
def attributeSource (a : Attribute) : Text :=
  ' ' :: a.name ++
    match a.value with
    | none => []
    | some value => '=' :: '"' :: value ++ ['"']

/-- A start tag. -/
def startTagSource (tag : Text) (attributes : List Attribute) : Text :=
  '<' :: tag ++ attributes.flatMap attributeSource ++ ['>']

/-- The fragment as markup. -/
def Fragment.source : Fragment → Text
  | .nil => []
  | .text t rest => t ++ rest.source
  | .element tag attributes content rest =>
    startTagSource tag attributes ++ content.source ++ endTag tag ++ rest.source
  | .void tag attributes rest => startTagSource tag attributes ++ rest.source

/-! ### Canonical fragments -/

/-- Lowercase letters, digits, underscore and hyphen. -/
def isLowerNameChar (c : Char) : Bool :=
  c.isLower || c.isDigit || c == '_' || c == '-'

/-- A name without brackets. -/
def IsBareName (name : Text) : Prop :=
  name ≠ [] ∧ ∀ c ∈ name, isLowerNameChar c = true

/-- A name of an attribute, in brackets or without them. -/
def IsWrittenName (name : Text) : Prop :=
  IsBareName name ∨ ∃ bare, IsBareName bare ∧ name = '[' :: bare ++ [']']

/-- A character that stands for itself between double quotes. -/
def IsValueChar (c : Char) : Prop :=
  c ≠ '"' ∧ c ≠ '&' ∧ c ≠ '\u00a0'

/-- A character that stands for itself between tags. -/
def IsTextChar (c : Char) : Prop :=
  c ≠ '<' ∧ c ≠ '>' ∧ c ≠ '&' ∧ c ≠ '\u00a0' ∧ c ≠ '\x00'

instance : DecidablePred IsValueChar := fun _ => inferInstanceAs (Decidable (_ ∧ _))

instance : DecidablePred IsTextChar := fun _ => inferInstanceAs (Decidable (_ ∧ _))

/-- Attributes with different names whose values stand for themselves. -/
structure CanonicalAttributes (attributes : List Attribute) : Prop where
  names : ∀ a ∈ attributes, IsWrittenName a.name
  values : ∀ a ∈ attributes, ∀ v, a.value = some v → ∀ c ∈ v, IsValueChar c
  nodup : (attributes.map Attribute.name).Nodup

/-- `div`, `span`, `section`, or a name that starts with `amp-`. -/
def IsContainer (tag : Text) : Prop :=
  tag ∈ (["div", "span", "section"].map String.toList : List Text) ∨
    ∃ name : Text, tag = "amp-" ++ name ∧
      ∀ c ∈ name, c.isLower = true ∨ c.isDigit = true ∨ c = '-'

/-- The fragment consists of texts, containers and void elements. A text that is not inside an
element is not blank. -/
def Fragment.Canonical (inside : Bool) : Fragment → Prop
  | .nil => True
  | .text t rest =>
    (∀ c ∈ t, IsTextChar c) ∧ (inside = false → t.blank = false) ∧ rest.Canonical inside
  | .element tag attributes content rest =>
    IsContainer tag ∧ CanonicalAttributes attributes ∧ content.Canonical true ∧
      rest.Canonical inside
  | .void tag attributes rest =>
    tag ∈ Vocabulary.voidElements ∧ CanonicalAttributes attributes ∧ rest.Canonical inside

/-! ### Texts that end where a tag starts -/

/-- Whether a fragment starts with text. -/
def Fragment.startsWithText : Fragment → Bool
  | .text .. => true
  | _ => false

/-- No text is empty or followed by another one. -/
def Fragment.Normal : Fragment → Prop
  | .nil => True
  | .text t rest => t ≠ [] ∧ rest.startsWithText = false ∧ rest.Normal
  | .element _ _ content rest => content.Normal ∧ rest.Normal
  | .void _ _ rest => rest.Normal

/-- The fragment with a text before it. -/
def Fragment.prepend (t : Text) : Fragment → Fragment
  | .text u rest => .text (t ++ u) rest
  | f => if t = [] then f else .text t f

/-- The fragment with neighbouring texts put together. -/
def Fragment.normalize : Fragment → Fragment
  | .nil => .nil
  | .text t rest => rest.normalize.prepend t
  | .element tag attributes content rest =>
    .element tag attributes content.normalize rest.normalize
  | .void tag attributes rest => .void tag attributes rest.normalize

namespace Fragment

variable {f : Fragment} {t : Text} {inside : Bool}

theorem source_prepend (t : Text) (f : Fragment) : (f.prepend t).source = t ++ f.source := by
  unfold prepend
  split
  · rw [source, source, List.append_assoc]
  · split
    · next h => rw [h, List.nil_append]
    · rfl

theorem source_normalize (f : Fragment) : f.normalize.source = f.source := by
  induction f with
  | nil => rfl
  | text t rest ih => rw [normalize, source_prepend, ih, source]
  | element tag attributes content rest ihc ihr => rw [normalize, source, source, ihc, ihr]
  | void tag attributes rest ih => rw [normalize, source, source, ih]

theorem Normal.prepend (h : f.Normal) (t : Text) : (f.prepend t).Normal := by
  unfold Fragment.prepend
  split
  · exact ⟨fun hn => h.1 (List.append_eq_nil_iff.1 hn).2, h.2⟩
  · next hnot =>
      split
      · exact h
      · next ht =>
          refine ⟨ht, ?_, h⟩
          cases f with
          | text u rest => exact absurd rfl (hnot u rest)
          | nil | element | void => rfl

theorem normal_normalize (f : Fragment) : f.normalize.Normal := by
  induction f with
  | nil => trivial
  | text t rest ih => exact ih.prepend t
  | element tag attributes content rest ihc ihr => exact ⟨ihc, ihr⟩
  | void tag attributes rest ih => exact ih

theorem Canonical.prepend (h : f.Canonical inside) (ht : ∀ c ∈ t, IsTextChar c)
    (hb : inside = false → t.blank = false) : (f.prepend t).Canonical inside := by
  unfold Fragment.prepend
  split
  · refine ⟨fun c hc => ?_, fun hi => ?_, h.2.2⟩
    · exact (List.mem_append.1 hc).elim (ht c) (h.1 c)
    · rw [Text.blank, List.all_append, Bool.and_eq_false_iff]
      exact .inl (hb hi)
  · split
    · exact h
    · exact ⟨ht, hb, h⟩

theorem Canonical.normalize (h : f.Canonical inside) : f.normalize.Canonical inside := by
  induction f generalizing inside with
  | nil => trivial
  | text t rest ih => exact (ih h.2.2).prepend h.1 h.2.1
  | element tag attributes content rest ihc ihr => exact ⟨h.1, h.2.1, ihc h.2.2.1, ihr h.2.2.2⟩
  | void tag attributes rest ih => exact ⟨h.1, h.2.1, ih h.2.2⟩

end Fragment

end AmpMarkup.Source
