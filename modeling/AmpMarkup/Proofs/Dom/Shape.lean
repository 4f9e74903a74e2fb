import Mathlib.Data.List.Perm.Basic
import AmpMarkup.Dom.Path
import AmpMarkup.Proofs.Dom.Links
import AmpMarkup.Proofs.Dom.Tidy

/-! The shape of a tree: its links and the tags of its elements. Walks, positions and paths depend on
nothing else, and trees that differ only in the order of attributes have the same shape. -/

namespace AmpMarkup.Dom

namespace Tree

/-- The trees have the same links and the same tags. -/
structure SameShape (t t' : Tree) : Prop where
  size : t.size = t'.size
  parent? : t.parent? = t'.parent?
  children : t.children = t'.children
  tag? : t.tag? = t'.tag?

namespace SameShape

variable {t t' : Tree}

theorem isElement (h : t.SameShape t') : t.isElement = t'.isElement := by
  funext id
  rw [← isSome_tag?, ← isSome_tag?, h.tag?]

theorem elementIs (h : t.SameShape t') : t.elementIs = t'.elementIs := by
  funext id tag
  rw [elementIs_eq, elementIs_eq, h.tag?]

theorem ancestors (h : t.SameShape t') : t.ancestors = t'.ancestors := by
  have hwithin : ∀ depth, t.ancestorsWithin depth = t'.ancestorsWithin depth := by
    intro depth
    induction depth with
    | zero => rfl
    | succ depth ih =>
        funext id
        rw [ancestorsWithin, ancestorsWithin, h.parent?, ih]
  funext id
  rw [Tree.ancestors, Tree.ancestors, h.size, hwithin]

theorem descendants (h : t.SameShape t') : t.descendants = t'.descendants := by
  have hwithin : ∀ depth, t.descendantsWithin depth = t'.descendantsWithin depth := by
    intro depth
    induction depth with
    | zero => rfl
    | succ depth ih =>
        funext id
        rw [descendantsWithin, descendantsWithin, h.children, ih]
  funext id
  rw [Tree.descendants, Tree.descendants, h.size, hwithin]

theorem elementPath (h : t.SameShape t') : t.elementPath = t'.elementPath := by
  have hindex : t.elementIndex? = t'.elementIndex? := by
    funext id
    rw [elementIndex?, elementIndex?, h.parent?, h.children, h.isElement]
  have hsegment : t.pathSegment? = t'.pathSegment? := by
    funext id
    rw [pathSegment?, pathSegment?, h.tag?, h.parent?, h.children, hindex]
  funext id
  rw [Tree.elementPath, Tree.elementPath, h.ancestors, hsegment]

end SameShape

end Tree

/-! ### The order of attributes -/

/-- The same tag, and the same attributes in any order. -/
structure Element.Reordered (e e' : Element) : Prop where
  tag : e.tag = e'.tag
  attributes : e.attributes.entries.Perm e'.attributes.entries

/-- The contents are the same but for the order of attributes. -/
inductive Content.Reordered : Content → Content → Prop where
  | element {e e' : Element} (h : e.Reordered e') : Reordered (.element e) (.element e')
  | same (content : Content) : Reordered content content

/-- The trees are the same but for the order of attributes. -/
structure Tree.Reordered (t t' : Tree) : Prop where
  size : t.size = t'.size
  parent? : t.parent? = t'.parent?
  children : t.children = t'.children
  content? : ∀ id, Option.Rel Content.Reordered (t.content? id) (t'.content? id)

theorem Element.Reordered.refl (e : Element) : e.Reordered e :=
  ⟨rfl, .refl _⟩

namespace Tree

variable {t t' : Tree}

namespace Reordered

theorem element? (h : t.Reordered t') (id : NodeId) :
    Option.Rel Element.Reordered (t.element? id) (t'.element? id) := by
  have hcontent := h.content? id
  rw [Tree.element?, Tree.element?]
  generalize t.content? id = c, t'.content? id = c' at hcontent
  cases hcontent with
  | none => exact .none
  | @some content _ hc =>
      cases hc with
      | element he => exact .some he
      | same =>
          cases content with
          | element e => exact .some (.refl e)
          | document | doctype | text | comment => exact .none

theorem text? (h : t.Reordered t') : t.text? = t'.text? := by
  funext id
  have hcontent := h.content? id
  rw [Tree.text?, Tree.text?]
  generalize t.content? id = c, t'.content? id = c' at hcontent
  cases hcontent with
  | none => rfl
  | some hc => cases hc <;> rfl

theorem shape (h : t.Reordered t') : t.SameShape t' where
  size := h.size
  parent? := h.parent?
  children := h.children
  tag? := by
    funext id
    have helement := h.element? id
    rw [Tree.tag?, Tree.tag?]
    generalize t.element? id = e, t'.element? id = e' at helement
    cases helement with
    | none => rfl
    | some he => exact congrArg some he.tag

theorem childText (h : t.Reordered t') : t.childText = t'.childText := by
  funext id
  rw [Tree.childText, Tree.childText, h.children, h.text?]

end Reordered

/-- What only changes the order of attributes can be done to any element. -/
theorem reordered_mapAttributes (t : Tree) (id : NodeId) {f : Attributes → Attributes}
    (hf : ∀ a : Attributes, a.entries.Perm (f a).entries) : t.Reordered (t.mapAttributes id f) where
  size := (size_mapAttributes t id f).symm
  parent? := by
    funext j
    unfold mapAttributes
    split
    · exact (parent?_setContent ..).symm
    · rfl
  children := by
    funext j
    rw [children_mapAttributes]
  content? j := by
    have hrefl : ∀ o : Option Content, Option.Rel Content.Reordered o o
      | none => .none
      | some content => .some (.same content)
    unfold mapAttributes
    split
    · next e he =>
        have hc := element?_eq_some_iff.1 he
        by_cases hj : id = j
        · subst hj
          rw [content?_setContent_self (lt_size_of_content? hc), hc]
          exact .some (.element ⟨rfl, hf e.attributes⟩)
        · rw [content?_setContent_of_ne _ hj]
          exact hrefl _
    · exact hrefl _

end Tree

end AmpMarkup.Dom
