import AmpMarkup.Dom.Basic

/-! Walks through the document tree. A chain of parents and a chain of children are both no longer
than the tree has nodes, so the number of nodes bounds every walk. -/

namespace AmpMarkup.Dom.Tree

/-- The first child of a node. -/
def firstChild? (t : Tree) (id : NodeId) : Option NodeId :=
  (t.children id).head?

/-- The last child of a node. -/
def lastChild? (t : Tree) (id : NodeId) : Option NodeId :=
  (t.children id).getLast?

/-- The child of the same parent right after a node. -/
def nextSibling? (t : Tree) (id : NodeId) : Option NodeId := do
  let siblings := t.children (← t.parent? id)
  siblings[(← siblings.idxOf? id) + 1]?

/-- The child of the same parent right before a node. -/
def prevSibling? (t : Tree) (id : NodeId) : Option NodeId := do
  let siblings := t.children (← t.parent? id)
  match ← siblings.idxOf? id with
  | 0 => none
  | i + 1 => siblings[i]?

/-- The parent, its parent and so on, at most `depth` of them. -/
def ancestorsWithin (t : Tree) : (depth : Nat) → NodeId → List NodeId
  | 0, _ => []
  | depth + 1, id =>
    match t.parent? id with
    | some parent => parent :: t.ancestorsWithin depth parent
    | none => []

/-- The parent of a node, its parent and so on. -/
def ancestors (t : Tree) (id : NodeId) : List NodeId :=
  t.ancestorsWithin t.size id

/-- Whether a node stands below another. -/
def isDescendantOf (t : Tree) (id ancestor : NodeId) : Bool :=
  (t.ancestors id).contains ancestor

/-- A node and the nodes at most `depth` levels below it, each before its children. -/
def descendantsWithin (t : Tree) : (depth : Nat) → NodeId → List NodeId
  | 0, id => [id]
  | depth + 1, id => id :: (t.children id).flatMap (t.descendantsWithin depth)

/-- A node and all nodes below it in document order. -/
def descendants (t : Tree) (id : NodeId) : List NodeId :=
  t.descendantsWithin t.size id

/-- The data of all text nodes at or below a node, in document order. -/
def textContent (t : Tree) (id : NodeId) : Text :=
  ((t.descendants id).filterMap t.text?).flatten

/-- The data of the text nodes among a node's children. -/
def childText (t : Tree) (id : NodeId) : Text :=
  ((t.children id).filterMap t.text?).flatten

/-- The first element among the children of the document. -/
def documentElement? (t : Tree) : Option NodeId :=
  (t.children root).find? t.isElement

/-- The first child of a node that is an element of a tag. -/
def childElement? (t : Tree) (parent : NodeId) (tag : Text) : Option NodeId :=
  (t.children parent).find? (t.elementIs · tag)

/-- The first `head` below the document element. -/
def head? (t : Tree) : Option NodeId := do
  t.childElement? (← t.documentElement?) "head"

/-- The first `body` or `frameset` below the document element. -/
def body? (t : Tree) : Option NodeId := do
  (t.children (← t.documentElement?)).find? fun id =>
    t.elementIs id "body" || t.elementIs id "frameset"

/-- The elements of a tag at or below a node, in document order. -/
def elementsByTag (t : Tree) (id : NodeId) (tag : Text) : List NodeId :=
  (t.descendants id).filter (t.elementIs · tag)

/-- The place of a node among the elements of its parent, counted from one. -/
def elementIndex? (t : Tree) (id : NodeId) : Option Nat := do
  let siblings := (t.children (← t.parent? id)).filter t.isElement
  return (← siblings.idxOf? id) + 1

/-- Whether a node has neither children nor data. A number without a node counts as empty. -/
def isNodeEmpty (t : Tree) (id : NodeId) : Bool :=
  match t.get? id with
  | none => true
  | some n =>
    n.children.isEmpty &&
      match n.content with
      | .text data | .comment data => data.isEmpty
      | _ => true

end AmpMarkup.Dom.Tree
