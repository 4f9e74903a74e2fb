import AmpMarkup.Attribute

/-! The document tree: a store of nodes that are never freed, each with its content, its parent
and its children. A node is named by its place in the store, and the document itself is the first.
Readers answer for every number; a number without a node has no parent, no children and no
content. -/

namespace AmpMarkup.Dom

/-- The name of a node: its place in the store. -/
abbrev NodeId := Nat

/-- An element's tag and attributes. -/
structure Element where
  tag : Text
  attributes : Attributes
deriving DecidableEq, Repr, Inhabited

/-- What a node is. -/
inductive Content where
  | document
  | doctype (name : Text)
  | element (element : Element)
  | text (data : Text)
  | comment (data : Text)
deriving DecidableEq, Repr, Inhabited

/-- A node with its links. The children are in document order. -/
structure Node where
  content : Content
  parent : Option NodeId
  children : List NodeId
deriving DecidableEq, Repr, Inhabited

/-- All nodes ever made, attached or not. -/
structure Tree where
  nodes : Array Node
deriving DecidableEq, Repr, Inhabited

/-- Whether the element's tag is `tag`, up to the case of ASCII letters. -/
def Element.is (e : Element) (tag : Text) : Bool :=
  e.tag.sameIgnoringCase tag

namespace Tree

/-- The document node. -/
def root : NodeId :=
  0

/-- A document without content. -/
def empty : Tree :=
  ⟨#[⟨.document, none, []⟩]⟩

/-- Number of nodes ever made. -/
def size (t : Tree) : Nat :=
  t.nodes.size

/-- The node of a name. -/
def get? (t : Tree) (id : NodeId) : Option Node :=
  t.nodes[id]?

/-- What a node is. -/
def content? (t : Tree) (id : NodeId) : Option Content :=
  (t.get? id).map Node.content

/-- The parent of a node. -/
def parent? (t : Tree) (id : NodeId) : Option NodeId :=
  (t.get? id).bind Node.parent

/-- The children of a node in order. -/
def children (t : Tree) (id : NodeId) : List NodeId :=
  ((t.get? id).map Node.children).getD []

/-- The element at a node. -/
def element? (t : Tree) (id : NodeId) : Option Element :=
  match t.content? id with
  | some (.element e) => some e
  | _ => none

/-- The data of a text node. -/
def text? (t : Tree) (id : NodeId) : Option Text :=
  match t.content? id with
  | some (.text data) => some data
  | _ => none

theorem text?_eq_some_iff {t : Tree} {id : NodeId} {data : Text} :
    t.text? id = some data ↔ t.content? id = some (.text data) := by
  unfold text?
  split
  · next h => simp_all
  · next h =>
      simp only [reduceCtorEq, false_iff]
      exact h data

/-- The tag of an element. -/
def tag? (t : Tree) (id : NodeId) : Option Text :=
  (t.element? id).map Element.tag

/-- The attributes of an element; other nodes have none. -/
def attributes (t : Tree) (id : NodeId) : Attributes :=
  ((t.element? id).map Element.attributes).getD .empty

/-- Whether a node is an element. -/
def isElement (t : Tree) (id : NodeId) : Bool :=
  (t.element? id).isSome

theorem isElement_congr {s t : Tree} {id : NodeId} (h : s.content? id = t.content? id) :
    s.isElement id = t.isElement id := by
  rw [isElement, isElement, element?, element?, h]

/-- Whether a node is an element of a tag, up to the case of ASCII letters. -/
def elementIs (t : Tree) (id : NodeId) (tag : Text) : Bool :=
  (t.element? id).any (·.is tag)

end Tree

end AmpMarkup.Dom
