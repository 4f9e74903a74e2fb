import AmpMarkup.Dom.Traversal

/-! The path that names an element for a reader: the tags from the document element down, with a
position where siblings share the tag. -/

namespace AmpMarkup.Dom.Tree

/-- The part of a path for one element. Nodes without a tag or without a parent have none. -/
def pathSegment? (t : Tree) (id : NodeId) : Option Text := do
  let tag ← t.tag? id
  let parent ← t.parent? id
  if 1 < (t.children parent).countP (t.tag? · == some tag) then
    return tag ++ ":nth-child(" ++ Text.ofNat (← t.elementIndex? id) ++ ")"
  else
    return tag

/-- The segments of a node's ancestors and of the node itself, from the top. -/
def elementPath (t : Tree) (id : NodeId) : Text :=
  Text.join " > " (((t.ancestors id).reverse ++ [id]).filterMap t.pathSegment?)

end AmpMarkup.Dom.Tree
