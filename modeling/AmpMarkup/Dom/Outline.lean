import AmpMarkup.Dom.Subtree
import AmpMarkup.Text.Quoted

/-! The outline of a tree: a line for every node, indented below the line of its parent. -/

namespace AmpMarkup.Dom

/-- An attribute in an outline, with a value in any case. -/
def outlineAttribute (a : Attribute) : Text :=
  ' ' :: a.name ++ "=\"" ++ a.text ++ ['"']

/-- What an outline says about a node. -/
def Content.outline : Content → Text
  | .document => "#document"
  | .doctype name => "<!DOCTYPE " ++ name ++ ['>']
  | .element e => '<' :: e.tag ++ e.attributes.entries.flatMap outlineAttribute ++ ['>']
  | .text data => data.quoteVisible
  | .comment data => renderComment data

namespace Subtree

mutual

/-- The lines for a node and everything below it. -/
def outline (level : Nat) : Subtree → Text
  | .node content children =>
    List.replicate (2 * level) ' ' ++ content.outline ++ '\n' :: outlineAll (level + 1) children

/-- The lines for nodes in order. -/
def outlineAll (level : Nat) : List Subtree → Text
  | [] => []
  | t :: ts => outline level t ++ outlineAll level ts

end

end Subtree

/-- The outline of a node with everything below it. -/
def Tree.outline (t : Tree) (id : NodeId) : Text :=
  ((t.subtree? id).map (Subtree.outline 0)).getD []

end AmpMarkup.Dom
