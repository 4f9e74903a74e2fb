import AmpMarkup.Dom.Edit
import AmpMarkup.Dom.Traversal
import AmpMarkup.Vocabulary

/-! Explicit end tags for writers that collapse elements without children. Such an element gets an
empty text child, which leaves its own written form as it was. -/

namespace AmpMarkup.Dom.Tree

/-- As `forceClosingTags`, through at most `depth` levels. The children present at the start are
visited from the last to the first. -/
def forceClosingTagsWithin : (depth : Nat) → Tree → NodeId → Tree
  | 0, t, _ => t
  | depth + 1, t, id =>
    match t.element? id with
    | none => t
    | some e =>
      if Vocabulary.isVoid e.tag then t.clear id
      else if t.isNodeEmpty id then (t.alloc (.text [])).append id t.size
      else (t.children id).reverse.foldl (forceClosingTagsWithin depth) t

/-- Takes the children out of void elements and gives every other element without children an empty
text child, at and below an element. Other nodes are left alone. -/
def forceClosingTags (t : Tree) (id : NodeId) : Tree :=
  forceClosingTagsWithin t.size t id

end AmpMarkup.Dom.Tree
