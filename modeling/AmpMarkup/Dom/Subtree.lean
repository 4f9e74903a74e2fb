import AmpMarkup.Dom.Traversal
import AmpMarkup.Vocabulary

/-! A node with everything below it as one value, and its written form. Writing recurses on this
value, so a statement about written markup needs no store of nodes. -/

namespace AmpMarkup.Dom

/-- A node's content with the subtrees of its children. -/
inductive Subtree where
  | node (content : Content) (children : List Subtree)
deriving Repr, Inhabited

/-- The written form of a character in text: markup characters and the no-break space become
character references. -/
def escapeTextChar (c : Char) : Text :=
  if c = '&' then "&amp;"
  else if c = '\u00a0' then "&nbsp;"
  else if c = '<' then "&lt;"
  else if c = '>' then "&gt;"
  else [c]

/-- The written form of a character in a double-quoted value. -/
def escapeValueChar (c : Char) : Text :=
  if c = '&' then "&amp;"
  else if c = '\u00a0' then "&nbsp;"
  else if c = '"' then "&quot;"
  else [c]

/-- The written form of text. -/
def escapeText (t : Text) : Text :=
  t.flatMap escapeTextChar

/-- The written form of a value between double quotes. -/
def escapeValue (t : Text) : Text :=
  t.flatMap escapeValueChar

/-- An attribute after a space, with its value between double quotes if it has one. -/
def renderAttribute (a : Attribute) : Text :=
  ' ' :: a.name ++
    match a.value with
    | none => []
    | some value => "=\"" ++ escapeValue value ++ ['"']

/-- The start tag of an element. -/
def renderStartTag (e : Element) : Text :=
  '<' :: e.tag ++ e.attributes.entries.flatMap renderAttribute ++ ['>']

/-- The end tag of an element. -/
def renderEndTag (tag : Text) : Text :=
  '<' :: '/' :: tag ++ ['>']

/-- A comment. -/
def renderComment (data : Text) : Text :=
  "<!--" ++ data ++ "-->"

theorem renderComment_eq (data : Text) :
    renderComment data = ['<', '!', '-', '-'] ++ (data ++ ['-', '-', '>']) := by
  have hopen : "<!--".toList = ['<', '!', '-', '-'] := by decide
  have hclose : "-->".toList = ['-', '-', '>'] := by decide
  rw [renderComment, hopen, hclose, List.append_assoc]

namespace Subtree

mutual

/-- The written form of a subtree. A void element is its start tag alone. -/
def render : Subtree → Text
  | .node .document children => renderAll children
  | .node (.doctype name) _ => "<!DOCTYPE " ++ name ++ ['>']
  | .node (.element e) children =>
    if Vocabulary.isVoid e.tag then renderStartTag e
    else if Vocabulary.isRawText e.tag then
      renderStartTag e ++ renderLiterally children ++ renderEndTag e.tag
    else renderStartTag e ++ renderAll children ++ renderEndTag e.tag
  | .node (.text data) _ => escapeText data
  | .node (.comment data) _ => renderComment data

/-- The written forms of subtrees in order. -/
def renderAll : List Subtree → Text
  | [] => []
  | t :: ts => render t ++ renderAll ts

/-- As `renderAll`, with the text among the given subtrees written as it is. -/
def renderLiterally : List Subtree → Text
  | [] => []
  | .node (.text data) _ :: ts => data ++ renderLiterally ts
  | t :: ts => render t ++ renderLiterally ts

end

theorem render_text (data : Text) (children : List Subtree) :
    (node (.text data) children).render = escapeText data :=
  rfl

theorem render_element (e : Element) (children : List Subtree) :
    (node (.element e) children).render =
      if Vocabulary.isVoid e.tag then renderStartTag e
      else if Vocabulary.isRawText e.tag then
        renderStartTag e ++ renderLiterally children ++ renderEndTag e.tag
      else renderStartTag e ++ renderAll children ++ renderEndTag e.tag :=
  rfl

theorem renderAll_cons (t : Subtree) (ts : List Subtree) :
    renderAll (t :: ts) = t.render ++ renderAll ts :=
  rfl

end Subtree

namespace Tree

/-- A node with at most `depth` levels below it. -/
def subtreeWithin (t : Tree) : (depth : Nat) → NodeId → Option Subtree
  | 0, id => (t.content? id).map (.node · [])
  | depth + 1, id =>
    (t.content? id).map (.node · ((t.children id).filterMap (t.subtreeWithin depth)))

/-- A node with everything below it. -/
def subtree? (t : Tree) (id : NodeId) : Option Subtree :=
  t.subtreeWithin t.size id

/-- The written form of a node with everything below it. -/
def outerHtml (t : Tree) (id : NodeId) : Text :=
  ((t.subtree? id).map Subtree.render).getD []

/-- The written form of everything below a node. -/
def innerHtml (t : Tree) (id : NodeId) : Text :=
  (t.children id).flatMap t.outerHtml

/-- A comment is written between its delimiters. -/
theorem outerHtml_comment {t : Tree} {id : NodeId} {data : Text}
    (h : t.content? id = some (.comment data)) : t.outerHtml id = renderComment data := by
  rw [outerHtml, subtree?]
  cases t.size with
  | zero => rw [subtreeWithin, h]; rfl
  | succ n => rw [subtreeWithin, h]; rfl

end Tree

end AmpMarkup.Dom
