import AmpMarkup.Dom.TrailingText
import AmpMarkup.Html.Category
import AmpMarkup.Html.Token

/-! The state of tree construction and the changes that the rules make to it. Every insertion goes
below the innermost open element. -/

namespace AmpMarkup.Html

open Dom (Tree NodeId)

/-- How far the structure of the document has been built. -/
inductive Phase where
  | initial
  | beforeHtml
  | beforeHead
  | inHead
  | afterHead
  | inBody
  | afterBody
  | afterAfterBody
deriving DecidableEq, Repr, Inhabited

/-- The rules in force: those of a phase, or those inside an element of plain text, with the phase
that comes back after it. -/
inductive Mode where
  | phase (phase : Phase)
  | plainText (resume : Phase)
deriving DecidableEq, Repr, Inhabited

/-- What tree construction had to repair. -/
inductive Cause where
  | unexpectedDoctype
  | unexpectedHtml
  | unexpectedHead
  | unexpectedBody
  | nullCharacter
  | lateHeadContent (tag : Text)
  | nestedHeading
  | nestedButton
  | imageTag
  | openInsideParagraph
  | strayEndTag (tag : Text)
  | strayEndTagInHead (tag : Text)
  | notOpen (tag expected : Text)
  | endInsideText
  | contentAfterBody
  | contentAfterHtml
deriving DecidableEq, Repr, Inhabited

/-- The wording of a repair. -/
def Cause.message : Cause → Text
  | .unexpectedDoctype => "unexpected DOCTYPE"
  | .unexpectedHtml => "unexpected <html>"
  | .unexpectedHead => "unexpected <head>"
  | .unexpectedBody => "unexpected <body>"
  | .nullCharacter => "unexpected null character"
  | .lateHeadContent tag => '<' :: tag ++ "> after </head>"
  | .nestedHeading => "nested heading"
  | .nestedButton => "nested <button>"
  | .imageTag => "<image> treated as <img>"
  | .openInsideParagraph => "unexpected open element while closing p"
  | .strayEndTag tag => "stray end tag </" ++ tag ++ ">"
  | .strayEndTagInHead tag => "stray end tag </" ++ tag ++ "> in head"
  | .notOpen tag expected => "</" ++ tag ++ "> without open " ++ expected
  | .endInsideText => "end of file in raw text element"
  | .contentAfterBody => "content after </body>"
  | .contentAfterHtml => "content after </html>"

/-- A repair and the place of the token that led to it. -/
structure Issue where
  cause : Cause
  position : Nat
deriving DecidableEq, Repr, Inhabited

/-- The document under construction. `openElements` has the innermost element first. -/
structure Builder where
  tree : Tree
  mode : Mode
  openElements : List NodeId
  head : Option NodeId
  stopped : Bool
  position : Nat
  issues : List Issue
deriving Repr, Inhabited

namespace Builder

/-- Nothing built yet. -/
def start : Builder :=
  ⟨.empty, .phase .initial, [], none, false, 0, []⟩

/-- Notes a repair at the current token. -/
def note (b : Builder) (cause : Cause) : Builder :=
  { b with issues := b.issues ++ [⟨cause, b.position⟩] }

/-- The node that insertions go below. -/
def current (b : Builder) : NodeId :=
  b.openElements.head?.getD Tree.root

/-- The tag of the innermost open element. -/
def currentTag? (b : Builder) : Option Text :=
  b.openElements.head?.bind b.tree.tag?

/-- The tags of the open elements, the innermost first. -/
def openTags (b : Builder) : List Text :=
  b.openElements.filterMap b.tree.tag?

/-- The element that was opened first. -/
def outermost? (b : Builder) : Option NodeId :=
  b.openElements.getLast?

/-- Continues with the rules of a phase. -/
def enter (b : Builder) (phase : Phase) : Builder :=
  { b with mode := .phase phase }

/-- Continues with the rules for plain text, and with those of a phase after it. -/
def enterText (b : Builder) (resume : Phase) : Builder :=
  { b with mode := .plainText resume }

/-- Puts a new node below `parent`. -/
def insertBelow (b : Builder) (parent : NodeId) (content : Dom.Content) : Builder :=
  { b with tree := (b.tree.alloc content).append parent b.tree.size }

/-- Puts a comment below `parent`. -/
def insertComment (b : Builder) (parent : NodeId) (data : Text) : Builder :=
  b.insertBelow parent (.comment data)

/-- Puts an element below the current node and opens it. -/
def insertElement (b : Builder) (tag : Text) (attributes : List Attribute) : Builder :=
  { b.insertBelow b.current (.element ⟨tag, Attributes.empty.addAll attributes⟩) with
    openElements := b.tree.size :: b.openElements }

/-- Closes the innermost open element. -/
def pop (b : Builder) : Builder :=
  { b with openElements := b.openElements.tail }

/-- Puts an element below the current node without opening it. -/
def insertLeaf (b : Builder) (tag : Text) (attributes : List Attribute) : Builder :=
  (b.insertElement tag attributes).pop

/-- Adds to the text that ends the current node, or starts a text there. The document itself takes
no text. -/
def insertText (b : Builder) (data : Text) : Builder :=
  { b with tree := b.tree.appendText b.current data }

/-- Adds a character to the text that ends the current node, or starts a text there. -/
def insertCharacter (b : Builder) (c : Char) : Builder :=
  b.insertText [c]

/-- Adds the attributes that an element does not have yet. -/
def merge (b : Builder) (target : Option NodeId) (attributes : List Attribute) : Builder :=
  match target with
  | some id => { b with tree := b.tree.mapAttributes id (·.addAll attributes) }
  | none => b

/-- Closes the open elements through the innermost one whose tag is in `tags`, all of them if there
is none. -/
def popThrough (b : Builder) (tags : List Text) : Builder :=
  { b with
    openElements :=
      (b.openElements.dropWhile fun id => !(b.tree.tag? id).any tags.contains).tail }

/-- Closes the innermost open elements as long as their end tag may be left out and they are not of
the excepted tag. -/
def closeImplied (b : Builder) (except : Option Text) : Builder :=
  { b with
    openElements := b.openElements.dropWhile fun id =>
      (b.tree.tag? id).any fun tag => Category.implied.contains tag && except != some tag }

/-- Whether an element of a tag is open in the general scope, which `markers` narrow further. -/
def hasInScope (b : Builder) (tag : Text) (markers : List Text) : Bool :=
  Category.inScope (Category.scopeMarkers ++ markers) tag b.openTags

/-- Whether a paragraph is open in the scope that buttons bound. -/
def hasParagraph (b : Builder) : Bool :=
  b.hasInScope "p" ["button"]

/-- Closes the innermost paragraph with everything in it. -/
def closeParagraph (b : Builder) : Builder :=
  let closed := b.closeImplied (some "p")
  (if closed.currentTag? = some "p" then closed else closed.note .openInsideParagraph).popThrough
    ["p"]

/-- Closes the innermost paragraph if one is in scope. -/
def endParagraph (b : Builder) : Builder :=
  if b.hasParagraph then b.closeParagraph else b

/-- Closes an open item of a family and then an open paragraph. -/
def endItem (b : Builder) (family : List Text) : Builder :=
  (match Category.openItem? family b.openTags with
    | some item => (b.closeImplied (some item)).popThrough [item]
    | none => b).endParagraph

/-- Whether an element of another vocabulary is open. -/
def inForeign (b : Builder) : Bool :=
  b.openTags.any Category.foreign.contains

/-- Closes elements through one of the given tag unless a special element is in between, which makes
the end tag a stray one. Without such an element nothing happens. -/
def closeMatching (b : Builder) (tag : Text) : List NodeId → Builder
  | [] => b
  | id :: outer =>
    match b.tree.tag? id with
    | none => b.closeMatching tag outer
    | some t =>
      if t = tag then { b with openElements := outer }
      else if Category.special.contains t then b.note (.strayEndTag tag)
      else b.closeMatching tag outer

end Builder

end AmpMarkup.Html
