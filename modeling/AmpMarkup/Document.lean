import AmpMarkup.Dom.Edit
import AmpMarkup.Dom.Subtree
import AmpMarkup.Html.TextRun
import AmpMarkup.Source.Transcoding

/-! A document: the tree of transcoded markup with the registry that changes written markup back.
Everything a document writes has its binding attributes and template delimiters again. -/

namespace AmpMarkup

open Dom (Tree NodeId)
open Source (Registry)

/-- A parsed document. -/
structure Document where
  tree : Tree
  registry : Registry
  issues : List Html.Issue
deriving Repr, Inhabited

/-- Why markup is no document. -/
inductive ParseError where
  | emptyInput
  | noDocumentElement
deriving DecidableEq, Repr, Inhabited

/-- The wording of an error. -/
def ParseError.message : ParseError → Text
  | .emptyInput => "cannot parse an empty document"
  | .noDocumentElement => "parsed tree has no document element"

namespace Document

/-- The document of markup that is not blank. -/
def parse (markup : Text) (registry : Registry) : Except ParseError Document :=
  if markup.blank then .error .emptyInput
  else
    let (tree, issues) := Html.parse (Source.encode registry markup)
    match tree.documentElement? with
    | none => .error .noDocumentElement
    | some _ => .ok ⟨tree, registry, issues⟩

/-- A whole document around the content of a body, with a declared character encoding. -/
def wrapFragment (content charset : Text) : Text :=
  "<html><head><meta http-equiv=\"content-type\" content=\"text/html; charset=" ++ charset ++
    "\"></head><body>" ++ content ++ "</body></html>"

/-- The document of the content of a body. -/
def parseFragment (content charset : Text) (registry : Registry) : Except ParseError Document :=
  parse (wrapFragment content charset) registry

/-- A node with everything below it, changed back to source markup. Blank markup becomes empty. -/
def serialize (d : Document) (id : NodeId) : Text :=
  let html := d.tree.outerHtml id
  if html.blank then [] else Source.decode d.registry html

/-- The source markup of everything below the body. -/
def bodyContent (d : Document) : Text :=
  match d.tree.body? with
  | none => []
  | some body => (d.tree.children body).flatMap d.serialize

/-- The source markup of the whole document. -/
def toHtml (d : Document) : Text :=
  d.serialize Tree.root

/-- Gives an element attributes, each in turn. -/
def setAttributes (d : Document) (id : NodeId) (pairs : List (Text × Text)) : Document :=
  { d with tree := d.tree.mapAttributes id (·.setAll pairs) }

end Document

end AmpMarkup
