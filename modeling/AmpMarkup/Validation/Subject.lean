import AmpMarkup.Document
import AmpMarkup.Dom.Path
import AmpMarkup.Validation.Finding

/-! What rules see of an element: its tag in lower case, its attributes and its text as they stand
in the source, and its path. -/

namespace AmpMarkup

/-- An attribute as rules see it. The name is in lower case, with brackets around the name of a
binding. -/
structure RuleAttribute where
  name : Text
  value : Text
deriving DecidableEq, Repr, Inhabited

namespace RuleAttribute

/-- The name inside the brackets of a binding. -/
def bound? (name : Text) : Option Text :=
  match name with
  | '[' :: rest => if rest.getLast? = some ']' then some rest.dropLast else none
  | _ => none

/-- Whether the attribute is a binding. -/
def isBinding (a : RuleAttribute) : Bool :=
  (bound? a.name).isSome

/-- Whether the value is only known once a template is filled in. -/
def isTemplated (a : RuleAttribute) : Bool :=
  Text.contains ['{', '{'] a.value

end RuleAttribute

namespace Document

open Dom (NodeId)

/-- An attribute of the tree as rules see it. -/
def ruleAttribute (d : Document) (a : Attribute) : RuleAttribute :=
  ⟨(d.registry.sourceName a.name).lower, d.registry.restoreTemplates a.text⟩

/-- The text directly below an element as it stands in the source. -/
def characterData (d : Document) (id : NodeId) : Text :=
  d.registry.restoreTemplates (d.tree.childText id)

/-- Where an element is. -/
def place (d : Document) (id : NodeId) : Validation.Place :=
  ⟨id, d.tree.elementPath id⟩

end Document

namespace Validation

open Dom (NodeId)

/-- An element as rules see it. -/
structure Subject where
  node : NodeId
  tag : Text
  attributes : List RuleAttribute
deriving DecidableEq, Repr, Inhabited

/-- The element at a node as rules see it. -/
def Subject.ofElement (d : Document) (id : NodeId) (e : Dom.Element) : Subject :=
  ⟨id, e.tag.lower, e.attributes.entries.map d.ruleAttribute⟩

/-- The attribute of a name. -/
def Subject.attribute? (s : Subject) (name : Text) : Option RuleAttribute :=
  s.attributes.find? (·.name == name)

/-- The elements of a document as rules see them, in order. -/
def subjects (d : Document) : List Subject :=
  (d.tree.descendants Dom.Tree.root).filterMap fun id =>
    (d.tree.element? id).map (Subject.ofElement d id)

end Validation

end AmpMarkup
