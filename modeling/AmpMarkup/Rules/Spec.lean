import AmpMarkup.Rules.Format

/-! Rules as they are declared: what an element of a tag may carry, where it may stand and what its
text may hold. -/

namespace AmpMarkup.Rules

/-- How an attribute picks its specification among those of the same tag: by being there, by having
one of its allowed values, or by that below the mandatory parent. -/
inductive DispatchKey where
  | name
  | nameValue
  | nameValueParent
deriving DecidableEq, Repr, Inhabited

namespace DispatchKey

/-- The dispatch keys. -/
def all : List DispatchKey :=
  [.name, .nameValue, .nameValueParent]

/-- A more specific key outranks a less specific one. -/
def rank : DispatchKey → Nat
  | .name => 1
  | .nameValue => 2
  | .nameValueParent => 3

/-- The name of a dispatch key in a rule set. -/
def schemaName : DispatchKey → Text
  | .name => "NAME_DISPATCH"
  | .nameValue => "NAME_VALUE_DISPATCH"
  | .nameValueParent => "NAME_VALUE_PARENT_DISPATCH"

end DispatchKey

/-- What a URL value may be. Without protocols, every protocol is allowed. -/
structure UrlSpec where
  protocols : List Text := []
  allowRelative : Bool := false
  allowEmpty : Bool := false
deriving DecidableEq, Repr, Inhabited

/-- The allowed values of an attribute: a set, a set up to case, or URLs. -/
inductive ValueConstraint where
  | exact (values : List Text)
  | exactIgnoringCase (values : List Text)
  | url (spec : UrlSpec)
deriving DecidableEq, Repr, Inhabited

/-- Whether a value is in a set of values. URLs are described by their shape and are in no set. -/
def ValueConstraint.contains (value : Text) : ValueConstraint → Bool
  | .exact values => values.contains value
  | .exactIgnoringCase values => values.any (·.sameIgnoringCase value)
  | .url _ => false

/-- The rule for one attribute. Without a constraint, every value is allowed. -/
structure AttributeSpec where
  name : Text
  mandatory : Bool := false
  value : Option ValueConstraint := none
  dispatchKey : Option DispatchKey := none
deriving DecidableEq, Repr, Inhabited

/-- A pattern that must not occur, and what it stands for in messages. -/
structure DisallowedPattern where
  pattern : Text
  label : Text
deriving DecidableEq, Repr, Inhabited

/-- The at-rules that a stylesheet may use, without vendors' marks. -/
structure StylesheetSpec where
  atRules : List Text
deriving DecidableEq, Repr, Inhabited

/-- What the text of an element may be: a bound on its bytes, patterns that must not occur, the
pattern that all of it must match, the rules for a stylesheet, and whether it counts towards the
stylesheet budget of the document. -/
structure ContentSpec where
  maxBytes : Option UInt64 := none
  disallowed : List DisallowedPattern := []
  pattern : Option Text := none
  stylesheet : Option StylesheetSpec := none
  inBudget : Bool := false
deriving DecidableEq, Repr, Inhabited

/-- The layouts that an element supports. -/
structure LayoutSpec where
  supported : List Layout
deriving DecidableEq, Repr, Inhabited

/-- The rule for one use of an element. Without formats it applies to all of them. -/
structure TagSpec where
  tag : Text
  specName : Option Text := none
  descriptiveName : Option Text := none
  mandatory : Bool := false
  unique : Bool := false
  mandatoryParent : Option Text := none
  mandatoryAncestor : Option Text := none
  attributes : List AttributeSpec := []
  attributeLists : List Text := []
  content : Option ContentSpec := none
  formats : List Format := []
  requiredExtensions : List Text := []
  layout : Option LayoutSpec := none
  url : Option Text := none
  identifier : Option Text := none
deriving DecidableEq, Repr, Inhabited

namespace TagSpec

/-- The name that tells a specification from the others: its own, or else the tag. -/
def name (s : TagSpec) : Text :=
  s.specName.getD s.tag

/-- The name in messages. -/
def displayName (s : TagSpec) : Text :=
  s.descriptiveName.getD s.name

/-- A specification whose tag starts with a dollar sign is a point of reference for others and
stands for no element. -/
def isReferencePoint (s : TagSpec) : Bool :=
  s.tag.head? == some '$'

/-- Whether a specification applies to a format. Without a format every specification applies. -/
def appliesTo (s : TagSpec) : Option Format → Bool
  | none => true
  | some f => s.formats.isEmpty || s.formats.contains f

/-- The first attribute with a dispatch key, and the key. -/
def dispatch? (s : TagSpec) : Option (AttributeSpec × DispatchKey) :=
  s.attributes.findSome? fun a => a.dispatchKey.map (a, ·)

end TagSpec

/-- A set of rules: lists of attributes for specifications to share, and the specifications in
order. Of two lists of one name the first counts. -/
structure RuleSet where
  attributeLists : List (Text × List AttributeSpec)
  tags : List TagSpec
deriving DecidableEq, Repr, Inhabited

/-- The shared list of a name. -/
def RuleSet.attributeList? (r : RuleSet) (name : Text) : Option (List AttributeSpec) :=
  r.attributeLists.lookup name

end AmpMarkup.Rules
