import AmpMarkup.Css.AtRule
import AmpMarkup.Rules.Repository
import AmpMarkup.Validation.Subject

/-! One element against one specification. Each part of the specification has a check that gives the
causes for findings, and the evaluation is all of them in order. -/

namespace AmpMarkup.Validation

open Dom (NodeId)
open Rules

/-- The settings of a validation. Without a format every specification applies and mandatory
elements are not asked for. -/
structure Options where
  format : Option Format := none
  globalAttributes : Bool := true
  checkExtensions : Bool := true
  maxStylesheetBytes : Nat := 75000
deriving DecidableEq, Repr, Inhabited

/-- The specifications that elements were matched to, the latest first. -/
abbrev Matches := List (NodeId × SpecId)

/-- What an evaluation depends on besides the element and the specification. -/
structure Context where
  repository : Repository
  options : Options
  document : Document
  matched : Matches

/-- Attributes that go with a layout. -/
def layoutAttributes : List Text :=
  ["layout", "width", "height", "heights", "sizes"]

/-- What every element may bind besides the attributes it may have. -/
def globalBindings : List Text :=
  ["text"]

namespace Context

/-- Whether the parent of a node has the given tag, in any case, or is matched to the specification
of the given name. -/
def parentMatches (c : Context) (id : NodeId) (required : Text) : Bool :=
  match c.document.tree.parent? id with
  | none => false
  | some parent =>
    (c.document.tree.tag? parent).any (·.sameIgnoringCase required) ||
      ((c.matched.lookup parent).bind c.repository.spec?).any (·.spec.name == required)

/-- The check of the parent. -/
def checkParent (c : Context) (id : NodeId) (spec : TagSpec) : List Cause :=
  match spec.mandatoryParent with
  | none => []
  | some required =>
    if c.parentMatches id required then []
    else
      let tree := c.document.tree
      let actual := ((tree.parent? id).bind tree.tag?).getD "#document"
      [.wrongParent spec.displayName actual required]

/-- The check of the ancestors. -/
def checkAncestor (c : Context) (id : NodeId) (spec : TagSpec) : List Cause :=
  match spec.mandatoryAncestor with
  | none => []
  | some required =>
    let tree := c.document.tree
    if (tree.ancestors id).any fun a => tree.elementIs a required then []
    else [.missingAncestor spec.displayName required]

/-- The check that a unique specification has no element yet. -/
def checkUnique (c : Context) (specId : SpecId) (spec : TagSpec) : List Cause :=
  if spec.unique && c.matched.any (·.2 == specId) then [.duplicateUnique spec.displayName] else []

/-- Whether an attribute needs no declaration of that name: one that goes with a layout, or one that
every element may have. -/
def allowsPlain (c : Context) (spec : TagSpec) (name : Text) : Bool :=
  (spec.layout.isSome && layoutAttributes.contains name) ||
    (c.options.globalAttributes && Vocabulary.isGlobalAttribute name)

/-- Whether an attribute that is not declared is allowed. A binding is allowed where what it binds
is. -/
def allows (c : Context) (spec : CompiledSpec) (name : Text) : Bool :=
  match RuleAttribute.bound? name with
  | some bound =>
    (spec.attribute? bound).isSome || c.allowsPlain spec.spec bound ||
      (c.options.globalAttributes && globalBindings.contains bound)
  | none => c.allowsPlain spec.spec name

end Context

/-- The check of the attributes that have to be there. -/
def checkMandatory (s : Subject) (spec : CompiledSpec) : List Cause :=
  (spec.attributes.filter fun a => a.mandatory && (s.attribute? a.name).isNone).map fun a =>
    .missingAttribute a.name spec.spec.displayName

/-- The check of a URL. -/
def checkUrl (tag : Text) (a : RuleAttribute) (url : UrlSpec) : List Cause :=
  match Url.classify a.value with
  | .empty => if url.allowEmpty then [] else [.missingUrl a.name tag]
  | .relative => if url.allowRelative then [] else [.relativeUrl a.name tag a.value]
  | .absolute scheme =>
    if url.protocols.isEmpty || url.protocols.any (·.sameIgnoringCase scheme) then []
    else [.disallowedProtocol a.name tag scheme]
  | .invalid fault => [.invalidUrl a.name tag a.value fault]

/-- The check of a value. -/
def checkValue (tag : Text) (a : RuleAttribute) : ValueConstraint → List Cause
  | .url url => checkUrl tag a url
  | constraint => if constraint.contains a.value then [] else [.invalidValue a.name tag a.value]

/-- The check of a declared attribute. A value that a template fills in cannot be checked. -/
def checkDeclared (tag : Text) (a : RuleAttribute) (spec : AttributeSpec) : List Cause :=
  match spec.value with
  | some constraint => if a.isTemplated then [] else checkValue tag a constraint
  | none => []

/-- The check of an attribute of the element. -/
def Context.checkAttribute (c : Context) (spec : CompiledSpec) (a : RuleAttribute) : List Cause :=
  match spec.attribute? a.name with
  | some declared => checkDeclared spec.spec.displayName a declared
  | none =>
    if c.allows spec a.name then [] else [.disallowedAttribute a.name spec.spec.displayName]

/-- The check of the length of a text in bytes. -/
def checkLength (tag text : Text) (content : ContentSpec) : List Cause :=
  match content.maxBytes with
  | none => []
  | some limit =>
    if limit.toNat < text.utf8Length then [.contentTooLong tag text.utf8Length limit.toNat]
    else []

/-- The check against patterns that must not occur. -/
def checkDisallowed (tag text : Text) (spec : CompiledSpec) : List Cause :=
  (spec.disallowed.filter fun (p, _) => Pattern.isMatch p.pattern text).map fun (_, label) =>
    .disallowedContent tag label

/-- The check against the pattern for the whole text. -/
def checkWhole (tag text : Text) (spec : CompiledSpec) : List Cause :=
  match spec.wholePattern with
  | none => []
  | some p => if Pattern.isMatch p.pattern text then [] else [.contentMismatch tag]

/-- The check of the at-rules of a stylesheet. -/
def checkAtRules (tag text : Text) (content : ContentSpec) : List Cause :=
  match content.stylesheet with
  | none => []
  | some sheet =>
    ((Css.atRules text).filter fun r => !sheet.atRules.any (·.sameIgnoringCase r.plain)).map
      fun r => .disallowedAtRule tag r.name

/-- The check of the text of an element. -/
def checkContent (d : Document) (id : NodeId) (spec : CompiledSpec) : List Cause :=
  match spec.spec.content with
  | none => []
  | some content =>
    let tag := spec.spec.displayName
    let text := d.characterData id
    checkLength tag text content ++ checkDisallowed tag text spec ++ checkWhole tag text spec ++
      checkAtRules tag text content

/-- The check of the layout. -/
def checkLayout (s : Subject) (spec : TagSpec) : List Cause :=
  match spec.layout, s.attribute? "layout" with
  | some layouts, some a =>
    if a.isTemplated then []
    else
      match Layout.ofText? a.value.trimBlank with
      | none => [.invalidLayout spec.displayName a.value]
      | some layout =>
        if layouts.supported.contains layout then []
        else [.unsupportedLayout spec.displayName layout]
  | _, _ => []

/-- Everything that is wrong with an element under a specification. -/
def Context.evaluate (c : Context) (s : Subject) (specId : SpecId) (spec : CompiledSpec) :
    List Cause :=
  c.checkParent s.node spec.spec ++ c.checkAncestor s.node spec.spec ++
    c.checkUnique specId spec.spec ++ checkMandatory s spec ++
    s.attributes.flatMap (c.checkAttribute spec) ++ checkContent c.document s.node spec ++
    checkLayout s spec.spec

end AmpMarkup.Validation
