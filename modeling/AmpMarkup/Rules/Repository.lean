import AmpMarkup.Pattern.Matching
import AmpMarkup.Pattern.Parser
import AmpMarkup.Rules.Builtin
import AmpMarkup.Rules.Schema

/-! Rules made ready for use: every specification with the shared lists merged into its attributes
and its patterns read. Loading goes through the specifications in order and stops at the first
fault. -/

namespace AmpMarkup.Rules

/-- A pattern with the text it was read from. -/
structure CompiledPattern where
  source : Text
  pattern : Pattern
deriving Repr, Inhabited

/-- The pattern of a text. -/
def CompiledPattern.ofText? (source : Text) : Option CompiledPattern :=
  (Pattern.parse? source).map (⟨source, ·⟩)

/-- The text of a pattern for the whole of a content: the pattern between the ends of a text. -/
def anchored (pattern : Text) : Text :=
  "^(?:" ++ pattern ++ ")$"

/-- A specification ready for use. -/
structure CompiledSpec where
  spec : TagSpec
  attributes : List AttributeSpec
  disallowed : List (CompiledPattern × Text)
  wholePattern : Option CompiledPattern
deriving Repr, Inhabited

/-- Why rules cannot be loaded. -/
inductive LoadError where
  | unknownAttributeList (spec list : Text)
  | invalidPattern (spec pattern : Text)
  | duplicateSpecName (name : Text)
deriving DecidableEq, Repr, Inhabited

/-- The wording of an error. -/
def LoadError.message : LoadError → Text
  | unknownAttributeList spec list =>
    "spec '" ++ spec ++ "' references unknown attribute list '" ++ list ++ "'"
  | invalidPattern spec pattern =>
    "spec '" ++ spec ++ "' has an invalid pattern '" ++ pattern ++ "'"
  | duplicateSpecName name => "duplicate spec name '" ++ name ++ "'"

/-- Adds an attribute at the end unless one of its name is there. -/
def addAbsent (attributes : List AttributeSpec) (a : AttributeSpec) : List AttributeSpec :=
  if attributes.any (·.name == a.name) then attributes else attributes ++ [a]

namespace TagSpec

/-- The shared lists of a specification in order. -/
def sharedLists (s : TagSpec) (rules : RuleSet) : Except LoadError (List (List AttributeSpec)) :=
  s.attributeLists.mapM fun name =>
    match rules.attributeList? name with
    | some attributes => .ok attributes
    | none => .error (.unknownAttributeList s.name name)

/-- A pattern of a specification; `text` is what is read and `written` what the rules say. -/
def pattern (s : TagSpec) (text written : Text) : Except LoadError CompiledPattern :=
  match CompiledPattern.ofText? text with
  | some p => .ok p
  | none => .error (.invalidPattern s.name written)

/-- The disallowed patterns of a specification with their labels. -/
def disallowedPatterns (s : TagSpec) : Except LoadError (List (CompiledPattern × Text)) :=
  ((s.content.map ContentSpec.disallowed).getD []).mapM fun d => do
    return (← s.pattern d.pattern d.pattern, d.label)

/-- The pattern for the whole content of a specification. -/
def wholePattern (s : TagSpec) : Except LoadError (Option CompiledPattern) :=
  (s.content.bind ContentSpec.pattern).mapM fun p => s.pattern (anchored p) p

/-- A specification with the shared lists merged into its own attributes, which come first, and its
patterns read. -/
def compile (s : TagSpec) (rules : RuleSet) : Except LoadError CompiledSpec := do
  let lists ← s.sharedLists rules
  return ⟨s, lists.flatten.foldl addAbsent s.attributes, ← s.disallowedPatterns,
    ← s.wholePattern⟩

end TagSpec

/-- The rule for an attribute of a name. -/
def CompiledSpec.attribute? (s : CompiledSpec) (name : Text) : Option AttributeSpec :=
  s.attributes.find? (·.name == name)

/-- The name of a specification: its place in the order of declaration. -/
abbrev SpecId := Nat

/-- Rules ready for use. -/
structure Repository where
  rules : RuleSet
  specs : List CompiledSpec
deriving Repr, Inhabited

namespace Repository

/-- The specifications after others whose names are `seen`. -/
def compileAfter (rules : RuleSet) (seen : List Text) :
    List TagSpec → Except LoadError (List CompiledSpec)
  | [] => .ok []
  | s :: rest => do
    if seen.contains s.name then throw (.duplicateSpecName s.name)
    let c ← s.compile rules
    return c :: (← compileAfter rules (s.name :: seen) rest)

/-- Makes rules ready for use. -/
def ofRules (rules : RuleSet) : Except LoadError Repository := do
  return ⟨rules, ← compileAfter rules [] rules.tags⟩

/-- The built-in rules ready for use. -/
def builtin : Except LoadError Repository :=
  ofRules Rules.builtin

/-- Number of specifications, points of reference included. -/
def size (r : Repository) : Nat :=
  r.specs.length

/-- The specification of an identifier. -/
def spec? (r : Repository) (id : SpecId) : Option CompiledSpec :=
  r.specs[id]?

/-- The specifications with their identifiers in order. -/
def entries (r : Repository) : List (SpecId × CompiledSpec) :=
  r.specs.zipIdx.map fun (s, id) => (id, s)

/-- The specifications for the elements of a tag, in any case, in order. -/
def specsFor (r : Repository) (tag : Text) : List (SpecId × CompiledSpec) :=
  r.entries.filter fun (_, s) => !s.spec.isReferencePoint && s.spec.tag.sameIgnoringCase tag

/-- The specification of a name. -/
def specNamed? (r : Repository) (name : Text) : Option (SpecId × CompiledSpec) :=
  r.entries.find? (·.2.spec.name == name)

/-- The shared list of a name. -/
def attributeList? (r : Repository) (name : Text) : Option (List AttributeSpec) :=
  r.rules.attributeList? name

end Repository

end AmpMarkup.Rules
