import AmpMarkup.Validation.Choice

/-! Validation of a document: the elements in order, then the document as a whole. What the walk has
seen is what the checks of the document need: the specifications matched, the extensions required,
the scripts that load extensions and the size of stylesheets. -/

namespace AmpMarkup.Validation

open Dom (NodeId)
open Rules

/-- What the walk has seen so far. Requirements keep the first specification that has them; they and
the loaders are in document order. -/
structure Walk where
  matched : Matches := []
  required : List (Text × Text) := []
  loaders : List (Text × NodeId) := []
  stylesheetBytes : Nat := 0
  findings : List Finding := []
deriving Repr, Inhabited

/-- A validation: rules with settings. -/
structure Validator where
  repository : Repository
  options : Options
deriving Repr, Inhabited

/-- The extension that bindings need. -/
def bindExtension : Text :=
  "amp-bind"

/-- Attributes that name the extension that a script loads, in order of precedence. -/
def loaderAttributes : List Text :=
  ["custom-element", "custom-template"]

/-- The extension that an element loads. -/
def Subject.loaded? (s : Subject) : Option Text :=
  if s.tag = "script" then
    (loaderAttributes.findSome? s.attribute?).map fun a => a.value.trimBlank.lower
  else none

/-- The extensions that an element needs under a specification. -/
def Subject.extensions (s : Subject) (spec : TagSpec) : List Text :=
  spec.requiredExtensions ++ if s.attributes.any (·.isBinding) then [bindExtension] else []

namespace Walk

/-- Notes that an extension is required, unless it has been before. -/
def require (w : Walk) (spec extension : Text) : Walk :=
  if (w.required.lookup extension).isSome then w
  else { w with required := w.required ++ [(extension, spec)] }

/-- Notes the extension that an element loads. -/
def noteLoader (w : Walk) (s : Subject) : Walk :=
  match s.loaded? with
  | some extension => { w with loaders := w.loaders ++ [(extension, s.node)] }
  | none => w

/-- Notes that an element is matched to a specification. -/
def noteMatch (w : Walk) (d : Document) (s : Subject) (specId : SpecId) (spec : TagSpec) : Walk :=
  let w := { w with matched := (s.node, specId) :: w.matched }
  let w := (s.extensions spec).foldl (·.require spec.name) w
  if (spec.content.map ContentSpec.inBudget).getD false then
    { w with stylesheetBytes := w.stylesheetBytes + (d.characterData s.node).utf8Length }
  else w

/-- Adds findings. -/
def report (w : Walk) (findings : List Finding) : Walk :=
  { w with findings := w.findings ++ findings }

end Walk

namespace Validator

/-- What evaluations depend on after a walk so far. -/
def context (v : Validator) (d : Document) (w : Walk) : Context :=
  ⟨v.repository, v.options, d, w.matched⟩

/-- The walk after an element. -/
def visit (v : Validator) (d : Document) (w : Walk) (s : Subject) : Walk :=
  let w := w.noteLoader s
  let place := some (d.place s.node)
  match (v.context d w).choose? s with
  | none => w.report [⟨.disallowedTag s.tag, s.tag, place⟩]
  | some ((specId, spec), causes) =>
    (w.noteMatch d s specId spec.spec).report (causes.map (⟨·, spec.spec.name, place⟩))

/-- The walk after all elements. -/
def walk (v : Validator) (d : Document) : Walk :=
  (subjects d).foldl (v.visit d) {}

end Validator

/-- Puts a text into an ascending list that does not have it. -/
def insertAscending (t : Text) : List Text → List Text
  | [] => [t]
  | x :: xs => if t = x then x :: xs else if t < x then t :: x :: xs else x :: insertAscending t xs

/-- The given texts in ascending order, each once. -/
def ascending (ts : List Text) : List Text :=
  ts.foldr insertAscending []

namespace Walk

/-- The scripts that load an extension, in document order. -/
def loadersOf (w : Walk) (extension : Text) : List NodeId :=
  (w.loaders.filter (·.1 == extension)).map Prod.snd

/-- The finding for an extension that is required but not loaded. -/
def missingExtension (w : Walk) (extension : Text) : List Finding :=
  match w.required.lookup extension with
  | none => []
  | some spec =>
    if (w.loadersOf extension).isEmpty then [⟨.missingExtension spec extension, spec, none⟩] else []

/-- The findings for an extension that is loaded: for every loader but the first, and for the first
if nothing requires it. -/
def loaderFindings (w : Walk) (d : Document) (extension : Text) : List Finding :=
  match w.loadersOf extension with
  | [] => []
  | first :: others =>
    (others.map fun id => ⟨.duplicateExtension extension, extension, some (d.place id)⟩) ++
      if (w.required.lookup extension).isNone then
        [⟨.unusedExtension extension, extension, some (d.place first)⟩]
      else []

/-- The findings that reconcile the extensions required with those loaded. -/
def extensionFindings (w : Walk) (d : Document) : List Finding :=
  (ascending (w.required.map Prod.fst)).flatMap w.missingExtension ++
    (ascending (w.loaders.map Prod.fst)).flatMap (w.loaderFindings d)

/-- The findings for specifications that have to be used and are not. -/
def mandatoryFindings (w : Walk) (r : Repository) (format : Format) : List Finding :=
  (r.entries.filter fun (id, s) =>
    s.spec.mandatory && !s.spec.isReferencePoint && s.spec.appliesTo (some format) &&
      !w.matched.any (·.2 == id)).map
    fun (_, s) => ⟨.missingTag s.spec.displayName, s.spec.name, none⟩

/-- The finding for stylesheets over the budget. -/
def budgetFindings (w : Walk) (limit : Nat) : List Finding :=
  if limit < w.stylesheetBytes then
    [⟨.stylesheetsTooLarge w.stylesheetBytes limit, "style amp-custom", none⟩]
  else []

end Walk

namespace Validator

/-- The findings about the document as a whole. -/
def documentFindings (v : Validator) (d : Document) (w : Walk) : List Finding :=
  (if v.options.checkExtensions then w.extensionFindings d else []) ++
    (v.options.format.map (w.mandatoryFindings v.repository)).getD [] ++
    w.budgetFindings v.options.maxStylesheetBytes

/-- Everything that is wrong with a document. -/
def validate (v : Validator) (d : Document) : Report :=
  let w := v.walk d
  ⟨w.findings ++ v.documentFindings d w⟩

end Validator

end AmpMarkup.Validation
