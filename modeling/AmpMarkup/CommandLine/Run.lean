import AmpMarkup.CommandLine.Command
import AmpMarkup.Dom.Outline
import AmpMarkup.Validation.Display
import AmpMarkup.Validation.Walk

/-! What a command answers: the text that it prints and whether it found fault, or why it failed.
The files that it reads are given, so that the answer depends on nothing else. -/

namespace AmpMarkup.CommandLine

open Rules (Repository RuleSet CompiledSpec)

/-- What a command prints, the failure that it reports, and its exit code. -/
structure Outcome where
  output : Text := []
  failure : Text := []
  code : UInt32 := 0
deriving DecidableEq, Repr, Inhabited

/-- Why a file cannot be read. -/
inductive FileFault where
  | missing
  | denied
  | directory
  | notText
  | other (reason : Text)
deriving DecidableEq, Repr, Inhabited

/-- The wording of a fault. -/
def FileFault.message : FileFault → Text
  | missing => "No such file or directory (os error 2)"
  | denied => "Permission denied (os error 13)"
  | directory => "Is a directory (os error 21)"
  | notText => "stream did not contain valid UTF-8"
  | other reason => reason

/-- What the files of a command hold, or why they cannot be read. -/
abbrev Files := Text → Except FileFault Text

/-- A failure on a line. -/
def failed (message : Text) : Outcome :=
  ⟨[], (Text.styled "error:" .red).styled .bold ++ ' ' :: message ++ ['\n'], 2⟩

/-- The content of a file. -/
def readFile (files : Files) (file : Text) : Except Text Text :=
  (files file).mapError fun fault => "failed to read " ++ file ++ ": " ++ fault.message

/-- The document in a file, which may hold the content of a body alone. -/
def readDocument (files : Files) (file : Text) (fragment : Bool) (salt : Text) :
    Except Text Document := do
  let html ← readFile files file
  let registry := Source.Registry.ofSalt salt
  let parsed :=
    if fragment then Document.parseFragment html "utf-8" registry else Document.parse html registry
  parsed.mapError fun e => "failed to parse " ++ file ++ ": " ++ e.message

/-- The rules in a file. -/
def readRules (files : Files) (file : Text) : Except Text Repository := do
  let json ← readFile files file
  let context : Text := "failed to load rules from " ++ file ++ ": "
  match RuleSet.ofText? json with
  | none => throw (context ++ "rule set is not valid JSON")
  | some rules => (Repository.ofRules rules).mapError fun e => context ++ e.message

/-- The rules in a file, or else the built-in ones. -/
def loadRules (files : Files) : Option Text → Except Text Repository
  | some file => readRules files file
  | none => Repository.builtin.mapError fun e => "built-in rules failed to load: " ++ e.message

/-- A headline. -/
def headline (t : Text) : Text :=
  t.styled .bold ++ ['\n']

/-- The document of a file as it is written, maybe after the outline of its tree. -/
def roundtrip (files : Files) (file : Text) (fragment : Bool) (salt : Text) (tree : Bool) :
    Except Text Outcome := do
  let d ← readDocument files file fragment salt
  let outline : Text :=
    if tree then
      headline "=== Encoded tree ===" ++ d.tree.outline Dom.Tree.root ++ headline "=== Output ==="
    else []
  let written := if fragment then d.bodyContent else d.toHtml
  return { output := outline ++ written ++ ['\n'] }

/-- The findings for a file. -/
def validate (files : Files) (salt file : Text) (fragment : Bool) (options : Validation.Options)
    (rules : Option Text) (json : Bool) : Except Text Outcome := do
  let d ← readDocument files file fragment salt
  let report := Validation.Validator.validate ⟨← loadRules files rules, options⟩ d
  let output := if json then report.toJson.pretty 0 ++ ['\n'] else report.display file
  return { output, code := if report.isValid then 0 else 1 }

/-- A line of a list of names, if there are any. -/
def namesLine (label : Text) : List Text → Text
  | [] => []
  | names => "  " ++ label ++ ": " ++ Text.join ", " names ++ ['\n']

/-- The lines about a specification. -/
def describeSpec (s : CompiledSpec) : Text :=
  headline s.spec.name ++ namesLine "formats" (s.spec.formats.map Rules.Format.text) ++
    namesLine "parent" s.spec.mandatoryParent.toList ++
    namesLine "ancestor" s.spec.mandatoryAncestor.toList ++
    namesLine "requires" s.spec.requiredExtensions ++
    s.attributes.flatMap fun a =>
      [' ', ' ', if a.mandatory then '*' else ' ', ' '] ++ a.name ++ ['\n']

/-- The line for a specification in a listing. -/
def listSpec (s : CompiledSpec) : Text :=
  (s.spec.tag.padRight 24).styled .cyan ++ ' ' :: s.spec.name ++ ['\n']

/-- The rules in force, all of them or those for a tag. -/
def listRules (files : Files) (rules tag : Option Text) : Except Text Outcome := do
  let r ← loadRules files rules
  match tag with
  | none => return { output := r.specs.flatMap listSpec ++ Text.ofNat r.size ++ " specs\n" }
  | some tag =>
    match r.specsFor tag with
    | [] => return { output := "no specs for '" ++ tag ++ "'\n", code := 1 }
    | specs => return { output := specs.flatMap fun (_, s) => describeSpec s }

/-- What a command does. The salt is the one to use where the command names none. -/
def Command.perform (files : Files) (salt : Text) : Command → Except Text Outcome
  | .roundtrip file fragment ownSalt tree =>
    CommandLine.roundtrip files file fragment (ownSalt.getD salt) tree
  | .validate file fragment format rules strict json =>
    CommandLine.validate files salt file fragment { format, globalAttributes := !strict } rules json
  | .listing rules tag => listRules files rules tag

/-- What a command answers. -/
def Command.run (files : Files) (salt : Text) (c : Command) : Outcome :=
  match c.perform files salt with
  | .ok outcome => outcome
  | .error message => failed message

/-- How to use the program. -/
def usage : Text :=
  "expected roundtrip FILE, validate FILE or rules [TAG]"

/-- What arguments are answered with. -/
def run (files : Files) (salt : Text) (arguments : List Text) : Outcome :=
  match Command.ofArguments? arguments with
  | some c => c.run files salt
  | none => failed usage

end AmpMarkup.CommandLine
