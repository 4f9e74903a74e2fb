import AmpMarkup.Rules.Format

/-! Commands and the arguments that ask for them. -/

namespace AmpMarkup.CommandLine

/-- What can be asked for: the round trip of a file, the validation of a file, and the rules in
force, all of them or those for a tag. -/
inductive Command where
  | roundtrip (file : Text) (fragment : Bool) (salt : Option Text) (tree : Bool)
  | validate (file : Text) (fragment : Bool) (format : Option Rules.Format) (rules : Option Text)
      (strict json : Bool)
  | listing (rules tag : Option Text)
deriving DecidableEq, Repr, Inhabited

/-- Arguments sorted by their form: those that stand for themselves in order, options without a
value, and options with one. -/
structure Arguments where
  plain : List Text := []
  flags : List Text := []
  values : List (Text × Text) := []
deriving DecidableEq, Repr, Inhabited

namespace Arguments

/-- Sorts arguments, given which options have no value and which have one. The value may follow an
equals sign or be the next argument. Each option may be given once. -/
def read? (flags valued : List Text) : List Text → Option Arguments
  | [] => some {}
  | argument :: rest =>
    match Text.after? "--" argument with
    | none => (read? flags valued rest).map fun a => { a with plain := argument :: a.plain }
    | some [] => some { plain := rest }
    | some option =>
      match Text.splitOnce? '=' option with
      | some (name, value) => do
        let a ← read? flags valued rest
        if valued.contains name && (a.values.lookup name).isNone then
          return { a with values := (name, value) :: a.values }
        else none
      | none =>
        if valued.contains option then
          match rest with
          | [] => none
          | value :: rest => do
            let a ← read? flags valued rest
            if (a.values.lookup option).isSome then none
            else return { a with values := (option, value) :: a.values }
        else do
          let a ← read? flags valued rest
          if flags.contains option && !a.flags.contains option then
            return { a with flags := option :: a.flags }
          else none

/-- Whether an option without a value is given. -/
def has (a : Arguments) (flag : Text) : Bool :=
  a.flags.contains flag

/-- The value of an option. -/
def value? (a : Arguments) (name : Text) : Option Text :=
  a.values.lookup name

/-- The only argument that stands for itself. -/
def only? (a : Arguments) : Option Text :=
  match a.plain with
  | [t] => some t
  | _ => none

end Arguments

namespace Command

/-- A round trip. -/
def readRoundtrip? (arguments : List Text) : Option Command := do
  let a ← Arguments.read? ["fragment", "tree"] ["salt"] arguments
  return .roundtrip (← a.only?) (a.has "fragment") (a.value? "salt") (a.has "tree")

/-- A validation. -/
def readValidate? (arguments : List Text) : Option Command := do
  let a ← Arguments.read? ["fragment", "strict-attributes", "json"] ["format", "rules"] arguments
  let format ← (a.value? "format").mapM Rules.Format.ofText?
  return .validate (← a.only?) (a.has "fragment") format (a.value? "rules")
    (a.has "strict-attributes") (a.has "json")

/-- A listing of rules. -/
def readRules? (arguments : List Text) : Option Command := do
  let a ← Arguments.read? [] ["rules"] arguments
  match a.plain with
  | [] => return .listing (a.value? "rules") none
  | [tag] => return .listing (a.value? "rules") (some tag)
  | _ => none

/-- The command that arguments ask for. -/
def ofArguments? : List Text → Option Command
  | [] => none
  | name :: arguments =>
    if name = "roundtrip" then readRoundtrip? arguments
    else if name = "validate" then readValidate? arguments
    else if name = "rules" then readRules? arguments
    else none

/-- The files that a command reads. -/
def files : Command → List Text
  | roundtrip file .. => [file]
  | validate file _ _ rules _ _ => file :: rules.toList
  | listing rules _ => rules.toList

end Command

end AmpMarkup.CommandLine
