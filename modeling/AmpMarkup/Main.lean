import AmpMarkup.CommandLine.Run

/-! The command line: reads the files that a command needs, and prints its answer. -/

namespace AmpMarkup.CommandLine

/-- The fault that an error of the system is. -/
def FileFault.ofError : IO.Error → FileFault
  | .noFileOrDirectory .. => .missing
  | .permissionDenied .. => .denied
  | .inappropriateType .. => .directory
  | e => .other e.toString.toList

/-- Reads a file. -/
def readFromDisk (file : Text) : IO (Except FileFault Text) := do
  try
    match String.fromUTF8? (← IO.FS.readBinFile (String.ofList file)) with
    | some content => return .ok content.toList
    | none => return .error .notText
  catch e =>
    return .error (.ofError e)

/-- Reads files, each with its name. -/
def readAll (files : List Text) : IO (List (Text × Except FileFault Text)) :=
  files.mapM fun file => do return (file, ← readFromDisk file)

/-- The files that arguments name. -/
def filesOf (arguments : List Text) : List Text :=
  ((Command.ofArguments? arguments).map Command.files).getD []

/-- Answers arguments and gives the code to exit with. Without a salt of its own a command gets a
random one. -/
def execute (arguments : List Text) : IO UInt32 := do
  let contents ← readAll (filesOf arguments)
  let files : Files := fun file => (contents.lookup file).getD (.error .missing)
  let salt := (← IO.getRandomBytes 16).toList.flatMap fun byte => Text.hex 2 byte.toNat
  let outcome := run files salt arguments
  IO.print (String.ofList outcome.output)
  IO.eprint (String.ofList outcome.failure)
  return outcome.code

end AmpMarkup.CommandLine

/-- The program. -/
def main (arguments : List String) : IO UInt32 :=
  AmpMarkup.CommandLine.execute (arguments.map String.toList)
