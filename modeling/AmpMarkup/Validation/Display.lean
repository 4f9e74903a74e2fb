import AmpMarkup.Json.Record
import AmpMarkup.Text.Style
import AmpMarkup.Validation.Finding

/-! Findings for readers and for programs: a line each on a terminal, or one JSON value. -/

namespace AmpMarkup.Validation

/-- A severity in colour. -/
def Severity.display : Severity → Text
  | .error => (Text.styled "error" .red).styled .bold
  | .warning => (Text.styled "warning" .yellow).styled .bold

/-- The name of a severity for programs. -/
def Severity.schemaName : Severity → Text
  | .error => "ERROR"
  | .warning => "WARNING"

namespace Finding

/-- A finding on a line. -/
def display (f : Finding) : Text :=
  let location : Text := if f.path.isEmpty then "document".toList else f.path
  f.severity.display ++ " [" ++ f.cause.code ++ "] " ++ location.styled .cyan ++ ": " ++
    f.cause.message ++ ['\n']

/-- The JSON value of a finding. -/
def toJson (f : Finding) : Json :=
  .ofPresent
    [("severity", some (.string f.severity.schemaName)),
      ("code", some (.string f.cause.code)),
      ("spec_name", some (.string f.spec)),
      ("attribute", f.cause.attribute?.map .string),
      ("path", some (.string f.path)),
      ("message", some (.string f.cause.message))]

end Finding

namespace Report

/-- The JSON value of a report. -/
def toJson (r : Report) : Json :=
  .ofFields [("findings", Json.listOf Finding.toJson r.findings)]

/-- The verdict on a file, on a line. -/
def verdict (r : Report) (file : Text) : Text :=
  let warnings := Text.ofNat r.warnings.length ++ " warnings)"
  if r.isValid then
    (Text.styled "PASS" .green).styled .bold ++ ' ' :: file ++ " (" ++ warnings ++ ['\n']
  else
    (Text.styled "FAIL" .red).styled .bold ++ ' ' :: file ++ " (" ++
      Text.ofNat r.errors.length ++ " errors, " ++ warnings ++ ['\n']

/-- All findings and the verdict. -/
def display (r : Report) (file : Text) : Text :=
  r.findings.flatMap Finding.display ++ r.verdict file

end Report

end AmpMarkup.Validation
