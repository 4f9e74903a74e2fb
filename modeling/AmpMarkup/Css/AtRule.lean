import AmpMarkup.Css.Lexer

/-! The at-rules that a stylesheet uses. -/

namespace AmpMarkup.Css

/-- The name without a vendor's mark, which stands between two hyphens at its start. -/
def stripVendorMark (name : Text) : Text :=
  match name with
  | '-' :: rest =>
    match Text.splitOnce? '-' rest with
    | some (_, plain) => plain
    | none => name
  | _ => name

/-- An at-rule: its name in lower case, and the name without a vendor's mark. -/
structure AtRule where
  name : Text
  plain : Text
deriving DecidableEq, Repr, Inhabited

/-- The at-rule of a keyword. -/
def AtRule.ofKeyword (keyword : Text) : AtRule :=
  ⟨keyword.lower, stripVendorMark keyword.lower⟩

/-- The at-rule that a token opens. -/
def AtRule.ofToken? : Token → Option AtRule
  | .atKeyword keyword => some (.ofKeyword keyword)
  | _ => none

/-- The at-rules of a stylesheet in order, at every depth of nesting. -/
def atRules (css : Text) : List AtRule :=
  (Token.ofText css).filterMap AtRule.ofToken?

end AmpMarkup.Css
