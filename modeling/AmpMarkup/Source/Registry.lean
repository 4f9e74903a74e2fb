import AmpMarkup.Digest

/-! Stand-ins for syntax that an HTML reader would not carry through: the delimiters of templates,
and attributes in square brackets. They depend on a salt, so that two documents do not share
them. -/

namespace AmpMarkup.Source

/-- The delimiters of templates. A longer one stands before those that it contains. -/
def delimiters : List Text :=
  [['{', '{', '{'], ['}', '}', '}'], ['{', '{', '#'], ['{', '{', '^'], ['{', '{', '/'], ['{', '{'],
    ['}', '}']]

/-- A delimiter and the text that stands for it. -/
structure Placeholder where
  delimiter : Text
  substitute : Text
deriving DecidableEq, Repr, Inhabited

/-- How every substitute starts. -/
def substituteMark : Text :=
  "_amp_mustache_"

/-- How every mark of a binding attribute starts. -/
def bindingMarkStart : Text :=
  "amp-binding-"

/-- The stand-ins in use: the mark that starts the name of a binding attribute, and the
placeholders in order of replacement. -/
structure Registry where
  salt : Text
  bindingMark : Text
  placeholders : List Placeholder
deriving DecidableEq, Repr, Inhabited

namespace Registry

/-- The first 32 digits of the digest of the salt with a text after it. -/
def fingerprint (salt text : Text) : Text :=
  (Digest.hexDigest (salt ++ text)).take 32

/-- The stand-ins of a salt. -/
def ofSalt (salt : Text) : Registry :=
  ⟨salt, bindingMarkStart ++ fingerprint salt [] ++ "-",
    delimiters.map fun d => ⟨d, substituteMark ++ fingerprint salt d⟩⟩

/-- The substitutes in order. -/
def substitutes (r : Registry) : List Text :=
  r.placeholders.map Placeholder.substitute

/-- Puts a substitute in the place of every delimiter. -/
def substituteTemplates (r : Registry) (t : Text) : Text :=
  r.placeholders.foldl (fun t p => Text.replace p.delimiter p.substitute t) t

/-- Puts the delimiters of some placeholders back, one after the other. -/
def restoreWith (placeholders : List Placeholder) (t : Text) : Text :=
  placeholders.foldl (fun t p => Text.replace p.substitute p.delimiter t) t

/-- Puts every delimiter back in the place of its substitute. Text in which no substitute starts is not
searched. -/
def restoreTemplates (r : Registry) (t : Text) : Text :=
  if Text.contains substituteMark t then restoreWith r.placeholders t else t

/-- The name under which the attribute `[name]` is kept. -/
def bindingName (r : Registry) (name : Text) : Text :=
  r.bindingMark ++ name

/-- The name in brackets for which a kept name stands, if it stands for one. -/
def bracketed? (r : Registry) (kept : Text) : Option Text :=
  match Text.after? r.bindingMark kept with
  | some [] => none
  | some name => some ('[' :: name ++ [']'])
  | none => none

/-- The name in brackets for which a kept name stands, or the name itself. -/
def sourceName (r : Registry) (kept : Text) : Text :=
  (r.bracketed? kept).getD kept

end Registry

end AmpMarkup.Source
