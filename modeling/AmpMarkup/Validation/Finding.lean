import AmpMarkup.Dom.Basic
import AmpMarkup.Rules.Format
import AmpMarkup.Url.Basic

/-! Findings: what breaks a rule, at which element and under which specification. A finding says
everything through its cause, from which code, severity and message follow. -/

namespace AmpMarkup.Validation

open Dom (NodeId)
open Rules (Layout)

/-- How serious a finding is: the document breaks a rule, or something is likely a mistake. -/
inductive Severity where
  | error
  | warning
deriving DecidableEq, Repr, Inhabited

/-- What is wrong. `tag` is the name of a specification in messages. -/
inductive Cause where
  | disallowedTag (tag : Text)
  | wrongParent (tag actual required : Text)
  | missingAncestor (tag ancestor : Text)
  | duplicateUnique (tag : Text)
  | missingTag (tag : Text)
  | missingAttribute (name tag : Text)
  | disallowedAttribute (name tag : Text)
  | invalidValue (name tag value : Text)
  | disallowedProtocol (name tag scheme : Text)
  | missingUrl (name tag : Text)
  | relativeUrl (name tag url : Text)
  | invalidUrl (name tag url : Text) (fault : Url.Fault)
  | contentTooLong (tag : Text) (size limit : Nat)
  | disallowedContent (tag label : Text)
  | contentMismatch (tag : Text)
  | disallowedAtRule (tag rule : Text)
  | unsupportedLayout (tag : Text) (layout : Layout)
  | invalidLayout (tag value : Text)
  | missingExtension (spec extension : Text)
  | duplicateExtension (extension : Text)
  | unusedExtension (extension : Text)
  | stylesheetsTooLarge (size limit : Nat)
deriving DecidableEq, Repr, Inhabited

namespace Cause

/-- The code of a cause. -/
def code : Cause → Text
  | disallowedTag .. => "DISALLOWED_TAG"
  | wrongParent .. => "WRONG_PARENT_TAG"
  | missingAncestor .. => "MANDATORY_ANCESTOR_MISSING"
  | duplicateUnique .. => "DUPLICATE_UNIQUE_TAG"
  | missingTag .. => "MANDATORY_TAG_MISSING"
  | missingAttribute .. => "MANDATORY_ATTRIBUTE_MISSING"
  | disallowedAttribute .. => "DISALLOWED_ATTRIBUTE"
  | invalidValue .. => "INVALID_ATTRIBUTE_VALUE"
  | disallowedProtocol .. => "DISALLOWED_PROTOCOL"
  | missingUrl .. => "MISSING_URL"
  | relativeUrl .. => "DISALLOWED_RELATIVE_URL"
  | invalidUrl .. => "INVALID_URL"
  | contentTooLong .. => "CDATA_TOO_LONG"
  | disallowedContent .. => "DISALLOWED_CDATA"
  | contentMismatch .. => "CDATA_MISMATCH"
  | disallowedAtRule .. => "DISALLOWED_AT_RULE"
  | unsupportedLayout .. => "UNSUPPORTED_LAYOUT"
  | invalidLayout .. => "INVALID_LAYOUT"
  | missingExtension .. => "MISSING_EXTENSION"
  | duplicateExtension .. => "DUPLICATE_EXTENSION"
  | unusedExtension .. => "UNUSED_EXTENSION"
  | stylesheetsTooLarge .. => "DOCUMENT_CSS_TOO_LARGE"

/-- An extension without use is likely a mistake, all else breaks a rule. -/
def severity : Cause → Severity
  | unusedExtension .. => .warning
  | _ => .error

/-- The attribute that a cause is about. -/
def attribute? : Cause → Option Text
  | missingAttribute name _ | disallowedAttribute name _ | invalidValue name .. => some name
  | disallowedProtocol name .. | missingUrl name _ | relativeUrl name .. => some name
  | invalidUrl name .. => some name
  | unsupportedLayout .. | invalidLayout .. => some "layout"
  | _ => none

/-- A name between quotation marks. -/
def quoted (t : Text) : Text :=
  '\'' :: t ++ ['\'']

/-- The wording of a cause. -/
def message : Cause → Text
  | disallowedTag tag => "the tag " ++ quoted tag ++ " is disallowed"
  | wrongParent tag actual required =>
    "the parent tag of tag " ++ quoted tag ++ " is " ++ quoted actual ++ ", but it can only be " ++
      quoted required
  | missingAncestor tag ancestor =>
    "the tag " ++ quoted tag ++ " may only appear as a descendant of tag " ++ quoted ancestor
  | duplicateUnique tag => "the tag " ++ quoted tag ++ " appears more than once in the document"
  | missingTag tag => "the mandatory tag " ++ quoted tag ++ " is missing or incorrect"
  | missingAttribute name tag =>
    "the mandatory attribute " ++ quoted name ++ " is missing in tag " ++ quoted tag
  | disallowedAttribute name tag =>
    "the attribute " ++ quoted name ++ " may not appear in tag " ++ quoted tag
  | invalidValue name tag value =>
    "the attribute " ++ quoted name ++ " in tag " ++ quoted tag ++
      " is set to the invalid value " ++ quoted value
  | disallowedProtocol name tag scheme =>
    "invalid URL protocol " ++ quoted (scheme ++ [':']) ++ " for attribute " ++ quoted name ++
      " in tag " ++ quoted tag
  | missingUrl name tag =>
    "missing URL for attribute " ++ quoted name ++ " in tag " ++ quoted tag
  | relativeUrl name tag url =>
    "the relative URL " ++ quoted url ++ " for attribute " ++ quoted name ++ " in tag " ++
      quoted tag ++ " is disallowed"
  | invalidUrl name tag url fault =>
    "malformed URL " ++ quoted url ++ " for attribute " ++ quoted name ++ " in tag " ++
      quoted tag ++ ": " ++ fault.message
  | contentTooLong tag size limit =>
    "the text inside tag " ++ quoted tag ++ " is " ++ Text.ofNat size ++ " bytes, the limit is " ++
      Text.ofNat limit ++ " bytes"
  | disallowedContent tag label =>
    "the text inside tag " ++ quoted tag ++ " contains " ++ quoted label ++
      ", which is disallowed"
  | contentMismatch tag =>
    "the text inside tag " ++ quoted tag ++ " does not match the required pattern"
  | disallowedAtRule tag rule =>
    "CSS syntax error in tag " ++ quoted tag ++ " - saw invalid at rule " ++ quoted ('@' :: rule)
  | unsupportedLayout tag layout =>
    "the specified layout " ++ quoted layout.text ++ " is not supported by tag " ++ quoted tag
  | invalidLayout tag value =>
    "invalid value " ++ quoted value ++ " for attribute 'layout' in tag " ++ quoted tag
  | missingExtension spec extension =>
    "the tag " ++ quoted spec ++ " requires including the " ++ quoted extension ++
      " extension script"
  | duplicateExtension extension =>
    "the extension " ++ quoted extension ++ " is included more than once"
  | unusedExtension extension =>
    "the extension " ++ quoted extension ++ " was found on this page, but is unused"
  | stylesheetsTooLarge size limit =>
    "the author stylesheets are " ++ Text.ofNat size ++ " bytes, the limit is " ++
      Text.ofNat limit ++ " bytes"

end Cause

/-- Where a finding is: an element and the path to it. -/
structure Place where
  node : NodeId
  path : Text
deriving DecidableEq, Repr, Inhabited

/-- A cause with the name of the specification that it is about, and with its place unless it is
about the document. -/
structure Finding where
  cause : Cause
  spec : Text
  place : Option Place := none
deriving DecidableEq, Repr, Inhabited

namespace Finding

/-- How serious the finding is. -/
def severity (f : Finding) : Severity :=
  f.cause.severity

/-- Whether the document breaks a rule. -/
def isError (f : Finding) : Bool :=
  f.severity == .error

/-- The path to the element, empty for the document. -/
def path (f : Finding) : Text :=
  (f.place.map Place.path).getD []

end Finding

/-- All findings of a document in order. -/
structure Report where
  findings : List Finding
deriving DecidableEq, Repr, Inhabited

namespace Report

/-- The findings that break a rule. -/
def errors (r : Report) : List Finding :=
  r.findings.filter Finding.isError

/-- The findings that are likely mistakes. -/
def warnings (r : Report) : List Finding :=
  r.findings.filter (!·.isError)

/-- Whether nothing breaks a rule. -/
def isValid (r : Report) : Bool :=
  r.findings.all (!·.isError)

end Report

end AmpMarkup.Validation
