import AmpMarkup.Json.Reader
import AmpMarkup.Json.Record
import AmpMarkup.Json.Writer
import AmpMarkup.Rules.Spec

/-! Rules in JSON. Reading accepts every record that gives the fields without a default, and writing
gives all fields but absent ones, so that what is written is read back. -/

namespace AmpMarkup.Rules

open Json (listOf)

namespace UrlSpec

/-- The URL rule of a JSON value. -/
def ofJson? (v : Json) : Option UrlSpec := do
  let r ← v.record? ["protocols", "allow_relative", "allow_empty"] [("protocol", "protocols")]
  return ⟨← r.items? "protocols" Json.text?, ← r.flag? "allow_relative", ← r.flag? "allow_empty"⟩

/-- The JSON value of a URL rule. -/
def toJson (s : UrlSpec) : Json :=
  .ofFields
    [("protocols", .texts s.protocols), ("allow_relative", .bool s.allowRelative),
      ("allow_empty", .bool s.allowEmpty)]

end UrlSpec

namespace ValueConstraint

/-- The constraint of a JSON value: the only field says of which kind it is. -/
def ofJson? (v : Json) : Option ValueConstraint := do
  let (key, v) ← v.only?
  if key = "exact" then return .exact (← v.list? Json.text?)
  else if key = "exact_casei" then return .exactIgnoringCase (← v.list? Json.text?)
  else if key = "url" then return .url (← UrlSpec.ofJson? v)
  else none

/-- The JSON value of a constraint. -/
def toJson : ValueConstraint → Json
  | .exact values => .ofFields [("exact", .texts values)]
  | .exactIgnoringCase values => .ofFields [("exact_casei", .texts values)]
  | .url spec => .ofFields [("url", spec.toJson)]

end ValueConstraint

/-- The dispatch key of a JSON value. -/
def DispatchKey.ofJson? : Json → Option DispatchKey :=
  Json.choice? DispatchKey.all DispatchKey.schemaName

/-- The format of a JSON value. -/
def Format.ofJson? : Json → Option Format :=
  Json.choice? Format.all Format.schemaName

/-- The layout of a JSON value. -/
def Layout.ofJson? : Json → Option Layout :=
  Json.choice? Layout.all Layout.schemaName

namespace AttributeSpec

/-- The attribute rule of a JSON value. -/
def ofJson? (v : Json) : Option AttributeSpec := do
  let r ← v.record? ["name", "mandatory", "value", "dispatch_key"] []
  return ⟨← r.required? "name" Json.text?, ← r.flag? "mandatory",
    ← r.optional? "value" ValueConstraint.ofJson?,
    ← r.optional? "dispatch_key" DispatchKey.ofJson?⟩

/-- The JSON value of an attribute rule. -/
def toJson (s : AttributeSpec) : Json :=
  .ofPresent
    [("name", some (.string s.name)), ("mandatory", some (.bool s.mandatory)),
      ("value", s.value.map ValueConstraint.toJson),
      ("dispatch_key", s.dispatchKey.map (.string ·.schemaName))]

end AttributeSpec

namespace DisallowedPattern

/-- The disallowed pattern of a JSON value. -/
def ofJson? (v : Json) : Option DisallowedPattern := do
  let r ← v.record? ["regex", "error_message"] []
  return ⟨← r.required? "regex" Json.text?, ← r.required? "error_message" Json.text?⟩

/-- The JSON value of a disallowed pattern. -/
def toJson (p : DisallowedPattern) : Json :=
  .ofFields [("regex", .string p.pattern), ("error_message", .string p.label)]

end DisallowedPattern

/-- The name of the at-rule of a JSON value. -/
def atRuleOfJson? (v : Json) : Option Text := do
  (← v.record? ["name"] []).required? "name" Json.text?

/-- The JSON value of an allowed at-rule. -/
def atRuleToJson (name : Text) : Json :=
  .ofFields [("name", .string name)]

namespace StylesheetSpec

/-- The stylesheet rule of a JSON value. -/
def ofJson? (v : Json) : Option StylesheetSpec := do
  return ⟨← (← v.record? ["at_rule_spec"] []).items? "at_rule_spec" atRuleOfJson?⟩

/-- The JSON value of a stylesheet rule. -/
def toJson (s : StylesheetSpec) : Json :=
  .ofFields [("at_rule_spec", listOf atRuleToJson s.atRules)]

end StylesheetSpec

namespace ContentSpec

/-- The content rule of a JSON value. -/
def ofJson? (v : Json) : Option ContentSpec := do
  let r ← v.record?
    ["max_bytes", "disallowed_cdata_regex", "cdata_regex", "css_spec", "doc_css_bytes"] []
  return ⟨← r.optional? "max_bytes" Json.word?,
    ← r.items? "disallowed_cdata_regex" DisallowedPattern.ofJson?,
    ← r.optional? "cdata_regex" Json.text?, ← r.optional? "css_spec" StylesheetSpec.ofJson?,
    ← r.flag? "doc_css_bytes"⟩

/-- The JSON value of a content rule. -/
def toJson (s : ContentSpec) : Json :=
  .ofPresent
    [("max_bytes", s.maxBytes.map (.natural ·.toNat)),
      ("disallowed_cdata_regex", some (listOf DisallowedPattern.toJson s.disallowed)),
      ("cdata_regex", s.pattern.map .string),
      ("css_spec", s.stylesheet.map StylesheetSpec.toJson),
      ("doc_css_bytes", some (.bool s.inBudget))]

end ContentSpec

namespace LayoutSpec

/-- The layout rule of a JSON value. -/
def ofJson? (v : Json) : Option LayoutSpec := do
  let r ← v.record? ["supported_layouts"] []
  return ⟨← r.required? "supported_layouts" (Json.list? Layout.ofJson?)⟩

/-- The JSON value of a layout rule. -/
def toJson (s : LayoutSpec) : Json :=
  .ofFields [("supported_layouts", .texts (s.supported.map Layout.schemaName))]

end LayoutSpec

namespace TagSpec

/-- The fields of a specification in order. -/
def fieldNames : List Text :=
  ["tag_name", "spec_name", "descriptive_name", "mandatory", "unique", "mandatory_parent",
    "mandatory_ancestor", "attrs", "attr_lists", "cdata", "html_format", "requires_extension",
    "amp_layout", "spec_url", "named_id"]

/-- The specification of a JSON value. -/
def ofJson? (v : Json) : Option TagSpec := do
  let r ← v.record? fieldNames []
  return {
    tag := ← r.required? "tag_name" Json.text?
    specName := ← r.optional? "spec_name" Json.text?
    descriptiveName := ← r.optional? "descriptive_name" Json.text?
    mandatory := ← r.flag? "mandatory"
    unique := ← r.flag? "unique"
    mandatoryParent := ← r.optional? "mandatory_parent" Json.text?
    mandatoryAncestor := ← r.optional? "mandatory_ancestor" Json.text?
    attributes := ← r.items? "attrs" AttributeSpec.ofJson?
    attributeLists := ← r.items? "attr_lists" Json.text?
    content := ← r.optional? "cdata" ContentSpec.ofJson?
    formats := ← r.items? "html_format" Format.ofJson?
    requiredExtensions := ← r.items? "requires_extension" Json.text?
    layout := ← r.optional? "amp_layout" LayoutSpec.ofJson?
    url := ← r.optional? "spec_url" Json.text?
    identifier := ← r.optional? "named_id" Json.text? }

/-- The JSON value of a specification. -/
def toJson (s : TagSpec) : Json :=
  .ofPresent
    [("tag_name", some (.string s.tag)),
      ("spec_name", s.specName.map .string),
      ("descriptive_name", s.descriptiveName.map .string),
      ("mandatory", some (.bool s.mandatory)),
      ("unique", some (.bool s.unique)),
      ("mandatory_parent", s.mandatoryParent.map .string),
      ("mandatory_ancestor", s.mandatoryAncestor.map .string),
      ("attrs", some (listOf AttributeSpec.toJson s.attributes)),
      ("attr_lists", some (.texts s.attributeLists)),
      ("cdata", s.content.map ContentSpec.toJson),
      ("html_format", some (.texts (s.formats.map Format.schemaName))),
      ("requires_extension", some (.texts s.requiredExtensions)),
      ("amp_layout", s.layout.map LayoutSpec.toJson),
      ("spec_url", s.url.map .string),
      ("named_id", s.identifier.map .string)]

end TagSpec

namespace RuleSet

/-- The shared lists of an object. Of two of one name the later one counts and so comes first. -/
def listsOfJson? : Json → Option (List (Text × List AttributeSpec))
  | .object fields =>
    (fields.reverse.mapM fun (key, v) => do
      return (← key, ← v.list? AttributeSpec.ofJson?))
  | _ => none

/-- The rules of a JSON value. -/
def ofJson? (v : Json) : Option RuleSet := do
  let r ← v.record? ["attr_lists", "tags"] []
  return ⟨← r.getD? "attr_lists" listsOfJson? [],
    ← r.required? "tags" (Json.list? TagSpec.ofJson?)⟩

/-- The rules of a JSON text. -/
def ofText? (t : Text) : Option RuleSet :=
  (Json.ofText? t).bind ofJson?

end RuleSet

end AmpMarkup.Rules
