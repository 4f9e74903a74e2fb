import AmpMarkup.Proofs.Json.Records
import AmpMarkup.Rules.Schema

/-! Rules read back from their JSON. Every part of a specification has a reader that fits its writer, and
the record of the whole follows from its parts. -/

namespace AmpMarkup.Rules

open Json (Lawful lawful_record lawful_text lawful_bool lawful_word lawful_choice)
open Json.Record (required?_of_lookup optional?_of_lookup flag?_of_lookup items?_of_lookup)

/-! ### Choices -/

theorem DispatchKey.lawful : Lawful ofJson? fun k => .string k.schemaName :=
  lawful_choice (fun k => by cases k <;> decide) fun a b h => by
    cases a <;> cases b <;> first | rfl | exact absurd h (by decide)

theorem Format.lawful : Lawful ofJson? fun f => .string f.schemaName :=
  lawful_choice (fun f => by cases f <;> decide) fun a b h => by
    cases a <;> cases b <;> first | rfl | exact absurd h (by decide)

theorem Layout.lawful : Lawful ofJson? fun l => .string l.schemaName :=
  lawful_choice (fun l => by cases l <;> decide) fun a b h => by
    cases a <;> cases b <;> first | rfl | exact absurd h (by decide)

/-! ### Attributes -/

theorem UrlSpec.lawful : Lawful ofJson? toJson := by
  refine lawful_record ["protocols", "allow_relative", "allow_empty"] [("protocol", "protocols")]
    (fun s : UrlSpec => [some (.texts s.protocols), some (.bool s.allowRelative), some (.bool s.allowEmpty)])
    (by decide) (by decide) (fun _ => rfl) (fun s => ?_) ?_
  · exact ⟨lawful_text.list.inRange_some s.protocols, lawful_bool.inRange_some _, lawful_bool.inRange_some _⟩
  · rintro s r (_ | ⟨hprotocols, _ | ⟨hrelative, _ | ⟨hempty, _⟩⟩⟩)
    rw [items?_of_lookup lawful_text hprotocols, flag?_of_lookup hrelative, flag?_of_lookup hempty]
    rfl

/-- An object of one field says by its name of which kind the constraint is. -/
theorem ValueConstraint.lawful : Lawful ofJson? toJson where
  read_write
    | .exact values => congrArg (Option.bind · (some ∘ exact)) (lawful_text.list.read_write values)
    | .exactIgnoringCase values =>
        congrArg (Option.bind · (some ∘ exactIgnoringCase)) (lawful_text.list.read_write values)
    | .url spec => congrArg (Option.bind · (some ∘ url)) (UrlSpec.lawful.read_write spec)
  inRange
    | .exact values | .exactIgnoringCase values =>
        .object (List.forall_mem_singleton.mpr (lawful_text.list.inRange values))
    | .url spec => .object (List.forall_mem_singleton.mpr (UrlSpec.lawful.inRange spec))
  ne_null c := by cases c <;> exact nofun

theorem AttributeSpec.lawful : Lawful ofJson? toJson := by
  refine lawful_record ["name", "mandatory", "value", "dispatch_key"] []
    (fun s : AttributeSpec =>
      [some (.string s.name), some (.bool s.mandatory), s.value.map ValueConstraint.toJson,
        s.dispatchKey.map (.string ·.schemaName)])
    (by decide) (fun _ _ => rfl) (fun _ => rfl) (fun s => ?_) ?_
  · exact ⟨lawful_text.inRange_some _, lawful_bool.inRange_some _, ValueConstraint.lawful.inRange_map _,
      DispatchKey.lawful.inRange_map _⟩
  · rintro s r (_ | ⟨hname, _ | ⟨hmandatory, _ | ⟨hvalue, _ | ⟨hkey, _⟩⟩⟩⟩)
    rw [required?_of_lookup lawful_text hname, flag?_of_lookup hmandatory,
      optional?_of_lookup ValueConstraint.lawful hvalue, optional?_of_lookup DispatchKey.lawful hkey]
    rfl

/-! ### Content -/

theorem DisallowedPattern.lawful : Lawful ofJson? toJson := by
  refine lawful_record ["regex", "error_message"] []
    (fun p : DisallowedPattern => [some (.string p.pattern), some (.string p.label)])
    (by decide) (fun _ _ => rfl) (fun _ => rfl) (fun p => ?_) ?_
  · exact ⟨lawful_text.inRange_some p.pattern, lawful_text.inRange_some p.label⟩
  · rintro p r (_ | ⟨hpattern, _ | ⟨hlabel, _⟩⟩)
    rw [required?_of_lookup lawful_text hpattern, required?_of_lookup lawful_text hlabel]
    rfl

theorem lawful_atRule : Lawful atRuleOfJson? atRuleToJson := by
  refine lawful_record ["name"] [] (fun name : Text => [some (.string name)]) (by decide) (fun _ _ => rfl)
    (fun _ => rfl) (fun name => lawful_text.inRange_some name) ?_
  rintro name r (_ | ⟨hname, _⟩)
  exact required?_of_lookup lawful_text hname

theorem StylesheetSpec.lawful : Lawful ofJson? toJson := by
  refine lawful_record ["at_rule_spec"] [] (fun s : StylesheetSpec => [some (Json.listOf atRuleToJson s.atRules)])
    (by decide) (fun _ _ => rfl) (fun _ => rfl) (fun s => lawful_atRule.list.inRange_some s.atRules) ?_
  rintro s r (_ | ⟨hrules, _⟩)
  rw [items?_of_lookup lawful_atRule hrules]
  rfl

theorem ContentSpec.lawful : Lawful ofJson? toJson := by
  refine lawful_record ["max_bytes", "disallowed_cdata_regex", "cdata_regex", "css_spec", "doc_css_bytes"] []
    (fun s : ContentSpec =>
      [s.maxBytes.map (.natural ·.toNat), some (Json.listOf DisallowedPattern.toJson s.disallowed),
        s.pattern.map .string, s.stylesheet.map StylesheetSpec.toJson, some (.bool s.inBudget)])
    (by decide) (fun _ _ => rfl) (fun _ => rfl) (fun s => ?_) ?_
  · exact ⟨lawful_word.inRange_map _, DisallowedPattern.lawful.list.inRange_some s.disallowed,
      lawful_text.inRange_map _, StylesheetSpec.lawful.inRange_map _, lawful_bool.inRange_some _⟩
  · rintro s r (_ | ⟨hmax, _ | ⟨hdisallowed, _ | ⟨hpattern, _ | ⟨hstylesheet, _ | ⟨hbudget, _⟩⟩⟩⟩⟩)
    rw [optional?_of_lookup lawful_word hmax, items?_of_lookup DisallowedPattern.lawful hdisallowed,
      optional?_of_lookup lawful_text hpattern, optional?_of_lookup StylesheetSpec.lawful hstylesheet,
      flag?_of_lookup hbudget]
    rfl

/-! ### Specifications -/

theorem LayoutSpec.lawful : Lawful ofJson? toJson := by
  refine lawful_record ["supported_layouts"] []
    (fun s : LayoutSpec => [some (.texts (s.supported.map Layout.schemaName))])
    (by decide) (fun _ _ => rfl) (fun _ => rfl) (fun s => ?_) ?_
  · rw [Json.texts_map]
    exact Layout.lawful.list.inRange_some s.supported
  · rintro s r (_ | ⟨hsupported, _⟩)
    rw [Json.texts_map] at hsupported
    rw [required?_of_lookup Layout.lawful.list hsupported]
    rfl

theorem TagSpec.lawful : Lawful ofJson? toJson := by
  refine lawful_record fieldNames []
    (fun s : TagSpec =>
      [some (.string s.tag), s.specName.map .string, s.descriptiveName.map .string, some (.bool s.mandatory),
        some (.bool s.unique), s.mandatoryParent.map .string, s.mandatoryAncestor.map .string,
        some (Json.listOf AttributeSpec.toJson s.attributes), some (.texts s.attributeLists),
        s.content.map ContentSpec.toJson, some (.texts (s.formats.map Format.schemaName)),
        some (.texts s.requiredExtensions), s.layout.map LayoutSpec.toJson, s.url.map .string,
        s.identifier.map .string])
    (by decide) (fun _ _ => rfl) (fun _ => rfl) (fun s => ?_) ?_
  · rw [Json.texts_map]
    exact ⟨lawful_text.inRange_some _, lawful_text.inRange_map _, lawful_text.inRange_map _,
      lawful_bool.inRange_some _, lawful_bool.inRange_some _, lawful_text.inRange_map _,
      lawful_text.inRange_map _, AttributeSpec.lawful.list.inRange_some s.attributes,
      lawful_text.list.inRange_some s.attributeLists, ContentSpec.lawful.inRange_map _,
      Format.lawful.list.inRange_some s.formats, lawful_text.list.inRange_some s.requiredExtensions,
      LayoutSpec.lawful.inRange_map _, lawful_text.inRange_map _, lawful_text.inRange_map _⟩
  · rintro s r (_ | ⟨htag, _ | ⟨hspec, _ | ⟨hdescriptive, _ | ⟨hmandatory, _ | ⟨hunique, _ | ⟨hparent,
      _ | ⟨hancestor, _ | ⟨hattributes, _ | ⟨hlists, _ | ⟨hcontent, _ | ⟨hformats, _ | ⟨hextensions,
      _ | ⟨hlayout, _ | ⟨hurl, _ | ⟨hidentifier, _⟩⟩⟩⟩⟩⟩⟩⟩⟩⟩⟩⟩⟩⟩⟩)
    rw [Json.texts_map] at hformats
    rw [required?_of_lookup lawful_text htag, optional?_of_lookup lawful_text hspec,
      optional?_of_lookup lawful_text hdescriptive, flag?_of_lookup hmandatory, flag?_of_lookup hunique,
      optional?_of_lookup lawful_text hparent, optional?_of_lookup lawful_text hancestor,
      items?_of_lookup AttributeSpec.lawful hattributes, items?_of_lookup lawful_text hlists,
      optional?_of_lookup ContentSpec.lawful hcontent, items?_of_lookup Format.lawful hformats,
      items?_of_lookup lawful_text hextensions, optional?_of_lookup LayoutSpec.lawful hlayout,
      optional?_of_lookup lawful_text hurl, optional?_of_lookup lawful_text hidentifier]
    rfl

/-- The text of a specification is read back as the same specification. -/
theorem TagSpec.ofJson?_ofText?_render (s : TagSpec) :
    (Json.ofText? (Json.render s.toJson)).bind TagSpec.ofJson? = some s := by
  rw [Json.ofText?_render (lawful.inRange s), Option.bind_some, lawful.read_write]

end AmpMarkup.Rules
