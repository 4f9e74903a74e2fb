import AmpMarkup.Rules.Spec

/-! The lists of attributes that the built-in rules share. -/

namespace AmpMarkup.Rules.Builtin

/-- Attributes that may have any value and may be left out. -/
def named (names : List Text) : List AttributeSpec :=
  names.map fun name => { name := name }

/-- The lists of attributes that specifications share. -/
def attributeLists : List (Text × List AttributeSpec) :=
  [("nonce-attr",
      named ["nonce"]),
    ("mandatory-id-attr",
      [{ name := "id", mandatory := true }]),
    ("cite-attr",
      [{ name := "cite",
         value := some (.url { protocols := ["http", "https"],
                               allowRelative := true }) }]),
    ("extended-amp-global",
      named ["i-amphtml-layout", "i-amphtml-ssr", "media", "noloading"]),
    ("svg-core-attributes",
      named ["xml:lang", "xml:space", "xmlns", "xmlns:xlink"]),
    ("svg-conditional-processing-attributes",
      named ["requiredextensions", "requiredfeatures", "systemlanguage"]),
    ("svg-presentation-attributes",
      named ["color", "display", "fill", "fill-opacity", "fill-rule", "opacity", "stroke",
        "stroke-linecap", "stroke-linejoin", "stroke-opacity", "stroke-width", "transform",
        "visibility"]),
    ("track-attrs-subtitles",
      named ["default"] ++
      [{ name := "src", mandatory := true,
         value := some (.url { protocols := ["https"], allowRelative := true }) }] ++
      named ["srclang", "label"])]

end AmpMarkup.Rules.Builtin
