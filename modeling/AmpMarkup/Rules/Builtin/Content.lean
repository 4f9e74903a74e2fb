import AmpMarkup.Rules.Builtin.Shared

/-! The built-in rules for what a body is written with: text, links and forms. -/

namespace AmpMarkup.Rules.Builtin

/-- Blocks and runs of text. -/
def blocks : List TagSpec :=
  [{ tag := "div"
     attributes :=
       named ["align"] },
   { tag := "div", specName := some "FORM DIV [submit-success][template]"
     mandatoryAncestor := some "form"
     attributes :=
       named ["align"] ++
       [{ name := "submit-success", mandatory := true },
        { name := "template", mandatory := true }]
     formats := [.amp, .amp4email] },
   { tag := "div", specName := some "FORM DIV [verify-error]", mandatoryAncestor := some "form"
     attributes :=
       named ["align"] ++
       [{ name := "verify-error", mandatory := true }]
     formats := [.amp] },
   { tag := "p" },
   { tag := "span" },
   { tag := "em" },
   { tag := "strong" },
   { tag := "h1" },
   { tag := "h2" },
   { tag := "h3" },
   { tag := "ul" },
   { tag := "ol"
     attributes :=
       named ["reversed", "start", "type"] },
   { tag := "li"
     attributes :=
       named ["value"] },
   { tag := "section" },
   { tag := "article" },
   { tag := "header" },
   { tag := "footer" },
   { tag := "nav" },
   { tag := "main" },
   { tag := "br" },
   { tag := "hr" }]

/-- Links, changes of text, forms and templates. -/
def interaction : List TagSpec :=
  [{ tag := "a"
     attributes :=
       [{ name := "href",
          value := some (.url { protocols := ["http", "https", "mailto", "tel", "sms"],
                                allowRelative := true, allowEmpty := true }) }] ++
       named ["download", "hreflang", "name", "rel"] ++
       [{ name := "target", value := some (.exactIgnoringCase ["_blank", "_self", "_top"]) }] ++
       named ["type"] },
   { tag := "button"
     attributes :=
       named ["disabled", "name"] ++
       [{ name := "type", value := some (.exactIgnoringCase ["button", "reset", "submit"]) }] ++
       named ["value"] },
   { tag := "ins"
     attributes :=
       named ["datetime"]
     attributeLists := ["cite-attr"] },
   { tag := "form"
     attributes :=
       [{ name := "action",
          value := some (.url { protocols := ["https"], allowRelative := true }) },
        { name := "action-xhr",
          value := some (.url { protocols := ["https"], allowRelative := true }) }] ++
       named ["enctype"] ++
       [{ name := "method", value := some (.exactIgnoringCase ["get", "post"]) }] ++
       named ["name", "novalidate"] ++
       [{ name := "target", value := some (.exactIgnoringCase ["_blank", "_top"]) }] ++
       named ["verify-xhr"]
     formats := [.amp, .amp4email]
     requiredExtensions := ["amp-form"] },
   { tag := "input"
     attributes :=
       named ["checked", "disabled", "max", "maxlength", "min", "name", "pattern", "placeholder",
         "required", "type", "value"] },
   { tag := "template", specName := some "template amp-mustache"
     attributes :=
       [{ name := "type", mandatory := true, value := some (.exact ["amp-mustache"]),
          dispatchKey := some .nameValue }]
     requiredExtensions := ["amp-mustache"] }]

end AmpMarkup.Rules.Builtin
