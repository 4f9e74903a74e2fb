import AmpMarkup.Rules.Builtin.Shared

/-! The built-in rules for the frame of a document: its root, its head and what stands there. -/

namespace AmpMarkup.Rules.Builtin

/-- The root, the head and the body. -/
def documentFrame : List TagSpec :=
  [{ tag := "html", mandatory := true, unique := true
     attributes :=
       named ["amp", "amp4ads", "amp4email", "⚡", "⚡4ads", "⚡4email", "transformed"]
     url := some
       "https://amp.dev/documentation/guides-and-tutorials/learn/spec/amphtml/#required-markup" },
   { tag := "head", mandatory := true, unique := true, mandatoryParent := some "html" },
   { tag := "title", mandatoryParent := some "head" },
   { tag := "body", mandatory := true, unique := true, mandatoryParent := some "html" }]

/-- Declared encodings, viewports and other metadata, and links. -/
def metadata : List TagSpec :=
  [{ tag := "meta", specName := some "meta charset=utf-8", mandatory := true, unique := true
     mandatoryParent := some "head"
     attributes :=
       [{ name := "charset", mandatory := true, value := some (.exactIgnoringCase ["utf-8"]),
          dispatchKey := some .name }]
     url := some
       "https://amp.dev/documentation/guides-and-tutorials/learn/spec/amphtml/#required-markup" },
   { tag := "meta", specName := some "meta name=viewport", mandatory := true, unique := true
     mandatoryParent := some "head"
     attributes :=
       [{ name := "name", mandatory := true, value := some (.exact ["viewport"]),
          dispatchKey := some .nameValue },
        { name := "content", mandatory := true }]
     url := some
       "https://amp.dev/documentation/guides-and-tutorials/learn/spec/amphtml/#required-markup" },
   { tag := "meta", specName := some "meta http-equiv=content-type", unique := true
     mandatoryParent := some "head"
     attributes :=
       [{ name := "http-equiv", mandatory := true,
          value := some (.exactIgnoringCase ["content-type"]), dispatchKey := some .nameValue },
        { name := "content", mandatory := true }] },
   { tag := "meta", specName := some "meta name= and content="
     attributes :=
       [{ name := "name", mandatory := true }] ++
       named ["content", "itemprop", "property"] },
   { tag := "link", specName := some "link rel=canonical", mandatory := true, unique := true
     mandatoryParent := some "head"
     attributes :=
       [{ name := "rel", mandatory := true, value := some (.exactIgnoringCase ["canonical"]),
          dispatchKey := some .nameValue },
        { name := "href", mandatory := true,
          value := some (.url { protocols := ["http", "https"],
                                allowRelative := true }) }]
     formats := [.amp]
     url := some
       "https://amp.dev/documentation/guides-and-tutorials/learn/spec/amphtml/#required-markup" },
   { tag := "link", specName := some "link rel="
     attributes :=
       [{ name := "rel", mandatory := true },
        { name := "href",
          value := some (.url { protocols := ["http", "https"],
                                allowRelative := true }) }] ++
       named ["crossorigin", "hreflang", "media", "sizes", "type"]
     formats := [.amp, .amp4ads] }]

/-- The scripts that a document may load, and data in scripts. -/
def scripts : List TagSpec :=
  [{ tag := "script", specName := some "amphtml engine script", mandatory := true, unique := true
     mandatoryParent := some "head"
     attributes :=
       [{ name := "src", mandatory := true,
          value := some (.exact ["https://cdn.ampproject.org/v0.js"]),
          dispatchKey := some .nameValue },
        { name := "async", mandatory := true, value := some (.exact [""]) },
        { name := "type", value := some (.exactIgnoringCase ["text/javascript"]) }]
     attributeLists := ["nonce-attr"]
     content := some {
       maxBytes := some 0 }
     url := some
       "https://amp.dev/documentation/guides-and-tutorials/learn/spec/amphtml/#required-markup" },
   { tag := "script", specName := some "amphtml extension script", mandatoryParent := some "head"
     attributes :=
       [{ name := "custom-element", mandatory := true, dispatchKey := some .name },
        { name := "async", mandatory := true, value := some (.exact [""]) },
        { name := "src", mandatory := true, value := some (.url { protocols := ["https"] }) },
        { name := "type", value := some (.exactIgnoringCase ["text/javascript"]) }]
     attributeLists := ["nonce-attr"]
     content := some {
       maxBytes := some 0 } },
   { tag := "script", specName := some "amphtml template script", mandatoryParent := some "head"
     attributes :=
       [{ name := "custom-template", mandatory := true, dispatchKey := some .name },
        { name := "async", mandatory := true, value := some (.exact [""]) },
        { name := "src", mandatory := true, value := some (.url { protocols := ["https"] }) },
        { name := "type", value := some (.exactIgnoringCase ["text/javascript"]) }]
     attributeLists := ["nonce-attr"]
     content := some {
       maxBytes := some 0 } },
   { tag := "script", specName := some "script type=application/ld+json"
     attributes :=
       [{ name := "type", mandatory := true,
          value := some (.exactIgnoringCase ["application/ld+json"]),
          dispatchKey := some .nameValue }]
     attributeLists := ["nonce-attr"]
     content := some {
       disallowed := [⟨"<!--", "html comments"⟩] }
     formats := [.amp] },
   { tag := "section", specName := some "subscriptions-section content swg_amp_cache_nonce"
     attributes :=
       [{ name := "subscriptions-section", mandatory := true, value := some (.exact ["content"]),
          dispatchKey := some .nameValue },
        { name := "swg_amp_cache_nonce", mandatory := true }] ++
       named ["encrypted"]
     formats := [.amp]
     requiredExtensions := ["amp-subscriptions"] },
   { tag := "script", specName := some "subscriptions script ciphertext"
     mandatoryParent := some "subscriptions-section content swg_amp_cache_nonce"
     mandatoryAncestor := some "body"
     attributes :=
       [{ name := "ciphertext", mandatory := true, dispatchKey := some .name },
        { name := "type", mandatory := true,
          value := some (.exactIgnoringCase ["application/octet-stream"]) }]
     content := some {
       disallowed := [⟨"<!--", "html comments"⟩] }
     formats := [.amp] }]

/-- The stylesheet of the author and the boilerplate of every format. -/
def styles : List TagSpec :=
  [{ tag := "style", specName := some "style amp-custom"
     descriptiveName := some "style amp-custom", unique := true, mandatoryParent := some "head"
     attributes :=
       [{ name := "amp-custom", mandatory := true, value := some (.exact [""]) },
        { name := "type", value := some (.exactIgnoringCase ["text/css"]) }]
     attributeLists := ["nonce-attr"]
     content := some {
       maxBytes := some 75000
       disallowed := [⟨"<!--", "html comments"⟩,
         ⟨"(^|\\W)i-amphtml-", "CSS i-amphtml- name prefix"⟩]
       stylesheet := some { atRules := ["font-face", "keyframes", "media", "page", "supports"] }
       inBudget := true }
     formats := [.amp]
     url := some
       "https://amp.dev/documentation/guides-and-tutorials/learn/spec/amphtml/#stylesheets"
     identifier := some "STYLE_AMP_CUSTOM" },
   { tag := "style", specName := some "head > style[amp-boilerplate]", mandatory := true
     unique := true, mandatoryParent := some "head"
     attributes :=
       [{ name := "amp-boilerplate", mandatory := true, value := some (.exact [""]),
          dispatchKey := some .nameValueParent }]
     attributeLists := ["nonce-attr"]
     content := some {
       disallowed := [⟨"<!--", "html comments"⟩]
       pattern := some <|
         String.toList "\\s*body\\s*\\\x7b[^\x7d]*animation:\\s*-amp-start[^\x7d]*"
           ++ "\\\x7d[\\s\\S]*" }
     formats := [.amp]
     url := some
       "https://amp.dev/documentation/guides-and-tutorials/learn/spec/amp-boilerplate/" },
   { tag := "noscript", specName := some "noscript enclosure for boilerplate", mandatory := true
     unique := true, mandatoryParent := some "head"
     formats := [.amp] },
   { tag := "style", specName := some "noscript > style[amp-boilerplate]", mandatory := true
     unique := true, mandatoryParent := some "noscript"
     attributes :=
       [{ name := "amp-boilerplate", mandatory := true, value := some (.exact [""]),
          dispatchKey := some .nameValueParent }]
     attributeLists := ["nonce-attr"]
     content := some {
       pattern := some <|
         String.toList "\\s*body\\s*\\\x7b\\s*-webkit-animation:\\s*none;?\\s*"
           ++ "-moz-animation:\\s*none;?\\s*-ms-animation:\\s*none;"
           ++ "?\\s*animation:\\s*none;?\\s*\\\x7d\\s*" }
     formats := [.amp]
     url := some
       "https://amp.dev/documentation/guides-and-tutorials/learn/spec/amp-boilerplate/" },
   { tag := "style", specName := some "head > style[amp4ads-boilerplate]"
     descriptiveName := some "head > style[amp4ads-boilerplate]", mandatory := true
     unique := true, mandatoryParent := some "head"
     attributes :=
       [{ name := "amp4ads-boilerplate", mandatory := true, value := some (.exact [""]),
          dispatchKey := some .nameValueParent }]
     attributeLists := ["nonce-attr"]
     content := some {
       pattern := some "\\s*body\\s*\\\x7b\\s*visibility:\\s*hidden;?\\s*\\\x7d\\s*" }
     formats := [.amp4ads]
     url := some <|
       String.toList "https://amp.dev/documentation/guides-and-tutorials/learn/" ++
         "a4a_spec/?format=ads#boilerplate" },
   { tag := "style", specName := some "head > style[amp4email-boilerplate]", mandatory := true
     unique := true, mandatoryParent := some "head"
     attributes :=
       [{ name := "amp4email-boilerplate", mandatory := true, value := some (.exact [""]),
          dispatchKey := some .nameValueParent }]
     content := some {
       pattern := some "\\s*body\\s*\\\x7b\\s*visibility:\\s*hidden;?\\s*\\\x7d\\s*" }
     formats := [.amp4email] }]

end AmpMarkup.Rules.Builtin
