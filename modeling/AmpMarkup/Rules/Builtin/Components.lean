import AmpMarkup.Rules.Builtin.Shared

/-! The built-in rules for the elements that extensions provide. -/

namespace AmpMarkup.Rules.Builtin

/-- Images, lists and the state behind bindings. -/
def media : List TagSpec :=
  [{ tag := "amp-img"
     attributes :=
       named ["alt", "attribution", "object-fit"] ++
       [{ name := "src", mandatory := true,
          value := some (.url { protocols := ["data", "http", "https"],
                                allowRelative := true }) }] ++
       named ["srcset"]
     attributeLists := ["extended-amp-global"]
     layout := some { supported := [.fill, .fixed, .fixedHeight, .flexItem, .intrinsic,
       .nodisplay, .responsive] }
     url := some "https://amp.dev/documentation/components/amp-img/" },
   { tag := "amp-list"
     attributes :=
       [{ name := "binding", value := some (.exact ["always", "no", "refresh"]) }] ++
       named ["items", "max-items", "single-item"] ++
       [{ name := "src", value := some (.url { protocols := ["https"], allowRelative := true }) }]
     attributeLists := ["extended-amp-global"]
     requiredExtensions := ["amp-list"]
     layout := some { supported := [.container, .fill, .fixed, .fixedHeight, .flexItem,
       .nodisplay, .responsive] } },
   { tag := "amp-state"
     attributes :=
       [{ name := "src", value := some (.url { protocols := ["https"], allowRelative := true }) }]
     attributeLists := ["mandatory-id-attr"]
     formats := [.amp, .amp4email]
     requiredExtensions := ["amp-bind"]
     layout := some { supported := [.nodisplay] } },
   { tag := "amp-bind-macro"
     attributes :=
       named ["arguments"] ++
       [{ name := "expression", mandatory := true }]
     attributeLists := ["mandatory-id-attr"]
     formats := [.amp, .amp4email]
     requiredExtensions := ["amp-bind"]
     url := some "https://amp.dev/documentation/components/amp-bind/" },
   { tag := "amp-action-macro"
     attributes :=
       named ["arguments"] ++
       [{ name := "execute", mandatory := true }]
     attributeLists := ["mandatory-id-attr"]
     formats := [.amp]
     requiredExtensions := ["amp-action-macro"]
     url := some "https://amp.dev/documentation/components/amp-action-macro/" }]

/-- Notifications, live lists and sound. -/
def services : List TagSpec :=
  [{ tag := "amp-user-notification"
     attributes :=
       [{ name := "data-dismiss-href", value := some (.url { protocols := ["https"] }) },
        { name := "data-show-if-href", value := some (.url { protocols := ["https"] }) },
        { name := "enctype", value := some (.exact ["application/x-www-form-urlencoded"]) }]
     attributeLists := ["extended-amp-global"]
     formats := [.amp]
     requiredExtensions := ["amp-user-notification"]
     layout := some { supported := [.nodisplay] } },
   { tag := "amp-onetap-google", unique := true
     attributes :=
       [{ name := "data-src", mandatory := true, value := some (.url { protocols := ["https"] }) }]
     formats := [.amp]
     requiredExtensions := ["amp-onetap-google"]
     layout := some { supported := [.nodisplay] } },
   { tag := "amp-live-list"
     attributes :=
       [{ name := "data-max-items-per-page", mandatory := true }] ++
       named ["data-poll-interval", "disabled", "sort"]
     attributeLists := ["mandatory-id-attr"]
     formats := [.amp]
     requiredExtensions := ["amp-live-list"]
     layout := some { supported := [.container, .fixed, .fixedHeight, .responsive] } },
   { tag := "$REFERENCE_POINT", specName := some "AMP-LIVE-LIST [items] item"
     descriptiveName := some "amp-live-list [items] item"
     attributes :=
       [{ name := "data-sort-time", mandatory := true }] ++
       named ["data-tombstone", "data-update-time"]
     attributeLists := ["mandatory-id-attr"]
     formats := [.amp]
     url := some "https://amp.dev/documentation/components/amp-live-list/#items" },
   { tag := "amp-audio"
     attributes :=
       named ["autoplay", "controls", "loop", "muted"] ++
       [{ name := "src", value := some (.url { protocols := ["https"], allowRelative := true }) }]
     attributeLists := ["extended-amp-global"]
     formats := [.amp, .amp4ads]
     requiredExtensions := ["amp-audio"]
     layout := some { supported := [.fixed, .fixedHeight, .nodisplay] } },
   { tag := "track", specName := some "amp-audio > track[kind=subtitles]"
     mandatoryParent := some "amp-audio"
     attributes :=
       [{ name := "kind", mandatory := true, value := some (.exactIgnoringCase ["subtitles"]),
          dispatchKey := some .nameValueParent }] ++
       named ["[label]", "[src]", "[srclang]"]
     attributeLists := ["track-attrs-subtitles"]
     formats := [.amp, .amp4ads] }]

end AmpMarkup.Rules.Builtin
