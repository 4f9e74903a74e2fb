import AmpMarkup.Rules.Builtin.Shared

/-! The built-in rules for vector graphics. -/

namespace AmpMarkup.Rules.Builtin

/-- Vector graphics and the shapes in them. -/
def graphics : List TagSpec :=
  [{ tag := "svg"
     attributes :=
       named ["height", "preserveaspectratio"] ++
       [{ name := "version", value := some (.exact ["1.0", "1.1"]) }] ++
       named ["viewbox", "width", "x", "y"]
     attributeLists := ["svg-conditional-processing-attributes", "svg-core-attributes",
       "svg-presentation-attributes"]
     formats := [.amp, .amp4ads]
     url := some "https://amp.dev/documentation/guides-and-tutorials/learn/spec/amphtml/#svg" },
   { tag := "g", mandatoryAncestor := some "svg"
     attributes :=
       named ["clip-path", "mask"]
     attributeLists := ["svg-conditional-processing-attributes", "svg-core-attributes",
       "svg-presentation-attributes"]
     formats := [.amp, .amp4ads] },
   { tag := "path", mandatoryAncestor := some "svg"
     attributes :=
       named ["d", "pathlength"]
     attributeLists := ["svg-conditional-processing-attributes", "svg-core-attributes",
       "svg-presentation-attributes"]
     formats := [.amp, .amp4ads] },
   { tag := "circle", mandatoryAncestor := some "svg"
     attributes :=
       named ["cx", "cy", "r"]
     attributeLists := ["svg-conditional-processing-attributes", "svg-core-attributes",
       "svg-presentation-attributes"]
     formats := [.amp, .amp4ads] },
   { tag := "rect", mandatoryAncestor := some "svg"
     attributes :=
       named ["height", "rx", "ry", "width", "x", "y"]
     attributeLists := ["svg-conditional-processing-attributes", "svg-core-attributes",
       "svg-presentation-attributes"]
     formats := [.amp, .amp4ads] },
   { tag := "solidcolor", mandatoryAncestor := some "svg"
     attributes :=
       named ["solid-color", "solid-opacity"]
     attributeLists := ["svg-conditional-processing-attributes", "svg-core-attributes",
       "svg-presentation-attributes"]
     formats := [.amp, .amp4ads]
     url := some "https://amp.dev/documentation/guides-and-tutorials/learn/spec/amphtml/#svg" },
   { tag := "vkern", mandatoryAncestor := some "svg"
     attributes :=
       named ["g1", "g2", "k", "u1", "u2"]
     attributeLists := ["svg-core-attributes"]
     formats := [.amp, .amp4ads]
     url := some "https://amp.dev/documentation/guides-and-tutorials/learn/spec/amphtml/#svg" }]

end AmpMarkup.Rules.Builtin
