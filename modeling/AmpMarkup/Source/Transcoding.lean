import AmpMarkup.Source.Binding
import AmpMarkup.Source.VoidElement

/-! The change of markup before it is read as HTML and the change back after it has been
written. -/

namespace AmpMarkup.Source

/-- Markup that an HTML reader carries through: binding attributes renamed, then template
delimiters substituted, then void elements closed. -/
def encode (r : Registry) (t : Text) : Text :=
  closeVoidElements (r.substituteTemplates (encodeBindings r t))

/-- The markup for which written HTML stands: template delimiters restored, then binding attributes
named again, then end tags of void elements taken out. -/
def decode (r : Registry) (t : Text) : Text :=
  stripVoidEndTags (decodeBindings r (r.restoreTemplates t))

end AmpMarkup.Source
