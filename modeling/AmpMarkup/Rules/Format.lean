import AmpMarkup.Text.Basic

/-! The closed vocabularies of rules: the formats of documents and the layouts of elements. Both
have one name for readers, compared without regard to case, and one in rule sets. -/

namespace AmpMarkup.Rules

/-- What a document is for: regular pages, ads and email. -/
inductive Format where
  | amp
  | amp4ads
  | amp4email
deriving DecidableEq, Repr, Inhabited

namespace Format

/-- The formats. -/
def all : List Format :=
  [.amp, .amp4ads, .amp4email]

/-- The name of a format. -/
def text : Format → Text
  | .amp => "amp"
  | .amp4ads => "amp4ads"
  | .amp4email => "amp4email"

/-- The format of a name, in any case. -/
def ofText? (t : Text) : Option Format :=
  all.find? (·.text.sameIgnoringCase t)

/-- The name of a format in a rule set. -/
def schemaName (f : Format) : Text :=
  f.text.upper

end Format

/-- A value of the `layout` attribute. -/
inductive Layout where
  | nodisplay
  | fixed
  | fixedHeight
  | responsive
  | container
  | fill
  | flexItem
  | fluid
  | intrinsic
deriving DecidableEq, Repr, Inhabited

namespace Layout

/-- The layouts. -/
def all : List Layout :=
  [.nodisplay, .fixed, .fixedHeight, .responsive, .container, .fill, .flexItem, .fluid, .intrinsic]

/-- The attribute value of a layout. -/
def text : Layout → Text
  | .nodisplay => "nodisplay"
  | .fixed => "fixed"
  | .fixedHeight => "fixed-height"
  | .responsive => "responsive"
  | .container => "container"
  | .fill => "fill"
  | .flexItem => "flex-item"
  | .fluid => "fluid"
  | .intrinsic => "intrinsic"

/-- The layout of an attribute value, in any case. -/
def ofText? (t : Text) : Option Layout :=
  all.find? (·.text.sameIgnoringCase t)

/-- The name of a layout in a rule set. -/
def schemaName (l : Layout) : Text :=
  l.text.upper.map fun c => if c = '-' then '_' else c

end Layout

end AmpMarkup.Rules
