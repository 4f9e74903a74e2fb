import AmpMarkup.Pattern.CharClass

/-! The names under which patterns refer to properties of characters. -/

namespace AmpMarkup.Pattern

open Unicode (Category)

/-- A name in lower case without spaces, hyphens and underscores and without `is` before it. The
name `isc` keeps what it starts with. -/
def looseName (t : Text) : Text :=
  let plain (t : Text) : Text :=
    Text.lower (t.filter fun c => c.toNat < 0x80 && c != ' ' && c != '_' && c != '-')
  match t with
  | a :: b :: rest =>
    if Text.lower [a, b] = ['i', 's'] then
      let name := plain rest
      if name = ['c'] then ['i', 's', 'c'] else name
    else plain t
  | _ => plain t

/-- The groups of categories by their names, separated by spaces. -/
def categoryGroups : List (String × List Category) :=
  [("l letter",
      [.uppercaseLetter, .lowercaseLetter, .titlecaseLetter, .modifierLetter, .otherLetter]),
    ("lc casedletter", [.uppercaseLetter, .lowercaseLetter, .titlecaseLetter]),
    ("lu uppercaseletter", [.uppercaseLetter]),
    ("ll lowercaseletter", [.lowercaseLetter]),
    ("lt titlecaseletter", [.titlecaseLetter]),
    ("lm modifierletter", [.modifierLetter]),
    ("lo otherletter", [.otherLetter]),
    ("m mark combiningmark", [.nonspacingMark, .spacingMark, .enclosingMark]),
    ("mn nonspacingmark", [.nonspacingMark]),
    ("mc spacingmark", [.spacingMark]),
    ("me enclosingmark", [.enclosingMark]),
    ("n number", [.decimalNumber, .letterNumber, .otherNumber]),
    ("nd decimalnumber digit", [.decimalNumber]),
    ("nl letternumber", [.letterNumber]),
    ("no othernumber", [.otherNumber]),
    ("p punctuation punct",
      [.connectorPunctuation, .dashPunctuation, .openPunctuation, .closePunctuation,
        .initialPunctuation, .finalPunctuation, .otherPunctuation]),
    ("pc connectorpunctuation", [.connectorPunctuation]),
    ("pd dashpunctuation", [.dashPunctuation]),
    ("ps openpunctuation", [.openPunctuation]),
    ("pe closepunctuation", [.closePunctuation]),
    ("pi initialpunctuation", [.initialPunctuation]),
    ("pf finalpunctuation", [.finalPunctuation]),
    ("po otherpunctuation", [.otherPunctuation]),
    ("s symbol", [.mathSymbol, .currencySymbol, .modifierSymbol, .otherSymbol]),
    ("sm mathsymbol", [.mathSymbol]),
    ("sc currencysymbol", [.currencySymbol]),
    ("sk modifiersymbol", [.modifierSymbol]),
    ("so othersymbol", [.otherSymbol]),
    ("z separator", [.spaceSeparator, .lineSeparator, .paragraphSeparator]),
    ("zs spaceseparator", [.spaceSeparator]),
    ("zl lineseparator", [.lineSeparator]),
    ("zp paragraphseparator", [.paragraphSeparator]),
    ("c other", [.control, .format, .privateUse, .unassigned]),
    ("cc control cntrl", [.control]),
    ("cf format", [.format]),
    ("co privateuse", [.privateUse]),
    ("cn unassigned", [.unassigned])]

/-- The class of the categories of a name. -/
def categoryClass? (name : Text) : Option CharClass :=
  if name = "any" then some .all
  else if name = "ascii" then some (.range '\x00' '\x7f')
  else if name = "assigned" then some (.complement (.property (.category [.unassigned])))
  else
    (categoryGroups.find? fun group => (Text.splitOn ' ' group.1).contains name).map
      fun group => .property (.category group.2)

/-- The class of the script of a name. -/
def scriptClass? (name : Text) : Option CharClass :=
  (Unicode.scriptNamed? name).map (.property <| .script ·)

/-- The properties that hold or do not, by their names. -/
def plainProperty? (name : Text) : Option Property :=
  if name = "alphabetic" ∨ name = "alpha" then some .alphabetic
  else if name = "whitespace" ∨ name = "wspace" ∨ name = "space" then some .blank
  else if name = "uppercase" ∨ name = "upper" then some .uppercase
  else if name = "lowercase" ∨ name = "lower" then some .lowercase
  else none

/-- The class of a name that stands alone: of a property, of categories or of a script. -/
def namedClass? (written : Text) : Option CharClass :=
  let name := looseName written
  ((plainProperty? name).map .property).or ((categoryClass? name).or (scriptClass? name))

/-- The class of a value of a property that has several. -/
def valueClass? (property value : Text) : Option CharClass :=
  let name := looseName property
  if name = "gc" ∨ name = "generalcategory" ∨ name = "category" then
    categoryClass? (looseName value)
  else if name = "sc" ∨ name = "script" then scriptClass? (looseName value)
  else none

/-- What stands before and after the first place where a text occurs. -/
def splitAt? (separator : Text) : Text → Option (Text × Text)
  | [] => none
  | c :: t =>
    match Text.after? separator (c :: t) with
    | some rest => some ([], rest)
    | none => (splitAt? separator t).map fun (before, rest) => (c :: before, rest)

/-- The class that the text between braces names: a property with a value after a colon or an
equals sign, excluded after an exclamation mark, or a name alone. -/
def bracedClass? (t : Text) : Option CharClass :=
  match splitAt? "!=" t with
  | some (property, value) => (valueClass? property value).map .complement
  | none =>
    match (splitAt? ":" t).or (splitAt? "=" t) with
    | some (property, value) => valueClass? property value
    | none => namedClass? t

/-- The ASCII classes by their names. -/
def asciiRanges? (name : Text) : Option (List (Char × Char)) :=
  if name = "alnum" then some [('0', '9'), ('A', 'Z'), ('a', 'z')]
  else if name = "alpha" then some [('A', 'Z'), ('a', 'z')]
  else if name = "ascii" then some [('\x00', '\x7f')]
  else if name = "blank" then some [('\t', '\t'), (' ', ' ')]
  else if name = "cntrl" then some [('\x00', '\x1f'), ('\x7f', '\x7f')]
  else if name = "digit" then some [('0', '9')]
  else if name = "graph" then some [('!', '~')]
  else if name = "lower" then some [('a', 'z')]
  else if name = "print" then some [(' ', '~')]
  else if name = "punct" then some [('!', '/'), (':', '@'), ('[', '\x60'), ('\x7b', '~')]
  else if name = "space" then some [('\t', '\r'), (' ', ' ')]
  else if name = "upper" then some [('A', 'Z')]
  else if name = "word" then some [('0', '9'), ('A', 'Z'), ('_', '_'), ('a', 'z')]
  else if name = "xdigit" then some [('0', '9'), ('A', 'F'), ('a', 'f')]
  else none

end AmpMarkup.Pattern
