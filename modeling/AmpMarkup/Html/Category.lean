import AmpMarkup.Text.Basic

/-! The classes of elements that tree construction treats alike. Tags are in lower case here, as
the reader of tokens delivers them. -/

namespace AmpMarkup.Html.Category

/-- Elements that belong to the head and have no content. -/
def headLeaves : List Text :=
  ["base", "basefont", "bgsound", "link", "meta"]

/-- Elements that belong to the head and hold plain text. -/
def headTexts : List Text :=
  ["title", "noframes", "style", "script"]

/-- Start tags that are put into the head even after its end. -/
def headContent : List Text :=
  ["base", "basefont", "bgsound", "link", "meta", "noframes", "script", "style", "template",
    "title"]

/-- End tags that imply the structure around the body where they occur before it. -/
def structural : List Text :=
  ["head", "body", "html", "br"]

/-- The six levels of headings. -/
def headings : List Text :=
  ["h1", "h2", "h3", "h4", "h5", "h6"]

/-- Elements that end an open paragraph where they start. -/
def endsParagraph : List Text :=
  ["address", "article", "aside", "blockquote", "center", "details", "dialog", "dir", "div", "dl",
    "fieldset", "figcaption", "figure", "footer", "header", "hgroup", "main", "menu", "nav", "ol",
    "p", "search", "section", "summary", "ul", "pre", "listing", "form", "table", "plaintext"]

/-- Elements that their end tag closes together with whatever is open inside them. -/
def blocks : List Text :=
  ["address", "article", "aside", "blockquote", "button", "center", "details", "dialog", "dir",
    "div", "dl", "fieldset", "figcaption", "figure", "footer", "form", "header", "hgroup",
    "listing", "main", "menu", "nav", "ol", "pre", "search", "section", "select", "summary",
    "table", "ul"]

/-- Elements through which the search for an open element does not look. -/
def scopeMarkers : List Text :=
  ["applet", "caption", "html", "table", "td", "th", "marquee", "object", "template", "mi", "mo",
    "mn", "ms", "mtext", "annotation-xml", "foreignobject", "desc", "title"]

/-- Elements whose end tag may be left out. -/
def implied : List Text :=
  ["dd", "dt", "li", "optgroup", "option", "p", "rb", "rp", "rt", "rtc"]

/-- Elements that an end tag of another name does not close. -/
def special : List Text :=
  List.map String.toList
    ["address", "applet", "area", "article", "aside", "base", "basefont", "bgsound", "blockquote",
      "body", "br", "button", "caption", "center", "col", "colgroup", "dd", "details", "dir", "div",
      "dl", "dt", "embed", "fieldset", "figcaption", "figure", "footer", "form", "frame",
      "frameset", "h1", "h2", "h3", "h4", "h5", "h6", "head", "header", "hgroup", "hr", "html",
      "iframe", "img", "input", "keygen", "li", "link", "listing", "main", "marquee", "menu",
      "meta", "nav", "noembed", "noframes", "noscript", "object", "ol", "p", "param", "plaintext",
      "pre", "script", "search", "section", "select", "source", "style", "summary", "table",
      "tbody", "td", "template", "textarea", "tfoot", "th", "thead", "title", "tr", "track", "ul",
      "wbr", "xmp"]

/-- Special elements that the search for an open list item passes over. -/
def transparent : List Text :=
  ["address", "div", "p"]

/-- Elements of other vocabularies, inside which a solidus closes a start tag. -/
def foreign : List Text :=
  ["svg", "math"]

/-- Elements of the body that hold plain text and leave an open paragraph open. -/
def bodyTexts : List Text :=
  ["textarea", "iframe", "noembed"]

/-- Whether an element of a tag is open, given the tags of the open elements from the innermost
one, with no marker in between. -/
def inScope (markers : List Text) (tag : Text) : List Text → Bool
  | [] => false
  | t :: ts => t == tag || (!markers.contains t && inScope markers tag ts)

/-- The innermost open element of a family of items, unless a special element other than the
transparent ones is in between. -/
def openItem? (family : List Text) : List Text → Option Text
  | [] => none
  | t :: ts =>
    if family.contains t then some t
    else if special.contains t && !transparent.contains t then none
    else openItem? family ts

end AmpMarkup.Html.Category
