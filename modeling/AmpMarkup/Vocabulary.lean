import AmpMarkup.Text.Basic

/-! The element and attribute names with a meaning of their own: elements without content,
elements whose content is plain text, and attributes that every element may carry. Names are
compared without regard to the case of ASCII letters. -/

namespace AmpMarkup.Vocabulary

/-- Elements that never have content. -/
def voidElements : List Text :=
  ["area", "base", "basefont", "bgsound", "br", "col", "embed", "frame", "hr", "img", "input",
    "keygen", "link", "meta", "param", "source", "track", "wbr"]

/-- Elements whose content is read up to the end tag with nothing in it resolved. -/
def rawTextElements : List Text :=
  ["style", "script", "xmp", "iframe", "noembed", "noframes", "plaintext"]

/-- Elements whose content is text in which only character references are resolved. -/
def escapableTextElements : List Text :=
  ["textarea", "title"]

/-- Attributes that every element may carry, besides those that start with `data-` or `aria-`. -/
def globalAttributes : List Text :=
  ["about", "accesskey", "class", "content", "datatype", "dir", "draggable", "hidden", "id",
    "inlist", "itemid", "itemprop", "itemref", "itemscope", "itemtype", "lang", "on", "prefix",
    "property", "rel", "resource", "rev", "role", "style", "tabindex", "title", "translate",
    "typeof", "vocab"]

/-- Whether an element never has content. -/
def isVoid (tag : Text) : Bool :=
  voidElements.contains tag.lower

/-- Whether the content of an element is written and read literally. -/
def isRawText (tag : Text) : Bool :=
  rawTextElements.contains tag.lower

/-- Whether the content of an element is text with character references. -/
def isEscapableText (tag : Text) : Bool :=
  escapableTextElements.contains tag.lower

/-- Whether the content of an element is text and nothing else. -/
def isTextOnly (tag : Text) : Bool :=
  isRawText tag || isEscapableText tag

/-- Whether every element may carry an attribute of this name. -/
def isGlobalAttribute (name : Text) : Bool :=
  name.lower.startsWith "data-" || name.lower.startsWith "aria-" ||
    globalAttributes.contains name.lower

end AmpMarkup.Vocabulary
