import AmpMarkup.Html.Token
import AmpMarkup.Html.CharacterReference
import AmpMarkup.Text.Space
import AmpMarkup.Vocabulary

/-! Reading HTML markup as tokens. The reader is a machine whose state holds the unfinished token;
a step takes at least one character, so reading ends with the input, and the end of the input
settles what becomes of an unfinished token. A tag that the input cuts off is dropped, a comment
or a document type is kept. -/

namespace AmpMarkup.Html

/-- How characters between tags are read. Inside an element of plain text nothing is markup but the
end tag of that element, and `references` says whether character references are resolved. -/
inductive Reading where
  | markup
  | plain (references : Bool) (element : Text)
deriving DecidableEq, Repr, Inhabited

/-- A tag whose end has not been reached. -/
structure TagDraft where
  isEnd : Bool
  name : Text
  attributes : List Attribute
deriving DecidableEq, Repr, Inhabited

/-- How the value of an attribute is delimited. -/
inductive Quoting where
  | double
  | single
  | unquoted
deriving DecidableEq, Repr, Inhabited

/-- What has been read of the current token. -/
inductive State where
  | content (reading : Reading)
  | tagOpen
  | endTagOpen
  | plainLessThan (references : Bool) (element : Text)
  | plainEndTagOpen (references : Bool) (element : Text)
  | plainEndTagName (references : Bool) (element written : Text)
  | tagName (tag : TagDraft)
  | beforeAttribute (tag : TagDraft)
  | attributeName (tag : TagDraft) (name : Text)
  | afterAttributeName (tag : TagDraft) (name : Text)
  | beforeValue (tag : TagDraft) (name : Text)
  | inValue (quoting : Quoting) (tag : TagDraft) (name value : Text)
  | afterQuotedValue (tag : TagDraft)
  | solidus (tag : TagDraft)
  | bogusComment (data : Text)
  | commentStart
  | commentStartDash
  | comment (data : Text)
  | commentDash (data : Text)
  | commentEnd (data : Text)
  | commentBang (data : Text)
  | beforeDoctypeName
  | doctypeName (name : Text)
  | afterDoctypeName (name : Text)
deriving DecidableEq, Repr, Inhabited

/-- The outcome of a step: the tokens that it completes, the state after it and the text left. -/
structure Step where
  tokens : List Token
  state : State
  rest : Text
deriving DecidableEq, Repr, Inhabited

namespace TagDraft

/-- The tag with one more attribute. The first attribute of a name stands, later ones are
dropped. -/
def add (tag : TagDraft) (name : Text) (value : Option Text) : TagDraft :=
  if tag.attributes.any (·.name == name) then tag
  else { tag with attributes := tag.attributes ++ [⟨name, value⟩] }

/-- How the text after a start tag is read. -/
def readingAfter (name : Text) : Reading :=
  if Vocabulary.isEscapableText name then .plain true name
  else if Vocabulary.isRawText name then .plain false name
  else .markup

/-- The finished tag. Attributes of an end tag are dropped. -/
def finish (tag : TagDraft) (selfClosing : Bool) (rest : Text) : Step :=
  if tag.isEnd then ⟨[.endTag tag.name], .content .markup, rest⟩
  else ⟨[.startTag tag.name tag.attributes selfClosing], .content (readingAfter tag.name), rest⟩

end TagDraft

namespace Step

/-- A step that completes no token. -/
def goto (state : State) (rest : Text) : Step :=
  ⟨[], state, rest⟩

/-- The step with text completed before its own tokens. -/
def withText (before : Text) (s : Step) : Step :=
  { s with tokens := before.map .character ++ s.tokens }

/-- Character `c` between tags, with `rest` after it. -/
def content (reading : Reading) (c : Char) (rest : Text) : Step :=
  match reading with
  | .markup =>
    if c = '<' then goto .tagOpen rest
    else if c = '&' then
      match CharacterReference.read? false rest with
      | some (d, rest) => ⟨[.character d], .content .markup, rest⟩
      | none => ⟨[.character '&'], .content .markup, rest⟩
    else ⟨[.character c], .content .markup, rest⟩
  | .plain references element =>
    if c = '<' then goto (.plainLessThan references element) rest
    else if c = '&' ∧ references then
      match CharacterReference.read? false rest with
      | some (d, rest) => ⟨[.character d], .content reading, rest⟩
      | none => ⟨[.character '&'], .content reading, rest⟩
    else if c = '\x00' then ⟨[.character replacement], .content reading, rest⟩
    else ⟨[.character c], .content reading, rest⟩

/-- What follows `<!`: a comment, a document type, or a bogus comment. -/
def declaration (rest : Text) : Step :=
  match Text.after? "--" rest with
  | some rest => goto .commentStart rest
  | none =>
    match Text.afterIgnoringCase? "doctype" rest with
    | some rest => goto .beforeDoctypeName rest
    | none =>
      match Text.after? "[CDATA[" rest with
      | some rest => goto (.bogusComment "[CDATA[") rest
      | none => goto (.bogusComment []) rest

/-- Character `c` of a comment with `data` before it. -/
def comment (data : Text) (c : Char) (rest : Text) : Step :=
  if c = '-' then goto (.commentDash data) rest
  else if c = '\x00' then goto (.comment (data ++ [replacement])) rest
  else goto (.comment (data ++ [c])) rest

/-- Character `c` of a bogus comment with `data` before it. -/
def bogusComment (data : Text) (c : Char) (rest : Text) : Step :=
  if c = '>' then ⟨[.comment data], .content .markup, rest⟩
  else if c = '\x00' then goto (.bogusComment (data ++ [replacement])) rest
  else goto (.bogusComment (data ++ [c])) rest

/-- Character `c` where an attribute may start. Any character that neither ends the tag nor is a
space starts an attribute, an equals sign too. -/
def beforeAttribute (tag : TagDraft) (c : Char) (rest : Text) : Step :=
  if isSpace c then goto (.beforeAttribute tag) rest
  else if c = '/' then goto (.solidus tag) rest
  else if c = '>' then tag.finish false rest
  else goto (.attributeName tag [c.toLower]) rest

/-- Character `c` of a value with `value` before it, where `closed` says whether it ends there. -/
def valueCharacter (quoting : Quoting) (tag : TagDraft) (name value : Text) (c : Char)
    (rest : Text) : Step :=
  if c = '&' then
    match CharacterReference.read? true rest with
    | some (d, rest) => goto (.inValue quoting tag name (value ++ [d])) rest
    | none => goto (.inValue quoting tag name (value ++ ['&'])) rest
  else goto (.inValue quoting tag name (value ++ [c])) rest

/-- Character `c` of a value without quotes. -/
def unquotedValue (tag : TagDraft) (name value : Text) (c : Char) (rest : Text) : Step :=
  if isSpace c then goto (.beforeAttribute (tag.add name (some value))) rest
  else if c = '>' then (tag.add name (some value)).finish false rest
  else valueCharacter .unquoted tag name value c rest

end Step

namespace State

/-- One step of reading: character `c` with `rest` after it. -/
def step (state : State) (c : Char) (rest : Text) : Step :=
  match state with
  | .content reading => .content reading c rest
  | .tagOpen =>
    if c = '!' then .declaration rest
    else if c = '/' then .goto .endTagOpen rest
    else if c.isAlpha then .goto (.tagName ⟨false, [c.toLower], []⟩) rest
    else if c = '?' then .bogusComment [] c rest
    else (Step.content .markup c rest).withText "<"
  | .endTagOpen =>
    if c.isAlpha then .goto (.tagName ⟨true, [c.toLower], []⟩) rest
    else if c = '>' then .goto (.content .markup) rest
    else .bogusComment [] c rest
  | .plainLessThan references element =>
    if c = '/' then .goto (.plainEndTagOpen references element) rest
    else (Step.content (.plain references element) c rest).withText "<"
  | .plainEndTagOpen references element =>
    if c.isAlpha then .goto (.plainEndTagName references element [c]) rest
    else (Step.content (.plain references element) c rest).withText "</"
  | .plainEndTagName references element written =>
    let tag : TagDraft := ⟨true, element, []⟩
    if isSpace c ∧ written.lower = element then .goto (.beforeAttribute tag) rest
    else if c = '/' ∧ written.lower = element then .goto (.solidus tag) rest
    else if c = '>' ∧ written.lower = element then tag.finish false rest
    else if c.isAlpha then .goto (.plainEndTagName references element (written ++ [c])) rest
    else (Step.content (.plain references element) c rest).withText ('<' :: '/' :: written)
  | .tagName tag =>
    if isSpace c then .goto (.beforeAttribute tag) rest
    else if c = '/' then .goto (.solidus tag) rest
    else if c = '>' then tag.finish false rest
    else .goto (.tagName { tag with name := tag.name ++ [c.toLower] }) rest
  | .beforeAttribute tag => .beforeAttribute tag c rest
  | .attributeName tag name =>
    if isSpace c then .goto (.afterAttributeName tag name) rest
    else if c = '/' then .goto (.solidus (tag.add name none)) rest
    else if c = '>' then (tag.add name none).finish false rest
    else if c = '=' then .goto (.beforeValue tag name) rest
    else .goto (.attributeName tag (name ++ [c.toLower])) rest
  | .afterAttributeName tag name =>
    if isSpace c then .goto (.afterAttributeName tag name) rest
    else if c = '/' then .goto (.solidus (tag.add name none)) rest
    else if c = '=' then .goto (.beforeValue tag name) rest
    else if c = '>' then (tag.add name none).finish false rest
    else .goto (.attributeName (tag.add name none) [c.toLower]) rest
  | .beforeValue tag name =>
    if isSpace c then .goto (.beforeValue tag name) rest
    else if c = '"' then .goto (.inValue .double tag name []) rest
    else if c = '\'' then .goto (.inValue .single tag name []) rest
    else if c = '>' then (tag.add name (some [])).finish false rest
    else .unquotedValue tag name [] c rest
  | .inValue .double tag name value =>
    if c = '"' then .goto (.afterQuotedValue (tag.add name (some value))) rest
    else .valueCharacter .double tag name value c rest
  | .inValue .single tag name value =>
    if c = '\'' then .goto (.afterQuotedValue (tag.add name (some value))) rest
    else .valueCharacter .single tag name value c rest
  | .inValue .unquoted tag name value => .unquotedValue tag name value c rest
  | .afterQuotedValue tag => .beforeAttribute tag c rest
  | .solidus tag =>
    if c = '>' then tag.finish true rest else .beforeAttribute tag c rest
  | .bogusComment data => .bogusComment data c rest
  | .commentStart =>
    if c = '-' then .goto .commentStartDash rest
    else if c = '>' then ⟨[.comment []], .content .markup, rest⟩
    else .comment [] c rest
  | .commentStartDash =>
    if c = '-' then .goto (.commentEnd []) rest
    else if c = '>' then ⟨[.comment []], .content .markup, rest⟩
    else .comment "-" c rest
  | .comment data => .comment data c rest
  | .commentDash data =>
    if c = '-' then .goto (.commentEnd data) rest else .comment (data ++ "-") c rest
  | .commentEnd data =>
    if c = '>' then ⟨[.comment data], .content .markup, rest⟩
    else if c = '!' then .goto (.commentBang data) rest
    else if c = '-' then .goto (.commentEnd (data ++ "-")) rest
    else .comment (data ++ "--") c rest
  | .commentBang data =>
    if c = '-' then .goto (.commentDash (data ++ "--!")) rest
    else if c = '>' then ⟨[.comment data], .content .markup, rest⟩
    else .comment (data ++ "--!") c rest
  | .beforeDoctypeName =>
    if isSpace c then .goto .beforeDoctypeName rest
    else if c = '>' then ⟨[.doctype none], .content .markup, rest⟩
    else .goto (.doctypeName [c.toLower]) rest
  | .doctypeName name =>
    if isSpace c then .goto (.afterDoctypeName name) rest
    else if c = '>' then ⟨[.doctype (some name)], .content .markup, rest⟩
    else .goto (.doctypeName (name ++ [c.toLower])) rest
  | .afterDoctypeName name =>
    if c = '>' then ⟨[.doctype (some name)], .content .markup, rest⟩
    else .goto (.afterDoctypeName name) rest

/-- What the end of the input makes of an unfinished token. -/
def finish : State → List Token
  | .tagOpen => [.character '<']
  | .endTagOpen => ("</" : Text).map .character
  | .plainLessThan .. => [.character '<']
  | .plainEndTagOpen .. => ("</" : Text).map .character
  | .plainEndTagName _ _ written => ('<' :: '/' :: written).map .character
  | .bogusComment data => [.comment data]
  | .commentStart => [.comment []]
  | .commentStartDash => [.comment []]
  | .comment data => [.comment data]
  | .commentDash data => [.comment data]
  | .commentEnd data => [.comment data]
  | .commentBang data => [.comment data]
  | .beforeDoctypeName => [.doctype none]
  | .doctypeName name => [.doctype (some name)]
  | .afterDoctypeName name => [.doctype (some name)]
  | _ => []

end State

theorem TagDraft.finish_rest (tag : TagDraft) (selfClosing : Bool) (rest : Text) :
    (tag.finish selfClosing rest).rest = rest := by
  unfold TagDraft.finish
  split <;> rfl

theorem Step.content_length_le (reading : Reading) (c : Char) (rest : Text) :
    (Step.content reading c rest).rest.length ≤ rest.length := by
  unfold Step.content
  repeat' split
  all_goals first
    | exact Nat.le_refl _
    | (next h => exact CharacterReference.read?_length_le h)

theorem Step.declaration_length_le (rest : Text) :
    (Step.declaration rest).rest.length ≤ rest.length := by
  unfold Step.declaration
  split
  · next h => exact Text.after?_length h ▸ Nat.le_add_right _ _
  · split
    · next h => exact Text.afterIgnoringCase?_length h ▸ Nat.le_add_right _ _
    · split
      · next h => exact Text.after?_length h ▸ Nat.le_add_right _ _
      · exact Nat.le_refl _

theorem Step.comment_rest (data : Text) (c : Char) (rest : Text) :
    (Step.comment data c rest).rest = rest := by
  unfold Step.comment
  repeat' split
  all_goals rfl

theorem Step.bogusComment_rest (data : Text) (c : Char) (rest : Text) :
    (Step.bogusComment data c rest).rest = rest := by
  unfold Step.bogusComment
  repeat' split
  all_goals rfl

theorem Step.beforeAttribute_rest (tag : TagDraft) (c : Char) (rest : Text) :
    (Step.beforeAttribute tag c rest).rest = rest := by
  unfold Step.beforeAttribute
  repeat' split
  all_goals first | rfl | exact TagDraft.finish_rest ..

theorem Step.valueCharacter_length_le (quoting : Quoting) (tag : TagDraft) (name value : Text)
    (c : Char) (rest : Text) :
    (Step.valueCharacter quoting tag name value c rest).rest.length ≤ rest.length := by
  unfold Step.valueCharacter
  split
  · split
    · next h => exact CharacterReference.read?_length_le h
    · exact Nat.le_refl _
  · exact Nat.le_refl _

theorem Step.unquotedValue_length_le (tag : TagDraft) (name value : Text) (c : Char)
    (rest : Text) : (Step.unquotedValue tag name value c rest).rest.length ≤ rest.length := by
  unfold Step.unquotedValue
  split
  · exact Nat.le_refl _
  · split
    · exact Nat.le_of_eq (congrArg List.length (TagDraft.finish_rest ..))
    · exact Step.valueCharacter_length_le ..

/-- A step leaves at most the text after its character. -/
theorem State.step_length_le (state : State) (c : Char) (rest : Text) :
    (state.step c rest).rest.length ≤ rest.length := by
  unfold State.step
  repeat' split
  all_goals first
    | exact Nat.le_refl _
    | exact Step.content_length_le ..
    | exact Step.declaration_length_le ..
    | exact Step.valueCharacter_length_le ..
    | exact Step.unquotedValue_length_le ..
    | (simp only [TagDraft.finish_rest, Step.comment_rest, Step.bogusComment_rest,
        Step.beforeAttribute_rest, Nat.le_refl])

namespace State

/-- The tokens of a text that is read from a state, with the end of the input as the last one. -/
def tokens (state : State) : Text → List Token
  | [] => state.finish ++ [.endOfFile]
  | c :: rest =>
    (state.step c rest).tokens ++ (state.step c rest).state.tokens (state.step c rest).rest
termination_by t => t.length
decreasing_by exact Nat.lt_succ_of_le (step_length_le state c rest)

end State

/-- The tokens of a text. -/
def Token.ofText (t : Text) : List Token :=
  (State.content .markup).tokens t

end AmpMarkup.Html
