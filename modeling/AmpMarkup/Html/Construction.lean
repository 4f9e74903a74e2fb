import AmpMarkup.Html.Builder
import AmpMarkup.Html.Lexer

/-! Building the document tree from tokens. The rules of the current mode handle a token or hand it
on to the rules of another phase. Each handing on lowers a rank, so every token is settled after at
most eight of them. -/

namespace AmpMarkup.Html

open Dom (Tree)

/-- What the rules of one mode do with a token: they settle it, or they pass it to a phase. -/
inductive Outcome where
  | settled (b : Builder)
  | passed (next : Phase) (b : Builder)

namespace Builder

/-- A second `html` start tag adds its attributes to the document element. -/
def htmlAgain (b : Builder) (attributes : List Attribute) : Builder :=
  (b.note .unexpectedHtml).merge b.outermost? attributes

/-- A second `body` start tag adds its attributes to the body, if that is the element opened right
after the document element. -/
def bodyAgain (b : Builder) (attributes : List Attribute) : Builder :=
  let body := b.openElements.reverse[1]?.filter fun id => b.tree.tag? id == some "body".toList
  (b.note .unexpectedBody).merge body attributes

/-- An element that belongs to the head; plain text in it is read up to its end tag. -/
def insertHeadContent (b : Builder) (phase : Phase) (tag : Text) (attributes : List Attribute) :
    Builder :=
  if Category.headLeaves.contains tag then b.insertLeaf tag attributes
  else if Category.headTexts.contains tag then (b.insertElement tag attributes).enterText phase
  else b.insertElement tag attributes

/-- An element of the head that comes after the head's end is still put into the head. -/
def insertLateHeadContent (b : Builder) (tag : Text) (attributes : List Attribute) : Builder :=
  let noted := b.note (.lateHeadContent tag)
  match b.head with
  | none => noted
  | some head =>
    let inserted := { noted with openElements := head :: noted.openElements }.insertHeadContent
      .afterHead tag attributes
    { inserted with openElements := inserted.openElements.filter (· != head) }

/-- Opens the head. -/
def insertHead (b : Builder) (attributes : List Attribute) : Builder :=
  { b.insertElement "head" attributes with head := some b.tree.size }

/-- Before anything of the document. -/
def initialRules (b : Builder) : Token → Outcome
  | .character c => if isSpace c then .settled b else .passed .beforeHtml b
  | .comment data => .settled (b.insertComment Tree.root data)
  | .doctype name =>
    .settled ((b.insertBelow Tree.root (.doctype (name.getD []))).enter .beforeHtml)
  | _ => .passed .beforeHtml b

/-- Before the document element. -/
def beforeHtmlRules (b : Builder) (t : Token) : Outcome :=
  let implied := Outcome.passed .beforeHead (b.insertElement "html" [])
  match t with
  | .doctype _ => .settled (b.note .unexpectedDoctype)
  | .comment data => .settled (b.insertComment Tree.root data)
  | .character c => if isSpace c then .settled b else implied
  | .startTag tag attributes _ =>
    if tag = "html".toList then .settled ((b.insertElement "html" attributes).enter .beforeHead)
    else implied
  | .endTag tag =>
    if Category.structural.contains tag then implied else .settled (b.note (.strayEndTag tag))
  | .endOfFile => implied

/-- Between the document element's start and the head. -/
def beforeHeadRules (b : Builder) (t : Token) : Outcome :=
  let implied := Outcome.passed .inHead (b.insertHead [])
  match t with
  | .doctype _ => .settled (b.note .unexpectedDoctype)
  | .comment data => .settled (b.insertComment b.current data)
  | .character c => if isSpace c then .settled b else implied
  | .startTag tag attributes _ =>
    if tag = "html".toList then .settled (b.htmlAgain attributes)
    else if tag = "head".toList then .settled ((b.insertHead attributes).enter .inHead)
    else implied
  | .endTag tag =>
    if Category.structural.contains tag then implied else .settled (b.note (.strayEndTag tag))
  | .endOfFile => implied

/-- In the head. A token that does not belong there ends it. -/
def inHeadRules (b : Builder) (t : Token) : Outcome :=
  let leave := Outcome.passed .afterHead (b.popThrough ["head"])
  match t with
  | .doctype _ => .settled (b.note .unexpectedDoctype)
  | .comment data => .settled (b.insertComment b.current data)
  | .character c => if isSpace c then .settled (b.insertCharacter c) else leave
  | .startTag tag attributes _ =>
    if tag = "html".toList then .settled (b.htmlAgain attributes)
    else if tag = "noscript".toList ∨ Category.headContent.contains tag then
      .settled (b.insertHeadContent .inHead tag attributes)
    else if tag = "head".toList then .settled (b.note .unexpectedHead)
    else leave
  | .endTag tag =>
    if tag = "head".toList then .settled ((b.popThrough ["head"]).enter .afterHead)
    else if (tag = "noscript".toList ∨ tag = "template".toList) ∧ b.openTags.contains tag then
      .settled (b.popThrough [tag])
    else if Category.structural.contains tag then leave
    else if Vocabulary.isVoid tag then .settled b
    else .settled (b.note (.strayEndTagInHead tag))
  | .endOfFile => leave

/-- Between the head and the body. -/
def afterHeadRules (b : Builder) (t : Token) : Outcome :=
  let implied := Outcome.passed .inBody (b.insertElement "body" [])
  match t with
  | .doctype _ => .settled (b.note .unexpectedDoctype)
  | .comment data => .settled (b.insertComment b.current data)
  | .character c => if isSpace c then .settled (b.insertCharacter c) else implied
  | .startTag tag attributes _ =>
    if tag = "html".toList then .settled (b.htmlAgain attributes)
    else if tag = "body".toList then .settled ((b.insertElement "body" attributes).enter .inBody)
    else if Category.headContent.contains tag then .settled (b.insertLateHeadContent tag attributes)
    else if tag = "head".toList then .settled (b.note .unexpectedHead)
    else implied
  | .endTag tag =>
    if tag ≠ "head".toList ∧ Category.structural.contains tag then implied
    else .settled (b.note (.strayEndTag tag))
  | .endOfFile => implied

/-- A start tag in the body. -/
def bodyStartTag (b : Builder) (tag : Text) (attributes : List Attribute) (selfClosing : Bool) :
    Builder :=
  if tag = "html".toList then b.htmlAgain attributes
  else if Category.headContent.contains tag then b.insertHeadContent .inBody tag attributes
  else if tag = "body".toList then b.bodyAgain attributes
  else if Category.headings.contains tag then
    let outside := b.endParagraph
    let beside :=
      if outside.currentTag?.any Category.headings.contains then
        (outside.note .nestedHeading).pop
      else outside
    beside.insertElement tag attributes
  else if tag = "li".toList then (b.endItem ["li"]).insertElement tag attributes
  else if tag = "dd".toList ∨ tag = "dt".toList then
    (b.endItem ["dd", "dt"]).insertElement tag attributes
  else if tag = "button".toList then
    let outside :=
      if b.hasInScope "button" [] then
        ((b.note .nestedButton).closeImplied none).popThrough ["button"]
      else b
    outside.insertElement tag attributes
  else if tag = "option".toList then
    (if b.currentTag? = some "option".toList then b.pop else b).insertElement tag attributes
  else if tag = "hr".toList then b.endParagraph.insertLeaf tag attributes
  else if tag = "image".toList then (b.note .imageTag).insertLeaf "img" attributes
  else if Vocabulary.isVoid tag then b.insertLeaf tag attributes
  else if Category.bodyTexts.contains tag then
    (b.insertElement tag attributes).enterText .inBody
  else if tag = "xmp".toList then
    (b.endParagraph.insertElement tag attributes).enterText .inBody
  else if Category.endsParagraph.contains tag then
    let inserted := b.endParagraph.insertElement tag attributes
    if tag = "plaintext".toList then inserted.enterText .inBody else inserted
  else
    let inserted := b.insertElement tag attributes
    if selfClosing ∧ inserted.inForeign then inserted.pop else inserted

/-- An end tag in the body. `</html>` stands for `</body>` with itself after it. -/
def bodyEndTag (b : Builder) (tag : Text) : Outcome :=
  if tag = "body".toList then
    if b.hasInScope "body" [] then .settled (b.enter .afterBody)
    else .settled (b.note (.notOpen tag "body"))
  else if tag = "html".toList then
    if b.hasInScope "body" [] then .passed .afterBody b
    else .settled (b.note (.notOpen tag "body"))
  else if tag = "p".toList then
    let opened := if b.hasParagraph then b else (b.note (.notOpen tag "p")).insertElement "p" []
    .settled opened.closeParagraph
  else if tag = "li".toList then
    if b.hasInScope "li" ["ol", "ul"] then
      .settled ((b.closeImplied (some "li")).popThrough ["li"])
    else .settled (b.note (.notOpen tag "li"))
  else if tag = "dd".toList ∨ tag = "dt".toList then
    if b.hasInScope tag [] then .settled ((b.closeImplied (some tag)).popThrough [tag])
    else .settled (b.note (.notOpen tag "element"))
  else if Category.headings.contains tag then
    if Category.headings.any (b.hasInScope · []) then
      .settled ((b.closeImplied none).popThrough Category.headings)
    else .settled (b.note (.notOpen tag "heading"))
  else if Category.blocks.contains tag then
    if b.hasInScope tag [] then .settled ((b.closeImplied none).popThrough [tag])
    else .settled (b.note (.notOpen tag "element"))
  else if Vocabulary.isVoid tag then .settled b
  else .settled (b.closeMatching tag b.openElements)

/-- In the body. -/
def inBodyRules (b : Builder) : Token → Outcome
  | .doctype _ => .settled (b.note .unexpectedDoctype)
  | .comment data => .settled (b.insertComment b.current data)
  | .character c =>
    if c = '\x00' then .settled (b.note .nullCharacter) else .settled (b.insertCharacter c)
  | .startTag tag attributes selfClosing => .settled (b.bodyStartTag tag attributes selfClosing)
  | .endTag tag => b.bodyEndTag tag
  | .endOfFile => .settled { b with stopped := true }

/-- Inside an element of plain text: any token but a character ends it. -/
def plainTextRules (b : Builder) (resume : Phase) : Token → Outcome
  | .character c => .settled (b.insertCharacter c)
  | .endOfFile => .passed resume (b.note .endInsideText).pop
  | _ => .settled (b.pop.enter resume)

/-- After the body. Anything but blanks, comments and the end reopens the body. -/
def afterBodyRules (b : Builder) (t : Token) : Outcome :=
  let reopen := Outcome.passed .inBody (b.note .contentAfterBody)
  match t with
  | .doctype _ => .settled (b.note .unexpectedDoctype)
  | .comment data => .settled (b.insertComment (b.outermost?.getD Tree.root) data)
  | .character c => if isSpace c then .settled (b.insertCharacter c) else reopen
  | .startTag tag attributes _ =>
    if tag = "html".toList then .settled (b.htmlAgain attributes) else reopen
  | .endTag tag => if tag = "html".toList then .settled (b.enter .afterAfterBody) else reopen
  | .endOfFile => .settled { b with stopped := true }

/-- After the document element. -/
def afterAfterBodyRules (b : Builder) (t : Token) : Outcome :=
  let reopen := Outcome.passed .inBody (b.note .contentAfterHtml)
  match t with
  | .doctype _ => .settled (b.note .unexpectedDoctype)
  | .comment data => .settled (b.insertComment Tree.root data)
  | .character c => if isSpace c then .settled (b.insertCharacter c) else reopen
  | .startTag tag attributes _ =>
    if tag = "html".toList then .settled (b.htmlAgain attributes) else reopen
  | .endTag _ => reopen
  | .endOfFile => .settled { b with stopped := true }

/-- The rules of the current mode. -/
def rules (b : Builder) (t : Token) : Outcome :=
  match b.mode with
  | .phase .initial => b.initialRules t
  | .phase .beforeHtml => b.beforeHtmlRules t
  | .phase .beforeHead => b.beforeHeadRules t
  | .phase .inHead => b.inHeadRules t
  | .phase .afterHead => b.afterHeadRules t
  | .phase .inBody => b.inBodyRules t
  | .phase .afterBody => b.afterBodyRules t
  | .phase .afterAfterBody => b.afterAfterBodyRules t
  | .plainText resume => b.plainTextRules resume t

end Builder

/-- How often at most the rules of a phase and those after it can still pass a token on. `</html>`
goes from the body to the phase after it, any other token the other way. -/
def Phase.rank (t : Token) : Phase → Nat
  | .initial => 7
  | .beforeHtml => 6
  | .beforeHead => 5
  | .inHead => 4
  | .afterHead => 3
  | .afterAfterBody => 3
  | .inBody => 1
  | .afterBody => if t = .endTag "html" then 0 else 2

/-- How often at most a token can still be passed on. -/
def Mode.rank (t : Token) : Mode → Nat
  | .phase p => p.rank t
  | .plainText _ => 8

/-- The phase that the rules of a mode pass a token on to, if they do not settle it. -/
def Mode.successor? (t : Token) : Mode → Option Phase
  | .phase .initial => some .beforeHtml
  | .phase .beforeHtml => some .beforeHead
  | .phase .beforeHead => some .inHead
  | .phase .inHead => some .afterHead
  | .phase .afterHead => some .inBody
  | .phase .inBody => if t = .endTag "html" then some .afterBody else none
  | .phase .afterBody => if t = .endTag "html" then none else some .inBody
  | .phase .afterAfterBody => some .inBody
  | .plainText resume => if t = .endOfFile then some resume else none

/-- A token is settled, or passed on to a phase. -/
def Outcome.PassesTo (p : Option Phase) : Outcome → Prop
  | .settled _ => True
  | .passed next _ => p = some next

theorem Phase.rank_lt (t : Token) (p : Phase) : p.rank t < 8 := by
  cases p <;> simp only [Phase.rank] <;> (try split) <;> decide

theorem Mode.rank_lt_of_successor? {t : Token} {m : Mode} {next : Phase}
    (h : m.successor? t = some next) : next.rank t < m.rank t := by
  cases m with
  | plainText resume => exact next.rank_lt t
  | phase p =>
    cases p with
    | inBody =>
      obtain ⟨rfl, rfl⟩ : t = .endTag "html" ∧ .afterBody = next := by simpa [successor?] using h
      decide
    | afterBody =>
      obtain ⟨ht, rfl⟩ : t ≠ .endTag "html" ∧ .inBody = next := by simpa [successor?] using h
      simp only [rank, Phase.rank, if_neg ht]
      decide
    | initial | beforeHtml | beforeHead | inHead | afterHead | afterAfterBody =>
      cases h
      simp only [rank, Phase.rank]
      decide

namespace Builder

variable {b b' : Builder} {t : Token} {next : Phase}

theorem initialRules_passesTo (b : Builder) (t : Token) :
    (b.initialRules t).PassesTo (some .beforeHtml) := by
  cases t with
  | doctype | comment => exact trivial
  | character c => exact iteInduction (fun _ => trivial) fun _ => rfl
  | startTag | endTag | endOfFile => exact rfl

theorem beforeHtmlRules_passesTo (b : Builder) (t : Token) :
    (b.beforeHtmlRules t).PassesTo (some .beforeHead) := by
  cases t with
  | doctype | comment => exact trivial
  | character | startTag => exact iteInduction (fun _ => trivial) fun _ => rfl
  | endTag tag => exact iteInduction (fun _ => rfl) fun _ => trivial
  | endOfFile => exact rfl

theorem beforeHeadRules_passesTo (b : Builder) (t : Token) :
    (b.beforeHeadRules t).PassesTo (some .inHead) := by
  cases t with
  | doctype | comment => exact trivial
  | character c => exact iteInduction (fun _ => trivial) fun _ => rfl
  | startTag tag attributes selfClosing =>
    exact iteInduction (fun _ => trivial) fun _ => iteInduction (fun _ => trivial) fun _ => rfl
  | endTag tag => exact iteInduction (fun _ => rfl) fun _ => trivial
  | endOfFile => exact rfl

theorem inHeadRules_passesTo (b : Builder) (t : Token) :
    (b.inHeadRules t).PassesTo (some .afterHead) := by
  cases t with
  | doctype | comment => exact trivial
  | character c => exact iteInduction (fun _ => trivial) fun _ => rfl
  | startTag tag attributes selfClosing =>
    refine iteInduction (fun _ => trivial) fun _ => iteInduction (fun _ => trivial) fun _ => ?_
    exact iteInduction (fun _ => trivial) fun _ => rfl
  | endTag tag =>
    refine iteInduction (fun _ => trivial) fun _ => iteInduction (fun _ => trivial) fun _ => ?_
    refine iteInduction (fun _ => rfl) fun _ => ?_
    exact iteInduction (fun _ => trivial) fun _ => trivial
  | endOfFile => exact rfl

theorem afterHeadRules_passesTo (b : Builder) (t : Token) :
    (b.afterHeadRules t).PassesTo (some .inBody) := by
  cases t with
  | doctype | comment => exact trivial
  | character c => exact iteInduction (fun _ => trivial) fun _ => rfl
  | startTag tag attributes selfClosing =>
    refine iteInduction (fun _ => trivial) fun _ => iteInduction (fun _ => trivial) fun _ => ?_
    exact iteInduction (fun _ => trivial) fun _ => iteInduction (fun _ => trivial) fun _ => rfl
  | endTag tag => exact iteInduction (fun _ => rfl) fun _ => trivial
  | endOfFile => exact rfl

theorem bodyEndTag_passesTo (b : Builder) (tag : Text) :
    (b.bodyEndTag tag).PassesTo (if tag = "html".toList then some .afterBody else none) := by
  have hsettle : ∀ (p : Prop) [Decidable p] c c' q,
      (if p then Outcome.settled c else .settled c').PassesTo q := fun _ _ _ _ _ =>
    iteInduction (fun _ => trivial) fun _ => trivial
  unfold bodyEndTag
  refine iteInduction (fun _ => hsettle ..) fun _ => ?_
  refine iteInduction (fun h => iteInduction (fun _ => if_pos h) fun _ => trivial) fun _ => ?_
  refine iteInduction (fun _ => trivial) fun _ => iteInduction (fun _ => hsettle ..) fun _ => ?_
  refine iteInduction (fun _ => hsettle ..) fun _ => iteInduction (fun _ => hsettle ..) fun _ => ?_
  exact iteInduction (fun _ => hsettle ..) fun _ => hsettle ..

theorem inBodyRules_passesTo (b : Builder) (t : Token) :
    (b.inBodyRules t).PassesTo (Mode.successor? t (.phase .inBody)) := by
  cases t with
  | doctype | comment | startTag | endOfFile => exact trivial
  | character c => exact iteInduction (fun _ => trivial) fun _ => trivial
  | endTag tag =>
    simp only [Mode.successor?, Token.endTag.injEq]
    exact b.bodyEndTag_passesTo tag

theorem afterBodyRules_passesTo (b : Builder) (t : Token) :
    (b.afterBodyRules t).PassesTo (Mode.successor? t (.phase .afterBody)) := by
  cases t with
  | doctype | comment | endOfFile => exact trivial
  | character | startTag => exact iteInduction (fun _ => trivial) fun _ => rfl
  | endTag tag =>
    refine iteInduction (fun _ => trivial) fun h => ?_
    exact if_neg fun htag => h (Token.endTag.inj htag)

theorem afterAfterBodyRules_passesTo (b : Builder) (t : Token) :
    (b.afterAfterBodyRules t).PassesTo (some .inBody) := by
  cases t with
  | doctype | comment | endOfFile => exact trivial
  | character | startTag => exact iteInduction (fun _ => trivial) fun _ => rfl
  | endTag tag => exact rfl

theorem plainTextRules_passesTo (b : Builder) (resume : Phase) (t : Token) :
    (b.plainTextRules resume t).PassesTo (Mode.successor? t (.plainText resume)) := by
  cases t with
  | endOfFile => exact rfl
  | doctype | startTag | endTag | comment | character => exact trivial

theorem rules_passesTo (b : Builder) (t : Token) :
    (b.rules t).PassesTo (b.mode.successor? t) := by
  unfold rules
  split <;> rename_i hm <;> rw [hm]
  · exact b.initialRules_passesTo t
  · exact b.beforeHtmlRules_passesTo t
  · exact b.beforeHeadRules_passesTo t
  · exact b.inHeadRules_passesTo t
  · exact b.afterHeadRules_passesTo t
  · exact b.inBodyRules_passesTo t
  · exact b.afterBodyRules_passesTo t
  · exact b.afterAfterBodyRules_passesTo t
  · exact b.plainTextRules_passesTo _ t

theorem successor?_of_passed (h : b.rules t = .passed next b') :
    b.mode.successor? t = some next := by
  have hp := b.rules_passesTo t
  rwa [h] at hp

/-- Passing a token on lowers the rank. -/
theorem rules_rank (h : b.rules t = .passed next b') : next.rank t < b.mode.rank t :=
  Mode.rank_lt_of_successor? (successor?_of_passed h)

/-- Settles a token. -/
def process (b : Builder) (t : Token) : Builder :=
  match _h : b.rules t with
  | .settled b => b
  | .passed next b => (b.enter next).process t
termination_by b.mode.rank t
decreasing_by exact rules_rank _h

/-- Settles tokens in order until one of them stops the construction. -/
def run (b : Builder) : List Token → Builder
  | [] => b
  | t :: ts =>
    if b.stopped then b else { b.process t with position := b.position + 1 }.run ts

end Builder

/-- The document that a sequence of tokens describes, with the repairs that it took. -/
def construct (tokens : List Token) : Tree × List Issue :=
  let b := Builder.start.run tokens
  (b.tree, b.issues)

end AmpMarkup.Html
