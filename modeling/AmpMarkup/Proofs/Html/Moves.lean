import AmpMarkup.Proofs.Dom.TextOrder
import AmpMarkup.Proofs.Html.Completion

/-! What the rules of tree construction can do with a token. Whatever the mode, they go through moves
of a few kinds. An invariant of the construction is one that each kind of move keeps. -/

namespace AmpMarkup.Html

open Dom (Content Tree NodeId)

/-- What construction goes by: a document under construction without the repairs so far. -/
structure Frame where
  tree : Tree
  mode : Mode
  openElements : List NodeId
  head : Option NodeId
  stopped : Bool

def Builder.frame (b : Builder) : Frame :=
  ⟨b.tree, b.mode, b.openElements, b.head, b.stopped⟩

/-- The innermost of some open elements, the document if there is none. -/
def innermost (ids : List NodeId) : NodeId :=
  ids.head?.getD Tree.root

/-- The tag of an element with content other than text alone. -/
def Ordinary (tag : Text) : Prop :=
  Vocabulary.isVoid tag = false ∧ Vocabulary.isTextOnly tag = false

instance (tag : Text) : Decidable (Ordinary tag) :=
  inferInstanceAs (Decidable (_ ∧ _))

/-- Whether the rules of a phase may hand over to those of another one: the initial phase and the one
between head and body are not come back to. -/
def Phase.Leads (p p' : Phase) : Prop :=
  (p' = .initial → p = .initial) ∧ (p' = .afterHead → p = .afterHead)

/-- Whether the rules of a phase put elements below the innermost open one. -/
def Phase.Nests (p : Phase) : Prop :=
  p ≠ .initial ∧ p ≠ .afterHead

instance (p p' : Phase) : Decidable (p.Leads p') :=
  inferInstanceAs (Decidable (_ ∧ _))

instance (p : Phase) : Decidable p.Nests :=
  inferInstanceAs (Decidable (_ ∧ _))

theorem Phase.Leads.refl (p : Phase) : p.Leads p :=
  ⟨id, id⟩

/-- Where content of the head goes: between head and body it goes into the head. -/
inductive Place (head : Option NodeId) (ids : List NodeId) : Phase → NodeId → Prop where
  | inside {p : Phase} : p.Nests → Place head ids p (innermost ids)
  | late {h : NodeId} : head = some h → Place head ids .afterHead h

/-- An element as a start tag describes it. -/
def elementOf (tag : Text) (attributes : List Attribute) : Content :=
  .element ⟨tag, Attributes.empty.addAll attributes⟩

/-- What the rules can do for a token, with the text that it adds to the document. -/
inductive Move (t : Token) : Frame → Text → Frame → Prop where
  /-- Open elements are closed, and another phase may come. -/
  | close {tree : Tree} {p p' : Phase} {ids ids' : List NodeId} {head : Option NodeId} :
      ids'.Sublist ids → p.Leads p' →
      Move t ⟨tree, .phase p, ids, head, false⟩ [] ⟨tree, .phase p', ids', head, false⟩
  /-- The head is closed with everything in it. -/
  | endHead {tree : Tree} {inner outer : List NodeId} {h : NodeId} :
      Move t ⟨tree, .phase .inHead, inner ++ h :: outer, some h, false⟩ []
        ⟨tree, .phase .afterHead, outer, some h, false⟩
  /-- An element of plain text is closed. -/
  | endText {tree : Tree} {p : Phase} {top : NodeId} {ids : List NodeId} {head : Option NodeId} :
      Move t ⟨tree, .plainText p, top :: ids, head, false⟩ [] ⟨tree, .phase p, ids, head, false⟩
  | text {tree : Tree} {mode : Mode} {top : NodeId} {ids : List NodeId} {head : Option NodeId}
      {c : Char} : t = .character c →
      (isSpace c = true ∨ mode = .phase .inBody ∨ ∃ p, mode = .plainText p) →
      Move t ⟨tree, mode, top :: ids, head, false⟩ [c]
        ⟨tree.appendText top [c], mode, top :: ids, head, false⟩
  | comment {tree : Tree} {p : Phase} {ids : List NodeId} {head : Option NodeId} {parent : NodeId}
      (data : Text) : (parent = Tree.root ∨ parent ∈ ids) →
      Move t ⟨tree, .phase p, ids, head, false⟩ []
        ⟨(tree.alloc (.comment data)).append parent tree.size, .phase p, ids, head, false⟩
  /-- The document type, which comes before everything else. -/
  | doctype {tree : Tree} {ids : List NodeId} {head : Option NodeId} (name : Text) :
      Move t ⟨tree, .phase .initial, ids, head, false⟩ []
        ⟨(tree.alloc (.doctype name)).append Tree.root tree.size, .phase .beforeHtml, ids, head, false⟩
  /-- An open element gets attributes. -/
  | attributes {tree : Tree} {mode : Mode} {ids : List NodeId} {head : Option NodeId} {id : NodeId}
      (attributes : List Attribute) : id ∈ ids → Move t ⟨tree, mode, ids, head, false⟩ []
        ⟨tree.mapAttributes id (·.addAll attributes), mode, ids, head, false⟩
  /-- An element that is opened, which may be the head. -/
  | element {tree : Tree} {p p' : Phase} {ids : List NodeId} {head head' : Option NodeId}
      {tag : Text} (attributes : List Attribute) : Ordinary tag → p'.Nests →
      (head' = head ∨ head' = some tree.size) → Move t ⟨tree, .phase p, ids, head, false⟩ []
        ⟨(tree.alloc (elementOf tag attributes)).append (innermost ids) tree.size, .phase p',
          tree.size :: ids, head', false⟩
  /-- An element that is not opened. -/
  | leaf {tree : Tree} {p : Phase} {ids : List NodeId} {head : Option NodeId} {parent : NodeId}
      (tag : Text) (attributes : List Attribute) : Place head ids p parent →
      Move t ⟨tree, .phase p, ids, head, false⟩ []
        ⟨(tree.alloc (elementOf tag attributes)).append parent tree.size, .phase p, ids, head, false⟩
  | textElement {tree : Tree} {p : Phase} {ids : List NodeId} {head : Option NodeId}
      {parent : NodeId} {tag : Text} {attributes : List Attribute} {selfClosing : Bool} :
      t = .startTag tag attributes selfClosing → Vocabulary.isVoid tag = false →
      Vocabulary.isTextOnly tag = true → Place head ids p parent →
      Move t ⟨tree, .phase p, ids, head, false⟩ []
        ⟨(tree.alloc (elementOf tag attributes)).append parent tree.size, .plainText p,
          tree.size :: ids, head, false⟩
  /-- A `template` element that stays open between head and body. -/
  | lateTemplate {tree : Tree} {ids : List NodeId} {h : NodeId} (attributes : List Attribute) :
      t.isTemplateStart = true → Move t ⟨tree, .phase .afterHead, ids, some h, false⟩ []
        ⟨(tree.alloc (elementOf "template" attributes)).append h tree.size, .phase .afterHead,
          tree.size :: ids, some h, false⟩
  | stop {tree : Tree} {p : Phase} {ids : List NodeId} {head : Option NodeId} : t = .endOfFile →
      Move t ⟨tree, .phase p, ids, head, false⟩ [] ⟨tree, .phase p, ids, head, true⟩

/-- Moves one after another, with the text that they add. -/
inductive Moves (t : Token) : Frame → Text → Frame → Prop where
  | refl (f : Frame) : Moves t f [] f
  | step {f g k : Frame} {v w : Text} : Move t f v g → Moves t g w k → Moves t f (v ++ w) k

/-- What a token shows in a document: nothing, or a character that is no space. -/
def Token.visible (t : Token) : Text :=
  Text.nonBlank (t.character?.toList.filter (· != '\x00'))

/-- A token whose text goes into the document, with the one exception that shows: the character
U+0000 is text inside an element of plain text and nothing elsewhere. -/
def Token.Shows (t : Token) (mode : Mode) (w : Text) : Prop :=
  w.nonBlank = t.visible ∨ (∃ p, mode = .plainText p) ∧ t = .character '\x00'

variable {late : Bool} {t : Token} {p : Phase} {b c : Builder} {f g k : Frame} {v w : Text}
  {tag : Text} {attributes : List Attribute}

theorem Move.moves (h : Move t f w g) : Moves t f w g := by
  have hs := Moves.step h (.refl g)
  rwa [List.append_nil] at hs

theorem Moves.trans (h : Moves t f v g) (h' : Moves t g w k) : Moves t f (v ++ w) k := by
  induction h with
  | refl => exact h'
  | step hm _ ih =>
      rw [List.append_assoc]
      exact .step hm (ih h')

theorem Text.visible_singleton_of_isSpace {c : Char} (h : isSpace c = true) :
    Text.nonBlank [c] = [] := by
  simp [Text.nonBlank, h]

theorem Token.shows_nil_of_isSpace {c : Char} (h : isSpace c = true) (mode : Mode) :
    (Token.character c).Shows mode [] := by
  left
  have hc : c ≠ '\x00' := by
    rintro rfl
    cases h
  simp [Token.visible, Token.character?, hc, Text.nonBlank, h]

theorem Token.shows_nil_of_character? (h : t.character? = none) (mode : Mode) :
    t.Shows mode [] := by
  left
  rw [Token.visible, h]
  rfl

theorem Token.shows_singleton {c : Char} (h : c ≠ '\x00') (mode : Mode) :
    (Token.character c).Shows mode [c] := by
  left
  simp [Token.visible, Token.character?, h]

/-- The second builder is what moves for a token make of the first one. -/
def Builder.Becomes (b : Builder) (t : Token) (w : Text) (c : Builder) : Prop :=
  Moves t b.frame w c.frame

theorem Builder.Becomes.trans {d : Builder} (h : b.Becomes t v c) (h' : c.Becomes t w d) :
    b.Becomes t (v ++ w) d :=
  Moves.trans h h'

/-- What the rules of a mode do is put together from moves. A token that they pass on has added
nothing yet. -/
def Outcome.Moves (b : Builder) (t : Token) : Outcome → Prop
  | .settled b' => ∃ w, b.Becomes t w b' ∧ t.Shows b.mode w
  | .passed next b' => b.Becomes t [] (b'.enter next)

/-! ### Closing -/

/-- The second builder is the first one with some open elements closed. -/
structure Builder.Closes (b c : Builder) : Prop where
  tree : c.tree = b.tree
  mode : c.mode = b.mode
  head : c.head = b.head
  stopped : c.stopped = b.stopped
  openElements : c.openElements.Sublist b.openElements

namespace Builder.Closes

theorem refl (b : Builder) : b.Closes b :=
  ⟨rfl, rfl, rfl, rfl, .refl _⟩

theorem trans {d : Builder} (h : b.Closes c) (h' : c.Closes d) : b.Closes d where
  tree := h'.tree.trans h.tree
  mode := h'.mode.trans h.mode
  head := h'.head.trans h.head
  stopped := h'.stopped.trans h.stopped
  openElements := h'.openElements.trans h.openElements

theorem note (b : Builder) (cause : Cause) : b.Closes (b.note cause) :=
  ⟨rfl, rfl, rfl, rfl, .refl _⟩

theorem pop (b : Builder) : b.Closes b.pop :=
  ⟨rfl, rfl, rfl, rfl, List.tail_sublist _⟩

theorem popThrough (b : Builder) (tags : List Text) : b.Closes (b.popThrough tags) :=
  ⟨rfl, rfl, rfl, rfl, (List.tail_sublist _).trans (List.dropWhile_sublist _)⟩

theorem closeImplied (b : Builder) (except : Option Text) : b.Closes (b.closeImplied except) :=
  ⟨rfl, rfl, rfl, rfl, List.dropWhile_sublist _⟩

theorem closeElement (b : Builder) (except : Option Text) (tags : List Text) :
    b.Closes ((b.closeImplied except).popThrough tags) :=
  (closeImplied b except).trans (popThrough _ tags)

theorem closeParagraph (b : Builder) : b.Closes b.closeParagraph := by
  unfold Builder.closeParagraph
  dsimp only
  split
  · exact closeElement b _ _
  · exact ((closeImplied b _).trans (note _ _)).trans (popThrough _ _)

theorem endParagraph (b : Builder) : b.Closes b.endParagraph := by
  unfold Builder.endParagraph
  split
  · exact closeParagraph b
  · exact refl b

theorem endItem (b : Builder) (family : List Text) : b.Closes (b.endItem family) := by
  unfold Builder.endItem
  split
  · exact (closeElement b _ _).trans (endParagraph _)
  · exact endParagraph b

theorem closeMatching (tag : Text) {ids : List NodeId} (h : ids.Sublist b.openElements) :
    b.Closes (b.closeMatching tag ids) := by
  induction ids with
  | nil => exact refl b
  | cons id outer ih =>
      have houter := (List.sublist_cons_self id outer).trans h
      unfold Builder.closeMatching
      split
      · exact ih houter
      · refine iteInduction (fun _ => ?_) fun _ => iteInduction (fun _ => ?_) fun _ => ?_
        · exact ⟨rfl, rfl, rfl, rfl, houter⟩
        · exact note b _
        · exact ih houter

end Builder.Closes

/-! ### Moves of a builder -/

section
variable (hm : b.mode = .phase p) (hr : b.stopped = false)
include hm hr

theorem Builder.frame_eq : b.frame = ⟨b.tree, .phase p, b.openElements, b.head, false⟩ := by
  rw [Builder.frame, hm, hr]

namespace Builder.Closes

theorem moves (h : b.Closes c) : b.Becomes t [] c := by
  rw [Builder.Becomes, frame_eq hm hr, frame_eq (h.mode.trans hm) (h.stopped.trans hr), h.tree, h.head]
  exact (Move.close h.openElements (.refl p)).moves

theorem enter (h : b.Closes c) {p' : Phase} (hp : p.Leads p') :
    b.Becomes t [] (c.enter p') := by
  have hc : (c.enter p').frame = ⟨b.tree, .phase p', c.openElements, b.head, false⟩ := by
    rw [← h.tree, ← h.head, ← hr, ← h.stopped]
    rfl
  rw [Builder.Becomes, frame_eq hm hr, hc]
  exact (Move.close h.openElements hp).moves

/-- Elements are closed and one is opened. -/
theorem element (h : b.Closes c) (htag : Ordinary tag) (hp : p.Nests)
    (attributes : List Attribute) : b.Becomes t [] (c.insertElement tag attributes) := by
  have hc := frame_eq (h.mode.trans hm) (h.stopped.trans hr)
  have hn := frame_eq (b := c.insertElement tag attributes) (h.mode.trans hm) (h.stopped.trans hr)
  refine (h.moves hm hr).trans (w := []) ?_
  rw [Builder.Becomes, hc, hn]
  exact (Move.element attributes htag hp (.inl rfl)).moves

theorem leaf (h : b.Closes c) (tag : Text) (hp : p.Nests) (attributes : List Attribute) :
    b.Becomes t [] (c.insertLeaf tag attributes) := by
  have hc := frame_eq (h.mode.trans hm) (h.stopped.trans hr)
  have hn := frame_eq (b := c.insertLeaf tag attributes) (h.mode.trans hm) (h.stopped.trans hr)
  refine (h.moves hm hr).trans (w := []) ?_
  rw [Builder.Becomes, hc, hn]
  exact (Move.leaf tag attributes (.inside hp)).moves

/-- Elements are closed and one of plain text is opened. -/
theorem textElement (h : b.Closes c) {selfClosing : Bool}
    (ht : t = .startTag tag attributes selfClosing) (hv : Vocabulary.isVoid tag = false)
    (htag : Vocabulary.isTextOnly tag = true) (hp : p.Nests) :
    b.Becomes t [] ((c.insertElement tag attributes).enterText p) := by
  have hc := frame_eq (h.mode.trans hm) (h.stopped.trans hr)
  have hn : ((c.insertElement tag attributes).enterText p).frame =
      ⟨(c.insertElement tag attributes).tree, .plainText p, c.tree.size :: c.openElements, c.head,
        false⟩ := by
    rw [← hr, ← h.stopped]
    rfl
  refine (h.moves hm hr).trans (w := []) ?_
  rw [Builder.Becomes, hc, hn]
  exact (Move.textElement ht hv htag (.inside hp)).moves

end Builder.Closes

theorem Builder.becomes_merge {target : Option NodeId} (htarget : ∀ id ∈ target, id ∈ b.openElements)
    (attributes : List Attribute) : b.Becomes t [] (b.merge target attributes) := by
  cases target with
  | none => exact .refl _
  | some id =>
      have hn := frame_eq (b := b.merge (some id) attributes) hm hr
      rw [Builder.Becomes, frame_eq hm hr, hn]
      exact (Move.attributes attributes (htarget id rfl)).moves

theorem Builder.becomes_htmlAgain (attributes : List Attribute) :
    b.Becomes t [] (b.htmlAgain attributes) :=
  becomes_merge (b := b.note .unexpectedHtml) hm hr (fun _ hid => List.mem_of_getLast? hid) attributes

theorem Builder.becomes_bodyAgain (attributes : List Attribute) :
    b.Becomes t [] (b.bodyAgain attributes) := by
  refine becomes_merge (b := b.note .unexpectedBody) hm hr (fun id hid => ?_) attributes
  obtain ⟨hid, -⟩ := Option.filter_eq_some_iff.mp hid
  exact List.mem_reverse.mp (List.mem_of_getElem? hid)

theorem Builder.becomes_insertComment {parent : NodeId}
    (hparent : parent = Tree.root ∨ parent ∈ b.openElements) (data : Text) :
    b.Becomes t [] (b.insertComment parent data) := by
  have hn := frame_eq (b := b.insertComment parent data) hm hr
  rw [Builder.Becomes, frame_eq hm hr, hn]
  exact (Move.comment data hparent).moves

theorem Builder.becomes_insertCharacter {ch : Char} (hne : b.openElements ≠ [])
    (hc : isSpace ch = true ∨ p = .inBody) :
    b.Becomes (.character ch) [ch] (b.insertCharacter ch) := by
  have hn := frame_eq (b := b.insertCharacter ch) hm hr
  rw [Builder.Becomes, frame_eq hm hr, hn]
  obtain ⟨top, ids, ho⟩ := List.exists_cons_of_ne_nil hne
  have htree : (b.insertCharacter ch).tree = b.tree.appendText top [ch] := by
    rw [insertCharacter, insertText, current, ho]
    rfl
  have hopen : (b.insertCharacter ch).openElements = top :: ids := ho
  rw [htree, hopen, ho]
  exact (Move.text rfl (hc.imp_right fun he => .inl (he ▸ rfl))).moves

/-- An element with which another phase begins. -/
theorem Builder.becomes_openElement {p' : Phase} (htag : Ordinary tag) (hp : p'.Nests)
    (attributes : List Attribute) :
    b.Becomes t [] ((b.insertElement tag attributes).enter p') := by
  have hn := frame_eq (b := (b.insertElement tag attributes).enter p') rfl hr
  rw [Builder.Becomes, frame_eq hm hr, hn]
  exact (Move.element attributes htag hp (.inl rfl)).moves

theorem Builder.becomes_insertHead (attributes : List Attribute) :
    b.Becomes t [] ((b.insertHead attributes).enter .inHead) := by
  have hn := frame_eq (b := (b.insertHead attributes).enter .inHead) rfl hr
  rw [Builder.Becomes, frame_eq hm hr, hn]
  exact (Move.element attributes (by decide) (by decide) (.inr rfl)).moves

end

theorem Builder.becomes_insertDoctype (hm : b.mode = .phase .initial) (hr : b.stopped = false)
    (name : Text) :
    b.Becomes t [] ((b.insertBelow Tree.root (.doctype name)).enter .beforeHtml) := by
  have hn := frame_eq (b := (b.insertBelow Tree.root (.doctype name)).enter .beforeHtml) rfl hr
  rw [Builder.Becomes, frame_eq hm hr, hn]
  exact (Move.doctype name).moves

end AmpMarkup.Html
