import AmpMarkup.Proofs.Html.Moves

/-! What every token does to a document under construction, whatever has been built so far. No element
is taken away, and each keeps its tag and all attributes that it has. The end of the input stops
construction, and no other token does. -/

namespace AmpMarkup.Html

open Dom (Tree NodeId)

/-- The second tree has grown out of the first. -/
def Builder.Grows (b b' : Builder) : Prop :=
  b.tree.Grows b'.tree

/-- What a token may make of a document under construction. -/
structure Builder.Advances (t : Token) (b c : Builder) : Prop where
  grows : b.Grows c
  stopped : t ≠ .endOfFile → c.stopped = b.stopped

/-- What the rules of a mode may make of it, also where they pass the token on. -/
def Outcome.Advances (t : Token) (b : Builder) : Outcome → Prop
  | .settled c | .passed _ c => b.Advances t c

variable {b c d : Builder} {t : Token} {tag : Text} {attributes : List Attribute}

namespace Builder

@[simp] theorem tree_closeMatching (b : Builder) (tag : Text) (ids : List NodeId) :
    (b.closeMatching tag ids).tree = b.tree := by
  induction ids with
  | nil => rfl
  | cons id outer ih =>
      rw [closeMatching]
      split
      · exact ih
      · split
        · rfl
        · split
          · rfl
          · exact ih

theorem Grows.refl (b : Builder) : b.Grows b :=
  Tree.Grows.refl _

theorem grows_of_tree_eq (ht : c.tree = b.tree) : b.Grows c := by
  rw [Grows, ht]
  exact Tree.Grows.refl _

/-! ### Changes -/

namespace Advances

theorem trans (h : b.Advances t c) (h' : c.Advances t d) : b.Advances t d where
  grows := Tree.Grows.trans h.grows h'.grows
  stopped ht := (h'.stopped ht).trans (h.stopped ht)

/-- A change that leaves the tree alone and does not stop construction. -/
theorem of_eq (ht : c.tree = b.tree) (hs : c.stopped = b.stopped) : b.Advances t c :=
  ⟨grows_of_tree_eq ht, fun _ => hs⟩

theorem refl (b : Builder) : b.Advances t b :=
  of_eq rfl rfl

theorem of_closes (h : b.Closes c) : b.Advances t c :=
  of_eq h.tree h.stopped

theorem same (h : b.Advances t c) (ht : d.tree = c.tree) (hs : d.stopped = c.stopped) :
    b.Advances t d :=
  h.trans (of_eq ht hs)

theorem insertBelow (b : Builder) (parent : NodeId) (content : Dom.Content) :
    b.Advances t (b.insertBelow parent content) :=
  ⟨b.tree.grows_alloc_append parent content, fun _ => rfl⟩

theorem insertText (b : Builder) (data : Text) : b.Advances t (b.insertText data) :=
  ⟨b.tree.grows_appendText _ data, fun _ => rfl⟩

theorem insertElement (b : Builder) (tag : Text) (attributes : List Attribute) :
    b.Advances t (b.insertElement tag attributes) :=
  ⟨b.tree.grows_alloc_append _ _, fun _ => rfl⟩

theorem merge (b : Builder) (target : Option NodeId) (attributes : List Attribute) :
    b.Advances t (b.merge target attributes) := by
  cases target with
  | none => exact .refl b
  | some id => exact ⟨b.tree.grows_addAll id attributes, fun _ => rfl⟩

theorem htmlAgain (b : Builder) (attributes : List Attribute) :
    b.Advances t (b.htmlAgain attributes) :=
  (of_closes (.note b _)).trans (.merge _ _ attributes)

theorem bodyAgain (b : Builder) (attributes : List Attribute) :
    b.Advances t (b.bodyAgain attributes) :=
  (of_closes (.note b _)).trans (.merge _ _ attributes)

/-- Elements are closed and one is inserted. -/
theorem element (h : b.Closes c) (tag : Text) (attributes : List Attribute) :
    b.Advances t (c.insertElement tag attributes) :=
  (of_closes h).trans (insertElement c tag attributes)

theorem insertHeadContent (b : Builder) (p : Phase) (tag : Text) (attributes : List Attribute) :
    b.Advances t (b.insertHeadContent p tag attributes) := by
  have h : b.Advances t (b.insertElement tag attributes) := insertElement b tag attributes
  unfold Builder.insertHeadContent
  refine iteInduction (fun _ => h.same rfl rfl) fun _ => ?_
  exact iteInduction (fun _ => h.same rfl rfl) fun _ => h

theorem insertLateHeadContent (b : Builder) (tag : Text) (attributes : List Attribute) :
    b.Advances t (b.insertLateHeadContent tag attributes) := by
  have hnote : b.Advances t (b.note (.lateHeadContent tag)) := of_closes (.note b _)
  unfold Builder.insertLateHeadContent
  dsimp only
  split
  · exact hnote
  · next head _ =>
      have hopened : b.Advances t
          { b.note (.lateHeadContent tag) with openElements := head :: b.openElements } :=
        of_eq rfl rfl
      exact (hopened.trans (insertHeadContent _ .afterHead tag attributes)).same rfl rfl

/-! ### Tags in the body -/

theorem bodyStartTag (b : Builder) (tag : Text) (attributes : List Attribute)
    (selfClosing : Bool) : b.Advances t (b.bodyStartTag tag attributes selfClosing) := by
  have hopen : ∀ {c}, b.Closes c → ∀ tag, b.Advances t (c.insertElement tag attributes) :=
    fun hc tag => element hc tag attributes
  have hparagraph := Closes.endParagraph b
  unfold Builder.bodyStartTag
  refine iteInduction (fun _ => htmlAgain b attributes) fun _ => ?_
  refine iteInduction (fun _ => insertHeadContent b _ _ _) fun _ => ?_
  refine iteInduction (fun _ => bodyAgain b attributes) fun _ => ?_
  refine iteInduction (fun _ => hopen ?_ tag) fun _ => ?_
  · exact iteInduction (fun _ => (hparagraph.trans (.note _ _)).trans (.pop _)) fun _ => hparagraph
  refine iteInduction (fun _ => hopen (.endItem b _) tag) fun _ => ?_
  refine iteInduction (fun _ => hopen (.endItem b _) tag) fun _ => ?_
  refine iteInduction (fun _ => hopen ?_ tag) fun _ => ?_
  · exact iteInduction (fun _ => (Closes.note b _).trans (.closeElement _ _ _)) fun _ => .refl b
  refine iteInduction (fun _ => hopen ?_ tag) fun _ => ?_
  · exact iteInduction (fun _ => .pop b) fun _ => .refl b
  refine iteInduction (fun _ => (hopen hparagraph tag).same rfl rfl) fun _ => ?_
  refine iteInduction (fun _ => (hopen (.note b _) "img").same rfl rfl) fun _ => ?_
  refine iteInduction (fun _ => (hopen (.refl b) tag).same rfl rfl) fun _ => ?_
  refine iteInduction (fun _ => (hopen (.refl b) tag).same rfl rfl) fun _ => ?_
  refine iteInduction (fun _ => (hopen hparagraph tag).same rfl rfl) fun _ => ?_
  refine iteInduction (fun _ => ?_) fun _ => ?_
  · exact iteInduction (fun _ => (hopen hparagraph tag).same rfl rfl) fun _ => hopen hparagraph tag
  · exact iteInduction (fun _ => (hopen (.refl b) tag).same rfl rfl) fun _ => hopen (.refl b) tag

end Advances

end Builder

namespace Outcome.Advances

open Builder (Closes)

theorem of_closes (h : b.Closes c) : (Outcome.settled c).Advances t b :=
  Builder.Advances.of_closes h

theorem note (b : Builder) (cause : Cause) : (Outcome.settled (b.note cause)).Advances t b :=
  of_closes (.note b cause)

theorem bodyEndTag (b : Builder) (tag : Text) : (b.bodyEndTag tag).Advances t b := by
  have hclose : ∀ (inScope : Prop) [Decidable inScope] except tags cause, Outcome.Advances t b
      (if inScope then .settled ((b.closeImplied except).popThrough tags)
        else .settled (b.note cause)) := fun _ _ _ _ _ =>
    iteInduction (fun _ => of_closes (.closeElement b _ _)) fun _ => note b _
  unfold Builder.bodyEndTag
  refine iteInduction (fun _ => ?_) fun _ => ?_
  · exact iteInduction (fun _ => .of_eq rfl rfl) fun _ => note b _
  refine iteInduction (fun _ => ?_) fun _ => ?_
  · exact iteInduction (fun _ => .refl b) fun _ => note b _
  refine iteInduction (fun _ => ?_) fun _ => ?_
  · -- A paragraph may have to be opened first.
    have hopened : b.Advances t (if b.hasParagraph then b
        else (b.note (.notOpen tag "p")).insertElement "p" []) :=
      iteInduction (fun _ => .refl b) fun _ => .element (.note b _) "p" []
    exact hopened.trans (.of_closes (.closeParagraph _))
  refine iteInduction (fun _ => hclose ..) fun _ => iteInduction (fun _ => hclose ..) fun _ => ?_
  refine iteInduction (fun _ => hclose ..) fun _ => iteInduction (fun _ => hclose ..) fun _ => ?_
  exact iteInduction (fun _ => .refl b) fun _ => of_closes (.closeMatching tag (.refl _))

/-! ### Rules -/

theorem initialRules (b : Builder) (t : Token) : (b.initialRules t).Advances t b := by
  cases t with
  | doctype name => exact (Builder.Advances.insertBelow b _ _).same rfl rfl
  | comment data => exact .insertBelow b _ _
  | character c => exact iteInduction (fun _ => .refl b) fun _ => .refl b
  | startTag | endTag | endOfFile => exact .refl b

theorem beforeHtmlRules (b : Builder) (t : Token) : (b.beforeHtmlRules t).Advances t b := by
  have hopen : ∀ attributes, b.Advances t (b.insertElement "html" attributes) :=
    .insertElement b "html"
  cases t with
  | doctype name => exact note b _
  | comment data => exact .insertBelow b _ _
  | character c => exact iteInduction (fun _ => .refl b) fun _ => hopen []
  | startTag tag attributes selfClosing =>
      exact iteInduction (fun _ => (hopen attributes).same rfl rfl) fun _ => hopen []
  | endTag tag => exact iteInduction (fun _ => hopen []) fun _ => note b _
  | endOfFile => exact hopen []

theorem beforeHeadRules (b : Builder) (t : Token) : (b.beforeHeadRules t).Advances t b := by
  have hopen : ∀ attributes, b.Advances t (b.insertHead attributes) := fun attributes =>
    (Builder.Advances.insertElement b "head" attributes).same rfl rfl
  cases t with
  | doctype name => exact note b _
  | comment data => exact .insertBelow b _ _
  | character c => exact iteInduction (fun _ => .refl b) fun _ => hopen []
  | startTag tag attributes selfClosing =>
      refine iteInduction (fun _ => .htmlAgain b attributes) fun _ => ?_
      exact iteInduction (fun _ => (hopen attributes).same rfl rfl) fun _ => hopen []
  | endTag tag => exact iteInduction (fun _ => hopen []) fun _ => note b _
  | endOfFile => exact hopen []

theorem inHeadRules (b : Builder) (t : Token) : (b.inHeadRules t).Advances t b := by
  have hleave : b.Advances t (b.popThrough ["head"]) := .of_closes (.popThrough b _)
  cases t with
  | doctype name => exact note b _
  | comment data => exact .insertBelow b _ _
  | character c => exact iteInduction (fun _ => .insertText b _) fun _ => hleave
  | startTag tag attributes selfClosing =>
      refine iteInduction (fun _ => .htmlAgain b attributes) fun _ => ?_
      refine iteInduction (fun _ => .insertHeadContent b _ _ _) fun _ => ?_
      exact iteInduction (fun _ => note b _) fun _ => hleave
  | endTag tag =>
      refine iteInduction (fun _ => hleave.same rfl rfl) fun _ => ?_
      refine iteInduction (fun _ => of_closes (.popThrough b _)) fun _ => ?_
      refine iteInduction (fun _ => hleave) fun _ => ?_
      exact iteInduction (fun _ => .refl b) fun _ => note b _
  | endOfFile => exact hleave

theorem afterHeadRules (b : Builder) (t : Token) : (b.afterHeadRules t).Advances t b := by
  have hopen : ∀ attributes, b.Advances t (b.insertElement "body" attributes) :=
    .insertElement b "body"
  cases t with
  | doctype name => exact note b _
  | comment data => exact .insertBelow b _ _
  | character c => exact iteInduction (fun _ => .insertText b _) fun _ => hopen []
  | startTag tag attributes selfClosing =>
      refine iteInduction (fun _ => .htmlAgain b attributes) fun _ => ?_
      refine iteInduction (fun _ => (hopen attributes).same rfl rfl) fun _ => ?_
      refine iteInduction (fun _ => .insertLateHeadContent b tag attributes) fun _ => ?_
      exact iteInduction (fun _ => note b _) fun _ => hopen []
  | endTag tag => exact iteInduction (fun _ => hopen []) fun _ => note b _
  | endOfFile => exact hopen []

/-- In the body and behind it the end of the input stops construction. -/
theorem stop (b : Builder) : (Outcome.settled { b with stopped := true }).Advances .endOfFile b :=
  ⟨.refl b, fun ht => absurd rfl ht⟩

theorem inBodyRules (b : Builder) (t : Token) : (b.inBodyRules t).Advances t b := by
  cases t with
  | doctype name => exact note b _
  | comment data => exact .insertBelow b _ _
  | character c => exact iteInduction (fun _ => note b _) fun _ => .insertText b _
  | startTag tag attributes selfClosing => exact .bodyStartTag b tag attributes selfClosing
  | endTag tag => exact bodyEndTag b tag
  | endOfFile => exact stop b

theorem afterBodyRules (b : Builder) (t : Token) : (b.afterBodyRules t).Advances t b := by
  have hreopen : b.Advances t (b.note .contentAfterBody) := .of_closes (.note b _)
  cases t with
  | doctype name => exact note b _
  | comment data => exact .insertBelow b _ _
  | character c => exact iteInduction (fun _ => .insertText b _) fun _ => hreopen
  | startTag tag attributes selfClosing =>
      exact iteInduction (fun _ => .htmlAgain b attributes) fun _ => hreopen
  | endTag tag => exact iteInduction (fun _ => .of_eq rfl rfl) fun _ => hreopen
  | endOfFile => exact stop b

theorem afterAfterBodyRules (b : Builder) (t : Token) :
    (b.afterAfterBodyRules t).Advances t b := by
  have hreopen : b.Advances t (b.note .contentAfterHtml) := .of_closes (.note b _)
  cases t with
  | doctype name => exact note b _
  | comment data => exact .insertBelow b _ _
  | character c => exact iteInduction (fun _ => .insertText b _) fun _ => hreopen
  | startTag tag attributes selfClosing =>
      exact iteInduction (fun _ => .htmlAgain b attributes) fun _ => hreopen
  | endTag tag => exact hreopen
  | endOfFile => exact stop b

theorem plainTextRules (b : Builder) (p : Phase) (t : Token) :
    (b.plainTextRules p t).Advances t b := by
  cases t with
  | character c => exact .insertText b _
  | endOfFile => exact .of_closes ((Closes.note b _).trans (.pop _))
  | doctype | startTag | endTag | comment => exact .of_eq rfl rfl

theorem rules (b : Builder) (t : Token) : (b.rules t).Advances t b := by
  unfold Builder.rules
  split
  · exact initialRules b t
  · exact beforeHtmlRules b t
  · exact beforeHeadRules b t
  · exact inHeadRules b t
  · exact afterHeadRules b t
  · exact inBodyRules b t
  · exact afterBodyRules b t
  · exact afterAfterBodyRules b t
  · exact plainTextRules b _ t

end Outcome.Advances

/-! ### Runs -/

namespace Builder

theorem advances_process (b : Builder) (t : Token) : b.Advances t (b.process t) := by
  fun_induction process b t with
  | case1 b c hr =>
      have hc := Outcome.Advances.rules b t
      rwa [hr] at hc
  | case2 b next c hr ih =>
      have hc := Outcome.Advances.rules b t
      rw [hr] at hc
      have hentered : b.Advances t (c.enter next) := Builder.Advances.same hc rfl rfl
      exact hentered.trans ih

theorem grows_run (b : Builder) (ts : List Token) : b.Grows (b.run ts) := by
  induction ts generalizing b with
  | nil => exact .refl b
  | cons t ts ih =>
      rw [run]
      refine iteInduction (fun _ => .refl b) fun _ => ?_
      exact Tree.Grows.trans (b.advances_process t).grows
        (ih { b.process t with position := b.position + 1 })

/-- Only the end of the input stops construction. -/
theorem stopped_process (b : Builder) (t : Token) :
    (b.process t).stopped = true ↔ b.stopped = true ∨ t = .endOfFile := by
  by_cases ht : t = .endOfFile
  · simp only [ht, process_endOfFile, or_true]
  · rw [or_iff_left ht, (b.advances_process t).stopped ht]

end Builder

end AmpMarkup.Html
