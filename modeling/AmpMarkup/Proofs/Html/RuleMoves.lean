import AmpMarkup.Proofs.Html.Moves

/-! The moves that the rules of each mode make. With them every token takes a document under
construction to the next one by moves, which add the text that the token shows. -/

namespace AmpMarkup.Html

open Dom (Tree NodeId)

variable {late : Bool} {t : Token} {p : Phase} {b c : Builder} {tag : Text}
  {attributes : List Attribute}

/-! ### Classes of elements -/

theorem ordinary_of_mem_headings : ∀ tag ∈ Category.headings, Ordinary tag := by
  decide

theorem ordinary_of_mem_endsParagraph :
    ∀ tag ∈ Category.endsParagraph, tag ≠ "plaintext".toList → Ordinary tag := by
  decide

/-- Elements whose content is text alone are among those that the rules for the body have in mind. -/
theorem textOnly_known : ∀ tag ∈ Vocabulary.rawTextElements ++ Vocabulary.escapableTextElements,
    tag ∈ Category.headContent ∨ tag ∈ Category.bodyTexts ∨ tag = "xmp".toList ∨
      tag ∈ Category.endsParagraph := by
  decide

/-- What content of the head is: not opened, of plain text, or a `template`. -/
theorem headContent_cases : ∀ tag ∈ Category.headContent, tag ∈ Category.headLeaves ∨
    tag ∈ Category.headTexts ∨ tag = "template".toList := by
  decide

theorem textOnly_of_mem_headTexts : ∀ tag ∈ Category.headTexts,
    Vocabulary.isVoid tag = false ∧ Vocabulary.isTextOnly tag = true := by
  decide

theorem textOnly_of_mem_bodyTexts : ∀ tag ∈ Category.bodyTexts,
    Vocabulary.isVoid tag = false ∧ Vocabulary.isTextOnly tag = true := by
  decide

/-- Any other element in lower case has content other than text alone, or is void. -/
theorem ordinary_of_unknown (hl : tag.lower = tag) (hv : Vocabulary.isVoid tag = false)
    (hh : ¬ Category.headContent.contains tag = true) (hb : ¬ Category.bodyTexts.contains tag = true)
    (hx : tag ≠ "xmp".toList) (hp : ¬ Category.endsParagraph.contains tag = true) :
    Ordinary tag := by
  refine ⟨hv, Bool.eq_false_iff.mpr fun htext => ?_⟩
  have hmem : tag ∈ Vocabulary.rawTextElements ++ Vocabulary.escapableTextElements := by
    rw [Vocabulary.isTextOnly, Vocabulary.isRawText, Vocabulary.isEscapableText, hl,
      Bool.or_eq_true, List.contains_iff_mem, List.contains_iff_mem] at htext
    exact List.mem_append.mpr htext
  rcases textOnly_known tag hmem with h | h | h | h
  · exact hh (List.contains_iff_mem.mpr h)
  · exact hb (List.contains_iff_mem.mpr h)
  · exact hx h
  · exact hp (List.contains_iff_mem.mpr h)

/-! ### The rules for the body -/

section
variable (hm : b.mode = .phase p) (hr : b.stopped = false)
include hm hr

theorem Builder.becomes_insertHeadContent {selfClosing : Bool}
    (ht : t = .startTag tag attributes selfClosing)
    (htag : tag = "noscript".toList ∨ Category.headContent.contains tag = true)
    (hp : p.Nests) : b.Becomes t [] (b.insertHeadContent p tag attributes) := by
  unfold Builder.insertHeadContent
  refine iteInduction (fun _ => ?_) fun hleaf => iteInduction (fun htext => ?_) fun htext => ?_
  · exact (Closes.refl b).leaf hm hr tag hp attributes
  · obtain ⟨hv, ho⟩ := textOnly_of_mem_headTexts tag (List.contains_iff_mem.mp htext)
    exact (Closes.refl b).textElement hm hr ht hv ho hp
  · refine (Closes.refl b).element hm hr ?_ hp attributes
    rcases htag with rfl | htag
    · decide
    · rcases headContent_cases tag (List.contains_iff_mem.mp htag) with h | h | rfl
      · exact absurd (List.contains_iff_mem.mpr h) hleaf
      · exact absurd (List.contains_iff_mem.mpr h) htext
      · decide

end

theorem Builder.becomes_bodyStartTag (hm : b.mode = .phase .inBody) (hr : b.stopped = false)
    {selfClosing : Bool} (ht : t = .startTag tag attributes selfClosing) (hl : tag.lower = tag) :
    b.Becomes t [] (b.bodyStartTag tag attributes selfClosing) := by
  have hbody : Phase.inBody.Nests := by decide
  have hopen : ∀ c, b.Closes c → Ordinary tag →
      b.Becomes t [] (c.insertElement tag attributes) := fun c hc htag =>
    hc.element hm hr htag hbody attributes
  have hparagraph := Closes.endParagraph b
  unfold Builder.bodyStartTag
  refine iteInduction (fun _ => becomes_htmlAgain hm hr attributes) fun _ => ?_
  refine iteInduction (fun hh => becomes_insertHeadContent hm hr ht (.inr hh) hbody) fun hhead => ?_
  refine iteInduction (fun _ => becomes_bodyAgain hm hr attributes) fun _ => ?_
  refine iteInduction (fun hh => ?_) fun _ => ?_
  · refine hopen _ ?_ (ordinary_of_mem_headings tag (List.contains_iff_mem.mp hh))
    split
    · exact (hparagraph.trans (.note _ _)).trans (.pop _)
    · exact hparagraph
  refine iteInduction (fun he => hopen _ (.endItem b _) (by subst he; decide)) fun _ => ?_
  refine iteInduction (fun he => hopen _ (.endItem b _) (by rcases he with rfl | rfl <;> decide))
    fun _ => ?_
  refine iteInduction (fun he => hopen _ ?_ (by subst he; decide)) fun _ => ?_
  · split
    · exact (Closes.note b _).trans (.closeElement _ _ _)
    · exact .refl b
  refine iteInduction (fun he => hopen _ ?_ (by subst he; decide)) fun _ => ?_
  · split
    · exact .pop b
    · exact .refl b
  refine iteInduction (fun _ => hparagraph.leaf hm hr tag hbody attributes) fun _ => ?_
  refine iteInduction (fun _ => (Closes.note b _).leaf hm hr _ hbody attributes) fun _ => ?_
  refine iteInduction (fun _ => (Closes.refl b).leaf hm hr tag hbody attributes) fun hv => ?_
  refine iteInduction (fun hh => ?_) fun htext => ?_
  · obtain ⟨hv, ho⟩ := textOnly_of_mem_bodyTexts tag (List.contains_iff_mem.mp hh)
    exact (Closes.refl b).textElement hm hr ht hv ho hbody
  refine iteInduction (fun he => ?_) fun hxmp => ?_
  · exact hparagraph.textElement hm hr ht (by subst he; decide) (by subst he; decide) hbody
  refine iteInduction (fun hh => ?_) fun hends => ?_
  · refine iteInduction (fun he => ?_) fun he => ?_
    · exact hparagraph.textElement hm hr ht (by subst he; decide) (by subst he; decide) hbody
    · exact hopen _ hparagraph (ordinary_of_mem_endsParagraph tag (List.contains_iff_mem.mp hh) he)
  · refine iteInduction (fun _ => ?_) fun _ => ?_
    · exact (Closes.refl b).leaf hm hr tag hbody attributes
    · exact hopen b (.refl b)
        (ordinary_of_unknown hl (Bool.eq_false_iff.mpr hv) hhead htext hxmp hends)

theorem Builder.becomes_bodyEndTag (hm : b.mode = .phase .inBody) (hr : b.stopped = false)
    (ht : t.character? = none) (tag : Text) : (b.bodyEndTag tag).Moves b t := by
  have hsettle : ∀ c : Builder, b.Becomes t [] c →
      (Outcome.settled c).Moves b t := fun c h => ⟨[], h, Token.shows_nil_of_character? ht _⟩
  have hclose : ∀ c, b.Closes c → (Outcome.settled c).Moves b t := fun c h =>
    hsettle c (h.moves hm hr)
  have hnote : ∀ cause, (Outcome.settled (b.note cause)).Moves b t := fun cause =>
    hclose _ (.note b cause)
  have hafter : Phase.inBody.Leads .afterBody := by decide
  unfold Builder.bodyEndTag
  refine iteInduction (fun _ => ?_) fun _ => ?_
  · refine iteInduction (fun _ => hsettle _ ?_) fun _ => hnote _
    exact (Closes.refl b).enter hm hr hafter
  refine iteInduction (fun _ => ?_) fun _ => ?_
  · refine iteInduction (fun _ => ?_) fun _ => hnote _
    exact (Closes.refl b).enter hm hr hafter
  refine iteInduction (fun _ => ?_) fun _ => ?_
  · -- A paragraph may have to be opened first.
    split
    · exact hclose _ (.closeParagraph b)
    · have hp : b.Becomes t [] ((b.note (.notOpen tag "p")).insertElement "p" []) :=
        (Closes.note b (.notOpen tag "p")).element hm hr (by decide) (by decide) []
      exact hsettle _ (hp.trans (w := []) ((Closes.closeParagraph _).moves hm hr))
  refine iteInduction (fun _ => ?_) fun _ => ?_
  · exact iteInduction (fun _ => hclose _ (.closeElement b _ _)) fun _ => hnote _
  refine iteInduction (fun _ => ?_) fun _ => ?_
  · exact iteInduction (fun _ => hclose _ (.closeElement b _ _)) fun _ => hnote _
  refine iteInduction (fun _ => ?_) fun _ => ?_
  · exact iteInduction (fun _ => hclose _ (.closeElement b _ _)) fun _ => hnote _
  refine iteInduction (fun _ => ?_) fun _ => ?_
  · exact iteInduction (fun _ => hclose _ (.closeElement b _ _)) fun _ => hnote _
  refine iteInduction (fun _ => hclose b (.refl b)) fun _ => ?_
  exact hclose _ (.closeMatching tag (.refl _))

/-! ### The rules of a mode -/

/-- From the document element on something is open. -/
theorem Stage.stack_ne_nil {tree : Tree} {head : Option NodeId} {stack : List NodeId}
    (h : Stage late tree head stack p) (hi : p ≠ .initial) (hb : p ≠ .beforeHtml) : stack ≠ [] := by
  rintro rfl
  cases p with
  | initial => exact hi rfl
  | beforeHtml => exact hb rfl
  | beforeHead =>
      obtain ⟨-, html, hs, -⟩ := h
      cases hs
  | inHead =>
      obtain ⟨-, html, id, inside, hs, -⟩ := h
      cases inside <;> cases hs
  | afterHead =>
      obtain ⟨html, id, templates, -, hs, -⟩ := h
      cases templates <;> cases hs
  | inBody | afterBody | afterAfterBody =>
      obtain ⟨s, inside, -, hs, -⟩ := h
      cases inside <;> cases hs

theorem Builder.current_mem (b : Builder) : b.current = Tree.root ∨ b.current ∈ b.openElements := by
  rw [current]
  cases b.openElements with
  | nil => exact .inl rfl
  | cons id ids => exact .inr List.mem_cons_self

theorem Builder.outermost_mem (b : Builder) :
    b.outermost?.getD Tree.root = Tree.root ∨ b.outermost?.getD Tree.root ∈ b.openElements := by
  rw [outermost?]
  cases ho : b.openElements.getLast? with
  | none => exact .inl rfl
  | some id => exact .inr (List.mem_of_getLast? ho)

/-- Closing through the innermost element of a tag. -/
theorem Builder.openElements_popThrough {inner outer : List NodeId} {id : NodeId}
    (hs : b.openElements = inner ++ id :: outer) (hid : b.tree.tag? id = some tag)
    (hi : ∀ i ∈ inner, b.tree.tag? i ≠ some tag) : (b.popThrough [tag]).openElements = outer := by
  have hpass : ∀ i ∈ inner, (!(b.tree.tag? i).any [tag].contains) = true := by
    intro i him
    have hne := hi i him
    cases ht : b.tree.tag? i with
    | none => rfl
    | some u =>
        rw [ht] at hne
        simpa using fun he : u = tag => hne (he ▸ rfl)
  change (b.openElements.dropWhile _).tail = _
  rw [hs, List.dropWhile_append_of_pos hpass, List.dropWhile_cons_of_neg (by simp [hid])]
  rfl

theorem Outcome.moves_settled (hc : t.character? = none) (h : b.Becomes t [] c) :
    (Outcome.settled c).Moves b t :=
  ⟨[], h, Token.shows_nil_of_character? hc _⟩

theorem Outcome.moves_note (hc : t.character? = none) (cause : Cause) :
    (Outcome.settled (b.note cause)).Moves b t :=
  moves_settled hc (.refl _)

namespace Building

section
variable (h : Building late b)
include h

theorem moves_comment (hm : b.mode = .phase p) {parent : NodeId}
    (hparent : parent = Tree.root ∨ parent ∈ b.openElements) (data : Text) :
    (Outcome.settled (b.insertComment parent data)).Moves b (.comment data) :=
  Outcome.moves_settled rfl (Builder.becomes_insertComment hm h.running hparent data)

theorem moves_htmlAgain (hm : b.mode = .phase p) (hc : t.character? = none)
    (attributes : List Attribute) : (Outcome.settled (b.htmlAgain attributes)).Moves b t :=
  Outcome.moves_settled hc (Builder.becomes_htmlAgain hm h.running attributes)

theorem moves_space (hm : b.mode = .phase p) (hi : p ≠ .initial) (hb : p ≠ .beforeHtml) {ch : Char}
    (hs : isSpace ch = true) :
    (Outcome.settled (b.insertCharacter ch)).Moves b (.character ch) := by
  have hne := (h.stage_of_phase hm).stack_ne_nil hi hb
  refine ⟨[ch], Builder.becomes_insertCharacter hm h.running hne (.inl hs), .inl ?_⟩
  have hzero : ch ≠ '\x00' := by
    rintro rfl
    cases hs
  simp [Token.visible, Token.character?, hzero]

theorem moves_initialRules (hm : b.mode = .phase .initial) : (b.initialRules t).Moves b t := by
  have hpassed : ∀ t, (Outcome.passed .beforeHtml b).Moves b t := fun t =>
    (Builder.Closes.refl b).enter hm h.running (by decide)
  cases t with
  | doctype name =>
      exact Outcome.moves_settled rfl (Builder.becomes_insertDoctype hm h.running _)
  | comment data => exact h.moves_comment hm (.inl rfl) data
  | character c =>
      refine iteInduction (fun hs => ?_) fun _ => hpassed _
      exact ⟨[], .refl _, Token.shows_nil_of_isSpace hs _⟩
  | startTag | endTag | endOfFile => exact hpassed _

theorem moves_beforeHtmlRules (hm : b.mode = .phase .beforeHtml) :
    (b.beforeHtmlRules t).Moves b t := by
  have hopen : ∀ t attributes,
      b.Becomes t [] ((b.insertElement "html" attributes).enter .beforeHead) := fun t attributes =>
    Builder.becomes_openElement hm h.running (by decide) (by decide) attributes
  cases t with
  | doctype name => exact Outcome.moves_note rfl _
  | comment data => exact h.moves_comment hm (.inl rfl) data
  | character c =>
      refine iteInduction (fun hs => ?_) fun _ => hopen _ []
      exact ⟨[], .refl _, Token.shows_nil_of_isSpace hs _⟩
  | startTag tag attributes selfClosing =>
      exact iteInduction (fun _ => Outcome.moves_settled rfl (hopen _ attributes))
        fun _ => hopen _ []
  | endTag tag => exact iteInduction (fun _ => hopen _ []) fun _ => Outcome.moves_note rfl _
  | endOfFile => exact hopen _ []

theorem moves_beforeHeadRules (hm : b.mode = .phase .beforeHead) :
    (b.beforeHeadRules t).Moves b t := by
  have hopen : ∀ t attributes, b.Becomes t [] ((b.insertHead attributes).enter .inHead) :=
    fun t attributes => Builder.becomes_insertHead hm h.running attributes
  cases t with
  | doctype name => exact Outcome.moves_note rfl _
  | comment data => exact h.moves_comment hm b.current_mem data
  | character c =>
      refine iteInduction (fun hs => ?_) fun _ => hopen _ []
      exact ⟨[], .refl _, Token.shows_nil_of_isSpace hs _⟩
  | startTag tag attributes selfClosing =>
      refine iteInduction (fun _ => h.moves_htmlAgain hm rfl attributes) fun _ => ?_
      exact iteInduction (fun _ => Outcome.moves_settled rfl (hopen _ attributes))
        fun _ => hopen _ []
  | endTag tag => exact iteInduction (fun _ => hopen _ []) fun _ => Outcome.moves_note rfl _
  | endOfFile => exact hopen _ []

/-- The head is closed with everything in it. -/
theorem becomes_endHead (hm : b.mode = .phase .inHead) (t : Token) :
    b.Becomes t [] ((b.popThrough ["head"]).enter .afterHead) := by
  obtain ⟨-, html, id, inside, hs, -, hh, htag, hi⟩ := h.stage_of_phase hm
  have ho := Builder.openElements_popThrough hs htag fun i him => (hi i him).2
  have hc : ((b.popThrough ["head"]).enter .afterHead).frame =
      ⟨b.tree, .phase .afterHead, [html], some id, false⟩ := by
    rw [← ho, ← hh, ← h.running]
    rfl
  rw [Builder.Becomes, Builder.frame_eq hm h.running, hc, hs, hh]
  exact Move.endHead.moves

theorem moves_inHeadRules (hm : b.mode = .phase .inHead)
    (hl : ∀ tag attributes s, t = .startTag tag attributes s → tag.lower = tag) :
    (b.inHeadRules t).Moves b t := by
  have hleave := h.becomes_endHead hm t
  cases t with
  | doctype name => exact Outcome.moves_note rfl _
  | comment data => exact h.moves_comment hm b.current_mem data
  | character c =>
      exact iteInduction (fun hs => h.moves_space hm (by decide) (by decide) hs) fun _ => hleave
  | startTag tag attributes selfClosing =>
      refine iteInduction (fun _ => h.moves_htmlAgain hm rfl attributes) fun _ => ?_
      refine iteInduction (fun hc => Outcome.moves_settled rfl ?_) fun _ => ?_
      · exact Builder.becomes_insertHeadContent hm h.running rfl hc (by decide)
      · exact iteInduction (fun _ => Outcome.moves_note rfl _) fun _ => hleave
  | endTag tag =>
      refine iteInduction (fun _ => Outcome.moves_settled rfl hleave) fun _ => ?_
      refine iteInduction (fun _ => Outcome.moves_settled rfl ?_) fun _ => ?_
      · exact (Builder.Closes.popThrough b [tag]).moves hm h.running
      refine iteInduction (fun _ => hleave) fun _ => ?_
      exact iteInduction (fun _ => Outcome.moves_settled rfl (.refl _))
        fun _ => Outcome.moves_note rfl _
  | endOfFile => exact hleave

/-- Content of the head that comes after the head's end. -/
theorem becomes_insertLateHeadContent (hm : b.mode = .phase .afterHead) {selfClosing : Bool}
    (ht : t = .startTag tag attributes selfClosing)
    (htag : Category.headContent.contains tag = true) :
    b.Becomes t [] (b.insertLateHeadContent tag attributes) := by
  obtain ⟨html, id, templates, -, hs, hd, hh, hhead, hi⟩ := h.stage_of_phase hm
  have hne : ∀ i ∈ b.openElements, i ≠ id := by
    rintro i him rfl
    rw [hs] at him
    rcases List.mem_append.mp him with him | him
    · rw [hi i him] at hhead
      exact absurd hhead (by decide)
    · rw [List.mem_singleton.mp him, hd.tag] at hhead
      exact absurd hhead (by decide)
  have heq := Builder.insertLateHeadContent_eq hh hne (Nat.ne_of_gt (Tree.lt_size_of_tag? hhead)) tag
    attributes
  have hf : (b.insertLateHeadContent tag attributes).frame =
      ⟨b.tree.withElement id ⟨tag, Attributes.empty.addAll attributes⟩,
        if Category.headLeaves.contains tag then .phase .afterHead
        else if Category.headTexts.contains tag then .plainText .afterHead else .phase .afterHead,
        if Category.headLeaves.contains tag then b.openElements
        else b.tree.size :: b.openElements, b.head, false⟩ := by
    rw [heq, ← hm, ← h.running]
    rfl
  rw [Builder.Becomes, Builder.frame_eq hm h.running, hf]
  by_cases hleaf : Category.headLeaves.contains tag = true
  · simp only [hleaf, if_true]
    exact (Move.leaf tag attributes (.late hh)).moves
  by_cases htext : Category.headTexts.contains tag = true
  · obtain ⟨hv, ho⟩ := textOnly_of_mem_headTexts tag (List.contains_iff_mem.mp htext)
    simp only [hleaf, htext, if_true, if_false, Bool.false_eq_true]
    exact (Move.textElement ht hv ho (.late hh)).moves
  · obtain rfl : tag = "template".toList := by
      rcases headContent_cases tag (List.contains_iff_mem.mp htag) with hc | hc | hc
      · exact absurd (List.contains_iff_mem.mpr hc) hleaf
      · exact absurd (List.contains_iff_mem.mpr hc) htext
      · exact hc
    simp only [hleaf, htext, if_false, Bool.false_eq_true, hh]
    exact (Move.lateTemplate attributes (ht ▸ rfl)).moves

theorem moves_afterHeadRules (hm : b.mode = .phase .afterHead) :
    (b.afterHeadRules t).Moves b t := by
  have hopen : ∀ t attributes, b.Becomes t [] ((b.insertElement "body" attributes).enter .inBody) :=
    fun t attributes =>
      Builder.becomes_openElement hm h.running (by decide) (by decide) attributes
  cases t with
  | doctype name => exact Outcome.moves_note rfl _
  | comment data => exact h.moves_comment hm b.current_mem data
  | character c =>
      exact iteInduction (fun hs => h.moves_space hm (by decide) (by decide) hs) fun _ => hopen _ []
  | startTag tag attributes selfClosing =>
      refine iteInduction (fun _ => h.moves_htmlAgain hm rfl attributes) fun _ => ?_
      refine iteInduction (fun _ => Outcome.moves_settled rfl (hopen _ attributes)) fun _ => ?_
      refine iteInduction (fun hc => Outcome.moves_settled rfl ?_) fun _ => ?_
      · exact h.becomes_insertLateHeadContent hm rfl hc
      · exact iteInduction (fun _ => Outcome.moves_note rfl _) fun _ => hopen _ []
  | endTag tag => exact iteInduction (fun _ => hopen _ []) fun _ => Outcome.moves_note rfl _
  | endOfFile => exact hopen _ []

theorem moves_stop (hm : b.mode = .phase p) :
    (Outcome.settled { b with stopped := true }).Moves b .endOfFile := by
  refine Outcome.moves_settled rfl ?_
  have hc : ({ b with stopped := true } : Builder).frame =
      ⟨b.tree, .phase p, b.openElements, b.head, true⟩ := by
    rw [← hm]
    rfl
  rw [Builder.Becomes, Builder.frame_eq hm h.running, hc]
  exact (Move.stop rfl).moves

theorem moves_inBodyRules (hm : b.mode = .phase .inBody)
    (hl : ∀ tag attributes s, t = .startTag tag attributes s → tag.lower = tag) :
    (b.inBodyRules t).Moves b t := by
  cases t with
  | doctype name => exact Outcome.moves_note rfl _
  | comment data => exact h.moves_comment hm b.current_mem data
  | character c =>
      refine iteInduction (fun hz => ?_) fun hz => ?_
      · subst hz
        exact ⟨[], .refl _, .inl rfl⟩
      · have hne := (h.stage_of_phase hm).stack_ne_nil (by decide) (by decide)
        exact ⟨[c], Builder.becomes_insertCharacter hm h.running hne (.inr rfl),
          Token.shows_singleton hz _⟩
  | startTag tag attributes selfClosing =>
      exact Outcome.moves_settled rfl
        (Builder.becomes_bodyStartTag hm h.running rfl (hl tag attributes selfClosing rfl))
  | endTag tag => exact Builder.becomes_bodyEndTag hm h.running rfl tag
  | endOfFile => exact h.moves_stop hm

/-- Content after the body opens the body again. -/
theorem becomes_reopen (hm : b.mode = .phase p) (t : Token) (cause : Cause) :
    b.Becomes t [] ((b.note cause).enter .inBody) :=
  (Builder.Closes.note b cause).enter hm h.running ⟨nofun, nofun⟩

theorem moves_afterBodyRules (hm : b.mode = .phase .afterBody) : (b.afterBodyRules t).Moves b t := by
  have hreopen := fun t => h.becomes_reopen hm t .contentAfterBody
  cases t with
  | doctype name => exact Outcome.moves_note rfl _
  | comment data => exact h.moves_comment hm b.outermost_mem data
  | character c =>
      exact iteInduction (fun hs => h.moves_space hm (by decide) (by decide) hs)
        fun _ => hreopen _
  | startTag tag attributes selfClosing =>
      exact iteInduction (fun _ => h.moves_htmlAgain hm rfl attributes) fun _ => hreopen _
  | endTag tag =>
      refine iteInduction (fun _ => Outcome.moves_settled rfl ?_) fun _ => hreopen _
      exact (Builder.Closes.refl b).enter hm h.running (by decide)
  | endOfFile => exact h.moves_stop hm

theorem moves_afterAfterBodyRules (hm : b.mode = .phase .afterAfterBody) :
    (b.afterAfterBodyRules t).Moves b t := by
  have hreopen := fun t => h.becomes_reopen hm t .contentAfterHtml
  cases t with
  | doctype name => exact Outcome.moves_note rfl _
  | comment data => exact h.moves_comment hm (.inl rfl) data
  | character c =>
      exact iteInduction (fun hs => h.moves_space hm (by decide) (by decide) hs)
        fun _ => hreopen _
  | startTag tag attributes selfClosing =>
      exact iteInduction (fun _ => h.moves_htmlAgain hm rfl attributes) fun _ => hreopen _
  | endTag tag => exact hreopen _
  | endOfFile => exact h.moves_stop hm

theorem moves_plainTextRules (hm : b.mode = .plainText p) : (b.plainTextRules p t).Moves b t := by
  have hstage := h.stage
  rw [hm] at hstage
  obtain ⟨top, stack, ho, -⟩ := hstage
  have hf : b.frame = ⟨b.tree, .plainText p, top :: stack, b.head, false⟩ := by
    rw [← hm, ← ho, ← h.running]
    rfl
  have hend : ∀ t, ∀ b' : Builder, b'.frame = b.frame → b.Becomes t [] (b'.pop.enter p) := by
    intro t b' hb
    have hc : (b'.pop.enter p).frame = ⟨b.tree, .phase p, stack, b.head, false⟩ := by
      have heq : (b'.pop.enter p).frame =
          { b'.frame with mode := .phase p, openElements := b'.frame.openElements.tail } := rfl
      rw [heq, hb, hf]
      rfl
    rw [Builder.Becomes, hf, hc]
    exact Move.endText.moves
  cases t with
  | character c =>
      refine ⟨[c], ?_, ?_⟩
      · have hc : (b.insertCharacter c).frame =
            ⟨b.tree.appendText top [c], .plainText p, top :: stack, b.head, false⟩ := by
          rw [← hm, ← h.running, Builder.insertCharacter, Builder.insertText, Builder.current, ho]
          rfl
        rw [Builder.Becomes, hf, hc]
        exact (Move.text rfl (.inr (.inr ⟨p, rfl⟩))).moves
      · by_cases hz : c = '\x00'
        · exact .inr ⟨⟨p, hm⟩, by rw [hz]⟩
        · exact Token.shows_singleton hz _
  | endOfFile => exact hend _ (b.note .endInsideText) rfl
  | doctype | startTag | endTag | comment => exact Outcome.moves_settled rfl (hend _ b rfl)

end

/-! ### A whole token -/

theorem moves_rules (h : Building late b)
    (hl : ∀ tag attributes s, t = .startTag tag attributes s → tag.lower = tag) :
    (b.rules t).Moves b t := by
  unfold Builder.rules
  split
  · next hm => exact h.moves_initialRules hm
  · next hm => exact h.moves_beforeHtmlRules hm
  · next hm => exact h.moves_beforeHeadRules hm
  · next hm => exact h.moves_inHeadRules hm hl
  · next hm => exact h.moves_afterHeadRules hm
  · next hm => exact h.moves_inBodyRules hm hl
  · next hm => exact h.moves_afterBodyRules hm
  · next hm => exact h.moves_afterAfterBodyRules hm
  · next hm => exact h.moves_plainTextRules hm

/-- Every token makes moves and adds the text that it shows. -/
theorem moves_process (h : Building late b)
    (hl : ∀ tag attributes s, t = .startTag tag attributes s → tag.lower = tag) :
    ∃ w, b.Becomes t w (b.process t) ∧ t.Shows b.mode w := by
  fun_induction Builder.process b t generalizing late with
  | case1 b b' hr =>
      have hrules := h.moves_rules hl
      rw [hr] at hrules
      exact hrules
  | case2 b next b' hr ih =>
      have hrules := h.moves_rules hl
      have hkeeps := h.rules t
      rw [hr] at hrules hkeeps
      obtain ⟨w, hw, hshows⟩ := ih hkeeps
      refine ⟨w, hrules.trans hw, .inl (hshows.resolve_right ?_)⟩
      rintro ⟨⟨p, hp⟩, -⟩
      cases hp

end Building

end AmpMarkup.Html
