import AmpMarkup.Proofs.Html.Skeleton

/-! The rules from the body on keep the structure of the document under construction: they are put
together from changes that keep the body open. -/

namespace AmpMarkup.Html

open Dom (Tree NodeId)

variable {late : Bool} {s : Spine} {inside : List NodeId} {b : Builder}

section
variable (hl : late = !s.templates.isEmpty)
include hl

theorem OpenBody.insertHeadContent (h : OpenBody s (.phase .inBody) inside b) (tag : Text)
    (attributes : List Attribute) : Building late (b.insertHeadContent .inBody tag attributes) := by
  unfold Builder.insertHeadContent
  split
  · exact (h.insertLeaf tag attributes).building (.inl rfl) hl
  · split
    · exact (h.insertElement tag attributes).enterText (.inl rfl) hl
    · exact (h.insertElement tag attributes).building (.inl rfl) hl

theorem OpenBody.bodyStartTag (h : OpenBody s (.phase .inBody) inside b) (tag : Text)
    (attributes : List Attribute) (selfClosing : Bool) :
    Building late (b.bodyStartTag tag attributes selfClosing) := by
  have hb : Building late b := h.building (.inl rfl) hl
  have hin : ∀ {outer b'}, OpenBody s (.phase .inBody) outer b' → Building late b' := fun h' =>
    h'.building (.inl rfl) hl
  obtain ⟨outer, hp⟩ := h.endParagraph
  unfold Builder.bodyStartTag
  -- Elements that are closed first lie inside the body, so the body stays open in each case.
  refine iteInduction (fun _ => hb.htmlAgain attributes) fun _ => ?_
  refine iteInduction (fun _ => h.insertHeadContent hl tag attributes) fun _ => ?_
  refine iteInduction (fun _ => (hb.note _).merge _ _) fun _ => ?_
  refine iteInduction (fun _ => ?_) fun _ => ?_
  · have hbeside : ∃ outer, OpenBody s (.phase .inBody) outer
        (if b.endParagraph.currentTag?.any Category.headings.contains then
          (b.endParagraph.note .nestedHeading).pop else b.endParagraph) := by
      split
      · next hc =>
          obtain ⟨u, hu, hmem⟩ := (Option.any_eq_true _ _).1 hc
          have hne : u ≠ "body".toList := by
            rintro rfl
            exact absurd hmem (by decide)
          exact ⟨_, (hp.note _).pop (hp.inside_ne_nil hu hne)⟩
      · exact ⟨outer, hp⟩
    obtain ⟨beside, hbeside⟩ := hbeside
    exact hin (hbeside.insertElement _ _)
  refine iteInduction (fun _ => ?_) fun _ => ?_
  · obtain ⟨item, hi⟩ := h.endItem ["li"] (by decide)
    exact hin (hi.insertElement _ _)
  refine iteInduction (fun _ => ?_) fun _ => ?_
  · obtain ⟨item, hi⟩ := h.endItem ["dd", "dt"] (by decide)
    exact hin (hi.insertElement _ _)
  refine iteInduction (fun _ => ?_) fun _ => ?_
  · have houtside : ∃ outer, OpenBody s (.phase .inBody) outer
        (if b.hasInScope "button" [] then
          ((b.note .nestedButton).closeImplied none).popThrough ["button"] else b) := by
      split
      · next hc =>
          exact (h.note .nestedButton).closeElement none (h.exists_of_hasInScope hc (by decide))
            (by decide)
      · exact ⟨inside, h⟩
    obtain ⟨outside, houtside⟩ := houtside
    exact hin (houtside.insertElement _ _)
  refine iteInduction (fun _ => ?_) fun _ => ?_
  · have hpopped : ∃ outer, OpenBody s (.phase .inBody) outer
        (if b.currentTag? = some "option".toList then b.pop else b) := by
      split
      · next hc => exact ⟨_, h.pop (h.inside_ne_nil hc (by decide))⟩
      · exact ⟨inside, h⟩
    obtain ⟨popped, hpopped⟩ := hpopped
    exact hin (hpopped.insertElement _ _)
  refine iteInduction (fun _ => hin (hp.insertLeaf _ _)) fun _ => ?_
  refine iteInduction (fun _ => hin ((h.note _).insertLeaf _ _)) fun _ => ?_
  refine iteInduction (fun _ => hin (h.insertLeaf _ _)) fun _ => ?_
  refine iteInduction (fun _ => (h.insertElement _ _).enterText (.inl rfl) hl) fun _ => ?_
  refine iteInduction (fun _ => (hp.insertElement _ _).enterText (.inl rfl) hl) fun _ => ?_
  refine iteInduction (fun _ => ?_) fun _ => ?_
  · exact iteInduction (fun _ => (hp.insertElement _ _).enterText (.inl rfl) hl)
      fun _ => hin (hp.insertElement _ _)
  · exact iteInduction (fun _ => hin (h.insertLeaf _ _)) fun _ => hin (h.insertElement _ _)

theorem OpenBody.bodyEndTag (h : OpenBody s (.phase .inBody) inside b) (tag : Text) :
    (b.bodyEndTag tag).Keeps late := by
  have hin : ∀ {outer b'}, OpenBody s (.phase .inBody) outer b' → Building late b' := fun h' =>
    h'.building (.inl rfl) hl
  have hnote : ∀ cause, (Outcome.settled (b.note cause)).Keeps late := fun cause =>
    .inl (hin (h.note cause))
  unfold Builder.bodyEndTag
  refine iteInduction (fun _ => ?_) fun hbody => ?_
  · exact iteInduction (fun _ => .inl ((h.enter .afterBody).building (.inr (.inl rfl)) hl))
      fun _ => hnote _
  refine iteInduction (fun _ => ?_) fun hhtml => ?_
  · exact iteInduction (fun _ => (h.enter .afterBody).building (.inr (.inl rfl)) hl)
      fun _ => hnote _
  refine iteInduction (fun _ => ?_) fun _ => ?_
  · have hopened : ∃ outer, OpenBody s (.phase .inBody) outer (if b.hasParagraph then b else
          (b.note (.notOpen tag "p")).insertElement "p" []).closeParagraph := by
      split
      · next hp =>
          exact h.closeParagraph (h.exists_mem_inside (Builder.mem_of_inScope hp) (by decide))
      · have hnew := (h.note (.notOpen tag "p")).insertElement "p" []
        refine hnew.closeParagraph ⟨_, List.mem_cons_self, ?_⟩
        exact Tree.tag?_withElement_self _
    obtain ⟨outer, hc⟩ := hopened
    exact .inl (hin hc)
  refine iteInduction (fun _ => ?_) fun _ => ?_
  · refine iteInduction (fun hscope => ?_) fun _ => hnote _
    obtain ⟨outer, hc⟩ := h.closeElement (some "li".toList)
      (h.exists_of_hasInScope hscope (by decide)) (by decide)
    exact .inl (hin hc)
  refine iteInduction (fun hitem => ?_) fun _ => ?_
  · refine iteInduction (fun hscope => ?_) fun _ => hnote _
    obtain ⟨outer, hc⟩ := h.closeElement (some tag)
      (h.exists_of_hasInScope hscope (by rcases hitem with rfl | rfl <;> decide))
      fun t ht _ => by rw [List.mem_singleton.1 ht]
    exact .inl (hin hc)
  refine iteInduction (fun _ => ?_) fun _ => ?_
  · refine iteInduction (fun hscope => ?_) fun _ => hnote _
    obtain ⟨t, ht, hscope⟩ := List.any_eq_true.1 hscope
    have hshut : ∀ t ∈ Category.headings,
        t ∉ (["body", "template", "html"].map String.toList : List Text) := by decide
    obtain ⟨id, hid, htag⟩ := h.exists_mem_inside (Builder.mem_of_inScope hscope) (hshut t ht)
    obtain ⟨outer, hc⟩ := h.closeElement none ⟨id, hid, t, ht, htag⟩ (by decide)
    exact .inl (hin hc)
  refine iteInduction (fun hblock => ?_) fun _ => ?_
  · refine iteInduction (fun hscope => ?_) fun _ => hnote _
    have hmem : tag ∈ Category.blocks := List.contains_iff_mem.1 hblock
    have hshut : ∀ t ∈ Category.blocks, t ∉ Category.implied ∧
        t ∉ (["body", "template", "html"].map String.toList : List Text) := by decide
    obtain ⟨outer, hc⟩ := h.closeElement none (h.exists_of_hasInScope hscope (hshut tag hmem).2)
      fun t ht himplied => absurd (List.mem_singleton.1 ht ▸ himplied) (hshut tag hmem).1
    exact .inl (hin hc)
  refine iteInduction (fun _ => .inl (hin h)) fun _ => ?_
  obtain ⟨outer, hc⟩ := h.closeMatching hbody
  exact .inl (hin hc)

end

theorem Builder.Sound.outermost_lt (h : b.Sound) : b.outermost?.getD Tree.root < b.tree.size := by
  rw [Builder.outermost?]
  cases ho : b.openElements.getLast? with
  | none => exact h.root_lt
  | some id => exact Tree.lt_size_of_isElement (h.opened id (List.mem_of_getLast? ho))

theorem OpenBody.complete {p : Phase} (h : OpenBody s (.phase p) inside b) (hp : p ≠ .afterHead)
    (hl : late = !s.templates.isEmpty) : Complete late { b with stopped := true } where
  stopped := rfl
  mode_ne he := hp (Mode.phase.inj (h.mode.symm.trans he))
  spine := ⟨s, hl, h.spine⟩

namespace Building

variable {t : Token} {p : Phase}

theorem inBodyRules (h : Building late b) (hm : b.mode = .phase .inBody) :
    (b.inBodyRules t).Keeps late := by
  obtain ⟨s, inside, hl, ho⟩ := h.openBody hm (.inl rfl)
  cases t with
  | doctype name => exact .inl (h.note _)
  | startTag tag attributes selfClosing =>
      exact .inl (ho.bodyStartTag hl tag attributes selfClosing)
  | endTag tag => exact ho.bodyEndTag hl tag
  | comment data => exact .inl (h.insertComment h.sound.current_lt data)
  | character c => exact iteInduction (fun _ => .inl (h.note _)) fun _ => .inl (h.insertText _)
  | endOfFile => exact .inr (ho.complete (by decide) hl)

/-- Content after the body opens the body again. -/
theorem reopen (h : Building late b) (hm : b.mode = .phase p) (hp : p.FromBody) (cause : Cause) :
    (Outcome.passed .inBody (b.note cause)).Keeps late := by
  obtain ⟨s, inside, hl, ho⟩ := h.openBody hm hp
  exact ((ho.note cause).enter .inBody).building (.inl rfl) hl

theorem afterBodyRules (h : Building late b) (hm : b.mode = .phase .afterBody) :
    (b.afterBodyRules t).Keeps late := by
  have hr := h.reopen hm (.inr (.inl rfl)) .contentAfterBody
  obtain ⟨s, inside, hl, ho⟩ := h.openBody hm (.inr (.inl rfl))
  cases t with
  | doctype name => exact .inl (h.note _)
  | startTag tag attributes selfClosing =>
      exact iteInduction (fun _ => .inl (h.htmlAgain attributes)) fun _ => hr
  | endTag tag =>
      refine iteInduction (fun _ => .inl ?_) fun _ => hr
      exact (ho.enter .afterAfterBody).building (.inr (.inr rfl)) hl
  | comment data => exact .inl (h.insertComment h.sound.outermost_lt data)
  | character c => exact iteInduction (fun _ => .inl (h.insertText _)) fun _ => hr
  | endOfFile => exact .inr (ho.complete (by decide) hl)

theorem afterAfterBodyRules (h : Building late b) (hm : b.mode = .phase .afterAfterBody) :
    (b.afterAfterBodyRules t).Keeps late := by
  have hr := h.reopen hm (.inr (.inr rfl)) .contentAfterHtml
  obtain ⟨s, inside, hl, ho⟩ := h.openBody hm (.inr (.inr rfl))
  cases t with
  | doctype name => exact .inl (h.note _)
  | startTag tag attributes selfClosing =>
      exact iteInduction (fun _ => .inl (h.htmlAgain attributes)) fun _ => hr
  | endTag tag => exact hr
  | comment data => exact .inl (h.insertComment h.sound.root_lt data)
  | character c => exact iteInduction (fun _ => .inl (h.insertText _)) fun _ => hr
  | endOfFile => exact .inr (ho.complete (by decide) hl)

end Building

end AmpMarkup.Html
