import AmpMarkup.Proofs.Html.BodyRules

/-! Every token keeps the structure of the document under construction. The phases before the body
build the document element, the head and the body in turn; a `template` between head and body is the
one element that stays open on the way. -/

namespace AmpMarkup.Html

open Dom (Element Tree NodeId)

/-- Whether a token is a `template` start tag. -/
def Token.isTemplateStart : Token → Bool
  | .startTag tag _ _ => tag == "template".toList
  | _ => false

/-- Whether a token is a `template` start tag that comes between head and body. -/
def Builder.opensLateTemplate (b : Builder) (t : Token) : Bool :=
  b.mode == .phase .afterHead && t.isTemplateStart

variable {late : Bool} {b : Builder} {p : Phase} {stack : List NodeId} {t : Token}

/-- A new element inside one that is not the document element. -/
theorem Stage.grow {tree : Tree} {head : Option NodeId} {parent : NodeId}
    (h : Stage late tree head stack p) (hp : p = .inHead ∨ p = .afterHead) (hb : tree.Bounded)
    (hlt : ∀ id ∈ stack, id < tree.size) (hparent : parent < tree.size)
    (hroot : parent ≠ Tree.root) (hlast : stack.getLast? ≠ some parent) (e : Element) :
    Stage late (tree.withElement parent e) head stack p := by
  rcases hp with rfl | rfl
  · obtain ⟨hl, html, id, inside, rfl, hd, hh, htag, hi⟩ := h
    have hne : parent ≠ html := by
      rintro rfl
      exact hlast (by simp)
    refine ⟨hl, html, id, inside, rfl, hd.grow hb hparent hroot hne e, hh,
      Tree.tag?_withElement_of_some e htag, fun i him => ⟨(hi i him).1, ?_⟩⟩
    rw [Tree.tag?_withElement_of_lt e (hlt i (List.mem_append_left _ him))]
    exact (hi i him).2
  · obtain ⟨html, id, templates, hl, rfl, hd, hh, htag, hi⟩ := h
    have hne : parent ≠ html := by
      rintro rfl
      exact hlast (by simp)
    exact ⟨html, id, templates, hl, rfl, hd.grow hb hparent hroot hne e, hh,
      Tree.tag?_withElement_of_some e htag,
      fun i him => Tree.tag?_withElement_of_some e (hi i him)⟩

/-! ### Before the head -/

/-- The document element. -/
theorem Stage.openHtml (h : Stage late b.tree b.head b.openElements .beforeHtml) (hb : b.Sound)
    (attributes : List Attribute) :
    Stage late (b.insertElement "html" attributes).tree b.head
      (b.insertElement "html" attributes).openElements .beforeHead := by
  obtain ⟨hl, hs, hd⟩ := h
  have hc : b.current = Tree.root := by
    rw [Builder.current, hs]
    rfl
  have hchildren := Tree.elementChildren_withElement hb.bounded hb.current_lt
    ⟨"html", Attributes.empty.addAll attributes⟩
  refine ⟨hl, b.tree.size, congrArg (b.tree.size :: ·) hs, ?_,
    Tree.tag?_withElement_self _, ?_⟩
  · refine (hchildren _).trans ?_
    rw [if_pos hc.symm, hd, List.nil_append]
  · refine (hchildren _).trans ?_
    rw [if_neg (Nat.ne_of_gt hb.current_lt), Tree.elementChildren,
      Tree.children_eq_nil (Nat.le_refl _), List.filter_nil]

/-- The head. -/
theorem Stage.openHead (h : Stage late b.tree b.head b.openElements .beforeHead) (hb : b.Sound)
    (attributes : List Attribute) :
    Stage late (b.insertHead attributes).tree (b.insertHead attributes).head
      (b.insertHead attributes).openElements .inHead := by
  obtain ⟨hl, html, hs, hd⟩ := h
  have hc : b.current = html := by
    rw [Builder.current, hs]
    rfl
  have hroot := hb.current_ne_root (by simp [hs])
  have hchildren := Tree.elementChildren_withElement hb.bounded hb.current_lt
    ⟨"head", Attributes.empty.addAll attributes⟩
  refine ⟨hl, html, b.tree.size, [], congrArg (b.tree.size :: ·) hs, ⟨?_, ?_, ?_⟩, rfl,
    Tree.tag?_withElement_self _, fun i hi => by cases hi⟩
  · refine (hchildren _).trans ?_
    rw [if_neg hroot.symm, hd.document]
  · exact Tree.tag?_withElement_of_some _ hd.tag
  · refine (hchildren _).trans ?_
    rw [if_pos hc.symm, hd.children, List.nil_append]

namespace Building

theorem initialRules (h : Building late b) (hm : b.mode = .phase .initial) :
    (b.initialRules t).Keeps late := by
  have hpassed : Building late (b.enter .beforeHtml) :=
    .enter h.sound h.running (h.stage_of_phase (p := .initial) hm)
  cases t with
  | doctype name =>
      have hd : Dom.Tree.SameElements b.tree
          (b.insertBelow Tree.root (.doctype (name.getD []))).tree :=
        Tree.sameElements_alloc_append h.sound.bounded h.sound.root_lt fun e he => by cases he
      exact .inl (hpassed.same hd rfl rfl rfl rfl)
  | comment data => exact .inl (h.insertComment h.sound.root_lt data)
  | character c => exact iteInduction (fun _ => .inl h) fun _ => hpassed
  | startTag | endTag | endOfFile => exact hpassed

theorem beforeHtmlRules (h : Building late b) (hm : b.mode = .phase .beforeHtml) :
    (b.beforeHtmlRules t).Keeps late := by
  have hopen : ∀ attributes,
      Building late ((b.insertElement "html" attributes).enter .beforeHead) := fun attributes =>
    .enter (h.sound.insertElement _ _) h.running
      ((h.stage_of_phase hm).openHtml h.sound attributes)
  have himplied := hopen []
  cases t with
  | doctype name => exact .inl (h.note _)
  | comment data => exact .inl (h.insertComment h.sound.root_lt data)
  | character c => exact iteInduction (fun _ => .inl h) fun _ => himplied
  | startTag tag attributes selfClosing =>
      exact iteInduction (fun _ => .inl (hopen attributes)) fun _ => himplied
  | endTag tag => exact iteInduction (fun _ => himplied) fun _ => .inl (h.note _)
  | endOfFile => exact himplied

theorem beforeHeadRules (h : Building late b) (hm : b.mode = .phase .beforeHead) :
    (b.beforeHeadRules t).Keeps late := by
  have hopen : ∀ attributes, Building late ((b.insertHead attributes).enter .inHead) :=
    fun attributes =>
      .enter ((h.sound.insertElement _ _).same (.refl (h.sound.insertElement _ _).bounded)
        fun _ hid => hid) h.running ((h.stage_of_phase hm).openHead h.sound attributes)
  have himplied := hopen []
  cases t with
  | doctype name => exact .inl (h.note _)
  | comment data => exact .inl (h.insertComment h.sound.current_lt data)
  | character c => exact iteInduction (fun _ => .inl h) fun _ => himplied
  | startTag tag attributes selfClosing =>
      refine iteInduction (fun _ => .inl (h.htmlAgain attributes)) fun _ => ?_
      exact iteInduction (fun _ => .inl (hopen attributes)) fun _ => himplied
  | endTag tag => exact iteInduction (fun _ => himplied) fun _ => .inl (h.note _)
  | endOfFile => exact himplied

end Building

/-! ### The head -/

/-- Closing the head leaves the document element open. -/
theorem Stage.closeHead (h : Stage late b.tree b.head b.openElements .inHead) :
    Stage late (b.popThrough ["head"]).tree (b.popThrough ["head"]).head
      (b.popThrough ["head"]).openElements .afterHead := by
  obtain ⟨rfl, html, id, inside, hs, hd, hh, htag, hi⟩ := h
  refine ⟨html, id, [], rfl, ?_, hd, hh, htag, fun i hi => by cases hi⟩
  have hpass : ∀ i ∈ inside,
      (!(b.tree.tag? i).any ["head".toList].contains) = true := by
    intro i him
    have hne := (hi i him).2
    cases ht : b.tree.tag? i with
    | none => rfl
    | some u =>
        rw [ht] at hne
        simpa using fun he : u = "head".toList => hne (he ▸ rfl)
  change (b.openElements.dropWhile _).tail = _
  rw [hs, List.dropWhile_append_of_pos hpass, List.dropWhile_cons_of_neg (by simp [htag])]
  rfl

theorem Building.insertHeadContent (h : Building late b) (hm : b.mode = .phase .inHead)
    {tag : Text} (htag : tag ≠ "head".toList) (attributes : List Attribute) :
    Building late (b.insertHeadContent .inHead tag attributes) := by
  have hstage := h.stage_of_phase hm
  have hsound := h.sound.insertElement tag attributes
  have hlt : ∀ id ∈ b.openElements, id < b.tree.size := fun id hid =>
    Tree.lt_size_of_isElement (h.sound.opened id hid)
  have hgrown : Stage late (b.insertElement tag attributes).tree b.head b.openElements
      .inHead := by
    obtain ⟨hl, html, id, inside, hs, hd, hh, hhead, hi⟩ := h.stage_of_phase hm
    have hlast : b.openElements.getLast? = some html := by simp [hs]
    refine hstage.grow (.inl rfl) h.sound.bounded hlt h.sound.current_lt
      (h.sound.current_ne_root (by simp [hs])) ?_ _
    rw [hlast, Builder.current, hs]
    cases inside with
    | nil =>
        intro he
        have hid : html = id := Option.some.inj he
        rw [← hid, hd.tag] at hhead
        exact absurd hhead (by decide)
    | cons i inside =>
        intro he
        exact (hi i List.mem_cons_self).1 (Option.some.inj he).symm
  unfold Builder.insertHeadContent
  refine iteInduction (fun _ => ?_) fun _ => iteInduction (fun _ => ?_) fun _ => ?_
  · exact .of_stage (hsound.same (.refl hsound.bounded) fun _ => List.mem_cons_of_mem _)
      h.running hm hgrown
  · exact .of_text_stage (hsound.same (.refl hsound.bounded) fun _ hid => hid) h.running rfl rfl
      hgrown
  · refine .of_stage hsound h.running hm ?_
    obtain ⟨hl, html, id, inside, hs, hd, hh, hhead, hi⟩ := hgrown
    refine ⟨hl, html, id, b.tree.size :: inside, congrArg (b.tree.size :: ·) hs, hd, hh, hhead,
      fun i him => ?_⟩
    rcases List.mem_cons.1 him with rfl | him
    · refine ⟨fun he => Nat.lt_irrefl _ (hlt b.tree.size ?_), ?_⟩
      · rw [hs, he]
        simp
      · rw [show (b.insertElement tag attributes).tree.tag? b.tree.size = some tag from
          Tree.tag?_withElement_self _]
        exact fun he => htag (Option.some.inj he)
    · exact hi i him

/-- An end tag in the head closes elements inside it. -/
theorem Building.popInHead (h : Building late b) (hm : b.mode = .phase .inHead) {tag : Text}
    (hne : tag ≠ "head".toList ∧ tag ≠ "html".toList) (htag : tag ∈ b.openTags) :
    Building late (b.popThrough [tag]) := by
  refine .of_stage (h.sound.same (.refl h.sound.bounded) fun id hid => ?_) h.running hm ?_
  · exact (List.dropWhile_sublist _).subset (List.mem_of_mem_tail hid)
  obtain ⟨hl, html, id, inside, hs, hd, hh, hhead, hi⟩ := h.stage_of_phase hm
  obtain ⟨i, hi', htag⟩ := Builder.mem_openTags.1 htag
  have hmem : i ∈ inside := by
    rw [hs] at hi'
    refine (List.mem_append.1 hi').resolve_right fun hm => ?_
    rcases List.mem_cons.1 hm with rfl | hm
    · exact hne.1 (Option.some.inj (htag.symm.trans hhead))
    · rw [List.mem_singleton.1 hm, hd.tag] at htag
      exact hne.2 (Option.some.inj htag).symm
  obtain ⟨rest, hrest, he⟩ := Builder.popThrough_eq hs
    ⟨i, hmem, tag, List.mem_singleton.2 rfl, htag⟩
  rw [he]
  exact ⟨hl, html, id, rest, rfl, hd, hh, hhead, fun j hj => hi j (hrest.subset hj)⟩

theorem Building.inHeadRules (h : Building late b) (hm : b.mode = .phase .inHead) :
    (b.inHeadRules t).Keeps late := by
  have hclosed : Building late ((b.popThrough ["head"]).enter .afterHead) := by
    refine .enter (h.sound.same (.refl h.sound.bounded) fun id hid => ?_) h.running
      (h.stage_of_phase hm).closeHead
    exact (List.dropWhile_sublist _).subset (List.mem_of_mem_tail hid)
  cases t with
  | doctype name => exact .inl (h.note _)
  | comment data => exact .inl (h.insertComment h.sound.current_lt data)
  | character c => exact iteInduction (fun _ => .inl (h.insertText _)) fun _ => hclosed
  | startTag tag attributes selfClosing =>
      refine iteInduction (fun _ => .inl (h.htmlAgain attributes)) fun _ => ?_
      refine iteInduction (fun hcontent => ?_) fun _ => ?_
      · refine .inl (h.insertHeadContent hm ?_ attributes)
        rintro rfl
        exact absurd hcontent (by decide)
      · exact iteInduction (fun _ => .inl (h.note _)) fun _ => hclosed
  | endTag tag =>
      refine iteInduction (fun _ => .inl hclosed) fun _ => ?_
      refine iteInduction (fun hopen => ?_) fun _ => ?_
      · refine .inl (h.popInHead hm ?_ (List.contains_iff_mem.1 hopen.2))
        rcases hopen.1 with rfl | rfl <;> decide
      refine iteInduction (fun _ => hclosed) fun _ => ?_
      exact iteInduction (fun _ => .inl h) fun _ => .inl (h.note _)
  | endOfFile => exact hclosed

/-! ### Between head and body -/

/-- The body, in the document element or in the innermost template. -/
theorem Stage.openBody (h : Stage late b.tree b.head b.openElements .afterHead) (hb : b.Sound)
    (attributes : List Attribute) :
    Stage late (b.insertElement "body" attributes).tree b.head
      (b.insertElement "body" attributes).openElements .inBody := by
  obtain ⟨html, id, templates, hl, hs, hd, hh, hhead, ht⟩ := h
  have hlt := hb.current_lt
  have hroot := hb.current_ne_root (by simp [hs])
  have hchildren := Tree.elementChildren_withElement hb.bounded hlt
    ⟨"body", Attributes.empty.addAll attributes⟩
  refine ⟨⟨html, id, b.tree.size, templates⟩, [], hl, congrArg (b.tree.size :: ·) hs,
    ⟨⟨?_, Tree.tag?_withElement_of_some _ hd.tag, ?_⟩,
      Tree.tag?_withElement_of_some _ hhead, Tree.tag?_withElement_self _,
      fun i hi => Tree.tag?_withElement_of_some _ (ht i hi)⟩, List.not_mem_nil⟩
  · refine (hchildren _).trans ?_
    rw [if_neg hroot.symm, hd.document]
  · refine (hchildren _).trans ?_
    rw [hd.children]
    cases templates with
    | nil =>
        have hc : b.current = html := by
          rw [Builder.current, hs]
          rfl
        rw [if_pos hc.symm, if_pos rfl]
        rfl
    | cons i templates =>
        have hc : b.current = i := by
          rw [Builder.current, hs]
          rfl
        have hne : html ≠ b.current := by
          intro he
          have := ht i List.mem_cons_self
          rw [← hc, ← he, hd.tag] at this
          exact absurd this (by decide)
        rw [if_neg hne, if_neg (List.cons_ne_nil _ _)]

/-- What content of the head does that comes after the head's end: it goes into the head, and of its
elements only the head itself does not stay open. -/
theorem Builder.insertLateHeadContent_eq {id : NodeId} (hh : b.head = some id)
    (hne : ∀ i ∈ b.openElements, i ≠ id) (hsize : b.tree.size ≠ id) (tag : Text)
    (attributes : List Attribute) :
    b.insertLateHeadContent tag attributes =
      { b.note (.lateHeadContent tag) with
        tree := b.tree.withElement id ⟨tag, Attributes.empty.addAll attributes⟩
        mode := if Category.headLeaves.contains tag then b.mode
          else if Category.headTexts.contains tag then .plainText .afterHead else b.mode
        openElements := if Category.headLeaves.contains tag then b.openElements
          else b.tree.size :: b.openElements } := by
  have hfilter : b.openElements.filter (· != id) = b.openElements :=
    List.filter_eq_self.2 fun i hi => bne_iff_ne.2 (hne i hi)
  have hpushed : (b.tree.size :: id :: b.openElements).filter (· != id) =
      b.tree.size :: b.openElements := by
    simp [hsize, hfilter]
  have hleaf : (id :: b.openElements).filter (· != id) = b.openElements := by
    simp [hfilter]
  unfold insertLateHeadContent insertHeadContent
  rw [hh]
  dsimp only
  split
  · exact congrArg (fun ids => { b.note (.lateHeadContent tag) with
      tree := b.tree.withElement id ⟨tag, Attributes.empty.addAll attributes⟩
      openElements := ids }) hleaf
  · split
    · exact congrArg (fun ids => { b.note (.lateHeadContent tag) with
        tree := b.tree.withElement id ⟨tag, Attributes.empty.addAll attributes⟩
        mode := .plainText .afterHead
        openElements := ids }) hpushed
    · exact congrArg (fun ids => { b.note (.lateHeadContent tag) with
        tree := b.tree.withElement id ⟨tag, Attributes.empty.addAll attributes⟩
        openElements := ids }) hpushed

/-- Content of the head after its end goes into the head. Of its elements only a `template` stays
open. -/
theorem Building.insertLateHeadContent (h : Building late b) (hm : b.mode = .phase .afterHead)
    {tag : Text} (htag : Category.headContent.contains tag = true)
    (attributes : List Attribute) :
    Building (late || tag == "template".toList) (b.insertLateHeadContent tag attributes) := by
  have hstage := h.stage_of_phase hm
  obtain ⟨html, id, templates, hl, hs, hd, hh, hhead, ht⟩ := h.stage_of_phase hm
  have hid : id < b.tree.size := Tree.lt_size_of_tag? hhead
  have hne : ∀ i ∈ b.openElements, i ≠ id := by
    rintro i hi rfl
    rw [hs] at hi
    rcases List.mem_append.1 hi with hi | hi
    · rw [ht i hi] at hhead
      exact absurd hhead (by decide)
    · rw [List.mem_singleton.1 hi, hd.tag] at hhead
      exact absurd hhead (by decide)
  have hroot : id ≠ Tree.root := by
    rintro rfl
    have := h.sound.root
    rw [← Tree.isSome_tag?, hhead] at this
    cases this
  have hgrown := hstage.grow (.inr rfl) h.sound.bounded
    (fun i hi => Tree.lt_size_of_isElement (h.sound.opened i hi)) hid hroot
    (fun hlast => hne id (List.mem_of_getLast? hlast) rfl)
    ⟨tag, Attributes.empty.addAll attributes⟩
  rw [Builder.insertLateHeadContent_eq hh hne (Nat.ne_of_gt hid)]
  by_cases hleaf : Category.headLeaves.contains tag = true
  · have hnot : tag ≠ "template".toList := by
      rintro rfl
      exact absurd hleaf (by decide)
    rw [beq_false_of_ne hnot, Bool.or_false]
    simp only [hleaf, if_true]
    exact .of_stage (h.sound.grow hid rfl fun i hi => .inr hi) h.running hm hgrown
  simp only [hleaf, if_false, Bool.false_eq_true]
  by_cases htext : Category.headTexts.contains tag = true
  · have hnot : tag ≠ "template".toList := by
      rintro rfl
      exact absurd htext (by decide)
    rw [beq_false_of_ne hnot, Bool.or_false]
    simp only [htext, if_true]
    exact .of_text_stage (h.sound.grow hid rfl fun i hi => List.mem_cons.1 hi) h.running rfl rfl
      hgrown
  simp only [htext, if_false, Bool.false_eq_true]
  have htemplate : tag = "template".toList := by
    have hall : ∀ t ∈ Category.headContent, ¬ Category.headLeaves.contains t = true →
        ¬ Category.headTexts.contains t = true → t = "template".toList := by decide
    exact hall tag (List.contains_iff_mem.1 htag) hleaf htext
  subst htemplate
  rw [beq_self_eq_true, Bool.or_true]
  refine .of_stage (h.sound.grow hid rfl fun i hi => List.mem_cons.1 hi) h.running hm ?_
  obtain ⟨html', id', templates', hl', hs', hd', hh', hhead', ht'⟩ := hgrown
  refine ⟨html', id', b.tree.size :: templates', rfl, congrArg (b.tree.size :: ·) hs', hd', hh',
    hhead', fun i hi => ?_⟩
  rcases List.mem_cons.1 hi with rfl | hi
  · exact Tree.tag?_withElement_self _
  · exact ht' i hi

theorem Building.afterHeadRules (h : Building late b) (hm : b.mode = .phase .afterHead) :
    (b.afterHeadRules t).Keeps (late || t.isTemplateStart) := by
  have hopen : ∀ attributes, Building late ((b.insertElement "body" attributes).enter .inBody) :=
    fun attributes =>
      .enter (h.sound.insertElement _ _) h.running ((h.stage_of_phase hm).openBody h.sound attributes)
  have himplied := hopen []
  cases t with
  | startTag tag attributes selfClosing =>
      by_cases htemplate : tag = "template".toList
      · subst htemplate
        exact .inl (h.insertLateHeadContent hm (by decide) attributes)
      have hlate : (late || Token.isTemplateStart (.startTag tag attributes selfClosing)) = late := by
        rw [Token.isTemplateStart, beq_false_of_ne htemplate, Bool.or_false]
      rw [hlate]
      refine iteInduction (fun _ => .inl (h.htmlAgain attributes)) fun _ => ?_
      refine iteInduction (fun _ => .inl (hopen attributes)) fun _ => ?_
      refine iteInduction (fun hcontent => .inl ?_) fun _ => ?_
      · have := h.insertLateHeadContent hm hcontent attributes
        rwa [beq_false_of_ne htemplate, Bool.or_false] at this
      · exact iteInduction (fun _ => .inl (h.note _)) fun _ => himplied
  | doctype name =>
      simp only [Token.isTemplateStart, Bool.or_false]
      exact .inl (h.note _)
  | comment data =>
      simp only [Token.isTemplateStart, Bool.or_false]
      exact .inl (h.insertComment h.sound.current_lt data)
  | character c =>
      simp only [Token.isTemplateStart, Bool.or_false]
      exact iteInduction (fun _ => .inl (h.insertText _)) fun _ => himplied
  | endTag tag =>
      simp only [Token.isTemplateStart, Bool.or_false]
      exact iteInduction (fun _ => himplied) fun _ => .inl (h.note _)
  | endOfFile =>
      simp only [Token.isTemplateStart, Bool.or_false]
      exact himplied

end AmpMarkup.Html
