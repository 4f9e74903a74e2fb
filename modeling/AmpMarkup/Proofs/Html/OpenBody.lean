import AmpMarkup.Proofs.Html.OpenElements

/-! The open elements once the body is open. What the rules for the body close is always inside the
body, so the elements that hold the document together stay open to the end. -/

namespace AmpMarkup.Html

open Dom (Element Tree NodeId)

/-- The document element with the elements among its children. -/
structure HasDocument (t : Tree) (html : NodeId) (children : List NodeId) : Prop where
  document : t.elementChildren Tree.root = [html]
  tag : t.tag? html = some "html".toList
  children : t.elementChildren html = children

/-- The elements that hold a document together: the document element, the head and the body, and
`template` elements that were opened between head and body. -/
structure Spine where
  html : NodeId
  head : NodeId
  body : NodeId
  templates : List NodeId

/-- The open elements from the body on. -/
def Spine.stack (s : Spine) : List NodeId :=
  s.body :: (s.templates ++ [s.html])

/-- A tree has these elements. Below the document element the body stands only where no template was
opened before it. -/
structure Spine.In (s : Spine) (t : Tree) : Prop where
  html : HasDocument t s.html (if s.templates = [] then [s.head, s.body] else [s.head])
  head : t.tag? s.head = some "head".toList
  body : t.tag? s.body = some "body".toList
  templates : ∀ id ∈ s.templates, t.tag? id = some "template".toList

/-- The body is open, with other elements inside it. -/
structure OpenBody (s : Spine) (mode : Mode) (inside : List NodeId) (b : Builder) : Prop where
  sound : b.Sound
  mode : b.mode = mode
  running : b.stopped = false
  stack : b.openElements = inside ++ s.stack
  spine : s.In b.tree
  html_not_mem : s.html ∉ inside

/-! ### Trees that change elsewhere -/

section
variable {s : Spine} {t t' : Tree} {html : NodeId} {children : List NodeId}

theorem HasDocument.same (h : HasDocument t html children) (ht : Dom.Tree.SameElements t t') :
    HasDocument t' html children where
  document := (ht.elementChildren _).trans h.document
  tag := (ht.tag? _).trans h.tag
  children := (ht.elementChildren _).trans h.children

theorem Spine.In.same (h : s.In t) (ht : Dom.Tree.SameElements t t') : s.In t' where
  html := h.html.same ht
  head := (ht.tag? _).trans h.head
  body := (ht.tag? _).trans h.body
  templates id hid := (ht.tag? _).trans (h.templates id hid)

variable {p : NodeId}

theorem HasDocument.grow (h : HasDocument t html children) (hb : t.Bounded) (hp : p < t.size)
    (hroot : p ≠ Tree.root) (hhtml : p ≠ html) (e : Element) :
    HasDocument (t.withElement p e) html children where
  document := by
    rw [Tree.elementChildren_withElement hb hp, if_neg hroot.symm, h.document]
  tag := Tree.tag?_withElement_of_some e h.tag
  children := by
    rw [Tree.elementChildren_withElement hb hp, if_neg hhtml.symm, h.children]

theorem Spine.In.grow (h : s.In t) (hb : t.Bounded) (hp : p < t.size) (hroot : p ≠ Tree.root)
    (hhtml : p ≠ s.html) (e : Element) : s.In (t.withElement p e) where
  html := h.html.grow hb hp hroot hhtml e
  head := Tree.tag?_withElement_of_some e h.head
  body := Tree.tag?_withElement_of_some e h.body
  templates id hid := Tree.tag?_withElement_of_some e (h.templates id hid)

end

/-- Whether an element is closed where the ends of elements may be left out. -/
def Builder.closesImplied (b : Builder) (except : Option Text) (id : NodeId) : Bool :=
  (b.tree.tag? id).any fun tag => Category.implied.contains tag && except != some tag

namespace OpenBody

variable {s : Spine} {mode : Mode} {inside : List NodeId} {b b' : Builder} {tag : Text}
  {attributes : List Attribute}

/-! ### Inserting -/

theorem same (h : OpenBody s mode inside b) (ht : Dom.Tree.SameElements b.tree b'.tree)
    (hm : b'.mode = b.mode) (hs : b'.stopped = b.stopped)
    (ho : b'.openElements = b.openElements) : OpenBody s mode inside b' where
  sound := h.sound.same ht fun _ hid => ho ▸ hid
  mode := hm.trans h.mode
  running := hs.trans h.running
  stack := ho.trans h.stack
  spine := h.spine.same ht
  html_not_mem := h.html_not_mem

theorem note (h : OpenBody s mode inside b) (cause : Cause) :
    OpenBody s mode inside (b.note cause) :=
  h.same (.refl h.sound.bounded) rfl rfl rfl

theorem insertText (h : OpenBody s mode inside b) (data : Text) :
    OpenBody s mode inside (b.insertText data) :=
  h.same (Tree.sameElements_appendText h.sound.bounded _ _) rfl rfl rfl

theorem merge (h : OpenBody s mode inside b) (target : Option NodeId) :
    OpenBody s mode inside (b.merge target attributes) := by
  cases target with
  | none => exact h
  | some id =>
      exact h.same (Tree.sameElements_mapAttributes h.sound.bounded id (·.addAll attributes)) rfl rfl rfl

theorem insertComment {parent : NodeId} (h : OpenBody s mode inside b)
    (hp : parent < b.tree.size) (data : Text) :
    OpenBody s mode inside (b.insertComment parent data) :=
  h.same (Tree.sameElements_alloc_append h.sound.bounded hp fun e he => by cases he) rfl rfl rfl

theorem current_mem (h : OpenBody s mode inside b) : b.current ∈ inside ++ [s.body] := by
  rw [Builder.current, h.stack]
  cases inside with
  | nil => exact List.mem_cons_self
  | cons id ids => exact List.mem_cons_self

theorem current_ne_html (h : OpenBody s mode inside b) : b.current ≠ s.html := by
  intro he
  rcases List.mem_append.1 h.current_mem with hc | hc
  · exact h.html_not_mem (he ▸ hc)
  · have hb := h.spine.body
    rw [← List.mem_singleton.1 hc, he, h.spine.html.tag] at hb
    exact absurd hb (by decide)

theorem current_ne_root (h : OpenBody s mode inside b) : b.current ≠ Tree.root := by
  refine h.sound.current_ne_root fun hnil => ?_
  rw [h.stack] at hnil
  exact List.cons_ne_nil _ _ (List.append_eq_nil_iff.1 hnil).2

theorem insertElement (h : OpenBody s mode inside b) (tag : Text)
    (attributes : List Attribute) :
    OpenBody s mode (b.tree.size :: inside) (b.insertElement tag attributes) where
  sound := h.sound.insertElement tag attributes
  mode := h.mode
  running := h.running
  stack := congrArg (b.tree.size :: ·) h.stack
  spine := h.spine.grow h.sound.bounded h.sound.current_lt h.current_ne_root h.current_ne_html _
  html_not_mem := by
    have hhtml := Tree.lt_size_of_tag? h.spine.html.tag
    exact fun hm => (List.mem_cons.1 hm).elim (Nat.ne_of_lt hhtml) h.html_not_mem

/-! ### Closing -/

/-- Some of the elements inside the body are closed. -/
theorem close {outer : List NodeId} (h : OpenBody s mode inside b) (ho : outer <:+ inside) :
    OpenBody s mode outer { b with openElements := outer ++ s.stack } where
  sound := h.sound.same (.refl h.sound.bounded) fun id hid => by
    rw [h.stack]
    exact List.mem_append.2 ((List.mem_append.1 hid).imp_left fun hm => ho.subset hm)
  mode := h.mode
  running := h.running
  stack := rfl
  spine := h.spine
  html_not_mem hm := h.html_not_mem (ho.subset hm)

theorem pop (h : OpenBody s mode inside b) (hne : inside ≠ []) :
    OpenBody s mode inside.tail b.pop := by
  have : b.pop = { b with openElements := inside.tail ++ s.stack } := by
    rw [Builder.pop, h.stack, List.tail_append_of_ne_nil hne]
  exact this ▸ h.close (List.tail_suffix inside)

theorem insertLeaf (h : OpenBody s mode inside b) (tag : Text) (attributes : List Attribute) :
    OpenBody s mode inside (b.insertLeaf tag attributes) :=
  (h.insertElement tag attributes).pop (List.cons_ne_nil _ _)

/-- The innermost element is the body unless it has another tag. -/
theorem inside_ne_nil (h : OpenBody s mode inside b) (hc : b.currentTag? = some tag)
    (htag : tag ≠ "body".toList) : inside ≠ [] := by
  rintro rfl
  rw [Builder.currentTag?, h.stack, List.nil_append, Spine.stack, List.head?_cons,
    Option.bind_some, h.spine.body] at hc
  exact htag (Option.some.inj hc).symm

/-- An open element of a tag that none of the outer elements has is inside the body. -/
theorem exists_mem_inside (h : OpenBody s mode inside b) (ht : tag ∈ b.openTags)
    (houter : tag ∉ (["body", "template", "html"].map String.toList : List Text)) :
    ∃ id ∈ inside, b.tree.tag? id = some tag := by
  obtain ⟨id, hid, htag⟩ := Builder.mem_openTags.1 ht
  rw [h.stack] at hid
  rcases List.mem_append.1 hid with hid | hid
  · exact ⟨id, hid, htag⟩
  · refine absurd ?_ houter
    rcases List.mem_cons.1 hid with rfl | hid
    · rw [h.spine.body] at htag
      exact Option.some.inj htag ▸ by decide
    · rcases List.mem_append.1 hid with hid | hid
      · rw [h.spine.templates id hid] at htag
        exact Option.some.inj htag ▸ by decide
      · rw [List.mem_singleton.1 hid, h.spine.html.tag] at htag
        exact Option.some.inj htag ▸ by decide

/-- Closing through the innermost element of some tags, if one is open inside the body. -/
theorem popThrough {tags : List Text} (h : OpenBody s mode inside b)
    (ht : ∃ id ∈ inside, ∃ t ∈ tags, b.tree.tag? id = some t) :
    ∃ outer, OpenBody s mode outer (b.popThrough tags) := by
  obtain ⟨outer, ho, he⟩ := Builder.popThrough_eq h.stack ht
  exact ⟨outer, he ▸ h.close ho⟩

/-- Closing elements whose end tag may be left out ends at the body at the latest, and at any other
element that it does not close. -/
theorem closeImplied (h : OpenBody s mode inside b) (except : Option Text) :
    ∃ outer, OpenBody s mode outer (b.closeImplied except) ∧
      ∀ id ∈ inside, ∀ t, b.tree.tag? id = some t →
        (t ∈ Category.implied → except = some t) → id ∈ outer := by
  have hstack : (b.closeImplied except).openElements =
      inside.dropWhile (b.closesImplied except) ++ s.stack := by
    have hbody : ¬ b.closesImplied except s.body = true := by
      rw [Builder.closesImplied, h.spine.body]
      exact Bool.false_ne_true
    change b.openElements.dropWhile (b.closesImplied except) = _
    rw [h.stack, List.dropWhile_append, Spine.stack, List.dropWhile_cons_of_neg hbody]
    split
    · next he => rw [List.isEmpty_iff.1 he, List.nil_append]
    · rfl
  refine ⟨inside.dropWhile (b.closesImplied except), ?_, ?_⟩
  · have := h.close (List.dropWhile_suffix (b.closesImplied except))
    rw [← hstack] at this
    exact this
  · intro id hid t ht himp
    refine Builder.mem_dropWhile_of_mem hid ?_
    rw [Builder.closesImplied, ht, Option.any_some, Bool.and_eq_false_iff]
    by_cases hmem : t ∈ Category.implied
    · exact .inr (by rw [himp hmem, bne_self_eq_false])
    · exact .inl (by simpa using hmem)

/-- Closing an element of a tag with the elements inside it whose end tag may be left out. -/
theorem closeElement {tags : List Text} (h : OpenBody s mode inside b) (except : Option Text)
    (ht : ∃ id ∈ inside, ∃ t ∈ tags, b.tree.tag? id = some t)
    (himplied : ∀ t ∈ tags, t ∈ Category.implied → except = some t) :
    ∃ outer, OpenBody s mode outer ((b.closeImplied except).popThrough tags) := by
  obtain ⟨id, hid, t, htags, htag⟩ := ht
  obtain ⟨outer, ho, hkeep⟩ := h.closeImplied except
  exact ho.popThrough ⟨id, hkeep id hid t htag (himplied t htags), t, htags, htag⟩

theorem exists_of_hasInScope {markers : List Text} (h : OpenBody s mode inside b)
    (ht : b.hasInScope tag markers = true)
    (houter : tag ∉ (["body", "template", "html"].map String.toList : List Text)) :
    ∃ id ∈ inside, ∃ t ∈ [tag], b.tree.tag? id = some t := by
  obtain ⟨id, hid, htag⟩ := h.exists_mem_inside (Builder.mem_of_inScope ht) houter
  exact ⟨id, hid, tag, List.mem_singleton.2 rfl, htag⟩

theorem closeParagraph (h : OpenBody s mode inside b)
    (hp : ∃ id ∈ inside, b.tree.tag? id = some "p".toList) :
    ∃ outer, OpenBody s mode outer b.closeParagraph := by
  obtain ⟨id, hid, htag⟩ := hp
  obtain ⟨outer, ho, hkeep⟩ := h.closeImplied (some "p")
  have hmem := hkeep id hid "p".toList htag fun _ => rfl
  unfold Builder.closeParagraph
  dsimp only
  split
  · exact ho.popThrough ⟨id, hmem, "p".toList, List.mem_singleton.2 rfl, htag⟩
  · exact (ho.note _).popThrough ⟨id, hmem, "p".toList, List.mem_singleton.2 rfl, htag⟩

theorem endParagraph (h : OpenBody s mode inside b) :
    ∃ outer, OpenBody s mode outer b.endParagraph := by
  unfold Builder.endParagraph
  split
  · next hp =>
      exact h.closeParagraph (h.exists_mem_inside (Builder.mem_of_inScope hp) (by decide))
  · exact ⟨inside, h⟩

theorem endItem (h : OpenBody s mode inside b) (family : List Text)
    (hf : ∀ t ∈ family, t ∉ (["body", "template", "html"].map String.toList : List Text)) :
    ∃ outer, OpenBody s mode outer (b.endItem family) := by
  unfold Builder.endItem
  split
  · next item hi =>
      obtain ⟨hmem, hfam⟩ := Builder.mem_of_openItem? hi
      obtain ⟨id, hid, htag⟩ := h.exists_mem_inside hmem (hf item hfam)
      obtain ⟨outer, ho⟩ := h.closeElement (some item)
        ⟨id, hid, item, List.mem_singleton.2 rfl, htag⟩
        fun t ht _ => by rw [List.mem_singleton.1 ht]
      exact ho.endParagraph
  · exact h.endParagraph

/-- The search for the element of an end tag ends at the body at the latest. -/
theorem closeMatching (h : OpenBody s mode inside b) (htag : tag ≠ "body".toList) :
    ∃ outer, OpenBody s mode outer (b.closeMatching tag b.openElements) := by
  have hgen : ∀ ids : List NodeId, ids <:+ inside →
      ∃ outer, OpenBody s mode outer (b.closeMatching tag (ids ++ s.stack)) := by
    intro ids hids
    induction ids with
    | nil =>
        rw [List.nil_append, Spine.stack, Builder.closeMatching, h.spine.body]
        dsimp only
        rw [if_neg (Ne.symm htag), if_pos (by decide)]
        exact ⟨inside, h.note _⟩
    | cons id ids ih =>
        have hids' := (List.suffix_cons id ids).trans hids
        rw [List.cons_append, Builder.closeMatching]
        split
        · exact ih hids'
        · split
          · exact ⟨ids, h.close hids'⟩
          · split
            · exact ⟨inside, h.note _⟩
            · exact ih hids'
  rw [h.stack]
  exact hgen inside List.suffix_rfl

end OpenBody

end AmpMarkup.Html
