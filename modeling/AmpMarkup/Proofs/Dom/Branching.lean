import AmpMarkup.Proofs.Dom.Tidy

/-! Edits at a node leave every other node with its children. In trees that are made of them the
document and elements alone have children, so what is below a node is found through the elements among
its children. -/

namespace AmpMarkup.Dom.Tree

/-- The second tree is the first one or comes from it by an edit at a node: text or a new node put
last below it, or attributes that it gets. -/
inductive EditedAt (t : Tree) (p : NodeId) : Tree → Prop where
  | same : EditedAt t p t
  | text (data : Text) : EditedAt t p (t.appendText p data)
  | insert (content : Content) : p < t.size →
      EditedAt t p ((t.alloc content).append p t.size)
  | attributes (entries : List Attribute) : EditedAt t p (t.mapAttributes p (·.addAll entries))

/-- A tree in order in which the document and elements alone have children. -/
structure Branching (t : Tree) : Prop where
  ordered : t.Ordered
  document : t.isElement root = false
  inner : ∀ id, t.children id ≠ [] → id = root ∨ t.isElement id = true

variable {t t' t'' : Tree} {p id j top : NodeId}

/-! ### Edits -/

theorem Steady.refl (t : Tree) : t.Steady t :=
  ⟨Nat.le_refl _, fun _ _ => rfl, fun _ _ => .rfl, fun _ _ hc => hc⟩

theorem Steady.trans (h : t.Steady t') (h' : t'.Steady t'') : t.Steady t'' where
  size_le := Nat.le_trans h.size_le h'.size_le
  tag? id hid := (h'.tag? id (Nat.lt_of_lt_of_le hid h.size_le)).trans (h.tag? id hid)
  text? id hid := (h'.text? id (Nat.lt_of_lt_of_le hid h.size_le)).trans (h.text? id hid)
  children id c hc := h'.children id c (h.children id c hc)

theorem Steady.isElement (h : t.Steady t') (hid : id < t.size) :
    t'.isElement id = t.isElement id := by
  rw [← isSome_tag?, ← isSome_tag?, h.tag? id hid]

namespace EditedAt

variable (h : t.EditedAt p t')
include h

theorem steady : t.Steady t' := by
  cases h with
  | same => exact .refl t
  | text data => exact t.steady_appendText p data
  | insert content hp => exact steady_alloc_append hp content
  | attributes entries => exact t.steady_mapAttributes p _

theorem ordered (ho : t.Ordered) : t'.Ordered := by
  cases h with
  | same => exact ho
  | text data => exact ho.appendText p data
  | insert content hp => exact ho.alloc_append hp content
  | attributes entries => exact ho.mapAttributes p _

theorem children_ne (hid : id ≠ p) : t'.children id = t.children id := by
  cases h with
  | same => rfl
  | text data =>
      unfold appendText
      split
      · next hp =>
          split
          · exact children_setContent ..
          · rw [children_alloc_append (lt_size_of_isElement hp), if_neg hid]
      · rfl
  | insert content hp => rw [children_alloc_append hp, if_neg hid]
  | attributes entries => exact children_mapAttributes ..

theorem element?_ne (hlt : id < t.size) (hid : id ≠ p) : t'.element? id = t.element? id := by
  cases h with
  | same => rfl
  | text data =>
      unfold appendText
      split
      · split
        · next hl => exact element?_setContent_text (trailingText?_eq_some_iff.1 hl).2 _ id
        · exact element?_alloc_append t p _ (Nat.ne_of_lt hlt)
      · rfl
  | insert content _ => exact element?_alloc_append t p content (Nat.ne_of_lt hlt)
  | attributes entries => rw [element?_mapAttributes, if_neg hid]

/-- An edit at the document or at an element. -/
theorem branching (hb : t.Branching) (hp : p = root ∨ t.isElement p = true) : t'.Branching where
  ordered := h.ordered hb.ordered
  document := by rw [h.steady.isElement hb.ordered.root_lt, hb.document]
  inner id hne := by
    have hkeep : id = root ∨ t.isElement id = true → id = root ∨ t'.isElement id = true := by
      refine Or.imp_right fun he => ?_
      rw [h.steady.isElement (lt_size_of_isElement he), he]
    refine hkeep ?_
    by_cases hid : id = p
    · exact hid ▸ hp
    · exact hb.inner id (h.children_ne hid ▸ hne)

end EditedAt

theorem branching_empty : empty.Branching where
  ordered := ordered_empty
  document := rfl
  inner id hne := by
    cases id with
    | zero => exact .inl rfl
    | succ id => exact absurd rfl hne

/-! ### What is below a node -/

theorem mem_elementChildren {c : NodeId} :
    c ∈ t.elementChildren id ↔ c ∈ t.children id ∧ t.isElement c = true :=
  List.mem_filter

namespace Branching

/-- An element below a node is that node or below an element among its children. -/
theorem eq_or_elementChild (h : t.Branching) (hw : t.Within top j) (he : t.isElement j = true) :
    j = top ∨ ∃ c ∈ t.elementChildren top, t.Within c j := by
  refine hw.eq_or_child.imp_right ?_
  rintro ⟨c, hc, hcj⟩
  refine ⟨c, mem_elementChildren.2 ⟨hc, ?_⟩, hcj⟩
  rcases hcj.eq_or_child with rfl | ⟨d, hd, -⟩
  · exact he
  · rcases h.inner c (List.ne_nil_of_mem hd) with rfl | hc'
    · exact absurd (h.ordered.child_lt top root hc).1 (Nat.not_lt_zero top)
    · exact hc'

theorem within_of_elementChildren_eq (h : t.Branching) {cs : List NodeId}
    (hcs : t.elementChildren top = cs) (hw : t.Within top j) (he : t.isElement j = true)
    (hne : j ≠ top) : ∃ c ∈ cs, t.Within c j :=
  hcs ▸ (h.eq_or_elementChild hw he).resolve_left hne

end Branching

end AmpMarkup.Dom.Tree
