import AmpMarkup.Dom.Subtree
import AmpMarkup.Proofs.Dom.DocumentOrder

/-! The written form of a node in a forest, from the written forms of its children. Two forests in
which a node has the same content, and children that are written alike, write the node alike. Edits at
a node and below it make nodes and take some out of their places: nodes elsewhere keep their children,
and siblings of the node keep everything below them. -/

namespace AmpMarkup.Dom

namespace Subtree

variable {f : NodeId → Option Subtree}

theorem renderAll_filterMap (ids : List NodeId) :
    renderAll (ids.filterMap f) = ids.flatMap fun id => ((f id).map render).getD [] := by
  induction ids with
  | nil => rfl
  | cons id ids ih =>
      cases hf : f id with
      | none => simp [hf, ih]
      | some s => simp [hf, ih, renderAll_cons]

/-- The form of a subtree among those that are written literally. -/
def literal : Subtree → Text
  | .node (.text data) _ => data
  | s => s.render

theorem renderLiterally_cons (s : Subtree) (ss : List Subtree) :
    renderLiterally (s :: ss) = s.literal ++ renderLiterally ss := by
  obtain ⟨content, children⟩ := s
  cases content <;> rfl

theorem renderLiterally_filterMap (ids : List NodeId) :
    renderLiterally (ids.filterMap f) = ids.flatMap fun id => ((f id).map literal).getD [] := by
  induction ids with
  | nil => rfl
  | cons id ids ih =>
      cases hf : f id with
      | none => simp [hf, ih]
      | some s => simp [hf, ih, renderLiterally_cons]

end Subtree

namespace Tree

/-- The written form of a node with text written as it is. -/
def literalHtml (t : Tree) (id : NodeId) : Text :=
  (t.text? id).getD (t.outerHtml id)

/-- The second tree has the nodes of the first one. Children are lost and new nodes are added, at a
node and below it alone. -/
structure EditedBelow (t t' : Tree) (id : NodeId) : Prop where
  size_le : t.size ≤ t'.size
  content? : ∀ j < t.size, t'.content? j = t.content? j
  children : ∀ j < t.size, ¬ t.Within id j → t'.children j = t.children j
  links : ∀ p, ∀ c ∈ t'.children p, c ∈ t.children p ∨ t.size ≤ c

/-- The second tree says the same of a node and all nodes below it. -/
def SameBelow (t t' : Tree) (id : NodeId) : Prop :=
  ∀ j, t.Within id j → t'.content? j = t.content? j ∧ t'.children j = t.children j

variable {t t' t'' : Tree} {id p c j : NodeId} {e : Element} {cs : List NodeId}

namespace Forest

/-- Deep enough walks read the same subtree. -/
theorem subtreeWithin_eq (h : t.Forest) {d e : Nat} (hd : t.size ≤ (t.ancestors id).length + d + 1)
    (he : t.size ≤ (t.ancestors id).length + e + 1) :
    t.subtreeWithin d id = t.subtreeWithin e id := by
  apply h.eq_of_deep ?_ ?_ hd he
  · intro id hnil d
    cases d with
    | zero => rfl
    | succ d => simp [subtreeWithin, hnil]
  · intro id d e hchildren
    simp only [subtreeWithin, List.filterMap_congr hchildren]

/-- A node is read with what is read for its children in turn. -/
theorem subtree?_eq (h : t.Forest) (id : NodeId) :
    t.subtree? id = (t.content? id).map (.node · ((t.children id).filterMap t.subtree?)) := by
  have hdeep : t.subtree? id = t.subtreeWithin (t.size + 1) id :=
    h.subtreeWithin_eq (by omega) (by omega)
  rw [hdeep]
  rfl

theorem literalHtml_eq (h : t.Forest) (id : NodeId) :
    t.literalHtml id = ((t.subtree? id).map Subtree.literal).getD [] := by
  rw [literalHtml, text?, outerHtml, h.subtree?_eq]
  cases t.content? id with
  | none => rfl
  | some content => cases content <;> rfl

/-- The written form of a node. The document and elements that are not void show their children. -/
theorem outerHtml_eq (h : t.Forest) (id : NodeId) :
    t.outerHtml id =
      match t.content? id with
      | none => []
      | some .document => (t.children id).flatMap t.outerHtml
      | some (.element e) =>
        if Vocabulary.isVoid e.tag then renderStartTag e
        else if Vocabulary.isRawText e.tag then
          renderStartTag e ++ (t.children id).flatMap t.literalHtml ++ renderEndTag e.tag
        else renderStartTag e ++ (t.children id).flatMap t.outerHtml ++ renderEndTag e.tag
      | some content => (Subtree.node content []).render := by
  have hall := Subtree.renderAll_filterMap (f := t.subtree?) (t.children id)
  have hliteral := Subtree.renderLiterally_filterMap (f := t.subtree?) (t.children id)
  simp only [← h.literalHtml_eq] at hliteral
  rw [outerHtml, h.subtree?_eq]
  cases t.content? id with
  | none => rfl
  | some content =>
      cases content with
      | document => exact hall
      | element e =>
          simp only [Option.map_some, Option.getD_some, Subtree.render_element, hall, hliteral]
          rfl
      | doctype | text | comment => rfl

/-- Nodes with the same content are written alike if their children are, as text and otherwise. -/
theorem outerHtml_congr (h : t.Forest) (h' : t'.Forest) (hc : t'.content? id = t.content? id)
    (hall : (t'.children id).flatMap t'.outerHtml = (t.children id).flatMap t.outerHtml)
    (hliteral : (t'.children id).flatMap t'.literalHtml = (t.children id).flatMap t.literalHtml) :
    t'.outerHtml id = t.outerHtml id := by
  rw [h.outerHtml_eq, h'.outerHtml_eq, hc, hall, hliteral]

theorem outerHtml_congr_of_children_eq (h : t.Forest) (h' : t'.Forest)
    (hc : t'.content? id = t.content? id) (hchildren : t'.children id = t.children id)
    (hall : ∀ c ∈ t.children id, t'.content? c = t.content? c ∧ t'.outerHtml c = t.outerHtml c) :
    t'.outerHtml id = t.outerHtml id := by
  have hliteral : ∀ c ∈ t.children id, t'.literalHtml c = t.literalHtml c := by
    intro c hm
    rw [literalHtml, literalHtml, text?, text?, (hall c hm).1, (hall c hm).2]
  apply h.outerHtml_congr h' hc
  · rw [hchildren, List.flatMap_def, List.flatMap_def,
      List.map_congr_left fun c hm => (hall c hm).2]
  · rw [hchildren, List.flatMap_def, List.flatMap_def, List.map_congr_left hliteral]

end Forest

/-! ### Taking out all children -/

theorem nodes_foldl_unlink (ids : List NodeId) (t : Tree) (j : NodeId) :
    let s := ids.foldl (fun t child => t.modify child fun n => { n with parent := none }) t
    s.size = t.size ∧ s.content? j = t.content? j := by
  induction ids generalizing t with
  | nil => simp
  | cons id ids ih =>
      obtain ⟨hsize, hcontent⟩ := ih (t.modify id fun n => { n with parent := none })
      refine ⟨hsize.trans (size_modify ..), hcontent.trans ?_⟩
      apply content?_modify
      simp

theorem size_clear (t : Tree) (id : NodeId) : (t.clear id).size = t.size :=
  (nodes_foldl_unlink _ _ id).1.trans (size_modify ..)

theorem content?_clear (t : Tree) (id j : NodeId) : (t.clear id).content? j = t.content? j := by
  refine (nodes_foldl_unlink _ _ j).2.trans ?_
  apply content?_modify
  simp

theorem clear_of_children_eq_nil (h : t.children id = []) : t.clear id = t := by
  apply eq_of_get?
  intro j
  rw [clear, h, List.foldl_nil, get?_modify]
  split
  · next hj =>
      subst hj
      rw [children] at h
      cases hn : t.get? id with
      | none => rfl
      | some n =>
          obtain ⟨content, parent, ids⟩ := n
          simp_all
  · rfl

/-! ### Edits at a node -/

namespace EditedBelow

theorem refl (t : Tree) (id : NodeId) : t.EditedBelow t id :=
  ⟨Nat.le_refl _, fun _ _ => rfl, fun _ _ _ => rfl, fun _ _ hc => .inl hc⟩

theorem clear (t : Tree) (id : NodeId) : t.EditedBelow (t.clear id) id where
  size_le := by simp [size_clear]
  content? j _ := content?_clear t id j
  children j _ hj := by
    rw [children_clear, if_neg]
    rintro rfl
    exact hj .self
  links p c hc := by
    rw [children_clear] at hc
    split at hc
    · cases hc
    · exact .inl hc

theorem alloc_append (hid : id < t.size) (content : Content) :
    t.EditedBelow ((t.alloc content).append id t.size) id where
  size_le := by simp [size_append, size_alloc]
  content? j hj := by rw [content?_alloc_append, if_neg (Nat.ne_of_lt hj)]
  children j _ hj := by
    rw [children_alloc_append hid, if_neg]
    rintro rfl
    exact hj .self
  links p c hc := by
    rw [children_alloc_append hid] at hc
    split at hc
    · simp only [List.mem_append, List.mem_singleton] at hc
      exact hc.imp_right fun h => Nat.le_of_eq h.symm
    · exact .inl hc

/-! ### Edits one after the other -/

theorem mono (h : t.EditedBelow t' c) (hc : t.Within id c) : t.EditedBelow t' id where
  size_le := h.size_le
  content? := h.content?
  children j hlt hj := h.children j hlt fun hw => hj (hc.trans hw)
  links := h.links

/-- Old nodes come below no other old node. -/
theorem within (h : t.EditedBelow t' id) (hw : t'.Within p j) (hj : j < t.size) : t.Within p j := by
  induction hw with
  | self => exact .self
  | child _ hc ih =>
      rcases h.links _ _ hc with hc | hle
      · exact .child (ih (lt_size_of_mem_children hc)) hc
      · exact absurd hj (Nat.not_lt_of_le hle)

theorem trans (h : t.EditedBelow t' id) (h' : t'.EditedBelow t'' id) : t.EditedBelow t'' id where
  size_le := Nat.le_trans h.size_le h'.size_le
  content? j hj := by
    rw [h'.content? j (Nat.lt_of_lt_of_le hj h.size_le), h.content? j hj]
  children j hlt hj := by
    rw [h'.children j (Nat.lt_of_lt_of_le hlt h.size_le) fun hw => hj (h.within hw hlt),
      h.children j hlt hj]
  links p c hc := by
    rcases h'.links p c hc with hc | hle
    · exact h.links p c hc
    · exact .inr (Nat.le_trans h.size_le hle)

/-- An edit below a child leaves the list of children. -/
theorem children_parent (h : t.EditedBelow t' c) (hf : t.Forest) (hc : c ∈ t.children id) :
    t'.children id = t.children id :=
  h.children id (lt_size_of_mem_children hc) (hf.not_within_child hc)

theorem element? (h : t.EditedBelow t' id) (he : t.element? j = some e) :
    t'.element? j = some e := by
  rw [element?_congr (h.content? j (lt_size_of_content? (element?_eq_some_iff.1 he))), he]

/-- An edit below a child leaves its siblings and what is below them. -/
theorem sameBelow (h : t.EditedBelow t' c) (hf : t.Forest) (hc : c ∈ t.children id)
    (hp : p ∈ t.children id) (hne : p ≠ c) : t.SameBelow t' p := by
  intro j hj
  have hlt : j < t.size := by
    cases hj with
    | self => exact hf.child_lt hp
    | child _ hm => exact hf.child_lt hm
  refine ⟨h.content? j hlt, h.children j hlt fun hcj => ?_⟩
  exact hne (hf.eq_of_within hp hc hj hcj)

end EditedBelow

theorem SameBelow.child (h : t.SameBelow t' id) (hc : c ∈ t.children id) : t.SameBelow t' c :=
  fun j hj => h j ((Within.child .self hc).trans hj)

/-- Edits below children, one child after the other, are an edit below their parent. -/
theorem editedBelow_foldl {f : Tree → NodeId → Tree} (hforest : ∀ s c, Forest s → (f s c).Forest)
    (hedited : ∀ s c, Forest s → s.EditedBelow (f s c) c) (h : t.Forest)
    (hcs : ∀ c ∈ cs, c ∈ t.children id) :
    t.EditedBelow (cs.foldl f t) id ∧ (cs.foldl f t).children id = t.children id := by
  induction cs generalizing t with
  | nil => exact ⟨.refl t id, rfl⟩
  | cons c cs ih =>
      obtain ⟨hc, hcs⟩ := List.forall_mem_cons.mp hcs
      have hstep := hedited t c h
      have hchildren := hstep.children_parent h hc
      obtain ⟨hrest, hsame⟩ := ih (hforest t c h) (by rwa [hchildren])
      exact ⟨(hstep.mono (.child .self hc)).trans hrest, hsame.trans hchildren⟩

end Tree

end AmpMarkup.Dom
