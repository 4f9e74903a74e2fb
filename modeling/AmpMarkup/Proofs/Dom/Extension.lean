import AmpMarkup.Dom.Subtree
import AmpMarkup.Proofs.Dom.Growth

/-! Subtrees put behind the children of a node. What was there before keeps its content and its
children, and a subtree that has been put there is read back as it is. -/

namespace AmpMarkup.Dom.Tree

mutual

/-- A node with a subtree, at `m` or later. Every node below comes after its parent. -/
def Holds (t : Tree) (m id : NodeId) : Subtree → Prop
  | .node content children =>
    m ≤ id ∧ t.content? id = some content ∧ t.HoldsAll (id + 1) (t.children id) children

/-- Nodes with subtrees in order. -/
def HoldsAll (t : Tree) (m : NodeId) : List NodeId → List Subtree → Prop
  | [], [] => True
  | id :: ids, s :: ss => t.Holds m id s ∧ t.HoldsAll m ids ss
  | _, _ => False

end

/-- The second tree is the first one with subtrees put behind the children of a node. -/
structure Extends (t t' : Tree) (id : NodeId) (ss : List Subtree) : Prop where
  size_le : t.size ≤ t'.size
  content : ∀ j < t.size, t'.content? j = t.content? j
  children_ne : ∀ j < t.size, j ≠ id → t'.children j = t.children j
  children : ∃ ids, t'.children id = t.children id ++ ids ∧ t'.HoldsAll t.size ids ss

variable {t t' t'' : Tree} {id m : NodeId} {ids ids' : List NodeId} {s : Subtree}
  {ss ss' : List Subtree}

/-! ### Nodes with subtrees -/

mutual

theorem Holds.same {m id : NodeId} {s : Subtree}
    (h : ∀ j, m ≤ j → j < t.size → t'.content? j = t.content? j ∧ t'.children j = t.children j)
    (hs : t.Holds m id s) : t'.Holds m id s := by
  cases s with
  | node content children =>
      obtain ⟨hm, hc, hch⟩ := hs
      have hid := h id hm (lt_size_of_content? hc)
      refine ⟨hm, hid.1.trans hc, hid.2 ▸ HoldsAll.same (fun j hj => h j ?_) hch⟩
      exact Nat.le_trans hm (Nat.le_of_succ_le hj)
termination_by structural s

theorem HoldsAll.same {m : NodeId} {ids : List NodeId} {ss : List Subtree}
    (h : ∀ j, m ≤ j → j < t.size → t'.content? j = t.content? j ∧ t'.children j = t.children j)
    (hs : t.HoldsAll m ids ss) : t'.HoldsAll m ids ss := by
  cases ss with
  | nil =>
      cases ids with
      | nil => trivial
      | cons id ids => exact hs.elim
  | cons s ss =>
      cases ids with
      | nil => exact hs.elim
      | cons id ids => exact ⟨Holds.same h hs.1, HoldsAll.same h hs.2⟩
termination_by structural ss

end

theorem HoldsAll.mono {m' : NodeId} (hm : m' ≤ m) (h : t.HoldsAll m ids ss) :
    t.HoldsAll m' ids ss := by
  induction ids generalizing ss with
  | nil =>
      cases ss with
      | nil => trivial
      | cons s ss => exact h.elim
  | cons id ids ih =>
      cases ss with
      | nil => exact h.elim
      | cons s ss =>
          cases s with
          | node content children => exact ⟨⟨Nat.le_trans hm h.1.1, h.1.2⟩, ih h.2⟩

theorem HoldsAll.append (h : t.HoldsAll m ids ss) (h' : t.HoldsAll m ids' ss') :
    t.HoldsAll m (ids ++ ids') (ss ++ ss') := by
  induction ids generalizing ss with
  | nil =>
      cases ss with
      | nil => exact h'
      | cons s ss => exact h.elim
  | cons id ids ih =>
      cases ss with
      | nil => exact h.elim
      | cons s ss => exact ⟨h.1, ih h.2⟩

mutual

/-- Deep enough a walk reads the whole subtree: numbers grow on the way down. -/
theorem Holds.subtreeWithin_eq {m id depth : NodeId} {s : Subtree} (h : t.Holds m id s)
    (hd : t.size ≤ m + depth) : t.subtreeWithin depth id = some s := by
  cases s with
  | node content children =>
      obtain ⟨hm, hc, hch⟩ := h
      have hlt := lt_size_of_content? hc
      cases depth with
      | zero => exact absurd hm (Nat.not_le_of_lt (Nat.lt_of_lt_of_le hlt hd))
      | succ depth =>
          have hle : t.size ≤ id + 1 + depth :=
            Nat.le_trans hd (Nat.succ_add_eq_add_succ id depth ▸ Nat.add_le_add_right hm _)
          rw [subtreeWithin, hc, HoldsAll.filterMap_eq hch hle]
          rfl
termination_by structural s

theorem HoldsAll.filterMap_eq {m depth : NodeId} {ids : List NodeId} {ss : List Subtree}
    (h : t.HoldsAll m ids ss) (hd : t.size ≤ m + depth) :
    ids.filterMap (t.subtreeWithin depth) = ss := by
  cases ss with
  | nil =>
      cases ids with
      | nil => rfl
      | cons id ids => exact h.elim
  | cons s ss =>
      cases ids with
      | nil => exact h.elim
      | cons id ids =>
          rw [List.filterMap_cons_some (Holds.subtreeWithin_eq h.1 hd),
            HoldsAll.filterMap_eq h.2 hd]
termination_by structural ss

end

/-- The written forms of nodes are those of their subtrees. -/
theorem HoldsAll.map_outerHtml (h : t.HoldsAll m ids ss) :
    ids.map t.outerHtml = ss.map Subtree.render := by
  induction ids generalizing ss with
  | nil =>
      cases ss with
      | nil => rfl
      | cons s ss => exact h.elim
  | cons id ids ih =>
      cases ss with
      | nil => exact h.elim
      | cons s ss =>
          have hs : t.subtree? id = some s := h.1.subtreeWithin_eq (Nat.le_add_left ..)
          rw [List.map_cons, List.map_cons, ih h.2, outerHtml, hs]
          rfl

/-! ### Extensions -/

theorem Extends.refl (t : Tree) (id : NodeId) : t.Extends t id [] where
  size_le := Nat.le_refl _
  content _ _ := rfl
  children_ne _ _ _ := rfl
  children := ⟨[], (List.append_nil _).symm, trivial⟩

theorem Extends.trans (h : t.Extends t' id ss) (h' : t'.Extends t'' id ss') (hid : id < t.size) :
    t.Extends t'' id (ss ++ ss') where
  size_le := Nat.le_trans h.size_le h'.size_le
  content j hj := (h'.content j (Nat.lt_of_lt_of_le hj h.size_le)).trans (h.content j hj)
  children_ne j hj hne :=
    (h'.children_ne j (Nat.lt_of_lt_of_le hj h.size_le) hne).trans (h.children_ne j hj hne)
  children := by
    obtain ⟨ids, hc, hs⟩ := h.children
    obtain ⟨ids', hc', hs'⟩ := h'.children
    refine ⟨ids ++ ids', by rw [hc', hc, List.append_assoc], ?_⟩
    refine (hs.same fun j hm hj => ?_).append (hs'.mono h.size_le)
    exact ⟨h'.content j hj, h'.children_ne j hj (Nat.ne_of_gt (Nat.lt_of_lt_of_le hid hm))⟩

theorem extends_alloc_append (hid : id < t.size) (data : Text) :
    t.Extends ((t.alloc (.text data)).append id t.size) id [.node (.text data) []] where
  size_le := by
    rw [size_append, size_alloc]
    exact Nat.le_succ _
  content j hj := by rw [content?_alloc_append, if_neg (Nat.ne_of_lt hj)]
  children_ne j hj hne := by rw [children_alloc_append hid, if_neg hne]
  children := by
    refine ⟨[t.size], by rw [children_alloc_append hid, if_pos rfl], ⟨Nat.le_refl _, ?_, ?_⟩, trivial⟩
    · rw [content?_alloc_append, if_pos rfl]
    · rw [children_alloc_append hid, if_neg (Nat.ne_of_gt hid), children_eq_nil (Nat.le_refl _)]
      trivial

/-- A text becomes a node of its own where none stands before it. -/
theorem extends_appendText (he : t.isElement id = true) (hlast : t.trailingText? id = none)
    (data : Text) : t.Extends (t.appendText id data) id [.node (.text data) []] := by
  have htree : t.appendText id data = (t.alloc (.text data)).append id t.size := by
    rw [appendText, hlast, he]
    rfl
  exact htree ▸ extends_alloc_append (lt_size_of_isElement he) data

/-- A new element is empty. -/
theorem trailingText?_withElement_self (hid : id < t.size) (e : Element) :
    (t.withElement id e).trailingText? t.size = none := by
  rw [trailingText?, lastChild?, children_withElement hid, if_neg (Nat.ne_of_gt hid),
    children_eq_nil (Nat.le_refl _)]
  rfl

/-- A new element with what is put into it later. -/
theorem Extends.element {e : Element} (h : (t.withElement id e).Extends t' t.size ss)
    (hid : id < t.size) : t.Extends t' id [.node (.element e) ss] where
  size_le := Nat.le_trans (by rw [size_withElement]; exact Nat.le_succ _) h.size_le
  content j hj := by
    have hlt : j < (t.withElement id e).size := by
      rw [size_withElement]
      exact Nat.lt_succ_of_lt hj
    rw [h.content j hlt, withElement, content?_alloc_append, if_neg (Nat.ne_of_lt hj)]
  children_ne j hj hne := by
    have hlt : j < (t.withElement id e).size := by
      rw [size_withElement]
      exact Nat.lt_succ_of_lt hj
    rw [h.children_ne j hlt (Nat.ne_of_lt hj), children_withElement hid, if_neg hne]
  children := by
    obtain ⟨ids, hc, hs⟩ := h.children
    have hlt : t.size < (t.withElement id e).size := by
      rw [size_withElement]
      exact Nat.lt_succ_self _
    rw [children_withElement hid, if_neg (Nat.ne_of_gt hid), children_eq_nil (Nat.le_refl _),
      List.nil_append] at hc
    rw [size_withElement] at hs
    refine ⟨[t.size], ?_, ⟨Nat.le_refl _, ?_, ?_⟩, trivial⟩
    · rw [h.children_ne id (Nat.lt_trans hid hlt) (Nat.ne_of_lt hid), children_withElement hid,
        if_pos rfl]
    · rw [h.content t.size hlt, withElement, content?_alloc_append, if_pos rfl]
    · exact hc ▸ hs

end AmpMarkup.Dom.Tree
