import AmpMarkup.Dom.Reachable
import AmpMarkup.Proofs.Dom.Growth

/-! What edits do to links. Each edit has one equation for the parents and one for the children, so
that nothing else has to look at how nodes are stored. -/

namespace AmpMarkup.Dom

/-- Placing a node before another one adds it to the list once. -/
theorem placeBefore_perm (child reference : NodeId) (ids : List NodeId) :
    (placeBefore child reference ids).Perm (child :: ids) := by
  induction ids with
  | nil => exact .refl _
  | cons id ids ih =>
      rw [placeBefore]
      split
      · exact .refl _
      · exact (ih.cons id).trans (.swap child id ids)

namespace Tree

variable {t : Tree} {id j p child parent : NodeId}

theorem lt_size_of_get? {n : Node} (h : t.get? id = some n) : id < t.size := by
  refine Nat.lt_of_not_le fun hle => ?_
  rw [get?_eq_none_iff.2 hle] at h
  cases h

theorem lt_size_of_mem_children (h : j ∈ t.children id) : id < t.size := by
  refine Nat.lt_of_not_le fun hle => ?_
  rw [children_eq_nil hle] at h
  cases h

theorem lt_size_of_parent? (h : t.parent? id = some p) : id < t.size := by
  obtain ⟨n, hn, -⟩ := Option.bind_eq_some_iff.mp h
  exact lt_size_of_get? hn

/-! ### Changes to one node -/

section
variable (t : Tree) (i j : NodeId)

theorem parent?_modify_children (f : List NodeId → List NodeId) :
    (t.modify i fun n => { n with children := f n.children }).parent? j = t.parent? j := by
  rw [parent?, parent?, get?_modify]
  split
  · cases t.get? j <;> rfl
  · rfl

theorem children_modify_parent (o : Option NodeId) :
    (t.modify i fun n => { n with parent := o }).children j = t.children j := by
  rw [children, children, get?_modify]
  split
  · cases t.get? j <;> rfl
  · rfl

theorem parent?_unlink :
    (t.modify i fun n => { n with parent := none }).parent? j =
      if j = i then none else t.parent? j := by
  rw [parent?, parent?, get?_modify]
  by_cases h : i = j
  · rw [if_pos h, if_pos h.symm]
    cases t.get? j <;> rfl
  · rw [if_neg h, if_neg (Ne.symm h)]

variable {i}

theorem parent?_link (hi : i < t.size) (p : NodeId) :
    (t.modify i fun n => { n with parent := some p }).parent? j =
      if j = i then some p else t.parent? j := by
  rw [parent?, parent?, get?_modify]
  by_cases h : i = j
  · obtain ⟨n, hn⟩ := exists_get? (h ▸ hi)
    rw [if_pos h, if_pos h.symm, hn]
    rfl
  · rw [if_neg h, if_neg (Ne.symm h)]

theorem children_modify_children (hi : i < t.size) (f : List NodeId → List NodeId) :
    (t.modify i fun n => { n with children := f n.children }).children j =
      if j = i then f (t.children j) else t.children j := by
  rw [children, children, get?_modify]
  by_cases h : i = j
  · obtain ⟨n, hn⟩ := exists_get? (h ▸ hi)
    rw [if_pos h, if_pos h.symm, hn]
    rfl
  · rw [if_neg h, if_neg (Ne.symm h)]

end

theorem parent?_setContent (t : Tree) (i j : NodeId) (content : Content) :
    (t.setContent i content).parent? j = t.parent? j := by
  rw [parent?, parent?, get?_setContent]
  split
  · cases t.get? j <;> rfl
  · rfl

/-! ### Making and taking out -/

@[simp] theorem parent?_alloc (t : Tree) (content : Content) (j : NodeId) :
    (t.alloc content).parent? j = t.parent? j := by
  rw [parent?, parent?, get?_alloc]
  split
  · next h => rw [h, get?_size]; rfl
  · rfl

@[simp] theorem children_alloc (t : Tree) (content : Content) (j : NodeId) :
    (t.alloc content).children j = t.children j := by
  rw [children, children, get?_alloc]
  split
  · next h => rw [h, get?_size]; rfl
  · rfl

@[simp] theorem parent?_detach (t : Tree) (child j : NodeId) :
    (t.detach child).parent? j = if j = child then none else t.parent? j := by
  unfold detach
  split
  · next h =>
      split
      · next hj => rw [hj, h]
      · rfl
  · exact (parent?_modify_children _ _ j (·.filter (· != child))).trans (parent?_unlink t child j)

/-- The lists of children in which a node that stands where its parent link says does not stand any
more. -/
theorem children_detach (h : ∀ q, t.parent? child = some q → q < t.size) (j : NodeId) :
    (t.detach child).children j =
      if t.parent? child = some j then (t.children j).filter (· != child) else t.children j := by
  unfold detach
  split
  · next hn => rw [hn, if_neg (by simp)]
  · next q hq =>
      have hlt : q < (t.modify child fun n => { n with parent := none }).size :=
        (size_modify ..).symm ▸ h q hq
      rw [children_modify_children _ j hlt (·.filter (· != child)), children_modify_parent, hq]
      simp [eq_comm]

theorem parent?_attach (hc : child < t.size) (parent : NodeId) (place : List NodeId → List NodeId)
    (j : NodeId) :
    (t.attach parent child place).parent? j =
      if j = child then some parent else t.parent? j := by
  rw [attach, parent?_link _ _ ((size_modify ..).symm ▸ hc), parent?_modify_children]

theorem children_attach (hp : parent < t.size) (child : NodeId)
    (place : List NodeId → List NodeId) (j : NodeId) :
    (t.attach parent child place).children j =
      if j = parent then place (t.children j) else t.children j := by
  rw [attach, children_modify_parent, children_modify_children _ _ hp]

/-! ### Taking out all children -/

theorem foldl_unlink (ids : List NodeId) (t : Tree) (j : NodeId) :
    let s := ids.foldl (fun t child => t.modify child fun n => { n with parent := none }) t
    s.children j = t.children j ∧ s.parent? j = if j ∈ ids then none else t.parent? j := by
  induction ids generalizing t with
  | nil => simp
  | cons id ids ih =>
      obtain ⟨hc, hp⟩ := ih (t.modify id fun n => { n with parent := none })
      refine ⟨hc.trans (children_modify_parent ..), ?_⟩
      rw [List.foldl_cons, hp, parent?_unlink]
      by_cases hj : j = id <;> simp [hj]

@[simp] theorem children_clear (t : Tree) (id j : NodeId) :
    (t.clear id).children j = if j = id then [] else t.children j := by
  refine (foldl_unlink _ _ j).1.trans ?_
  by_cases hid : id < t.size
  · exact children_modify_children t j hid fun _ => []
  · have hsize := Nat.le_of_not_lt hid
    by_cases hj : j = id
    · rw [if_pos hj]
      exact children_eq_nil (by rw [size_modify, hj]; exact hsize)
    · rw [if_neg hj, children, get?_modify, if_neg (Ne.symm hj), children]

@[simp] theorem parent?_clear (t : Tree) (id j : NodeId) :
    (t.clear id).parent? j = if j ∈ t.children id then none else t.parent? j := by
  refine (foldl_unlink _ _ j).2.trans ?_
  rw [parent?_modify_children t id j fun _ => []]

end Tree

end AmpMarkup.Dom
