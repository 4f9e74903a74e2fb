import AmpMarkup.Proofs.Dom.Forest
import AmpMarkup.Proofs.Dom.TextOrder

/-! Walks through edited trees. A walk down keeps the nodes to come on a stack, a walk up follows the
parent links. In a forest both end, and they agree on what stands below what: the walk down lists a
node directly before what it lists for the children in turn. -/

namespace AmpMarkup.Dom.Tree

/-- The walk up from a node: the nodes in the order in which it comes to them. -/
inductive Climbs (t : Tree) : Option NodeId → List NodeId → Prop where
  | done : Climbs t none []
  | up {id : NodeId} {ids : List NodeId} : Climbs t (t.parent? id) ids → Climbs t (some id) (id :: ids)

/-- The walk down with the nodes of a stack still to come. The node on top is listed, and its
children take its place, the first one on top. -/
inductive Visits (t : Tree) : List NodeId → List NodeId → Prop where
  | done : Visits t [] []
  | next {id : NodeId} {stack ids : List NodeId} : Visits t (t.children id ++ stack) ids →
      Visits t (id :: stack) (id :: ids)

variable {t : Tree} {id p c m n : NodeId} {above : Option NodeId} {stack ids ids' : List NodeId}

theorem Climbs.unique (h : t.Climbs above ids) (h' : t.Climbs above ids') : ids = ids' := by
  induction h generalizing ids' with
  | done => cases h'; rfl
  | up _ ih =>
      cases h' with
      | up h' => rw [ih h']

theorem Visits.unique (h : t.Visits stack ids) (h' : t.Visits stack ids') : ids = ids' := by
  induction h generalizing ids' with
  | done => cases h'; rfl
  | next _ ih =>
      cases h' with
      | next h' => rw [ih h']

/-- A way up that ends before its bound is the same with a larger bound. -/
theorem ancestorsWithin_succ {depth : Nat} (hlen : (t.ancestorsWithin depth id).length < depth) :
    t.ancestorsWithin (depth + 1) id = t.ancestorsWithin depth id := by
  induction depth generalizing id with
  | zero => cases hlen
  | succ depth ih =>
      rw [ancestorsWithin] at hlen
      rw [ancestorsWithin, ancestorsWithin]
      cases hp : t.parent? id with
      | none => rfl
      | some p =>
          rw [hp] at hlen
          exact congrArg (p :: ·) (ih (Nat.lt_of_succ_lt_succ hlen))

theorem ancestors_eq_nil (hp : t.parent? id = none) : t.ancestors id = [] := by
  rw [ancestors]
  cases t.size with
  | zero => rfl
  | succ depth => rw [ancestorsWithin, hp]

namespace Forest

/-! ### Going up -/

theorem ancestors_eq (h : t.Forest) (hp : t.parent? id = some p) :
    t.ancestors id = p :: t.ancestors p := by
  have hlen := h.length_ancestorsWithin t.size (lt_size_of_parent? hp)
  rw [ancestors, ← ancestorsWithin_succ hlen, ancestorsWithin, hp]
  rfl

/-- The walk up from the parent of a node ends, with the ancestors of the node. -/
theorem climbs_ancestors (h : t.Forest) (id : NodeId) : t.Climbs (t.parent? id) (t.ancestors id) := by
  induction h.reachesTop id with
  | top hp =>
      rw [hp, ancestors_eq_nil hp]
      exact .done
  | up hp _ ih =>
      rw [hp, h.ancestors_eq hp]
      exact .up ih

theorem isDescendantOf_iff (h : t.Forest) : t.isDescendantOf m n = true ↔ m ≠ n ∧ t.Within n m := by
  rw [isDescendantOf, List.contains_iff_mem, h.mem_ancestors_iff_within]

/-- A child has one ancestor more than its parent. -/
theorem length_ancestors_child (h : t.Forest) (hc : c ∈ t.children id) :
    (t.ancestors c).length = (t.ancestors id).length + 1 := by
  rw [h.ancestors_eq ((h.mem_children_iff id c).mp hc), List.length_cons]

theorem length_ancestors_lt (h : t.Forest) (hc : c ∈ t.children id) :
    (t.ancestors c).length < t.size :=
  h.length_ancestorsWithin t.size (h.child_lt hc)

/-! ### Going down -/

/-- What holds of a node when it holds of its children holds of all nodes. -/
theorem childInduction {motive : NodeId → Prop} (h : t.Forest)
    (step : ∀ id, (∀ c ∈ t.children id, motive c) → motive id) (id : NodeId) : motive id := by
  generalize hn : t.size - (t.ancestors id).length = n
  induction n using Nat.strongRecOn generalizing id with
  | ind n ih =>
      refine step id fun c hc => ih (t.size - (t.ancestors c).length) ?_ c rfl
      have hlen := h.length_ancestors_child hc
      have hlt := h.length_ancestors_lt hc
      omega

/-- Deep enough walks find the same: there are fewer levels than nodes. -/
theorem eq_of_deep {α : Type} {f : Nat → NodeId → α} (h : t.Forest)
    (hleaf : ∀ id, t.children id = [] → ∀ d, f d id = f 0 id)
    (hstep : ∀ id d e, (∀ c ∈ t.children id, f d c = f e c) → f (d + 1) id = f (e + 1) id)
    {d e : Nat} (hd : t.size ≤ (t.ancestors id).length + d + 1)
    (he : t.size ≤ (t.ancestors id).length + e + 1) : f d id = f e id := by
  have hlast : ∀ {id}, t.size ≤ (t.ancestors id).length + 1 → ∀ d, f d id = f 0 id := by
    intro id hle
    apply hleaf
    apply List.eq_nil_iff_forall_not_mem.mpr
    intro c hc
    have hlen := h.length_ancestors_child hc
    have hlt := h.length_ancestors_lt hc
    omega
  induction d generalizing id e with
  | zero => exact (hlast hd e).symm
  | succ d ih =>
      cases e with
      | zero => exact hlast he (d + 1)
      | succ e =>
          apply hstep
          intro c hc
          have hlen := h.length_ancestors_child hc
          exact ih (by omega) (by omega)

/-- Deep enough walks see the same nodes. -/
theorem descendantsWithin_eq (h : t.Forest) {d e : Nat} (hd : t.size ≤ (t.ancestors id).length + d + 1)
    (he : t.size ≤ (t.ancestors id).length + e + 1) :
    t.descendantsWithin d id = t.descendantsWithin e id := by
  apply h.eq_of_deep ?_ ?_ hd he
  · intro id hnil d
    cases d with
    | zero => rfl
    | succ d => simp [descendantsWithin, hnil]
  · intro id d e hchildren
    simp only [descendantsWithin, List.flatMap_def, List.map_congr_left hchildren]

/-- A walk lists a node and then what it lists for its children in turn. -/
theorem descendants_eq (h : t.Forest) (id : NodeId) :
    t.descendants id = id :: (t.children id).flatMap t.descendants := by
  have hdeep : t.descendants id = t.descendantsWithin (t.size + 1) id :=
    h.descendantsWithin_eq (by omega) (by omega)
  rw [hdeep]
  rfl

theorem mem_descendants_iff (h : t.Forest) :
    m ∈ t.descendants n ↔ m = n ∨ t.isDescendantOf m n = true := by
  rw [mem_descendants_iff_within h.descendants_eq, h.isDescendantOf_iff]
  by_cases hmn : m = n
  · subst hmn
    simp [Within.self]
  · simp [hmn]

/-- From any stack the walk down ends, with what it lists for the nodes on the stack in turn. -/
theorem visits_flatMap (h : t.Forest) (stack : List NodeId) :
    t.Visits stack (stack.flatMap t.descendants) := by
  have htop : ∀ id stack ids, t.Visits stack ids → t.Visits (id :: stack) (t.descendants id ++ ids) := by
    intro id
    induction id using h.childInduction with
    | step id ih =>
        intro stack ids hv
        -- The children are on top of the stack now, each with its own part of the list.
        have hchildren : ∀ cs, cs ⊆ t.children id →
            t.Visits (cs ++ stack) (cs.flatMap t.descendants ++ ids) := by
          intro cs hcs
          induction cs with
          | nil => exact hv
          | cons c cs ihcs =>
              obtain ⟨hc, hcs⟩ := List.cons_subset.mp hcs
              rw [List.flatMap_cons, List.append_assoc]
              exact ih c hc _ _ (ihcs hcs)
        rw [h.descendants_eq]
        exact .next (hchildren _ (List.Subset.refl _))
  induction stack with
  | nil => exact .done
  | cons id stack ih => exact htop id stack _ ih

theorem visits_iff (h : t.Forest) : t.Visits [n] ids ↔ ids = t.descendants n := by
  have hv := h.visits_flatMap [n]
  rw [List.flatMap_singleton] at hv
  exact ⟨fun hv' => hv'.unique hv, fun he => he ▸ hv⟩

end Forest

/-- In every tree that allowed edits lead to, the walk down from a node ends with a list in document
order, without repetition, of the node and all nodes that have it among their ancestors; the walk up,
which finds the ancestors, ends as well. The text of a node is that of the text nodes in this order. -/
theorem Reachable.descendants_documentOrder (h : t.Reachable) (n : NodeId) :
    (∀ ids, t.Visits [n] ids ↔ ids = t.descendants n) ∧
      (t.descendants n).Nodup ∧
      (∀ m, m ∈ t.descendants n ↔ m = n ∨ t.isDescendantOf m n = true) ∧
      (∀ m ids, t.Climbs (t.parent? m) ids ↔ ids = t.ancestors m) ∧
      t.descendants n = n :: (t.children n).flatMap t.descendants ∧
      t.textContent n = ((t.descendants n).filterMap t.text?).flatten ∧
      t.textContent n = t.ownText n ++ (t.children n).flatMap t.textContent := by
  have hf := h.forest
  refine ⟨fun ids => hf.visits_iff, hf.nodup_descendants n, fun m => hf.mem_descendants_iff,
    fun m ids => ?_, hf.descendants_eq n, rfl, textContent_of_descendants_eq (hf.descendants_eq n)⟩
  exact ⟨fun hc => hc.unique (hf.climbs_ancestors m), fun he => he ▸ hf.climbs_ancestors m⟩

/-- A paragraph is moved before a text of an element that has no place itself; the order of the walk
is not the order in which the nodes were made. -/
theorem descendants_documentOrder_detached :
    let made := (((empty.apply (.make (.text "y"))).apply (.make (.text "x"))).apply
      (.make (.element ⟨"p", .empty⟩))).apply (.make (.element ⟨"div", .empty⟩))
    let t := ((made.apply (.append 3 2)).apply (.append 4 1)).apply (.insertBefore 4 3 1)
    t.Reachable ∧ t.descendants 4 = [4, 3, 2, 1] ∧ t.textContent 4 = "xy" ∧
      (∀ ids, t.Visits [4] ids ↔ ids = t.descendants 4) ∧
      (t.descendants 4).Nodup ∧
      (∀ m, m ∈ t.descendants 4 ↔ m = 4 ∨ t.isDescendantOf m 4 = true) ∧
      (∀ m ids, t.Climbs (t.parent? m) ids ↔ ids = t.ancestors m) ∧
      t.descendants 4 = 4 :: (t.children 4).flatMap t.descendants ∧
      t.textContent 4 = ((t.descendants 4).filterMap t.text?).flatten ∧
      t.textContent 4 = t.ownText 4 ++ (t.children 4).flatMap t.textContent := by
  intro made t
  have hmade : made.Reachable :=
    (((Reachable.empty.change (.make _) trivial).change (.make _) trivial).change (.make _)
      trivial).change (.make _) trivial
  have ht : t.Reachable :=
    ((hmade.change (.append 3 2) (by decide)).change (.append 4 1)
      (by decide)).change (.insertBefore 4 3 1) (by decide)
  exact ⟨ht, by decide, by decide, ht.descendants_documentOrder 4⟩

end AmpMarkup.Dom.Tree
