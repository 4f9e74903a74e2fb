import AmpMarkup.Proofs.Dom.Growth

/-! Trees in which every node was put below an older one and never moved. A walk from the document
reaches each of their nodes exactly once, and what stands below two siblings is never the same. -/

namespace AmpMarkup.Dom.Tree

/-- Every node but the document is a child of exactly one node, which is older. -/
structure Ordered (t : Tree) : Prop where
  root_lt : root < t.size
  child_lt : ∀ p c : Nat, c ∈ t.children p → p < c ∧ c < t.size
  placed : ∀ c : Nat, root < c → c < t.size → ∃ p, c ∈ t.children p
  parent_unique : ∀ p q c, c ∈ t.children p → c ∈ t.children q → p = q
  nodup : ∀ p, (t.children p).Nodup

/-- A node at or below another one. -/
inductive Within (t : Tree) (top : NodeId) : NodeId → Prop where
  | self : Within t top top
  | child {p c : NodeId} : Within t top p → c ∈ t.children p → Within t top c

section
variable {t t' : Tree} {p id j top : Nat} {content : Content}

/-! ### Nodes below a node -/

theorem Within.trans (h : t.Within top p) (hj : t.Within p j) : t.Within top j := by
  induction hj with
  | self => exact h
  | child _ hc ih => exact .child ih hc

theorem Within.mono (h : t.Within top j) (hsub : ∀ p, ∀ c ∈ t.children p, c ∈ t'.children p) :
    t'.Within top j := by
  induction h with
  | self => exact .self
  | child _ hc ih => exact .child ih (hsub _ _ hc)

/-- A node below another one is the same or below one of its children. -/
theorem Within.eq_or_child (h : t.Within top j) :
    j = top ∨ ∃ c ∈ t.children top, t.Within c j := by
  induction h with
  | self => exact .inl rfl
  | child hp hc ih =>
      right
      rcases ih with rfl | ⟨d, hd, hw⟩
      · exact ⟨_, hc, .self⟩
      · exact ⟨d, hd, .child hw hc⟩

theorem within_of_mem_descendantsWithin {depth : Nat} (hj : j ∈ t.descendantsWithin depth id) :
    t.Within id j := by
  induction depth generalizing id with
  | zero => exact List.mem_singleton.mp hj ▸ .self
  | succ depth ih =>
      rcases List.mem_cons.mp hj with rfl | hj
      · exact .self
      · obtain ⟨c, hc, hj⟩ := List.mem_flatMap.mp hj
        exact (Within.child .self hc).trans (ih hj)

/-- Walks that list a node and then what is below its children list the nodes at or below it. -/
theorem mem_descendants_iff_within
    (h : ∀ id, t.descendants id = id :: (t.children id).flatMap t.descendants) :
    j ∈ t.descendants id ↔ t.Within id j := by
  refine ⟨within_of_mem_descendantsWithin, fun hw => ?_⟩
  -- What is listed from a node is listed from every node above it too.
  have habove : ∀ k ∈ t.descendants j, k ∈ t.descendants id := by
    induction hw with
    | self => exact fun k hk => hk
    | @child p c _ hc ih =>
        intro k hk
        refine ih k ?_
        rw [h]
        exact List.mem_cons_of_mem _ (List.mem_flatMap.mpr ⟨c, hc, hk⟩)
  refine habove j ?_
  rw [h]
  exact List.mem_cons_self

namespace Ordered

theorem bounded (h : t.Ordered) : t.Bounded :=
  fun p c hc => (h.child_lt p c hc).2

theorem le_of_within (h : t.Ordered) (hw : t.Within top j) : top ≤ j := by
  induction hw with
  | self => exact Nat.le_refl _
  | child _ hc ih => exact Nat.le_of_lt (Nat.lt_of_le_of_lt ih (h.child_lt _ _ hc).1)

theorem lt_size_of_within (h : t.Ordered) (hw : t.Within top j) (htop : top < t.size) :
    j < t.size := by
  cases hw with
  | self => exact htop
  | child _ hc => exact (h.child_lt _ _ hc).2

/-- The node above another one is a single one, so it lies below every node that the other one is
strictly below. -/
theorem within_parent (h : t.Ordered) (hw : t.Within top j) (hne : j ≠ top)
    (hj : j ∈ t.children p) : t.Within top p := by
  cases hw with
  | self => exact absurd rfl hne
  | child hq hc =>
      rw [h.parent_unique p _ j hj hc]
      exact hq

/-- Nothing stands below two siblings. -/
theorem eq_of_within {c d : Nat} (h : t.Ordered) (hc : c ∈ t.children p) (hd : d ∈ t.children p)
    (hcj : t.Within c j) (hdj : t.Within d j) : c = d := by
  have habove : ∀ i k : Nat, i ∈ t.children p → k ∈ t.children p → t.Within k i → i = k := by
    intro i k hi hk hw
    refine Decidable.byContradiction fun hne => ?_
    have hle := h.le_of_within (h.within_parent hw hne hi)
    have hlt := (h.child_lt p k hk).1
    omega
  induction hcj with
  | self => exact habove c d hc hd hdj
  | child hq hj ih =>
      rename_i q i
      by_cases hid : i = d
      · subst hid
        exact (habove i c hd hc (.child hq hj)).symm
      · exact ih (h.within_parent hdj hid hj)

/-- What holds of a node when it holds of its children holds of all nodes. -/
theorem childInduction {motive : NodeId → Prop} (h : t.Ordered)
    (step : ∀ id, (∀ c ∈ t.children id, motive c) → motive id) (id : Nat) : motive id := by
  generalize hn : t.size - id = n
  induction n using Nat.strongRecOn generalizing id with
  | ind n ih =>
      apply step
      intro c hc
      have hlt := h.child_lt id c hc
      exact ih (t.size - c) (by omega) c rfl

/-! ### Walks -/

/-- Deep enough walks see the same nodes: numbers grow on the way down. -/
theorem descendantsWithin_eq (h : t.Ordered) {d e : Nat} (hd : t.size ≤ id + d)
    (he : t.size ≤ id + e) : t.descendantsWithin d id = t.descendantsWithin e id := by
  have hleaf : t.size ≤ id → ∀ d, t.descendantsWithin d id = [id] := by
    intro hle d
    cases d with
    | zero => rfl
    | succ d => simp [descendantsWithin, children_eq_nil hle]
  induction d generalizing id e with
  | zero => rw [hleaf hd, hleaf hd]
  | succ d ih =>
      cases e with
      | zero => rw [hleaf he, hleaf he]
      | succ e =>
          have hchildren : ∀ c ∈ t.children id,
              t.descendantsWithin d c = t.descendantsWithin e c := by
            intro c hc
            have hlt := (h.child_lt id c hc).1
            apply ih (by omega) (by omega)
            intro hle d
            cases d with
            | zero => rfl
            | succ d => simp [descendantsWithin, children_eq_nil hle]
          simp [descendantsWithin, List.flatMap_def, List.map_congr_left hchildren]

/-- A walk visits a node and then walks below its children in turn. -/
theorem descendants_eq (h : t.Ordered) (id : NodeId) :
    t.descendants id = id :: (t.children id).flatMap t.descendants := by
  have hdeep : t.descendants id = t.descendantsWithin (t.size + 1) id :=
    h.descendantsWithin_eq (by omega) (by omega)
  rw [hdeep]
  rfl

theorem mem_descendants (h : t.Ordered) : j ∈ t.descendants id ↔ t.Within id j :=
  mem_descendants_iff_within h.descendants_eq

theorem descendants_nodup (h : t.Ordered) (id : NodeId) : (t.descendants id).Nodup := by
  induction id using h.childInduction with
  | step id ih =>
      rw [h.descendants_eq, List.nodup_cons]
      constructor
      · intro hm
        obtain ⟨c, hc, hid⟩ := List.mem_flatMap.mp hm
        have hle := h.le_of_within (h.mem_descendants.1 hid)
        have hlt := (h.child_lt id c hc).1
        omega
      · refine List.pairwise_flatMap.mpr ⟨ih, (h.nodup id).imp_of_mem ?_⟩
        intro c d hc hd hne x hx y hy hxy
        subst hxy
        exact hne (h.eq_of_within hc hd (h.mem_descendants.1 hx) (h.mem_descendants.1 hy))

theorem within_root (h : t.Ordered) (hj : j < t.size) : t.Within root j := by
  induction j using Nat.strongRecOn with
  | ind j ih =>
      by_cases hroot : j = root
      · subst hroot
        exact .self
      · obtain ⟨p, hp⟩ := h.placed j (Nat.pos_of_ne_zero hroot) hj
        have hlt := h.child_lt p j hp
        exact .child (ih p hlt.1 (by omega)) hp

/-- A walk from the document reaches every node exactly once. -/
theorem descendants_root_perm (h : t.Ordered) :
    (t.descendants root).Perm (List.range t.size) := by
  rw [List.perm_ext_iff_of_nodup (h.descendants_nodup root) List.nodup_range]
  intro j
  rw [h.mem_descendants, List.mem_range]
  exact ⟨fun hw => h.lt_size_of_within hw h.root_lt, h.within_root⟩

/-! ### Growth -/

/-- Only what a tree says about children matters. -/
theorem of_children_eq (h : t.Ordered) (hs : t'.size = t.size)
    (hc : ∀ id, t'.children id = t.children id) : t'.Ordered where
  root_lt := hs ▸ h.root_lt
  child_lt p c hm := by
    rw [hc] at hm
    exact hs ▸ h.child_lt p c hm
  placed c h0 hlt := by
    obtain ⟨p, hp⟩ := h.placed c h0 (hs ▸ hlt)
    exact ⟨p, (hc p).symm ▸ hp⟩
  parent_unique p q c hp hq := by
    rw [hc] at hp hq
    exact h.parent_unique p q c hp hq
  nodup p := by
    rw [hc]
    exact h.nodup p

/-- A new node in the last place. -/
theorem alloc_append (h : t.Ordered) (hp : p < t.size) (content : Content) :
    ((t.alloc content).append p t.size).Ordered := by
  have hchildren := children_alloc_append hp content
  have hsize : ((t.alloc content).append p t.size).size = t.size + 1 :=
    (size_append ..).trans (size_alloc ..)
  -- A child is one from before or the new node, and that one stands below `p` alone.
  have hmem : ∀ q c, c ∈ ((t.alloc content).append p t.size).children q ↔
      c ∈ t.children q ∨ q = p ∧ c = t.size := by
    intro q c
    rw [hchildren]
    split
    · next hq => simp [hq]
    · next hq => simp [hq]
  have hold : ∀ q, t.size ∉ t.children q := by
    intro q hq
    exact Nat.lt_irrefl _ (h.child_lt q _ hq).2
  refine ⟨by rw [hsize]; exact Nat.succ_pos _, ?_, ?_, ?_, ?_⟩
  · intro q c hc
    rw [hsize]
    rcases (hmem q c).mp hc with hc | ⟨rfl, rfl⟩
    · have hlt := h.child_lt q c hc
      omega
    · omega
  · intro c h0 hlt
    rw [hsize] at hlt
    by_cases hc : c = t.size
    · exact ⟨p, (hmem p c).mpr (.inr ⟨rfl, hc⟩)⟩
    · obtain ⟨q, hq⟩ := h.placed c h0 (by omega)
      exact ⟨q, (hmem q c).mpr (.inl hq)⟩
  · intro q r c hq hr
    rcases (hmem q c).mp hq with hq' | ⟨hqp, hcs⟩
    · rcases (hmem r c).mp hr with hr' | ⟨-, hcs⟩
      · exact h.parent_unique q r c hq' hr'
      · exact absurd (hcs ▸ hq') (hold q)
    · rcases (hmem r c).mp hr with hr' | ⟨hrp, -⟩
      · exact absurd (hcs ▸ hr') (hold r)
      · rw [hqp, hrp]
  · intro q
    rw [hchildren]
    split
    · rw [List.nodup_append]
      refine ⟨h.nodup q, by simp, ?_⟩
      intro c hc d hd hcd
      rw [List.mem_singleton] at hd
      exact hold q (hd ▸ hcd ▸ hc)
    · exact h.nodup q

theorem setContent (h : t.Ordered) (id : NodeId) (content : Content) :
    (t.setContent id content).Ordered :=
  h.of_children_eq (size_setContent ..) fun j => children_setContent t id j content

theorem mapAttributes (h : t.Ordered) (id : NodeId) (f : Attributes → Attributes) :
    (t.mapAttributes id f).Ordered := by
  unfold Tree.mapAttributes
  split
  · exact h.setContent id _
  · exact h

theorem appendText (h : t.Ordered) (id : NodeId) (data : Text) : (t.appendText id data).Ordered := by
  unfold Tree.appendText
  split
  · next hid =>
      split
      · exact h.setContent _ _
      · exact h.alloc_append (lt_size_of_isElement hid) _
  · exact h

end Ordered

theorem ordered_empty : empty.Ordered where
  root_lt := Nat.zero_lt_one
  child_lt p c hc := by
    cases p with
    | zero => cases hc
    | succ p => cases hc
  placed c h0 hlt := absurd hlt (Nat.not_lt_of_le h0)
  parent_unique p q c hp _ := by
    cases p with
    | zero => cases hp
    | succ p => cases hp
  nodup p := by
    cases p with
    | zero => exact .nil
    | succ p => exact .nil

end

end AmpMarkup.Dom.Tree
