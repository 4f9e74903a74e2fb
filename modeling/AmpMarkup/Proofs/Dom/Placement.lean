import AmpMarkup.Proofs.Dom.Forest
import AmpMarkup.Proofs.Lookup

/-! What a move changes in a forest. The node leaves the list of children that it was in and comes
into one list; every other list, every other parent and the nodes themselves stay as they are. Moving
a node before the one that follows it changes nothing at all, moving it before itself makes it the
last child. -/

namespace AmpMarkup.Dom

/-- A list after a node has been put into it: right before another one if that one is listed, at the
end otherwise. -/
inductive PutBefore (child reference : NodeId) : List NodeId → List NodeId → Prop where
  | listed {before : List NodeId} (after : List NodeId) : reference ∉ before →
      PutBefore child reference (before ++ reference :: after)
        (before ++ child :: reference :: after)
  | unlisted {ids : List NodeId} : reference ∉ ids → PutBefore child reference ids (ids ++ [child])

/-- A list after a node has been put at its end. -/
def PutLast (child : NodeId) (ids ids' : List NodeId) : Prop :=
  ids' = ids ++ [child]

theorem placeBefore_of_not_mem {child reference : NodeId} {ids : List NodeId}
    (h : reference ∉ ids) : placeBefore child reference ids = ids ++ [child] := by
  induction ids with
  | nil => rfl
  | cons id ids ih =>
      rw [List.mem_cons, not_or] at h
      obtain ⟨hne, hids⟩ := h
      rw [placeBefore, if_neg (Ne.symm hne), ih hids, List.cons_append]

theorem placeBefore_append {child reference : NodeId} {before : List NodeId}
    (h : reference ∉ before) (after : List NodeId) :
    placeBefore child reference (before ++ reference :: after) =
      before ++ child :: reference :: after := by
  induction before with
  | nil => exact if_pos rfl
  | cons id before ih =>
      rw [List.mem_cons, not_or] at h
      obtain ⟨hne, hbefore⟩ := h
      rw [List.cons_append, placeBefore, if_neg (Ne.symm hne), ih hbefore, List.cons_append]

theorem putBefore_placeBefore (child reference : NodeId) (ids : List NodeId) :
    PutBefore child reference ids (placeBefore child reference ids) := by
  by_cases hm : reference ∈ ids
  · obtain ⟨before, after, rfl, hbefore⟩ := List.eq_append_cons_of_mem hm
    rw [placeBefore_append hbefore]
    exact .listed after hbefore
  · rw [placeBefore_of_not_mem hm]
    exact .unlisted hm

namespace Tree

/-- The second tree has the nodes of the first one, and no node but `child` has another parent. -/
structure Relinked (t t' : Tree) (child : NodeId) (parent : Option NodeId) : Prop where
  size : t'.size = t.size
  content? : ∀ id, t'.content? id = t.content? id
  parent?_child : t'.parent? child = parent
  parent?_other : ∀ id, id ≠ child → t'.parent? id = t.parent? id

/-- `child` has been moved into the children of `parent`. -/
structure Moved (t t' : Tree) (parent child : NodeId) (put : List NodeId → List NodeId → Prop) : Prop
    extends Relinked t t' child (some parent) where
  children_parent : put ((t.children parent).filter (· != child)) (t'.children parent)
  children_left : ∀ p, t.parent? child = some p → p ≠ parent →
    t'.children p = (t.children p).filter (· != child)
  children_other : ∀ p, t.parent? child ≠ some p → p ≠ parent → t'.children p = t.children p

/-- `child` has been taken out of the children of `parent`. -/
structure Removed (t t' : Tree) (parent child : NodeId) : Prop extends Relinked t t' child none where
  children_parent : t'.children parent = (t.children parent).filter (· != child)
  children_other : ∀ p, p ≠ parent → t'.children p = t.children p

variable {t t' : Tree} {p c s parent child : NodeId} {before rest : List NodeId}

/-- A tree is determined by its nodes' contents and links. -/
theorem eq_of_links (hs : t'.size = t.size) (hc : ∀ id, t'.content? id = t.content? id)
    (hp : ∀ id, t'.parent? id = t.parent? id) (hch : ∀ id, t'.children id = t.children id) :
    t' = t := by
  refine eq_of_get? fun id => ?_
  by_cases hid : id < t.size
  · obtain ⟨n, hn⟩ := exists_get? hid
    obtain ⟨n', hn'⟩ := exists_get? (hs ▸ hid)
    have hcontent := hc id
    have hparent := hp id
    have hchildren := hch id
    rw [content?, content?, hn, hn'] at hcontent
    rw [parent?, parent?, hn, hn'] at hparent
    rw [children, children, hn, hn'] at hchildren
    cases n
    cases n'
    simp_all
  · rw [get?_eq_none_iff.2 (Nat.le_of_not_lt hid),
      get?_eq_none_iff.2 (hs ▸ Nat.le_of_not_lt hid)]

theorem relinked_detach (t : Tree) (child : NodeId) : t.Relinked (t.detach child) child none where
  size := size_detach t child
  content? := content?_detach t child
  parent?_child := by rw [parent?_detach, if_pos rfl]
  parent?_other id hid := by rw [parent?_detach, if_neg hid]

namespace Forest

/-- A node stands in one list at most, so taking it out takes it out of all. -/
theorem children_detach (h : t.Forest) (child p : NodeId) :
    (t.detach child).children p = (t.children p).filter (· != child) := by
  rw [Tree.children_detach fun q hq => h.parent_lt hq]
  split
  · rfl
  · next hp =>
      refine (List.filter_eq_self.mpr fun c hc => bne_iff_ne.mpr ?_).symm
      rintro rfl
      exact hp ((h.mem_children_iff p c).mp hc)

theorem filter_children (h : t.Forest) (hp : t.parent? child ≠ some p) :
    (t.children p).filter (· != child) = t.children p := by
  rw [← h.children_detach, Tree.children_detach fun q hq => h.parent_lt hq, if_neg hp]

/-- Whatever place is chosen among the children of `parent`, the move changes nothing else. -/
theorem moved (h : t.Forest) (hl : t.MayLink parent child) {place : List NodeId → List NodeId}
    {put : List NodeId → List NodeId → Prop} (hput : ∀ ids, put ids (place ids)) :
    t.Moved ((t.detach child).attach parent child place) parent child put := by
  have hp : parent < (t.detach child).size := (size_detach t child).symm ▸ hl.1
  have hc : child < (t.detach child).size := (size_detach t child).symm ▸ hl.2.1
  have hchildren := children_attach hp child place
  have hparent := parent?_attach hc parent place
  refine ⟨⟨?_, fun id => ?_, ?_, fun id hid => ?_⟩, ?_, fun p _ hne => ?_, fun p hp hne => ?_⟩
  · rw [size_attach, size_detach]
  · rw [content?_attach, content?_detach]
  · rw [hparent, if_pos rfl]
  · rw [hparent, if_neg hid, parent?_detach, if_neg hid]
  · rw [hchildren, if_pos rfl, h.children_detach]
    exact hput _
  · rw [hchildren, if_neg hne, h.children_detach]
  · rw [hchildren, if_neg hne, h.children_detach, h.filter_children hp]

theorem moved_append (h : t.Forest) (hl : t.MayLink parent child) :
    t.Moved (t.append parent child) parent child (PutLast child) :=
  h.moved hl fun _ => rfl

theorem moved_insertBefore (h : t.Forest) (hl : t.MayLink parent child) (reference : NodeId) :
    t.Moved (t.insertBefore parent child reference) parent child (PutBefore child reference) :=
  h.moved hl (putBefore_placeBefore child reference)

theorem removed (h : t.Forest) (hp : t.parent? child = some parent) :
    t.Removed (t.remove parent child) parent child := by
  rw [Tree.remove, if_pos hp]
  refine ⟨t.relinked_detach child, h.children_detach child parent, fun p hne => ?_⟩
  rw [h.children_detach, h.filter_children]
  rw [hp]
  exact fun he => hne (Option.some.inj he).symm

end Forest

theorem remove_eq_self (hp : t.parent? child ≠ some parent) : t.remove parent child = t :=
  if_neg hp

/-- What edits of one place do to every tree that allowed edits lead to. A node that is appended or
put before another one leaves its old list of children and stands in the new one, at the end or before
the reference; nothing else changes. Taking a node out changes one list and one parent, and only if
the node is there. -/
theorem Reachable.edits_in_place (h : t.Reachable) (parent child : NodeId) :
    (t.MayLink parent child →
      t.Moved (t.append parent child) parent child (PutLast child) ∧
        ∀ reference, t.Moved (t.insertBefore parent child reference) parent child
          (PutBefore child reference)) ∧
      (t.parent? child = some parent → t.Removed (t.remove parent child) parent child) ∧
      (t.parent? child ≠ some parent → t.remove parent child = t) :=
  ⟨fun hl => ⟨h.forest.moved_append hl, h.forest.moved_insertBefore hl⟩, h.forest.removed,
    remove_eq_self⟩

/-- The first of three children is moved before the last one, and a node is taken out of the list that
it is in and not out of another one. -/
theorem edits_in_place_siblings :
    let made := (((empty.apply (.make (.element ⟨"a", .empty⟩))).apply
      (.make (.element ⟨"b", .empty⟩))).apply (.make (.element ⟨"c", .empty⟩))).apply
        (.make (.text "d"))
    let t := (((made.apply (.append 0 1)).apply (.append 0 2)).apply (.append 0 3)).apply
      (.append 1 4)
    t.Reachable ∧ t.children 0 = [1, 2, 3] ∧ t.children 1 = [4] ∧
      (t.MayLink 0 1 ∧ (t.insertBefore 0 1 3).children 0 = [2, 1, 3] ∧
        t.Moved (t.append 0 1) 0 1 (PutLast 1) ∧
          ∀ reference, t.Moved (t.insertBefore 0 1 reference) 0 1 (PutBefore 1 reference)) ∧
      (t.parent? 4 = some 1 ∧ t.Removed (t.remove 1 4) 1 4) ∧
      (t.parent? 4 ≠ some 0 ∧ t.remove 0 4 = t) := by
  intro made t
  have hmade : made.Reachable :=
    (((Reachable.empty.change (.make _) trivial).change (.make _) trivial).change (.make _)
      trivial).change (.make _) trivial
  have ht : t.Reachable :=
    (((hmade.change (.append 0 1) (by decide)).change (.append 0 2)
      (by decide)).change (.append 0 3) (by decide)).change (.append 1 4)
        (by decide)
  have hl : t.MayLink 0 1 := by decide
  have hp : t.parent? 4 = some 1 := by decide
  have hne : t.parent? 4 ≠ some 0 := by decide
  exact ⟨ht, by decide, by decide,
    ⟨hl, by decide, (ht.edits_in_place 0 1).1 hl⟩,
    ⟨hp, (ht.edits_in_place 1 4).2.1 hp⟩, hne, (ht.edits_in_place 0 4).2.2 hne⟩

/-! ### Moves to where a node is -/

theorem nextSibling?_eq_head? (hp : t.parent? c = some p) (hs : t.children p = before ++ c :: rest)
    (hc : c ∉ before) : t.nextSibling? c = rest.head? := by
  simp only [nextSibling?, hp, Option.bind_eq_bind, Option.bind_some, hs, idxOf?_append_cons hc]
  rw [List.getElem?_append_right (Nat.le_succ _), Nat.succ_sub (Nat.le_refl _), Nat.sub_self]
  cases rest <;> rfl

theorem lastChild?_eq_some_iff (hs : t.children p = before ++ c :: rest) (hc : c ∉ rest) :
    t.lastChild? p = some c ↔ rest = [] := by
  rw [lastChild?, hs, List.getLast?_append_of_ne_nil _ (List.cons_ne_nil c rest)]
  constructor
  · intro hlast
    cases rest with
    | nil => rfl
    | cons d rest =>
        rw [List.getLast?_cons_cons] at hlast
        exact absurd (List.mem_of_getLast? hlast) hc
  · rintro rfl
    rfl

/-- A child divides the list that it is in. -/
theorem Forest.exists_split (h : t.Forest) (hc : c ∈ t.children p) :
    ∃ before rest, t.children p = before ++ c :: rest ∧ c ∉ before ∧ c ∉ rest ∧
      ∀ s ∈ rest, s ∉ before := by
  obtain ⟨before, rest, hs, hbefore⟩ := List.eq_append_cons_of_mem hc
  have hnodup := h.nodup p
  rw [hs] at hnodup
  obtain ⟨-, hrest, hapart⟩ := List.nodup_append.mp hnodup
  exact ⟨before, rest, hs, hbefore, (List.nodup_cons.mp hrest).1,
    fun s hs hb => hapart s hb s (List.mem_cons_of_mem c hs) rfl⟩

theorem filter_ne_append_cons (hbefore : c ∉ before) (hrest : c ∉ rest) :
    (before ++ c :: rest).filter (· != c) = before ++ rest := by
  have hkept : ∀ ids : List NodeId, c ∉ ids → ids.filter (· != c) = ids := fun ids hids =>
    List.filter_eq_self.mpr fun id hid => bne_iff_ne.mpr fun he => hids (he ▸ hid)
  rw [List.filter_append, List.filter_cons_of_neg (by simp), hkept before hbefore, hkept rest hrest]

/-- A move inside a list that leaves the list as it is leaves the tree as it is. -/
theorem Moved.eq_of_children {put : List NodeId → List NodeId → Prop} (h : t.Moved t' p c put)
    (hp : t.parent? c = some p) (hc : t'.children p = t.children p) : t' = t := by
  refine eq_of_links h.size h.content? (fun id => ?_) fun q => ?_
  · by_cases hid : id = c
    · rw [hid, h.parent?_child, hp]
    · exact h.parent?_other id hid
  · by_cases hq : q = p
    · rw [hq, hc]
    · refine h.children_other q ?_ hq
      rw [hp]
      exact fun he => hq (Option.some.inj he).symm

theorem Forest.children_insertBefore (h : t.Forest) (hl : t.MayLink parent child)
    (reference : NodeId) : (t.insertBefore parent child reference).children parent =
      placeBefore child reference ((t.children parent).filter (· != child)) := by
  have hm : t.Moved (t.insertBefore parent child reference) parent child
      (fun ids ids' => ids' = placeBefore child reference ids) := h.moved hl fun _ => rfl
  exact hm.children_parent

/-- A reference that is the node itself is no longer listed when its place is looked for. -/
theorem Forest.children_insertBefore_self (h : t.Forest) (hc : c ∈ t.children p) :
    (t.insertBefore p c c).children p = (t.children p).filter (· != c) ++ [c] := by
  rw [h.children_insertBefore (h.mayLink_of_mem_children hc), placeBefore_of_not_mem]
  simp

theorem Forest.filter_append_eq_iff (h : t.Forest) (hc : c ∈ t.children p) :
    (t.children p).filter (· != c) ++ [c] = t.children p ↔ t.lastChild? p = some c := by
  obtain ⟨before, rest, hs, hbefore, hrest, -⟩ := h.exists_split hc
  rw [lastChild?_eq_some_iff hs hrest, hs, filter_ne_append_cons hbefore hrest, List.append_assoc,
    List.append_cancel_left_eq]
  constructor
  · intro he
    cases rest with
    | nil => rfl
    | cons d rest => exact absurd ((List.cons.inj he).1 ▸ List.mem_cons_self) hrest
  · rintro rfl
    rfl

theorem Forest.insertBefore_nextSibling (h : t.Forest) (hc : c ∈ t.children p)
    (hnext : t.nextSibling? c = some s) : t.insertBefore p c s = t := by
  have hl := h.mayLink_of_mem_children hc
  have hp := (h.mem_children_iff p c).mp hc
  obtain ⟨before, rest, hs, hbefore, hrest, hapart⟩ := h.exists_split hc
  rw [nextSibling?_eq_head? hp hs hbefore] at hnext
  obtain ⟨after, rfl⟩ := List.head?_eq_some_iff.mp hnext
  refine (h.moved_insertBefore hl s).eq_of_children hp ?_
  rw [h.children_insertBefore hl, hs, filter_ne_append_cons hbefore hrest,
    placeBefore_append (hapart s List.mem_cons_self)]

/-- A child that is put before itself becomes the last one, so its list stays as it is only if it was
the last one already. A child that is put before the one right after it stays where it is, and so does
everything else. -/
theorem Reachable.insertBefore_in_own_place (h : t.Reachable) (hc : c ∈ t.children p) :
    (t.insertBefore p c c).children p = (t.children p).filter (· != c) ++ [c] ∧
      ((t.insertBefore p c c).children p = t.children p ↔ t.lastChild? p = some c) ∧
      ∀ s, t.nextSibling? c = some s → t.insertBefore p c s = t := by
  have hself := h.forest.children_insertBefore_self hc
  refine ⟨hself, ?_, fun s => h.forest.insertBefore_nextSibling hc⟩
  rw [hself]
  exact h.forest.filter_append_eq_iff hc

/-- The first of two children is put before itself and comes last; it is put before the second one
and stays. -/
theorem insertBefore_in_own_place_first :
    let made := (empty.apply (.make (.element ⟨"a", .empty⟩))).apply
      (.make (.element ⟨"b", .empty⟩))
    let t := (made.apply (.append 0 1)).apply (.append 0 2)
    t.Reachable ∧ t.children 0 = [1, 2] ∧ 1 ∈ t.children 0 ∧
      (t.insertBefore 0 1 1).children 0 = [2, 1] ∧
      ((t.insertBefore 0 1 1).children 0 = (t.children 0).filter (· != 1) ++ [1] ∧
        ((t.insertBefore 0 1 1).children 0 = t.children 0 ↔ t.lastChild? 0 = some 1) ∧
        ∀ s, t.nextSibling? 1 = some s → t.insertBefore 0 1 s = t) ∧
      t.nextSibling? 1 = some 2 := by
  intro made t
  have hmade : made.Reachable := (Reachable.empty.change (.make _) trivial).change (.make _) trivial
  have ht : t.Reachable :=
    (hmade.change (.append 0 1) (by decide)).change (.append 0 2) (by decide)
  have hc : 1 ∈ t.children 0 := by decide
  exact ⟨ht, by decide, hc, by decide, ht.insertBefore_in_own_place hc,
    by decide⟩

end Tree

end AmpMarkup.Dom
