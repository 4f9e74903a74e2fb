import Mathlib.Data.List.Perm.Subperm
import AmpMarkup.Proofs.Dom.Links
import AmpMarkup.Proofs.Dom.Ordered

/-! Edited trees are forests. Parent links and lists of children say the same, and every way up ends.
An edit keeps this because it takes a node out of its old place first, and because a node that it
puts below another one does not stand above that one. -/

namespace AmpMarkup.Dom.Tree

/-- Following the parent links from a node ends at a node without a parent. -/
inductive ReachesTop (t : Tree) : NodeId → Prop where
  | top {id : NodeId} : t.parent? id = none → ReachesTop t id
  | up {id p : NodeId} : t.parent? id = some p → ReachesTop t p → ReachesTop t id

/-- Links agree, no node is listed twice and no node is above itself. -/
structure Forest (t : Tree) : Prop where
  mem_children_iff : ∀ p c : NodeId, c ∈ t.children p ↔ t.parent? c = some p
  nodup : ∀ p : NodeId, (t.children p).Nodup
  reachesTop : ∀ id : NodeId, t.ReachesTop id

variable {t t' : Tree} {id p q c a child parent reference : NodeId}

/-- Taking links away leaves every way up with an end. -/
theorem ReachesTop.mono (h : t.ReachesTop id)
    (hsub : ∀ j p, t'.parent? j = some p → t.parent? j = some p) : t'.ReachesTop id := by
  induction h with
  | @top id hid =>
      refine .top (Option.eq_none_iff_forall_ne_some.mpr fun p hp => ?_)
      rw [hsub id p hp] at hid
      cases hid
  | @up id p hid _ ih =>
      cases hp : t'.parent? id with
      | none => exact .top hp
      | some q =>
          obtain rfl := Option.some.inj (hid.symm.trans (hsub id q hp))
          exact .up hp ih

theorem Within.top_lt (hw : t.Within a id) (hid : id < t.size) : a < t.size := by
  induction hw with
  | self => exact hid
  | child _ hc ih => exact ih (lt_size_of_mem_children hc)

/-- A way up that ends has the parent of every node on it. -/
theorem parent_mem_ancestorsWithin {depth : Nat}
    (hlen : (t.ancestorsWithin depth id).length < depth)
    (ha : a ∈ id :: t.ancestorsWithin depth id) (hp : t.parent? a = some p) :
    p ∈ t.ancestorsWithin depth id := by
  induction depth generalizing id with
  | zero => cases hlen
  | succ depth ih =>
      rw [ancestorsWithin] at hlen ha ⊢
      cases hid : t.parent? id with
      | none =>
          rw [hid] at ha
          rw [List.mem_singleton.mp ha, hid] at hp
          cases hp
      | some q =>
          rw [hid] at hlen ha
          rcases List.mem_cons.mp ha with rfl | ha
          · obtain rfl := Option.some.inj (hid.symm.trans hp)
            exact List.mem_cons_self
          · exact List.mem_cons_of_mem _ (ih (Nat.lt_of_succ_lt_succ hlen) ha)

namespace Forest

/-! ### What stands above a node -/

theorem parent_lt (h : t.Forest) (hp : t.parent? id = some p) : p < t.size :=
  lt_size_of_mem_children ((h.mem_children_iff p id).mpr hp)

theorem child_lt (h : t.Forest) (hc : c ∈ t.children p) : c < t.size :=
  lt_size_of_parent? ((h.mem_children_iff p c).mp hc)

/-- No node stands below one of its children. -/
theorem not_within_child (h : t.Forest) (hc : c ∈ t.children id) : ¬ t.Within c id := by
  have htop := h.reachesTop id
  induction htop generalizing c with
  | @top id hid =>
      intro hw
      cases hw with
      | self => exact Option.some_ne_none _ (((h.mem_children_iff id id).mp hc).symm.trans hid)
      | child _ hq =>
          exact Option.some_ne_none _ (((h.mem_children_iff _ id).mp hq).symm.trans hid)
  | @up id p hid _ ih =>
      intro hw
      cases hw with
      | self =>
          obtain rfl : p = id := Option.some.inj (hid.symm.trans ((h.mem_children_iff id id).mp hc))
          exact ih hc .self
      | child hq hid' =>
          obtain rfl := Option.some.inj (hid.symm.trans ((h.mem_children_iff _ id).mp hid'))
          exact ih hid' ((Within.child .self hc).trans hq)

theorem within_of_mem_ancestorsWithin (h : t.Forest) {depth : Nat}
    (ha : a ∈ t.ancestorsWithin depth id) : ∃ p, t.parent? id = some p ∧ t.Within a p := by
  induction depth generalizing id with
  | zero => cases ha
  | succ depth ih =>
      rw [ancestorsWithin] at ha
      cases hp : t.parent? id with
      | none =>
          rw [hp] at ha
          cases ha
      | some p =>
          rw [hp] at ha
          refine ⟨p, rfl, ?_⟩
          rcases List.mem_cons.mp ha with rfl | ha
          · exact .self
          · obtain ⟨q, hq, hw⟩ := ih ha
            exact .child hw ((h.mem_children_iff q p).mpr hq)

theorem nodup_ancestorsWithin (h : t.Forest) (depth : Nat) (id : NodeId) :
    (id :: t.ancestorsWithin depth id).Nodup := by
  induction depth generalizing id with
  | zero => exact List.nodup_cons.mpr ⟨List.not_mem_nil, .nil⟩
  | succ depth ih =>
      refine List.nodup_cons.mpr ⟨fun hm => ?_, ?_⟩
      · obtain ⟨p, hp, hw⟩ := h.within_of_mem_ancestorsWithin hm
        exact h.not_within_child ((h.mem_children_iff p id).mpr hp) hw
      · rw [ancestorsWithin]
        split
        · exact ih _
        · exact .nil

/-- No way up is longer than the tree has nodes. -/
theorem length_ancestorsWithin (h : t.Forest) (depth : Nat) (hid : id < t.size) :
    (t.ancestorsWithin depth id).length < t.size := by
  have hlt : id :: t.ancestorsWithin depth id ⊆ List.range t.size := by
    intro a ha
    rw [List.mem_range]
    rcases List.mem_cons.mp ha with rfl | ha
    · exact hid
    · obtain ⟨p, hp, hw⟩ := h.within_of_mem_ancestorsWithin ha
      exact hw.top_lt (h.parent_lt hp)
  have hle := (List.subperm_of_subset (h.nodup_ancestorsWithin depth id) hlt).length_le
  rwa [List.length_cons, List.length_range] at hle

/-- The ancestors of a node are the nodes at or above its parent. -/
theorem mem_ancestors_iff (h : t.Forest) :
    a ∈ t.ancestors id ↔ ∃ p, t.parent? id = some p ∧ t.Within a p := by
  refine ⟨h.within_of_mem_ancestorsWithin, ?_⟩
  rintro ⟨p, hp, hw⟩
  have hlen := h.length_ancestorsWithin t.size (lt_size_of_parent? hp)
  -- The ancestors of `id` are closed under parents, so the way up from `p` stays among them.
  have hclosed : ∀ j, t.Within a j → j ∈ t.ancestors id → a ∈ t.ancestors id := by
    intro j hj hmem
    induction hj with
    | self => exact hmem
    | child _ hc ih =>
        exact ih (parent_mem_ancestorsWithin hlen (List.mem_cons_of_mem _ hmem)
          ((h.mem_children_iff _ _).mp hc))
  exact hclosed p hw (parent_mem_ancestorsWithin hlen List.mem_cons_self hp)

theorem mem_ancestors_iff_within (h : t.Forest) : a ∈ t.ancestors id ↔ id ≠ a ∧ t.Within a id := by
  rw [h.mem_ancestors_iff]
  constructor
  · rintro ⟨p, hp, hw⟩
    have hid := (h.mem_children_iff p id).mpr hp
    refine ⟨?_, .child hw hid⟩
    rintro rfl
    exact h.not_within_child hid hw
  · rintro ⟨hne, hw⟩
    cases hw with
    | self => exact absurd rfl hne
    | child hw hid => exact ⟨_, (h.mem_children_iff _ id).mp hid, hw⟩

/-- A link is allowed where the parent does not stand below the child. -/
theorem mayLink_iff (h : t.Forest) :
    t.MayLink parent child ↔ parent < t.size ∧ child < t.size ∧ ¬ t.Within child parent := by
  refine and_congr_right fun _ => and_congr_right fun _ => ?_
  rw [h.mem_ancestors_iff_within]
  constructor
  · rintro ⟨hne, hnot⟩ hw
    exact hnot ⟨hne.symm, hw⟩
  · intro hnot
    refine ⟨?_, fun hw => hnot hw.2⟩
    rintro rfl
    exact hnot .self

theorem mayLink_of_mem_children (h : t.Forest) (hc : c ∈ t.children p) : t.MayLink p c :=
  h.mayLink_iff.2 ⟨lt_size_of_mem_children hc, h.child_lt hc, h.not_within_child hc⟩

/-! ### What stands below a node -/

/-- Of two nodes above a third one, one stands above the other. -/
theorem within_total (h : t.Forest) (hp : t.Within p id) (hq : t.Within q id) :
    t.Within p q ∨ t.Within q p := by
  induction hp with
  | self => exact .inr hq
  | child hp hc ih =>
      cases hq with
      | self => exact .inl (.child hp hc)
      | child hq hc' =>
          rw [h.mem_children_iff] at hc hc'
          obtain rfl := Option.some.inj (hc.symm.trans hc')
          exact ih hq

/-- Nothing stands below two siblings. -/
theorem eq_of_within (h : t.Forest) (hp : p ∈ t.children a) (hq : q ∈ t.children a)
    (hpid : t.Within p id) (hqid : t.Within q id) : p = q := by
  have habove : ∀ {i j}, i ∈ t.children a → j ∈ t.children a → t.Within i j → i = j := by
    intro i j hi hj hw
    cases hw with
    | self => rfl
    | child hk hj' =>
        rw [h.mem_children_iff] at hj hj'
        obtain rfl := Option.some.inj (hj.symm.trans hj')
        exact absurd hk (h.not_within_child hi)
  rcases h.within_total hpid hqid with hw | hw
  · exact habove hp hq hw
  · exact (habove hq hp hw).symm

theorem nodup_descendantsWithin (h : t.Forest) (depth : Nat) (id : NodeId) :
    (t.descendantsWithin depth id).Nodup := by
  induction depth generalizing id with
  | zero => exact List.pairwise_singleton _ id
  | succ depth ih =>
      refine List.nodup_cons.mpr ⟨fun hm => ?_, List.pairwise_flatMap.mpr ⟨fun c _ => ih c, ?_⟩⟩
      · obtain ⟨c, hc, hid⟩ := List.mem_flatMap.mp hm
        exact h.not_within_child hc (within_of_mem_descendantsWithin hid)
      · refine (h.nodup id).imp_of_mem ?_
        rintro c d hc hd hne x hx _ hy rfl
        exact hne (h.eq_of_within hc hd (within_of_mem_descendantsWithin hx)
          (within_of_mem_descendantsWithin hy))

/-- A walk comes to no node twice. -/
theorem nodup_descendants (h : t.Forest) (id : NodeId) : (t.descendants id).Nodup :=
  h.nodup_descendantsWithin t.size id

/-! ### Edits -/

/-- Only what a tree says about links matters. -/
theorem of_links_eq (h : t.Forest) (hc : ∀ id, t'.children id = t.children id)
    (hp : ∀ id, t'.parent? id = t.parent? id) : t'.Forest where
  mem_children_iff p c := by
    rw [hc, hp]
    exact h.mem_children_iff p c
  nodup p := by
    rw [hc]
    exact h.nodup p
  reachesTop id := (h.reachesTop id).mono fun j p hj => by rwa [hp] at hj

theorem alloc (h : t.Forest) (content : Content) : (t.alloc content).Forest :=
  h.of_links_eq (children_alloc t content) (parent?_alloc t content)

theorem setContent (h : t.Forest) (id : NodeId) (content : Content) :
    (t.setContent id content).Forest :=
  h.of_links_eq (fun j => children_setContent t id j content)
    fun j => parent?_setContent t id j content

theorem mapAttributes (h : t.Forest) (id : NodeId) (f : Attributes → Attributes) :
    (t.mapAttributes id f).Forest := by
  unfold Tree.mapAttributes
  split
  · exact h.setContent id _
  · exact h

theorem detach (h : t.Forest) (child : NodeId) : (t.detach child).Forest := by
  have hchildren := children_detach fun q (hq : t.parent? child = some q) => h.parent_lt hq
  refine ⟨fun p c => ?_, fun p => ?_, fun id => (h.reachesTop id).mono fun j p hp => ?_⟩
  · rw [hchildren, parent?_detach]
    by_cases hc : c = child
    · subst hc
      have hne : ¬ (t.parent? c ≠ some p ∧ c ∈ t.children p) := fun hm =>
        hm.1 ((h.mem_children_iff p c).mp hm.2)
      split <;> simp_all
    · split <;> simp [hc, h.mem_children_iff]
  · rw [hchildren]
    split
    · exact (h.nodup p).filter _
    · exact h.nodup p
  · rw [parent?_detach] at hp
    split at hp
    · cases hp
    · exact hp

theorem remove (h : t.Forest) (parent child : NodeId) : (t.remove parent child).Forest := by
  unfold Tree.remove
  split
  · exact h.detach child
  · exact h

theorem clear (h : t.Forest) (id : NodeId) : (t.clear id).Forest := by
  refine ⟨fun p c => ?_, fun p => ?_, fun j => (h.reachesTop j).mono fun j p hp => ?_⟩
  · rw [children_clear, parent?_clear]
    by_cases hp : p = id
    · subst hp
      by_cases hc : c ∈ t.children p
      · simp [hc]
      · rw [if_pos rfl, if_neg hc, ← h.mem_children_iff]
        simp [hc]
    · rw [if_neg hp, h.mem_children_iff]
      split
      · next hc =>
          rw [h.mem_children_iff] at hc
          simp [hc, Ne.symm hp]
      · rfl
  · rw [children_clear]
    split
    · exact .nil
    · exact h.nodup p
  · rw [parent?_clear] at hp
    split at hp
    · cases hp
    · exact hp

/-- A node without a parent is put below one that does not stand below it. -/
theorem attach {place : List NodeId → List NodeId} (h : t.Forest) (hp : parent < t.size)
    (hc : child < t.size) (htop : t.parent? child = none) (hw : ¬ t.Within child parent)
    (hplace : ∀ ids, (place ids).Perm (child :: ids)) :
    (t.attach parent child place).Forest := by
  have hparent := parent?_attach hc parent place
  have hchildren := children_attach hp child place
  have hfree : ∀ p, child ∉ t.children p := fun p hm => by
    rw [h.mem_children_iff, htop] at hm
    cases hm
  have hold : ∀ {j p}, t.parent? j = some p → (t.attach parent child place).parent? j = some p := by
    intro j p hj
    rw [hparent, if_neg, hj]
    rintro rfl
    rw [htop] at hj
    cases hj
  -- Ways up that do not pass the child are as before, and the one from the parent is among them.
  have hbeside : ∀ id, ¬ t.Within child id → (t.attach parent child place).ReachesTop id := by
    intro id hid
    induction h.reachesTop id with
    | @top id hnone =>
        refine .top ?_
        rw [hparent, if_neg, hnone]
        rintro rfl
        exact hid .self
    | @up id p hup _ ih =>
        exact .up (hold hup) (ih fun hwp => hid (.child hwp ((h.mem_children_iff p id).mpr hup)))
  have hchild : (t.attach parent child place).ReachesTop child :=
    .up (by rw [hparent, if_pos rfl]) (hbeside parent hw)
  refine ⟨fun p c => ?_, fun p => ?_, fun id => ?_⟩
  · rw [hchildren, hparent]
    by_cases hcc : c = child
    · subst hcc
      by_cases hpp : p = parent
      · simp [hpp, (hplace _).mem_iff]
      · simp [hpp, hfree p, Ne.symm hpp]
    · rw [if_neg hcc, ← h.mem_children_iff]
      split
      · rw [(hplace _).mem_iff, List.mem_cons, or_iff_right hcc]
      · rfl
  · rw [hchildren]
    split
    · exact (hplace _).nodup_iff.mpr (List.nodup_cons.mpr ⟨hfree p, h.nodup p⟩)
    · exact h.nodup p
  · by_cases hid : t.Within child id
    · induction hid with
      | self => exact hchild
      | child _ hm ih => exact .up (hold ((h.mem_children_iff _ _).mp hm)) ih
    · exact hbeside id hid

/-- A node is moved below one that does not stand below it. -/
theorem move {place : List NodeId → List NodeId} (h : t.Forest) (hl : t.MayLink parent child)
    (hplace : ∀ ids, (place ids).Perm (child :: ids)) :
    ((t.detach child).attach parent child place).Forest := by
  refine (h.detach child).attach ?_ ?_ ?_ (fun hw => ?_) hplace
  · exact (size_detach t child).symm ▸ hl.1
  · exact (size_detach t child).symm ▸ hl.2.1
  · rw [parent?_detach, if_pos rfl]
  · refine (h.mayLink_iff.1 hl).2.2 (hw.mono fun p c hc => ?_)
    rw [children_detach fun q hq => h.parent_lt hq] at hc
    split at hc
    · exact List.mem_of_mem_filter hc
    · exact hc

theorem append (h : t.Forest) (hl : t.MayLink parent child) : (t.append parent child).Forest :=
  h.move hl fun ids => List.perm_append_singleton child ids

theorem insertBefore (h : t.Forest) (hl : t.MayLink parent child) (reference : NodeId) :
    (t.insertBefore parent child reference).Forest :=
  h.move hl fun ids => placeBefore_perm child reference ids

/-- A new node may be put below any other one. -/
theorem mayLink_alloc (h : t.Forest) (hp : p < t.size) (content : Content) :
    (t.alloc content).MayLink p t.size := by
  have hsize := size_alloc t content
  refine ⟨hsize ▸ Nat.lt_succ_of_lt hp, hsize ▸ Nat.lt_succ_self _, Nat.ne_of_gt hp, fun hm => ?_⟩
  obtain ⟨q, hq, hw⟩ := (h.alloc content).mem_ancestors_iff.mp hm
  rw [parent?_alloc] at hq
  have hbelow : t.Within t.size q := hw.mono fun p c hc => by rwa [children_alloc] at hc
  exact Nat.lt_irrefl _ (hbelow.top_lt (h.parent_lt hq))

theorem alloc_append (h : t.Forest) (hp : p < t.size) (content : Content) :
    ((t.alloc content).append p t.size).Forest :=
  (h.alloc content).append (h.mayLink_alloc hp content)

theorem appendText (h : t.Forest) (id : NodeId) (data : Text) : (t.appendText id data).Forest := by
  unfold Tree.appendText
  split
  · next hid =>
      split
      · exact h.setContent _ _
      · exact h.alloc_append (lt_size_of_isElement hid) _
  · exact h

theorem forceClosingTagsWithin (h : t.Forest) (depth : Nat) (id : NodeId) :
    (forceClosingTagsWithin depth t id).Forest := by
  induction depth generalizing t id with
  | zero => exact h
  | succ depth ih =>
      rw [Tree.forceClosingTagsWithin]
      split
      · exact h
      · next e he =>
          have hid : id < t.size := lt_size_of_isElement (by rw [isElement, he]; rfl)
          refine iteInduction (fun _ => h.clear id) fun _ => iteInduction (fun _ => ?_) fun _ => ?_
          · exact h.alloc_append hid _
          · exact List.foldlRecOn _ _ h fun s hs c _ => ih hs c

theorem forceClosingTags (h : t.Forest) (id : NodeId) : (t.forceClosingTags id).Forest :=
  h.forceClosingTagsWithin t.size id

theorem apply (h : t.Forest) {e : Edit} (he : t.Allows e) : (t.apply e).Forest := by
  cases e with
  | make content => exact h.alloc content
  | append parent child => exact h.append he
  | insertBefore parent child reference => exact h.insertBefore he reference
  | remove parent child => exact h.remove parent child
  | clear id => exact h.clear id
  | forceClosingTags id => exact h.forceClosingTags id

end Forest

theorem forest_empty : empty.Forest where
  mem_children_iff p c := by
    have hchildren : empty.children p = [] := by cases p <;> rfl
    have hparent : empty.parent? c = none := by cases c <;> rfl
    simp [hchildren, hparent]
  nodup p := by
    cases p <;> exact .nil
  reachesTop id := .top (by cases id <;> rfl)

theorem Reachable.forest (h : t.Reachable) : t.Forest := by
  induction h with
  | empty => exact forest_empty
  | change e _ he ih => exact ih.apply he

/-- Every tree that allowed edits lead to. The children of a node are the nodes whose parent it is,
none of them twice, links name nodes of the tree, and every way up ends. -/
theorem Reachable.links_agree (h : t.Reachable) :
    (∀ p c, c ∈ t.children p ↔ t.parent? c = some p) ∧
      (∀ p, (t.children p).Nodup) ∧
      (∀ id n, t.get? id = some n →
        (∀ c ∈ n.children, c < t.size) ∧ ∀ p, n.parent = some p → p < t.size) ∧
      ∀ id, t.ReachesTop id := by
  have hf := h.forest
  refine ⟨hf.mem_children_iff, hf.nodup, fun id n hn => ⟨fun c hc => ?_, fun p hp => ?_⟩,
    hf.reachesTop⟩
  · have hchild : c ∈ t.children id := by
      rw [children, hn]
      exact hc
    exact hf.child_lt hchild
  · have hparent : t.parent? id = some p := by
      rw [parent?, hn]
      exact hp
    exact hf.parent_lt hparent

/-- A node is moved from below another one to the place before it, which then is given a text. -/
theorem links_agree_moved :
    let made := (empty.apply (.make (.element ⟨"div", .empty⟩))).apply
      (.make (.element ⟨"p", .empty⟩))
    let nested := (made.apply (.append 0 1)).apply (.append 1 2)
    let t := ((nested.apply (.insertBefore 0 2 1)).apply (.remove 1 2)).apply (.forceClosingTags 1)
    t.Reachable ∧ t.children 0 = [2, 1] ∧ t.children 1 = [3] ∧
      (∀ p c, c ∈ t.children p ↔ t.parent? c = some p) ∧
      (∀ p, (t.children p).Nodup) ∧
      (∀ id n, t.get? id = some n →
        (∀ c ∈ n.children, c < t.size) ∧ ∀ p, n.parent = some p → p < t.size) ∧
      ∀ id, t.ReachesTop id := by
  intro made nested t
  have hmade : made.Reachable := .change (.make _) (.change (.make _) .empty trivial) trivial
  have hnested : nested.Reachable :=
    (hmade.change _ (by decide)).change _ (by decide)
  have ht : t.Reachable :=
    .change (.forceClosingTags 1) (.change (.remove 1 2) (hnested.change _ (by decide))
      trivial) trivial
  exact ⟨ht, by decide, by decide, ht.links_agree⟩

end AmpMarkup.Dom.Tree
