import Mathlib.Data.List.Nodup
import AmpMarkup.Proofs.Dom.Placement

/-! Steps along the children of a node. A node stands in one list of children and once in it, so that
a step looks for a place that there is only one of: the next sibling is the first of the children
behind a node, the previous one the last of those before it. -/

namespace AmpMarkup.Dom.Tree

/-- Following steps from a start as far as they lead: the nodes come to in order, and the last one. -/
inductive Follows (step : NodeId → Option NodeId) :
    Option NodeId → List NodeId → Option NodeId → Prop where
  | nowhere : Follows step none [] none
  | ends {id : NodeId} : step id = none → Follows step (some id) [id] (some id)
  | goes {id next : NodeId} {ids : List NodeId} {last : Option NodeId} : step id = some next →
      Follows step (some next) ids last → Follows step (some id) (id :: ids) last

/-- Siblings with nothing between them. -/
def Adjacent (t : Tree) (a b : NodeId) : Prop :=
  ∃ p before rest, t.children p = before ++ a :: b :: rest

variable {t : Tree} {a b c p : NodeId} {before rest : List NodeId}

/-- Steps that lead from each entry of a list to the one behind it lead through the list. -/
theorem follows_of_head? {step : NodeId → Option NodeId} {ids : List NodeId}
    (h : ∀ before id rest, ids = before ++ id :: rest → step id = rest.head?) :
    Follows step ids.head? ids ids.getLast? := by
  induction ids with
  | nil => exact .nowhere
  | cons id ids ih =>
      have hid : step id = ids.head? := h [] id ids rfl
      cases ids with
      | nil => exact .ends hid
      | cons next ids =>
          rw [List.getLast?_cons_cons]
          refine .goes hid (ih fun before c rest hc => h (id :: before) c rest ?_)
          rw [hc, List.cons_append]

theorem prevSibling?_eq_getLast? (hp : t.parent? c = some p)
    (hs : t.children p = before ++ c :: rest) (hc : c ∉ before) :
    t.prevSibling? c = before.getLast? := by
  simp only [prevSibling?, hp, Option.bind_eq_bind, Option.bind_some, hs, idxOf?_append_cons hc]
  rcases List.eq_nil_or_concat before with rfl | ⟨first, d, rfl⟩
  · rfl
  · simp

theorem siblings_of_parent?_none (hp : t.parent? c = none) :
    t.nextSibling? c = none ∧ t.prevSibling? c = none := by
  simp [nextSibling?, prevSibling?, hp]

namespace Forest

/-- However a list of children is divided at one of them, that one is in no other place. -/
theorem of_split (h : t.Forest) (hs : t.children p = before ++ c :: rest) :
    t.parent? c = some p ∧ c ∉ before := by
  have hc : c ∈ t.children p := hs ▸ List.mem_append_right before List.mem_cons_self
  have hnodup := h.nodup p
  rw [hs, List.nodup_middle, List.nodup_cons, List.mem_append, not_or] at hnodup
  exact ⟨(h.mem_children_iff p c).mp hc, hnodup.1.1⟩

theorem nextSibling?_eq (h : t.Forest) (hs : t.children p = before ++ c :: rest) :
    t.nextSibling? c = rest.head? := by
  obtain ⟨hp, hc⟩ := h.of_split hs
  exact nextSibling?_eq_head? hp hs hc

theorem prevSibling?_eq (h : t.Forest) (hs : t.children p = before ++ c :: rest) :
    t.prevSibling? c = before.getLast? := by
  obtain ⟨hp, hc⟩ := h.of_split hs
  exact prevSibling?_eq_getLast? hp hs hc

/-! ### All steps -/

theorem follows_nextSibling? (h : t.Forest) (p : NodeId) :
    Follows t.nextSibling? (t.firstChild? p) (t.children p) (t.lastChild? p) :=
  follows_of_head? fun _ _ _ hs => h.nextSibling?_eq hs

theorem follows_prevSibling? (h : t.Forest) (p : NodeId) :
    Follows t.prevSibling? (t.lastChild? p) (t.children p).reverse (t.firstChild? p) := by
  have hfollows : Follows t.prevSibling? (t.children p).reverse.head? (t.children p).reverse
      (t.children p).reverse.getLast? := by
    refine follows_of_head? fun before id rest hs => ?_
    have hchildren : t.children p = rest.reverse ++ id :: before.reverse := by
      simpa using congrArg List.reverse hs
    rw [h.prevSibling?_eq hchildren, List.getLast?_reverse]
  rwa [List.head?_reverse, List.getLast?_reverse] at hfollows

/-! ### One step -/

theorem nextSibling?_eq_some_iff (h : t.Forest) :
    t.nextSibling? a = some b ↔ t.Adjacent a b := by
  constructor
  · intro hb
    cases hp : t.parent? a with
    | none =>
        rw [(siblings_of_parent?_none hp).1] at hb
        cases hb
    | some p =>
        obtain ⟨before, rest, hs, -⟩ := h.exists_split ((h.mem_children_iff p a).mpr hp)
        rw [h.nextSibling?_eq hs] at hb
        obtain ⟨after, rfl⟩ := List.head?_eq_some_iff.mp hb
        exact ⟨p, before, after, hs⟩
  · rintro ⟨p, before, rest, hs⟩
    rw [h.nextSibling?_eq hs, List.head?_cons]

theorem prevSibling?_eq_some_iff (h : t.Forest) :
    t.prevSibling? b = some a ↔ t.Adjacent a b := by
  constructor
  · intro ha
    cases hp : t.parent? b with
    | none =>
        rw [(siblings_of_parent?_none hp).2] at ha
        cases ha
    | some p =>
        obtain ⟨before, rest, hs, -⟩ := h.exists_split ((h.mem_children_iff p b).mpr hp)
        rw [h.prevSibling?_eq hs] at ha
        obtain ⟨first, rfl⟩ := List.getLast?_eq_some_iff.mp ha
        exact ⟨p, first, rest, by rw [hs, List.append_assoc, List.singleton_append]⟩
  · rintro ⟨p, before, rest, hs⟩
    have hb : t.children p = (before ++ [a]) ++ b :: rest := by
      rw [hs, List.append_assoc, List.singleton_append]
    rw [h.prevSibling?_eq hb, List.getLast?_concat]

end Forest

/-- In every tree that allowed edits lead to, the next siblings from the first child of a node on are
its children in order and end at the last one, the previous siblings from the last child on are its
children in reverse and end at the first one, and the two steps undo each other. -/
theorem Reachable.siblings_in_order (h : t.Reachable) :
    (∀ p, Follows t.nextSibling? (t.firstChild? p) (t.children p) (t.lastChild? p) ∧
      Follows t.prevSibling? (t.lastChild? p) (t.children p).reverse (t.firstChild? p)) ∧
      ∀ a b, t.nextSibling? a = some b ↔ t.prevSibling? b = some a := by
  have hf := h.forest
  refine ⟨fun p => ⟨hf.follows_nextSibling? p, hf.follows_prevSibling? p⟩, fun a b => ?_⟩
  rw [hf.nextSibling?_eq_some_iff, hf.prevSibling?_eq_some_iff]

/-- The third of four children is moved before the second one, and the fourth is taken out. -/
theorem siblings_in_order_moved :
    let made := (((empty.apply (.make (.text "a"))).apply (.make (.text "b"))).apply
      (.make (.text "c"))).apply (.make (.text "d"))
    let placed := (((made.apply (.append 0 1)).apply (.append 0 2)).apply (.append 0 3)).apply
      (.append 0 4)
    let t := (placed.apply (.insertBefore 0 3 2)).apply (.remove 0 4)
    t.Reachable ∧ t.children 0 = [1, 3, 2] ∧ t.nextSibling? 3 = some 2 ∧
      t.nextSibling? 4 = none ∧
      (∀ p, Follows t.nextSibling? (t.firstChild? p) (t.children p) (t.lastChild? p) ∧
        Follows t.prevSibling? (t.lastChild? p) (t.children p).reverse (t.firstChild? p)) ∧
      ∀ a b, t.nextSibling? a = some b ↔ t.prevSibling? b = some a := by
  intro made placed t
  have hmade : made.Reachable :=
    (((Reachable.empty.change (.make _) trivial).change (.make _) trivial).change (.make _)
      trivial).change (.make _) trivial
  have hplaced : placed.Reachable :=
    (((hmade.change (.append 0 1) (by decide)).change (.append 0 2)
      (by decide)).change (.append 0 3) (by decide)).change (.append 0 4)
        (by decide)
  have ht : t.Reachable :=
    (hplaced.change (.insertBefore 0 3 2) (by decide)).change (.remove 0 4) trivial
  exact ⟨ht, by decide, by decide, by decide, ht.siblings_in_order⟩

end AmpMarkup.Dom.Tree
