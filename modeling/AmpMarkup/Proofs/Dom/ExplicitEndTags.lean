import AmpMarkup.Proofs.Dom.WrittenForm

/-! Explicit end tags. Forcing them leaves the written form of every node as it is: what a void
element loses is not written, and the text that an empty element gets is empty. Afterwards the
elements that the pass has come to have children unless they are void, and where that is so the pass
changes nothing. -/

namespace AmpMarkup.Dom.Tree

/-- The nodes reached from an element through children that are elements. -/
inductive ThroughElements (t : Tree) (top : NodeId) : NodeId → Prop where
  | self : t.isElement top = true → ThroughElements t top top
  | child {p c : NodeId} : ThroughElements t top p → c ∈ t.children p → t.isElement c = true →
      ThroughElements t top c

/-- End tags are explicit at a node: a void element has no children, and any other element has some,
with end tags that are explicit. -/
inductive Explicit (t : Tree) : NodeId → Prop where
  | other {id : NodeId} : t.element? id = none → Explicit t id
  | void {id : NodeId} {e : Element} : t.element? id = some e → Vocabulary.isVoid e.tag = true →
      t.children id = [] → Explicit t id
  | inner {id : NodeId} {e : Element} : t.element? id = some e → Vocabulary.isVoid e.tag = false →
      t.children id ≠ [] → (∀ c ∈ t.children id, Explicit t c) → Explicit t id

/-- A walk down from a node ends before it has gone through `depth` levels. The pass adds nodes on its
way, so its depth is compared with this and not with the number of nodes. -/
def EndsWithin (t : Tree) : (depth : Nat) → NodeId → Prop
  | 0, _ => False
  | depth + 1, id => ∀ c ∈ t.children id, t.EndsWithin depth c

variable {t t' : Tree} {id p c j : NodeId} {e : Element} {depth : Nat} {cs : List NodeId}

/-! ### Walks that end and end tags that stay explicit -/

theorem isNodeEmpty_of_element (he : t.element? id = some e) :
    t.isNodeEmpty id = (t.children id).isEmpty := by
  obtain ⟨n, hn, hc⟩ := Option.map_eq_some_iff.mp (element?_eq_some_iff.1 he)
  simp [isNodeEmpty, children, hn, hc]

theorem Explicit.congr (hx : t.Explicit id) (h : t.SameBelow t' id) : t'.Explicit id := by
  induction hx with
  | other he =>
      obtain ⟨hcontent, -⟩ := h _ .self
      exact .other (by rw [element?_congr hcontent, he])
  | void he hvoid hnil =>
      obtain ⟨hcontent, hchildren⟩ := h _ .self
      exact .void (by rw [element?_congr hcontent, he]) hvoid (by rw [hchildren, hnil])
  | inner he hvoid hne _ ih =>
      obtain ⟨hcontent, hchildren⟩ := h _ .self
      apply Explicit.inner (by rw [element?_congr hcontent, he]) hvoid
      · rwa [hchildren]
      · intro c hc
        rw [hchildren] at hc
        exact ih c hc (h.child hc)

theorem EndsWithin.congr (hd : t.EndsWithin depth id) (h : t.SameBelow t' id) :
    t'.EndsWithin depth id := by
  induction depth generalizing id with
  | zero => exact hd
  | succ depth ih =>
      intro c hc
      rw [(h id .self).2] at hc
      exact ih (hd c hc) (h.child hc)

/-- A walk down from a node of a forest ends within as many levels as there are nodes. -/
theorem Forest.endsWithin (h : t.Forest) (hid : id < t.size)
    (hd : t.size ≤ (t.ancestors id).length + depth) : t.EndsWithin depth id := by
  induction depth generalizing id with
  | zero =>
      have hlt := h.length_ancestorsWithin t.size hid
      exact absurd hd (Nat.not_le_of_lt hlt)
  | succ depth ih =>
      intro c hc
      have hlen := h.length_ancestors_child hc
      exact ih (h.child_lt hc) (by omega)

/-! ### The pass -/

theorem forceClosingTagsWithin_of_not_element (he : t.element? id = none) (depth : Nat) :
    forceClosingTagsWithin depth t id = t := by
  cases depth with
  | zero => rfl
  | succ depth => simp [forceClosingTagsWithin, he]

/-- What the pass does to an element: it takes the children out of a void one, gives an empty one an
empty text, and goes on to the children of any other. -/
theorem forceClosingTagsWithin_cases (he : t.element? id = some e) (depth : Nat) :
    (Vocabulary.isVoid e.tag = true ∧ forceClosingTagsWithin (depth + 1) t id = t.clear id) ∨
      (Vocabulary.isVoid e.tag = false ∧ t.children id = [] ∧
        forceClosingTagsWithin (depth + 1) t id = (t.alloc (.text [])).append id t.size) ∨
      (Vocabulary.isVoid e.tag = false ∧ t.children id ≠ [] ∧
        forceClosingTagsWithin (depth + 1) t id =
          (t.children id).reverse.foldl (forceClosingTagsWithin depth) t) := by
  cases hvoid : Vocabulary.isVoid e.tag with
  | true => simp [forceClosingTagsWithin, he, hvoid]
  | false =>
      by_cases hnil : t.children id = []
      · simp [forceClosingTagsWithin, he, hvoid, isNodeEmpty_of_element he, hnil]
      · simp [forceClosingTagsWithin, he, hvoid, isNodeEmpty_of_element he, hnil]

theorem Forest.editedBelow_forceClosingTagsWithin (h : t.Forest) (depth : Nat) (id : NodeId) :
    t.EditedBelow (Tree.forceClosingTagsWithin depth t id) id := by
  induction depth generalizing t id with
  | zero => exact .refl t id
  | succ depth ih =>
      cases he : t.element? id with
      | none =>
          rw [forceClosingTagsWithin_of_not_element he]
          exact .refl t id
      | some e =>
          rcases forceClosingTagsWithin_cases he depth with ⟨-, heq⟩ | ⟨-, -, heq⟩ | ⟨-, -, heq⟩
          · rw [heq]
            exact .clear t id
          · rw [heq]
            exact .alloc_append (lt_size_of_content? (element?_eq_some_iff.1 he)) _
          · rw [heq]
            exact (editedBelow_foldl (fun s c hs => hs.forceClosingTagsWithin depth c)
              (fun s c hs => ih hs c) h (by simp)).1

/-- The pass over some children of a node leaves the list of them. -/
theorem Forest.children_foldl_forceClosingTagsWithin (h : t.Forest)
    (hcs : ∀ c ∈ cs, c ∈ t.children id) (depth : Nat) :
    (cs.foldl (Tree.forceClosingTagsWithin depth) t).children id = t.children id :=
  (editedBelow_foldl (fun _ c hs => hs.forceClosingTagsWithin depth c)
    (fun _ c hs => hs.editedBelow_forceClosingTagsWithin depth c) h hcs).2

/-- The pass over some children leaves their siblings explicit. -/
theorem explicit_foldl_of_not_mem (h : t.Forest) (hcs : ∀ c ∈ cs, c ∈ t.children id)
    (hp : p ∈ t.children id) (hnot : p ∉ cs) (hx : t.Explicit p) :
    (cs.foldl (forceClosingTagsWithin depth) t).Explicit p := by
  induction cs generalizing t with
  | nil => exact hx
  | cons c cs ih =>
      obtain ⟨hc, hcs⟩ := List.forall_mem_cons.mp hcs
      simp only [List.mem_cons, not_or] at hnot
      obtain ⟨hne, hnot⟩ := hnot
      have hstep := h.editedBelow_forceClosingTagsWithin depth c
      have hchildren := hstep.children_parent h hc
      apply ih (h.forceClosingTagsWithin depth c)
      · rwa [hchildren]
      · rwa [hchildren]
      · exact hnot
      · exact hx.congr (hstep.sameBelow h hc hp hne)

/-- The pass over children makes each of them explicit: later ones leave it as it is. -/
theorem explicit_foldl (h : t.Forest) (hcs : ∀ c ∈ cs, c ∈ t.children id) (hnodup : cs.Nodup)
    (hd : ∀ c ∈ cs, t.EndsWithin depth c)
    (ih : ∀ s c, s.Forest → s.EndsWithin depth c → (forceClosingTagsWithin depth s c).Explicit c) :
    ∀ c ∈ cs, (cs.foldl (forceClosingTagsWithin depth) t).Explicit c := by
  induction cs generalizing t with
  | nil => simp
  | cons c cs ihcs =>
      obtain ⟨hc, hcs⟩ := List.forall_mem_cons.mp hcs
      obtain ⟨hdc, hd⟩ := List.forall_mem_cons.mp hd
      obtain ⟨hnot, hnodup⟩ := List.nodup_cons.mp hnodup
      have hstep := h.editedBelow_forceClosingTagsWithin depth c
      have hchildren := hstep.children_parent h hc
      have hforest := h.forceClosingTagsWithin depth c
      have hcs' : ∀ d ∈ cs, d ∈ (forceClosingTagsWithin depth t c).children id := by rwa [hchildren]
      rw [List.foldl_cons]
      intro d hm
      -- The first child stays explicit while the others come, and these are still as they were.
      rcases List.mem_cons.mp hm with rfl | hm
      · have hmem : d ∈ (forceClosingTagsWithin depth t d).children id := by rwa [hchildren]
        exact explicit_foldl_of_not_mem hforest hcs' hmem hnot (ih t d h hdc)
      · refine ihcs hforest hcs' hnodup (fun p hp => ?_) d hm
        have hne : p ≠ c := fun he => hnot (he ▸ hp)
        exact (hd p hp).congr (hstep.sameBelow h hc (hcs p hp) hne)

/-- A pass that goes deep enough makes end tags explicit. -/
theorem Forest.explicit_forceClosingTagsWithin (h : t.Forest) (hd : t.EndsWithin depth id) :
    (Tree.forceClosingTagsWithin depth t id).Explicit id := by
  induction depth generalizing t id with
  | zero => exact hd.elim
  | succ depth ih =>
      cases he : t.element? id with
      | none =>
          rw [forceClosingTagsWithin_of_not_element he]
          exact .other he
      | some e =>
          have he' := (h.editedBelow_forceClosingTagsWithin (depth + 1) id).element? he
          rcases forceClosingTagsWithin_cases he depth with
            ⟨hvoid, heq⟩ | ⟨hvoid, hnil, heq⟩ | ⟨hvoid, hne, heq⟩
          · rw [heq] at he' ⊢
            exact .void he' hvoid (by simp)
          · have hid := lt_size_of_content? (element?_eq_some_iff.1 he)
            have hchildren := children_alloc_append hid (.text []) id
            rw [heq] at he' ⊢
            rw [if_pos rfl, hnil, List.nil_append] at hchildren
            apply Explicit.inner he' hvoid
            · simp [hchildren]
            · intro c hc
              rw [hchildren, List.mem_singleton] at hc
              exact .other (by simp [hc, element?, content?_alloc_append])
          · have hcs : ∀ c ∈ (t.children id).reverse, c ∈ t.children id := by simp
            have hnodup : (t.children id).reverse.Nodup :=
              (List.reverse_perm _).nodup_iff.mpr (h.nodup id)
            have hchildren := h.children_foldl_forceClosingTagsWithin hcs depth
            rw [heq] at he' ⊢
            apply Explicit.inner he' hvoid
            · rwa [hchildren]
            · intro c hc
              rw [hchildren] at hc
              exact explicit_foldl h hcs hnodup (fun c hc => hd c (hcs c hc))
                (fun s c hs hd => ih hs hd) c (by simpa using hc)

/-- Where end tags are explicit the pass changes nothing. -/
theorem Explicit.forceClosingTagsWithin_eq (hx : t.Explicit id) (depth : Nat) :
    forceClosingTagsWithin depth t id = t := by
  induction depth generalizing id with
  | zero => rfl
  | succ depth ih =>
      cases hx with
      | other he => exact forceClosingTagsWithin_of_not_element he (depth + 1)
      | void he hvoid hnil =>
          simp [forceClosingTagsWithin, he, hvoid, clear_of_children_eq_nil hnil]
      | inner he hvoid hne hall =>
          have hfold : ∀ cs : List NodeId, (∀ c ∈ cs, t.Explicit c) →
              cs.foldl (forceClosingTagsWithin depth) t = t := by
            intro cs hcs
            induction cs with
            | nil => rfl
            | cons c cs ihcs =>
                rw [List.foldl_cons, ih (hcs c (by simp))]
                exact ihcs fun d hd => hcs d (by simp [hd])
          have hchildren := hfold (t.children id).reverse (by simpa using hall)
          simpa [forceClosingTagsWithin, he, hvoid, isNodeEmpty_of_element he, hne] using hchildren

/-! ### The written form -/

/-- A void element is written without its children. -/
theorem Forest.outerHtml_clear (h : t.Forest) (he : t.element? id = some e)
    (hvoid : Vocabulary.isVoid e.tag = true) (n : NodeId) :
    (t.clear id).outerHtml n = t.outerHtml n := by
  induction n using h.childInduction with
  | step n ih =>
      have hcontent := content?_clear t id
      by_cases hn : n = id
      · -- The children that are gone were not written.
        subst hn
        rw [h.outerHtml_eq, (h.clear n).outerHtml_eq, hcontent, element?_eq_some_iff.1 he]
        simp [hvoid]
      · apply h.outerHtml_congr_of_children_eq (h.clear id) (hcontent n)
        · simp [hn]
        · exact fun c hc => ⟨hcontent c, ih c hc⟩

/-- An empty text is not seen where it is the only child. -/
theorem Forest.outerHtml_alloc_append (h : t.Forest) (hid : id < t.size) (hnil : t.children id = [])
    (n : NodeId) : ((t.alloc (.text [])).append id t.size).outerHtml n = t.outerHtml n := by
  have h' := h.alloc_append hid (.text [])
  have hcontent := content?_alloc_append t id (.text [])
  have hchildren := children_alloc_append hid (.text [])
  have hnew : ((t.alloc (.text [])).append id t.size).outerHtml t.size = [] := by
    rw [h'.outerHtml_eq, hcontent, if_pos rfl]
    rfl
  induction n using h.childInduction with
  | step n ih =>
      by_cases hn : n = t.size
      · subst hn
        rw [hnew, h.outerHtml_eq, content?_eq_none (Nat.le_refl _)]
      · have hc := hcontent n
        rw [if_neg hn] at hc
        by_cases hni : n = id
        · subst hni
          have hone := hchildren n
          rw [if_pos rfl, hnil, List.nil_append] at hone
          apply h.outerHtml_congr h' hc
          · simp [hone, hnil, hnew]
          · simp [hone, hnil, literalHtml, text?, hcontent]
        · apply h.outerHtml_congr_of_children_eq h' hc
          · rw [hchildren, if_neg hni]
          · intro c hm
            rw [hcontent, if_neg (Nat.ne_of_lt (h.child_lt hm))]
            exact ⟨rfl, ih c hm⟩

theorem Forest.outerHtml_forceClosingTagsWithin (h : t.Forest) (depth : Nat) (id n : NodeId) :
    (Tree.forceClosingTagsWithin depth t id).outerHtml n = t.outerHtml n := by
  induction depth generalizing t id with
  | zero => rfl
  | succ depth ih =>
      cases he : t.element? id with
      | none => rw [forceClosingTagsWithin_of_not_element he]
      | some e =>
          rcases forceClosingTagsWithin_cases he depth with
            ⟨hvoid, heq⟩ | ⟨-, hnil, heq⟩ | ⟨-, -, heq⟩
          · rw [heq, h.outerHtml_clear he hvoid]
          · have hid := lt_size_of_content? (element?_eq_some_iff.1 he)
            rw [heq, h.outerHtml_alloc_append hid hnil]
          · have hfold : ∀ (cs : List NodeId) {s : Tree}, s.Forest →
                (cs.foldl (Tree.forceClosingTagsWithin depth) s).outerHtml n = s.outerHtml n := by
              intro cs
              induction cs with
              | nil => exact fun _ => rfl
              | cons c cs ihcs =>
                  intro s hs
                  rw [List.foldl_cons, ihcs (hs.forceClosingTagsWithin depth c), ih hs]
            rw [heq, hfold _ h]

/-! ### The result -/

theorem ThroughElements.isElement (h : t.ThroughElements id j) : t.isElement j = true := by
  cases h with
  | self he => exact he
  | child _ _ he => exact he

theorem Explicit.of_throughElements (hx : t.Explicit id) (hj : t.ThroughElements id j) :
    t.Explicit j := by
  induction hj with
  | self => exact hx
  | child hp hc _ ih =>
      cases ih with
      | other hnone =>
          have he := hp.isElement
          simp [Tree.isElement, hnone] at he
      | void _ _ hnil =>
          rw [hnil] at hc
          cases hc
      | inner _ _ _ hall => exact hall _ hc

theorem Explicit.children_eq_nil_iff (hx : t.Explicit j) (he : t.element? j = some e) :
    t.children j = [] ↔ Vocabulary.isVoid e.tag = true := by
  cases hx with
  | other hnone => simp [he] at hnone
  | void he' hvoid hnil =>
      obtain rfl := Option.some.inj (he.symm.trans he')
      simp [hnil, hvoid]
  | inner he' hvoid hne =>
      obtain rfl := Option.some.inj (he.symm.trans he')
      simp [hne, hvoid]

theorem Forest.explicit_forceClosingTags (h : t.Forest) (id : NodeId) :
    (t.forceClosingTags id).Explicit id := by
  by_cases hid : id < t.size
  · exact h.explicit_forceClosingTagsWithin (h.endsWithin hid (Nat.le_add_left ..))
  · have he := element?_eq_none (Nat.le_of_not_lt hid)
    rw [Tree.forceClosingTags, forceClosingTagsWithin_of_not_element he]
    exact .other he

/-- Forcing end tags in a tree that allowed edits lead to. Every node is written as before; at the
elements reached from the given one a void element has no children and any other element has some; and
forcing end tags once more changes nothing. -/
theorem Reachable.forceClosingTags_explicit (h : t.Reachable) (id : NodeId) :
    (∀ n, (t.forceClosingTags id).outerHtml n = t.outerHtml n) ∧
      (∀ j e, (t.forceClosingTags id).ThroughElements id j →
        (t.forceClosingTags id).element? j = some e →
          ((t.forceClosingTags id).children j = [] ↔ Vocabulary.isVoid e.tag = true)) ∧
      (t.forceClosingTags id).forceClosingTags id = t.forceClosingTags id := by
  have hx := h.forest.explicit_forceClosingTags id
  refine ⟨h.forest.outerHtml_forceClosingTagsWithin t.size id, ?_, ?_⟩
  · intro j e hj he
    exact (hx.of_throughElements hj).children_eq_nil_iff he
  · exact hx.forceClosingTagsWithin_eq _

/-- A line break with an element in it, beside a stylesheet without text. -/
theorem forceClosingTags_explicit_nested :
    let made := (((empty.apply (.make (.element ⟨"div", .empty⟩))).apply
      (.make (.element ⟨"br", .empty⟩))).apply (.make (.element ⟨"style", .empty⟩))).apply
        (.make (.element ⟨"p", .empty⟩))
    let t := ((made.apply (.append 1 2)).apply (.append 1 3)).apply (.append 2 4)
    t.Reachable ∧ t.children 1 = [2, 3] ∧ t.children 2 = [4] ∧
      (t.forceClosingTags 1).children 2 = [] ∧ (t.forceClosingTags 1).children 3 = [5] ∧
      (∀ n, (t.forceClosingTags 1).outerHtml n = t.outerHtml n) ∧
      (∀ j e, (t.forceClosingTags 1).ThroughElements 1 j →
        (t.forceClosingTags 1).element? j = some e →
          ((t.forceClosingTags 1).children j = [] ↔ Vocabulary.isVoid e.tag = true)) ∧
      (t.forceClosingTags 1).forceClosingTags 1 = t.forceClosingTags 1 := by
  intro made t
  have hmade : made.Reachable :=
    (((Reachable.empty.change (.make _) trivial).change (.make _) trivial).change (.make _)
      trivial).change (.make _) trivial
  have ht : t.Reachable :=
    ((hmade.change (.append 1 2) (by decide)).change (.append 1 3)
      (by decide)).change (.append 2 4) (by decide)
  exact ⟨ht, by decide, by decide, by decide, by decide,
    ht.forceClosingTags_explicit 1⟩

end AmpMarkup.Dom.Tree
