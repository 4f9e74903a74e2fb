import AmpMarkup.Proofs.Dom.Branching
import AmpMarkup.Proofs.Html.TextOfTokens

/-! What construction can still reach. Every move edits the tree at the document, at an open element
or, between head and body, at the head. A node that is none of these never becomes one of them again,
so it keeps its children and its attributes whatever tokens come. -/

namespace AmpMarkup.Html

open Dom (Tree NodeId)

/-- Whether construction can put something into a node. -/
def Frame.Reaches (f : Frame) (id : NodeId) : Prop :=
  id = Tree.root ∨ id ∈ f.openElements ∨ f.mode.base = .afterHead ∧ f.head = some id

/-- The second frame comes after the first one: nodes out of reach stay out of reach and keep what
they hold. -/
structure Frame.Later (f g : Frame) : Prop where
  steady : f.tree.Steady g.tree
  reaches : ∀ id < f.tree.size, g.Reaches id → f.Reaches id
  children : ∀ id < f.tree.size, ¬ f.Reaches id → g.tree.children id = f.tree.children id
  element : ∀ id < f.tree.size, ¬ f.Reaches id → g.tree.element? id = f.tree.element? id

/-- Whatever construction can reach may have children. -/
structure Frame.Branching (f : Frame) : Prop where
  tidy : f.Tidy
  tree : f.tree.Branching
  reached : ∀ id, f.Reaches id → id = Tree.root ∨ f.tree.isElement id = true

variable {late : Bool} {t : Token} {f g k : Frame} {w : Text} {b : Builder} {ts : List Token}
  {ids : List NodeId} {head : Option NodeId} {tree : Tree} {p : Phase} {id parent : NodeId}

/-! ### One move -/

theorem Frame.reaches_innermost {mode : Mode} {stopped : Bool} :
    Frame.Reaches ⟨tree, mode, ids, head, stopped⟩ (innermost ids) := by
  cases ids with
  | nil => exact .inl rfl
  | cons id ids => exact .inr (.inl List.mem_cons_self)

theorem Frame.reaches_place (h : Place head ids p parent) :
    Frame.Reaches ⟨tree, .phase p, ids, head, false⟩ parent := by
  cases h with
  | inside => exact reaches_innermost
  | late hh => exact .inr (.inr ⟨rfl, hh⟩)

/-- A move edits the tree at one node that is in reach. -/
theorem Move.exists_edit (hm : Move t f w g) (h : f.Tidy) :
    ∃ id, f.Reaches id ∧ f.tree.EditedAt id g.tree := by
  cases hm with
  | close | endHead | endText | stop => exact ⟨Tree.root, .inl rfl, .same⟩
  | text => exact ⟨_, .inr (.inl List.mem_cons_self), .text _⟩
  | comment _ hparent => exact ⟨_, hparent.imp_right .inl, .insert _ (h.parent hparent).1⟩
  | doctype => exact ⟨Tree.root, .inl rfl, .insert _ h.ordered.root_lt⟩
  | attributes entries hid => exact ⟨_, .inr (.inl hid), .attributes entries⟩
  | element => exact ⟨_, Frame.reaches_innermost, .insert _ h.innermost.1⟩
  | leaf _ _ hp | textElement _ _ _ hp =>
      exact ⟨_, Frame.reaches_place hp, .insert _ (h.place hp).1⟩
  | lateTemplate => exact ⟨_, .inr (.inr ⟨rfl, rfl⟩), .insert _ (h.head _ rfl).1⟩

/-- What a move brings into reach is a new element. -/
theorem Move.reaches (hm : Move t f w g) (hg : g.Reaches id) :
    f.Reaches id ∨ id = f.tree.size ∧ g.tree.isElement id = true := by
  have hnew : ∀ (tree : Tree) parent tag attributes,
      ((tree.alloc (elementOf tag attributes)).append parent tree.size).isElement tree.size = true := by
    intro tree parent tag attributes
    rw [← Tree.isSome_tag?, Frame.Tidy.tag?_new]
    rfl
  rcases hg with hroot | hopen | ⟨hmode, hhead⟩
  · exact .inl (.inl hroot)
  · cases hm with
    | close hids _ => exact .inl (.inr (.inl (hids.subset hopen)))
    | endHead =>
        exact .inl (.inr (.inl (List.mem_append_right _ (List.mem_cons_of_mem _ hopen))))
    | endText => exact .inl (.inr (.inl (List.mem_cons_of_mem _ hopen)))
    | text | comment | doctype | attributes | leaf | stop => exact .inl (.inr (.inl hopen))
    | element | textElement | lateTemplate =>
        rcases List.mem_cons.mp hopen with rfl | hopen
        · exact .inr ⟨rfl, hnew ..⟩
        · exact .inl (.inr (.inl hopen))
  · cases hm with
    | close _ hp => exact .inl (.inr (.inr ⟨hp.2 hmode, hhead⟩))
    | endHead =>
        obtain rfl := Option.some.inj hhead
        exact .inl (.inr (.inl (List.mem_append_right _ List.mem_cons_self)))
    | element _ _ hp => exact absurd hmode hp.2
    | doctype => cases hmode
    | endText | text | comment | attributes | leaf | textElement | lateTemplate | stop =>
        exact .inl (.inr (.inr ⟨hmode, hhead⟩))

theorem Move.later (hm : Move t f w g) (h : f.Tidy) : f.Later g := by
  obtain ⟨p, hp, hedit⟩ := hm.exists_edit h
  have hne : ∀ {id}, ¬ f.Reaches id → id ≠ p := fun hid he => hid (he ▸ hp)
  refine ⟨hedit.steady, fun id hlt hid => ?_, fun id _ hid => hedit.children_ne (hne hid),
    fun id hlt hid => hedit.element?_ne hlt (hne hid)⟩
  exact (hm.reaches hid).resolve_right fun hnew => Nat.ne_of_lt hlt hnew.1

/-- Every move keeps children to the document and elements. -/
theorem Move.branching (hm : Move t f w g) (h : f.Branching) : g.Branching := by
  obtain ⟨p, hp, hedit⟩ := hm.exists_edit h.tidy
  refine ⟨hm.tidy h.tidy, hedit.branching h.tree (h.reached p hp), fun id hid => ?_⟩
  rcases hm.reaches hid with hid | ⟨-, he⟩
  · refine (h.reached id hid).imp_right fun he => ?_
    rw [hedit.steady.isElement (Tree.lt_size_of_isElement he), he]
  · exact .inr he

/-! ### Runs -/

namespace Frame.Later

theorem refl (f : Frame) : f.Later f :=
  ⟨.refl f.tree, fun _ _ => id, fun _ _ _ => rfl, fun _ _ _ => rfl⟩

theorem trans (h : f.Later g) (h' : g.Later k) : f.Later k := by
  have hlt : ∀ {id}, id < f.tree.size → id < g.tree.size := fun hid =>
    Nat.lt_of_lt_of_le hid h.steady.size_le
  have hout : ∀ {id}, id < f.tree.size → ¬ f.Reaches id → ¬ g.Reaches id := fun hid hn hr =>
    hn (h.reaches _ hid hr)
  refine ⟨h.steady.trans h'.steady, fun id hid hr => ?_, fun id hid hn => ?_, fun id hid hn => ?_⟩
  · exact h.reaches id hid (h'.reaches id (hlt hid) hr)
  · rw [h'.children id (hlt hid) (hout hid hn), h.children id hid hn]
  · rw [h'.element id (hlt hid) (hout hid hn), h.element id hid hn]

end Frame.Later

/-- Whatever tokens come, nodes out of reach keep what they hold. -/
theorem Building.later_run (h : Building late b) (hb : b.frame.Tidy)
    (hl : ∀ tag attributes s, Token.startTag tag attributes s ∈ ts → tag.lower = tag) :
    b.frame.Later (b.run ts).frame := by
  have hrun := h.frame_run (P := fun g => g.Tidy ∧ b.frame.Later g) ⟨hb, .refl b.frame⟩ hl
    fun _ _ _ _ hm ⟨ht, hlater⟩ => ⟨hm.tidy ht, hlater.trans (hm.later ht)⟩
  exact hrun.2

theorem branching_start : Builder.start.frame.Branching where
  tidy := tidy_start
  tree := Tree.branching_empty
  reached id hid := by
    rcases hid with hid | hid | ⟨-, hid⟩
    · exact .inl hid
    · cases hid
    · cases hid

/-- In every parsed tree the document and elements alone have children. -/
theorem branching_parse (u : Text) : (parse u).1.Branching := by
  have h : (Builder.start.run (Token.ofText u)).frame.Branching :=
    building_start.frame_run branching_start (delivered_ofText u).lower_of_mem
      fun _ _ _ _ => Move.branching
  rw [parse_eq_construct]
  exact h.tree

end AmpMarkup.Html
