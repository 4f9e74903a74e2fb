import AmpMarkup.Proofs.Dom.Likeness
import AmpMarkup.Proofs.Html.LikeReading
import AmpMarkup.Proofs.Html.Simulation

/-! Documents under construction from alike tokens. What the rules of construction do to two of them
keeps them alike, unless it puts an element into one of them in which a stand-in shows. -/

namespace AmpMarkup.Html

open Dom (Tree NodeId)
open Source (Registry Alike AlikeUnmarked Hides)

/-- The documents under construction are alike. The repairs need not be. -/
structure Builder.Like (r r' : Registry) (b b' : Builder) : Prop where
  tree : b.tree.Like r r' b'.tree
  mode : b.mode = b'.mode
  openElements : b.openElements = b'.openElements
  head : b.head = b'.head
  stopped : b.stopped = b'.stopped

/-- The documents under construction are alike, or a stand-in shows in an element of one of them. -/
def Builder.Tied (r r' : Registry) (b b' : Builder) : Prop :=
  b.Like r r' b' ∨ b.tree.Leaks r (r.standIns ++ r'.standIns) ∨
    b'.tree.Leaks r' (r.standIns ++ r'.standIns)

/-- The tags are the same, or both are unknown to the rules of construction and show a stand-in. -/
def TagLike (r r' : Registry) (n n' : Text) : Prop :=
  n = n' ∨ ('_' ∈ n ∧ ¬ Hides (r.standIns ++ r'.standIns) n) ∧
    '_' ∈ n' ∧ ¬ Hides (r.standIns ++ r'.standIns) n'

variable {r r' : Registry} {b b' c c' : Builder} {tag tag' : Text}
  {attributes attributes' : List Attribute}

/-! ### Tags -/

theorem TagLike.same (tag : Text) : TagLike r r' tag tag :=
  .inl rfl

theorem underscore_mem {w : Text} (hw : Source.IsSubstitute w) : '_' ∈ w := by
  obtain ⟨t, rfl⟩ := hw.eq_cons
  exact List.mem_cons_self

theorem tagLike_of_alike (hr : r.WellFormed) (hr' : r'.WellFormed)
    (h : AlikeUnmarked r r' tag tag') : TagLike r r' tag tag' := by
  have hshows : ∀ u v w : Text, w ∈ r.standIns ++ r'.standIns → Source.IsSubstitute w →
      '_' ∈ u ++ w ++ v ∧ ¬ Hides (r.standIns ++ r'.standIns) (u ++ w ++ v) := fun u v w hw hs =>
    ⟨List.mem_append_left _ (List.mem_append_right _ (underscore_mem hs)), fun hh =>
      hh w hw ⟨u, v, rfl⟩⟩
  rcases h.eq_or_substitute hr hr' with rfl | ⟨u, v, v', w, hw, w', hw', rfl, rfl⟩
  · exact .same tag
  · refine .inr ⟨hshows u v w (List.mem_append_left _ (List.mem_cons_of_mem _ hw))
      (Source.isSubstitute_of_mem hr hw), hshows u v' w' (List.mem_append_right _
        (List.mem_cons_of_mem _ hw')) (Source.isSubstitute_of_mem hr' hw')⟩

theorem TagLike.agree (h : TagLike r r' tag tag') : TagsAgree tag tag' :=
  h.imp id fun h => ⟨h.1.1, h.2.1⟩

/-! ### Changes that keep documents alike -/

namespace Builder

namespace Like

theorem agrees (h : b.Like r r' b') : b.Agrees b' :=
  ⟨h.tree.size, h.tree.tag?, h.mode, h.openElements, h.head, h.stopped⟩

theorem note (h : b.Like r r' b') (cause cause' : Cause) :
    (b.note cause).Like r r' (b'.note cause') :=
  ⟨h.tree, h.mode, h.openElements, h.head, h.stopped⟩

theorem setOpen (h : b.Like r r' b') {ids ids' : List NodeId} (hids : ids = ids') :
    { b with openElements := ids }.Like r r' { b' with openElements := ids' } :=
  ⟨h.tree, h.mode, hids, h.head, h.stopped⟩

theorem insertBelow (h : b.Like r r' b') (parent : NodeId) {content content' : Dom.Content}
    (hc : content.Like r r' content') :
    (b.insertBelow parent content).Like r r' (b'.insertBelow parent content') :=
  ⟨h.tree.alloc_append parent hc, h.mode, h.openElements, h.head, h.stopped⟩

theorem insertText (h : b.Like r r' b') {data data' : Text} (hd : Alike r r' data data') :
    (b.insertText data).Like r r' (b'.insertText data') := by
  rw [Builder.insertText, Builder.insertText, h.agrees.current]
  exact ⟨h.tree.appendText _ hd, h.mode, h.openElements, h.head, h.stopped⟩

/-- An element with alike attributes. -/
theorem insertAlike (h : b.Like r r' b') (tag : Text)
    (ha : List.Forall₂ (AttributeLike r r') attributes attributes') :
    (b.insertElement tag attributes).Like r r' (b'.insertElement tag attributes') where
  tree := by
    rw [Builder.insertElement, Builder.insertElement, h.agrees.current]
    exact h.tree.alloc_append _ (.element ⟨rfl, Dom.addAll_like .nil ha⟩)
  mode := h.mode
  openElements := by
    change b.tree.size :: b.openElements = b'.tree.size :: b'.openElements
    rw [h.tree.size, h.openElements]
  head := h.head
  stopped := h.stopped

end Like

/-! ### Documents in which a stand-in may show -/

/-- A change that keeps alike documents alike and takes no element away. -/
theorem Tied.map (h : b.Tied r r' b') (hl : b.Like r r' b' → c.Like r r' c') (hg : b.Grows c)
    (hg' : b'.Grows c') : c.Tied r r' c' := by
  rcases h with h | h | h
  · exact .inl (hl h)
  · exact .inr (.inl (h.grow hg))
  · exact .inr (.inr (h.grow hg'))

namespace Like

/-- An element of a start tag. -/
theorem insertElement (h : b.Like r r' b') (ht : TagLike r r' tag tag')
    (ha : AttributesLike r r' attributes attributes') :
    (b.insertElement tag attributes).Tied r r' (b'.insertElement tag' attributes') := by
  have hshow : ∀ (s : Registry) (b : Builder) (tag : Text) (attributes : List Attribute),
      ¬ Hides (r.standIns ++ r'.standIns) tag ∨
        LeaksName s (r.standIns ++ r'.standIns) attributes →
      (b.insertElement tag attributes).tree.Leaks s (r.standIns ++ r'.standIns) := by
    intro s b tag attributes hs
    refine Dom.Tree.leaks_alloc_append (e := ⟨tag, _⟩) ?_ b.tree b.current
    exact hs.imp id Dom.leaksName_addAll
  rcases ha with ha | ha | ha
  · rcases ht with rfl | ⟨⟨-, ht⟩, -⟩
    · exact .inl (h.insertAlike tag ha)
    · exact .inr (.inl (hshow r b tag attributes (.inl ht)))
  · exact .inr (.inl (hshow r b tag attributes (.inr ha)))
  · exact .inr (.inr (hshow r' b' tag' attributes' (.inr ha)))

/-- More attributes for an element. -/
theorem merge (h : b.Like r r' b') (target : Option NodeId)
    (ha : AttributesLike r r' attributes attributes') :
    (b.merge target attributes).Tied r r' (b'.merge target attributes') := by
  cases target with
  | none => exact .inl h
  | some id =>
      have hkeep : ∀ t : Tree, t.element? id = none → ∀ f, t.mapAttributes id f = t := by
        intro t ht f
        rw [Tree.mapAttributes, ht]
      have he := h.tree.element? id
      generalize ho : b.tree.element? id = e, ho' : b'.tree.element? id = e' at he
      cases he with
      | none =>
          rw [Builder.merge, Builder.merge]
          rw [hkeep _ ho, hkeep _ ho']
          exact .inl h
      | some he =>
          rcases ha with ha | ha | ha
          · exact .inl ⟨h.tree.mapAttributes id ha, h.mode, h.openElements, h.head, h.stopped⟩
          · exact .inr (.inl (Dom.Tree.leaks_mapAttributes ho ha))
          · exact .inr (.inr (Dom.Tree.leaks_mapAttributes ho' ha))

/-- The end of the innermost element of a tag. An element that has the tag of one end tag and not
that of the other shows a stand-in. -/
theorem closeMatching (h : b.Like r r' b') (ht : TagLike r r' tag tag') (ids : List NodeId) :
    (b.closeMatching tag ids).Tied r r' (b'.closeMatching tag' ids) := by
  induction ids with
  | nil => exact .inl h
  | cons id outer ih =>
      rw [Builder.closeMatching, Builder.closeMatching, ← h.tree.tag?]
      cases hid : b.tree.tag? id with
      | none => exact ih
      | some t =>
          have hshow : ∀ (s : Registry) (tree : Tree), tree.tag? id = some t →
              ¬ Hides (r.standIns ++ r'.standIns) t →
              tree.Leaks s (r.standIns ++ r'.standIns) := by
            intro s tree hid ht
            obtain ⟨e, he, rfl⟩ := Option.map_eq_some_iff.1 hid
            exact ⟨id, e, he, .inl ht⟩
          dsimp only
          rcases ht with rfl | ⟨⟨-, hs⟩, -, hs'⟩
          · split
            · exact .inl (h.setOpen rfl)
            · split
              · exact .inl (h.note ..)
              · exact ih
          · by_cases htag : t = tag
            · subst htag
              rw [if_pos rfl]
              exact .inr (.inl (hshow r b.tree hid hs))
            by_cases htag' : t = tag'
            · subst htag'
              have hl := hshow r b.tree hid hs'
              rw [if_neg htag]
              refine .inr (.inl (hl.grow (grows_of_tree_eq (b := b) ?_)))
              split
              · rfl
              · exact b.tree_closeMatching tag outer
            rw [if_neg htag, if_neg htag']
            split
            · exact .inl (h.note ..)
            · exact ih

end Like

/-- Changes by alike tokens keep the documents alike, up to stand-ins that show. -/
theorem simulation_like (r r' : Registry) : Simulation (TagLike r r') (AttributesLike r r')
    (Dom.Content.Like r r') (Like r r') (Tied r r') where
  same := .same
  tags := TagLike.agree
  agrees := Like.agrees
  settle := .inl
  reframe h ha ht ht' _ _ :=
    ⟨ht ▸ ht' ▸ h.tree, ha.mode, ha.openElements, ha.head, ha.stopped⟩
  note h _ _ := h.note ..
  insertBelow h hc parent := h.insertBelow parent hc
  insertText h data := h.insertText (.same data)
  insertBare h tag := h.insertAlike tag .nil
  insertElement h ht ha := h.insertElement ht ha
  merge h ha target := h.merge target ha
  closeMatching h ht ids := h.closeMatching ht ids
  after := .map

end Builder

end AmpMarkup.Html
