import AmpMarkup.Document
import AmpMarkup.Proofs.Dom.Forest
import AmpMarkup.Proofs.Html.RuleMoves
import AmpMarkup.Proofs.Html.TokenStream

/-! The tree that construction builds is tidy whatever the input. Nothing but text is put into an
element of plain text, because such an element is the innermost open one under the rules for plain
text alone, and every other token ends them. The tree is a forest as well, because the rules put new nodes
below ones that are there and change no link. -/

namespace AmpMarkup.Html

open Dom (Tree NodeId)

/-- The open elements that are not of plain text. -/
def Frame.outer (f : Frame) : List NodeId :=
  match f.mode with
  | .phase _ => f.openElements
  | .plainText _ => f.openElements.tail

/-- The tree of a frame is tidy, and what the rules put below the document, the head and the open
elements keeps it so. -/
structure Frame.Tidy (f : Frame) : Prop where
  ordered : f.tree.Ordered
  tidy : f.tree.Tidy
  root : f.tree.Receives Tree.root
  head : ∀ id, f.head = some id → id < f.tree.size ∧ f.tree.Receives id
  opened : ∀ id ∈ f.openElements, ∃ tag, f.tree.tag? id = some tag ∧ Vocabulary.isVoid tag = false
  outer : ∀ id ∈ f.outer, f.tree.Receives id

variable {late : Bool} {t : Token} {f g : Frame} {w : Text} {tree tree' : Tree} {mode : Mode}
  {ids ids' : List NodeId} {head head' : Option NodeId} {stopped : Bool} {p p' : Phase}
  {tag : Text} {attributes : List Attribute} {b : Builder} {ts : List Token}

namespace Frame.Tidy

/-- Growth that keeps the tree tidy. -/
theorem grow (h : Frame.Tidy ⟨tree, mode, ids, head, stopped⟩) (hs : tree.Steady tree')
    (ho : tree'.Ordered) (ht : tree'.Tidy) : Frame.Tidy ⟨tree', mode, ids, head, stopped⟩ where
  ordered := ho
  tidy := ht
  root := hs.receives h.ordered.root_lt h.root
  head id hid := by
    obtain ⟨hlt, hr⟩ := h.head id hid
    exact ⟨Nat.lt_of_lt_of_le hlt hs.size_le, hs.receives hlt hr⟩
  opened id hid := by
    obtain ⟨tag, htag, hv⟩ := h.opened id hid
    exact ⟨tag, hs.tag?_eq_some htag, hv⟩
  outer id hid := by
    have hopen : id ∈ ids := by
      cases mode with
      | phase p => exact hid
      | plainText p => exact List.mem_of_mem_tail hid
    obtain ⟨tag, htag, -⟩ := h.opened id hopen
    exact hs.receives (Tree.lt_size_of_tag? htag) (h.outer id hid)

/-- Some of the elements stay open. -/
theorem close (h : Frame.Tidy ⟨tree, .phase p, ids, head, stopped⟩) (hids : ids'.Sublist ids) :
    Frame.Tidy ⟨tree, .phase p', ids', head, false⟩ where
  ordered := h.ordered
  tidy := h.tidy
  root := h.root
  head := h.head
  opened id hid := h.opened id (hids.subset hid)
  outer id hid := h.outer id (hids.subset hid)

theorem innermost (h : Frame.Tidy ⟨tree, .phase p, ids, head, stopped⟩) :
    innermost ids < tree.size ∧ tree.Receives (innermost ids) := by
  cases ids with
  | nil => exact ⟨h.ordered.root_lt, h.root⟩
  | cons id ids =>
      obtain ⟨tag, htag, -⟩ := h.opened id List.mem_cons_self
      exact ⟨Tree.lt_size_of_tag? htag, h.outer id List.mem_cons_self⟩

theorem parent {parent : NodeId} (h : Frame.Tidy ⟨tree, .phase p, ids, head, stopped⟩)
    (hparent : parent = Tree.root ∨ parent ∈ ids) : parent < tree.size ∧ tree.Receives parent := by
  rcases hparent with rfl | hmem
  · exact ⟨h.ordered.root_lt, h.root⟩
  · obtain ⟨tag, htag, -⟩ := h.opened parent hmem
    exact ⟨Tree.lt_size_of_tag? htag, h.outer parent hmem⟩

theorem place {parent : NodeId} (h : Frame.Tidy ⟨tree, .phase p, ids, head, stopped⟩)
    (hp : Place head ids p parent) : parent < tree.size ∧ tree.Receives parent := by
  cases hp with
  | inside => exact h.innermost
  | late hh => exact h.head parent hh

theorem names_elementOf (tag : Text) (attributes : List Attribute) :
    ∀ e, elementOf tag attributes = .element e → e.attributes.names.Nodup := by
  intro e he
  cases he
  exact Attributes.nodup_addAll (a := .empty) .nil attributes

/-- A new element that may be opened. -/
theorem insert {parent : NodeId} (h : Frame.Tidy ⟨tree, mode, ids, head, stopped⟩)
    (hparent : parent < tree.size ∧ tree.Receives parent) (tag : Text)
    (attributes : List Attribute) :
    Frame.Tidy ⟨(tree.alloc (elementOf tag attributes)).append parent tree.size, mode, ids, head,
      stopped⟩ :=
  h.grow (Tree.steady_alloc_append hparent.1 _) (h.ordered.alloc_append hparent.1 _)
    (h.tidy.insert h.ordered hparent.1 hparent.2 rfl (names_elementOf tag attributes))

/-- A new node that holds nothing. -/
theorem node {parent : NodeId} {content : Dom.Content}
    (h : Frame.Tidy ⟨tree, .phase p, ids, head, stopped⟩) (hc : content.text? = none)
    (he : ∀ e, content ≠ .element e) (hparent : parent = Tree.root ∨ parent ∈ ids) :
    Frame.Tidy ⟨(tree.alloc content).append parent tree.size, .phase p, ids, head, stopped⟩ := by
  have hp := h.parent hparent
  exact h.grow (Tree.steady_alloc_append hp.1 content) (h.ordered.alloc_append hp.1 content)
    (h.tidy.insert h.ordered hp.1 hp.2 hc fun e hce => absurd hce (he e))

/-- A new element has the tag that it was made with. -/
theorem tag?_new (tree : Tree) (parent : NodeId) (tag : Text) (attributes : List Attribute) :
    ((tree.alloc (elementOf tag attributes)).append parent tree.size).tag? tree.size = some tag :=
  Tree.tag?_withElement_self _

theorem receives_new (tree : Tree) (parent : NodeId) (htag : Ordinary tag)
    (attributes : List Attribute) :
    ((tree.alloc (elementOf tag attributes)).append parent tree.size).Receives tree.size where
  text := by
    rw [Tree.text?_alloc_append, if_pos rfl]
    rfl
  tag u hu := by
    rw [tag?_new] at hu
    cases hu
    exact htag

/-- The new element is opened. -/
theorem push {parent : NodeId} (h : Frame.Tidy ⟨tree, .phase p, ids, head, stopped⟩)
    (hparent : parent < tree.size ∧ tree.Receives parent) (htag : Ordinary tag)
    (hhead : head' = head ∨ head' = some tree.size) (attributes : List Attribute) :
    Frame.Tidy ⟨(tree.alloc (elementOf tag attributes)).append parent tree.size, .phase p',
      tree.size :: ids, head', false⟩ := by
  have hi := h.insert hparent tag attributes
  have hnew := receives_new tree parent htag attributes
  have hlt := Tree.lt_size_of_tag? (tag?_new tree parent tag attributes)
  refine ⟨hi.ordered, hi.tidy, hi.root, ?_, ?_, ?_⟩
  · intro id hid
    rcases hhead with rfl | rfl
    · exact hi.head id hid
    · cases hid
      exact ⟨hlt, hnew⟩
  · intro id hid
    rcases List.mem_cons.mp hid with rfl | hid
    · exact ⟨tag, tag?_new tree parent tag attributes, htag.1⟩
    · exact hi.opened id hid
  · intro id hid
    rcases List.mem_cons.mp hid with rfl | hid
    · exact hnew
    · exact hi.outer id hid

/-- The new element is of plain text. -/
theorem pushText {parent : NodeId} (h : Frame.Tidy ⟨tree, .phase p, ids, head, false⟩)
    (hparent : parent < tree.size ∧ tree.Receives parent) (hv : Vocabulary.isVoid tag = false)
    (attributes : List Attribute) :
    Frame.Tidy ⟨(tree.alloc (elementOf tag attributes)).append parent tree.size, .plainText p',
      tree.size :: ids, head, false⟩ := by
  have hi := h.insert hparent tag attributes
  refine ⟨hi.ordered, hi.tidy, hi.root, hi.head, ?_, hi.outer⟩
  intro id hid
  rcases List.mem_cons.mp hid with rfl | hid
  · exact ⟨tag, tag?_new tree parent tag attributes, hv⟩
  · exact hi.opened id hid

end Frame.Tidy

/-- Every move keeps the tree tidy. -/
theorem Move.tidy (hm : Move t f w g) (h : f.Tidy) : g.Tidy := by
  cases hm with
  | close hids _ => exact h.close hids
  | @endHead tree inner outer id =>
      exact h.close ((List.sublist_cons_self id outer).trans (List.sublist_append_right inner _))
  | endText =>
      exact ⟨h.ordered, h.tidy, h.root, h.head, fun id hid => h.opened id (List.mem_cons_of_mem _ hid),
        h.outer⟩
  | @text tree mode top ids head c _ _ =>
      obtain ⟨tag, htag, hv⟩ := h.opened top List.mem_cons_self
      exact h.grow (tree.steady_appendText top [c]) (h.ordered.appendText top [c])
        (h.tidy.appendText h.ordered htag hv (List.cons_ne_nil _ _))
  | comment data hparent => exact h.node rfl (fun e he => by cases he) hparent
  | doctype name => exact (h.node rfl (fun e he => by cases he) (.inl rfl)).close (.refl _)
  | @attributes tree mode ids head id attributes _ =>
      exact h.grow (tree.steady_mapAttributes id _) (h.ordered.mapAttributes id _)
        (h.tidy.addAll id attributes)
  | element attributes htag _ hhead => exact h.push h.innermost htag hhead attributes
  | leaf tag attributes hp => exact h.insert (h.place hp) tag attributes
  | textElement _ hv _ hp => exact h.pushText (h.place hp) hv _
  | lateTemplate attributes _ =>
      exact h.push (h.head _ rfl) (by decide) (.inl rfl) attributes
  | stop => exact ⟨h.ordered, h.tidy, h.root, h.head, h.opened, h.outer⟩

/-- What every move keeps holds after some of them. -/
theorem Moves.keep {P : Frame → Prop} (hm : Moves t f w g)
    (hmove : ∀ f w g, Move t f w g → P f → P g) (h : P f) : P g := by
  induction hm with
  | refl => exact h
  | step hm _ ih => exact ih (hmove _ _ _ hm h)

/-- The tag of a delivered start tag is in lower case. -/
theorem Delivered.lower_of_mem {plain : Bool} (h : Delivered plain ts) :
    ∀ tag attributes s, Token.startTag tag attributes s ∈ ts → tag.lower = tag := by
  intro tag attributes s hm
  induction h with
  | endOfFile => cases List.mem_singleton.mp hm
  | startTag hl _ ih =>
      rcases List.mem_cons.mp hm with he | hm
      · cases he
        exact hl
      · exact ih hm
  | character _ _ ih | endTag _ ih | comment _ ih | doctype _ ih =>
      rcases List.mem_cons.mp hm with he | hm
      · cases he
      · exact ih hm

/-- What every move for some tokens keeps holds after all of them. -/
theorem Building.frame_run {P : Frame → Prop} (h : Building late b) (hb : P b.frame)
    (hl : ∀ tag attributes s, Token.startTag tag attributes s ∈ ts → tag.lower = tag)
    (hmove : ∀ t f w g, Move t f w g → P f → P g) : P (b.run ts).frame := by
  induction ts generalizing b late with
  | nil => exact hb
  | cons t ts ih =>
      rw [Builder.run_cons h.running]
      obtain ⟨w, hm, -⟩ := h.moves_process (t := t) fun tag attributes s he =>
        hl tag attributes s (he ▸ List.mem_cons_self)
      have ht : P (b.process t).frame := hm.keep (hmove t) hb
      rcases h.process t with hp | hc
      · exact ih (hp.same (.refl hp.sound.bounded) rfl rfl rfl rfl) ht
          fun tag attributes s hm => hl tag attributes s (List.mem_cons_of_mem _ hm)
      · rw [Builder.run_of_stopped (b := { b.process t with position := b.position + 1 }) hc.stopped]
        exact ht

/-- All tokens keep the tree tidy. -/
theorem Building.tidy_run (h : Building late b) (hb : b.frame.Tidy)
    (hl : ∀ tag attributes s, Token.startTag tag attributes s ∈ ts → tag.lower = tag) :
    (b.run ts).frame.Tidy :=
  h.frame_run hb hl fun _ _ _ _ => Move.tidy

theorem tidy_start : Builder.start.frame.Tidy where
  ordered := Tree.ordered_empty
  tidy := Tree.tidy_empty
  root := ⟨rfl, fun tag htag => by cases htag⟩
  head id hid := by cases hid
  opened id hid := by cases hid
  outer id hid := by cases hid

/-- The tree of every document. A walk from the document reaches each node exactly once, and the
tree is tidy. -/
theorem parse_tidy (u : Text) :
    ((parse u).1.descendants Tree.root).Perm (List.range (parse u).1.size) ∧ (parse u).1.Tidy := by
  have h : (Builder.start.run (Token.ofText u)).frame.Tidy :=
    building_start.tidy_run tidy_start (delivered_ofText u).lower_of_mem
  rw [parse_eq_construct]
  exact ⟨h.ordered.descendants_root_perm, h.tidy⟩

/-! ### Forests -/

/-- Every move keeps the tree a forest. -/
theorem Move.forest (hm : Move t f w g) (h : f.Tidy) (hf : f.tree.Forest) : g.tree.Forest := by
  cases hm with
  | close | endHead | endText | stop => exact hf
  | text => exact hf.appendText _ _
  | comment data hparent => exact hf.alloc_append (h.parent hparent).1 _
  | doctype name => exact hf.alloc_append h.ordered.root_lt _
  | @attributes tree mode ids head id attributes _ => exact hf.mapAttributes id (·.addAll attributes)
  | element attributes htag _ hhead => exact hf.alloc_append h.innermost.1 _
  | leaf tag attributes hp => exact hf.alloc_append (h.place hp).1 _
  | textElement _ hv _ hp => exact hf.alloc_append (h.place hp).1 _
  | lateTemplate attributes _ => exact hf.alloc_append (h.head _ rfl).1 _

theorem parse_forest (u : Text) : (parse u).1.Forest := by
  have hstart : Builder.start.frame.Tidy ∧ Builder.start.frame.tree.Forest :=
    ⟨tidy_start, Tree.forest_empty⟩
  have h := building_start.frame_run (P := fun f => f.Tidy ∧ f.tree.Forest) hstart
    (delivered_ofText u).lower_of_mem fun _ _ _ _ hm h => ⟨hm.tidy h.1, hm.forest h.1 h.2⟩
  rw [parse_eq_construct]
  exact h.2

end AmpMarkup.Html

/-- The tree of every document that is parsed is a forest. -/
theorem AmpMarkup.Document.forest_parse {markup : Text} {r : Source.Registry} {d : Document}
    (h : Document.parse markup r = .ok d) : d.tree.Forest := by
  have hforest := Html.parse_forest (Source.encode r markup)
  unfold Document.parse at h
  split at h
  · cases h
  · generalize Html.parse (Source.encode r markup) = parsed at h hforest
    dsimp only at h
    split at h
    · cases h
    · cases h
      exact hforest
