import AmpMarkup.Proofs.Html.TidyTree

/-! The text of a document is the text of its tokens in order. Construction adds text at the end of
what the document shows: nothing but spaces ever comes behind the innermost open element, and between
head and body nothing but spaces comes behind the head. -/

namespace AmpMarkup.Html

open Dom (Tree NodeId)

/-- The phase that is on, or the one that comes back after an element of plain text. -/
def Mode.base : Mode → Phase
  | .phase p => p
  | .plainText p => p

/-- The element of plain text that is open. -/
def Frame.textElement? (f : Frame) : Option NodeId :=
  match f.mode with
  | .phase _ => none
  | .plainText _ => f.openElements.head?

/-- The head ends the text of the document, and what is open is above it or of plain text and
below it. -/
structure Frame.HeadTrails (f : Frame) (head : NodeId) : Prop where
  eq : f.head = some head
  ends : f.tree.EndsText head
  outer : ∀ id ∈ f.outer, f.tree.Within id head
  inner : ∀ id, f.textElement? = some id → f.tree.Within head id

/-- Open elements stand inside one another, and the innermost one ends the text of the document.
Between head and body so does the head. -/
structure Frame.Trailing (f : Frame) : Prop where
  tidy : f.Tidy
  nested : f.openElements.Pairwise fun inner outer => f.tree.Within outer inner
  ends : f.tree.EndsText (innermost f.openElements)
  head : f.mode.base = .afterHead → ∃ head, f.HeadTrails head

/-- A frame with the text of another one and some more, at the end of which further text goes. -/
def Frame.Continues (f g : Frame) (w : Text) : Prop :=
  g.Trailing ∧ g.tree.visibleText Tree.root = f.tree.visibleText Tree.root ++ w.nonBlank

variable {late plain : Bool} {t : Token} {f g : Frame} {w : Text} {tree tree' : Tree} {mode : Mode}
  {ids ids' : List NodeId} {head head' : Option NodeId} {stopped : Bool} {p p' : Phase}
  {parent : NodeId} {tag : Text} {attributes : List Attribute} {b : Builder} {ts : List Token}

/-- The head is still last with fewer elements open and none of plain text. -/
theorem Frame.HeadTrails.close {id : NodeId} {stopped' : Bool}
    (h : Frame.HeadTrails ⟨tree, mode, ids, head, stopped⟩ id)
    (hids : ids' ⊆ Frame.outer ⟨tree, mode, ids, head, stopped⟩) :
    Frame.HeadTrails ⟨tree, .phase p, ids', head, stopped'⟩ id where
  eq := h.eq
  ends := h.ends
  outer i hi := h.outer i (hids hi)
  inner i hi := by cases hi

theorem Frame.HeadTrails.grow {id : NodeId}
    (h : Frame.HeadTrails ⟨tree, mode, ids, head, stopped⟩ id) (hs : tree.Steady tree')
    (hends : tree'.EndsText id) : Frame.HeadTrails ⟨tree', mode, ids, head, stopped⟩ id where
  eq := h.eq
  ends := hends
  outer i hi := hs.within (h.outer i hi)
  inner i hi := hs.within (h.inner i hi)

namespace Frame.Trailing

/-- Open elements are above the innermost one. -/
theorem within_innermost (h : Frame.Trailing ⟨tree, mode, ids, head, stopped⟩) :
    ∀ id ∈ ids, tree.Within id (innermost ids) := by
  intro id hid
  cases ids with
  | nil => cases hid
  | cons top ids =>
      rcases List.mem_cons.mp hid with rfl | hid
      · exact .self
      · exact (List.pairwise_cons.mp h.nested).1 id hid

theorem endsText_of_mem (h : Frame.Trailing ⟨tree, mode, ids, head, stopped⟩) {id : NodeId}
    (hid : id ∈ ids) : tree.EndsText id :=
  h.ends.of_within h.tidy.ordered (h.within_innermost id hid)

/-- Among some of the open elements the innermost one ends the text, too. -/
theorem endsText_innermost (h : Frame.Trailing ⟨tree, mode, ids, head, stopped⟩)
    (hids : ids'.Sublist ids) : tree.EndsText (innermost ids') := by
  cases ids' with
  | nil => exact .root
  | cons id ids' => exact h.endsText_of_mem (hids.subset List.mem_cons_self)

/-- Some of the elements stay open. -/
theorem close {stopped' : Bool} (h : Frame.Trailing ⟨tree, mode, ids, head, stopped⟩)
    (hg : Frame.Tidy ⟨tree, .phase p, ids', head, stopped'⟩) (hids : ids'.Sublist ids)
    (hp : p = .afterHead →
      ∃ id, Frame.HeadTrails ⟨tree, .phase p, ids', head, stopped'⟩ id) :
    Frame.Continues ⟨tree, mode, ids, head, stopped⟩ ⟨tree, .phase p, ids', head, stopped'⟩ [] :=
  ⟨⟨hg, h.nested.sublist hids, h.endsText_innermost hids, hp⟩, by simp [Text.nonBlank]⟩

/-! ### Growth -/

/-- Growth that does not show. -/
theorem quiet (h : Frame.Trailing ⟨tree, mode, ids, head, stopped⟩)
    (hg : Frame.Tidy ⟨tree', mode, ids, head, stopped⟩) (hs : tree.Steady tree')
    (hq : tree.QuietGrowth tree') :
    Frame.Continues ⟨tree, mode, ids, head, stopped⟩ ⟨tree', mode, ids, head, stopped⟩ [] := by
  have ho := h.tidy.ordered
  refine ⟨⟨hg, h.nested.imp hs.within, h.ends.quietGrowth hq ho hg.ordered, ?_⟩, ?_⟩
  · intro hp
    obtain ⟨head, hh⟩ := h.head hp
    exact ⟨head, hh.grow hs (hh.ends.quietGrowth hq ho hg.ordered)⟩
  · have hroot := hq.visibleText ho hg.ordered ho.root_lt
    simpa [Text.nonBlank] using hroot

/-- A new node without text. -/
theorem insert {content : Dom.Content} (h : Frame.Trailing ⟨tree, mode, ids, head, stopped⟩)
    (hg : Frame.Tidy ⟨(tree.alloc content).append parent tree.size, mode, ids, head, stopped⟩)
    (hp : parent < tree.size) (hc : content.text? = none) :
    Frame.Continues ⟨tree, mode, ids, head, stopped⟩
      ⟨(tree.alloc content).append parent tree.size, mode, ids, head, stopped⟩ [] := by
  refine h.quiet hg (Tree.steady_alloc_append hp content)
    (Tree.quietGrowth_alloc_append h.tidy.ordered hp ?_)
  rw [Dom.Content.data, hc]
  rfl

/-- A character in the innermost open element. -/
theorem text {top : NodeId} {c : Char}
    (h : Frame.Trailing ⟨tree, mode, top :: ids, head, stopped⟩)
    (hg : Frame.Tidy ⟨tree.appendText top [c], mode, top :: ids, head, stopped⟩)
    (hc : isSpace c = true ∨ mode = .phase .inBody ∨ ∃ p, mode = .plainText p) :
    Frame.Continues ⟨tree, mode, top :: ids, head, stopped⟩
      ⟨tree.appendText top [c], mode, top :: ids, head, stopped⟩ [c] := by
  have ho := h.tidy.ordered
  have hs := tree.steady_appendText top [c]
  rcases hc with hspace | hmode
  · -- A space may come anywhere, as it does not show.
    have hv := Text.visible_singleton_of_isSpace hspace
    have hcont := h.quiet hg hs (Tree.quietGrowth_appendText ho top hv)
    exact ⟨hcont.1, by rw [hv]; simpa [Text.nonBlank] using hcont.2⟩
  · obtain ⟨tag, htag, -⟩ := h.tidy.opened top List.mem_cons_self
    have helement : tree.isElement top = true := by
      rw [← Tree.isSome_tag?, htag]
      rfl
    have hb := Tree.changedBelow_appendText ho helement [c]
    have htext := Tree.visibleText_appendText ho helement h.tidy.tidy.text_leaf [c]
    have htop : tree.EndsText top := h.ends
    refine ⟨⟨hg, h.nested.imp hs.within, htop.changedBelow hb ho hg.ordered .self, ?_⟩,
      hb.visibleText_root ho hg.ordered htop htext⟩
    intro hp
    obtain ⟨head, hh⟩ := h.head hp
    -- In the body the head is not last, and an element of plain text is below it.
    rcases hmode with rfl | ⟨p, rfl⟩
    · cases hp
    · exact ⟨head, hh.grow hs (hh.ends.changedBelow hb ho hg.ordered (hh.inner top rfl))⟩

/-- Where content of the head goes ends the text of the document. -/
theorem place (h : Frame.Trailing ⟨tree, .phase p, ids, head, stopped⟩)
    (hp : Place head ids p parent) :
    tree.EndsText parent ∧ ∀ id ∈ ids, tree.Within id parent := by
  cases hp with
  | inside => exact ⟨h.ends, h.within_innermost⟩
  | late hh =>
      obtain ⟨head', htrails⟩ := h.head rfl
      obtain rfl : parent = head' := Option.some.inj (hh.symm.trans htrails.eq)
      exact ⟨htrails.ends, htrails.outer⟩

section
variable (h : Frame.Trailing ⟨tree, .phase p, ids, head, stopped⟩) (hp : parent < tree.size)
  (hends : tree.EndsText parent) (habove : ∀ id ∈ ids, tree.Within id parent)
include h hp hends habove

/-- A new element stands inside all open ones and ends the text. -/
theorem nested_push (tag : Text) (attributes : List Attribute) :
    (tree.size :: ids).Pairwise (fun inner outer =>
      ((tree.alloc (elementOf tag attributes)).append parent tree.size).Within outer inner) ∧
    ((tree.alloc (elementOf tag attributes)).append parent tree.size).EndsText tree.size ∧
    ((tree.alloc (elementOf tag attributes)).append parent tree.size).Within parent tree.size := by
  have hs := Tree.steady_alloc_append hp (elementOf tag attributes)
  have hchild : ((tree.alloc (elementOf tag attributes)).append parent tree.size).Within parent
      tree.size := by
    apply Tree.Within.child .self
    rw [Tree.children_alloc_append hp, if_pos rfl]
    exact List.mem_append_right _ List.mem_cons_self
  refine ⟨List.pairwise_cons.mpr ⟨?_, h.nested.imp hs.within⟩,
    hends.alloc_append h.tidy.ordered hp _, hchild⟩
  intro id hid
  exact (hs.within (habove id hid)).trans hchild

end

/-- A new element of plain text, which is open. -/
theorem textElement (h : Frame.Trailing ⟨tree, .phase p, ids, head, stopped⟩)
    (hg : Frame.Tidy ⟨(tree.alloc (elementOf tag attributes)).append parent tree.size,
      .plainText p, tree.size :: ids, head, stopped⟩) (hp : Place head ids p parent) :
    Frame.Continues ⟨tree, .phase p, ids, head, stopped⟩
      ⟨(tree.alloc (elementOf tag attributes)).append parent tree.size, .plainText p,
        tree.size :: ids, head, stopped⟩ [] := by
  have hi := h.tidy.place hp
  obtain ⟨hends, habove⟩ := h.place hp
  have hcont := h.insert (h.tidy.insert hi tag attributes) hi.1 rfl
  obtain ⟨hnested, hnew, hchild⟩ := h.nested_push hi.1 hends habove tag attributes
  refine ⟨⟨hg, hnested, hnew, fun hafter => ?_⟩, hcont.2⟩
  obtain ⟨head', hh⟩ := hcont.1.head hafter
  refine ⟨head', hh.eq, hh.ends, hh.outer, fun id hid => ?_⟩
  obtain rfl : tree.size = id := Option.some.inj hid
  cases hp with
  | inside hne => exact absurd hafter hne.2
  | late hlate =>
      obtain rfl : parent = head' := Option.some.inj (hlate.symm.trans hh.eq)
      exact hchild

end Frame.Trailing

/-- Every move continues the text of the document. Only a `template` element that stays open between
head and body would be behind the head. -/
theorem Move.continues (hm : Move t f w g) (ht : t.isTemplateStart = false) (h : f.Trailing) :
    f.Continues g w := by
  have hg := hm.tidy h.tidy
  cases hm with
  | @close tree p p' ids ids' head hids hp =>
      exact h.close hg hids fun hp' => (h.head (hp.2 hp')).imp fun _ hh => hh.close hids.subset
  | @endHead tree inner outer id =>
      have hids : (id :: outer).Sublist (inner ++ id :: outer) := List.sublist_append_right ..
      have habove := (List.pairwise_cons.mp (h.nested.sublist hids)).1
      refine h.close hg ((List.sublist_cons_self id outer).trans hids) fun _ => ?_
      exact ⟨id, rfl, h.endsText_of_mem (hids.subset List.mem_cons_self), habove,
        fun id hid => by cases hid⟩
  | @endText tree p top ids head =>
      exact h.close hg (List.sublist_cons_self top ids) fun hp =>
        (h.head hp).imp fun _ hh => hh.close (List.Subset.refl ids)
  | text _ hc => exact h.text hg hc
  | comment _ hparent => exact h.insert hg (h.tidy.parent hparent).1 rfl
  | @doctype tree ids head name =>
      have hcont := h.insert (hg.close (.refl ids)) h.tidy.ordered.root_lt rfl
      have hclose := hcont.1.close hg (.refl ids) fun hp => by cases hp
      exact ⟨hclose.1, hcont.2⟩
  | @attributes tree mode ids head id attributes _ =>
      exact h.quiet hg (tree.steady_mapAttributes id _) (tree.quietGrowth_mapAttributes id _)
  | @element tree p p' ids head head' tag attributes htag hp _ =>
      have hi := h.tidy.innermost
      have hcont := h.insert (h.tidy.insert hi tag attributes) hi.1 rfl
      have hpush := h.nested_push hi.1 h.ends h.within_innermost tag attributes
      exact ⟨⟨hg, hpush.1, hpush.2.1, fun hp' => absurd hp' hp.2⟩, hcont.2⟩
  | leaf _ _ hp => exact h.insert hg (h.tidy.place hp).1 rfl
  | textElement _ _ _ hp => exact h.textElement hg hp
  | lateTemplate _ htemplate =>
      rw [ht] at htemplate
      cases htemplate
  | @stop tree p ids head _ =>
      exact h.close hg (.refl ids) fun hp =>
        (h.head hp).imp fun _ hh => hh.close (List.Subset.refl ids)

theorem Moves.continues (hm : Moves t f w g) (ht : t.isTemplateStart = false) (h : f.Trailing) :
    f.Continues g w := by
  induction hm with
  | refl => exact ⟨h, by simp [Text.nonBlank]⟩
  | step hm _ ih =>
      obtain ⟨hg, hv⟩ := hm.continues ht h
      obtain ⟨hk, hw⟩ := ih hg
      exact ⟨hk, by rw [hw, hv, Text.nonBlank_append, List.append_assoc]⟩

/-! ### What moves do to the mode -/

/-- Only the end of the input stops construction. -/
theorem Moves.eq_endOfFile (hm : Moves t f w g) (hf : f.stopped = false) (hg : g.stopped = true) :
    t = .endOfFile := by
  induction hm with
  | refl =>
      rw [hf] at hg
      cases hg
  | step hm hms ih =>
      cases hm with
      | stop ht => exact ht
      | _ => exact ih rfl hg

/-- Only the start tag of an element of plain text brings the rules for plain text. -/
theorem Moves.textElement (hm : Moves t f w g) (hf : ∀ p, f.mode ≠ .plainText p)
    (hg : g.mode = .plainText p) :
    ∃ tag attributes s, t = .startTag tag attributes s ∧ Vocabulary.isTextOnly tag = true := by
  by_cases ht : ∃ tag attributes s, t = .startTag tag attributes s ∧
      Vocabulary.isTextOnly tag = true
  · exact ht
  · induction hm with
    | refl => exact absurd hg (hf p)
    | step hm hms ih =>
        cases hm with
        | endText => exact absurd rfl (hf _)
        | textElement he _ htext _ => exact absurd ⟨_, _, _, he, htext⟩ ht
        | text | attributes => exact ih hf hg
        | _ => exact ih (fun p hp => by cases hp) hg

/-- After a token the rules for plain text are in force if they were and it is a character, or if
it is the start tag of an element of plain text. -/
theorem Builder.plainText_process (hm : b.Becomes t w (b.process t)) (he : t ≠ .endOfFile)
    (hp : (b.process t).mode = .plainText p) :
    ((∃ c, t = .character c) ∧ ∃ q, b.mode = .plainText q) ∨
      ∃ tag attributes s, t = .startTag tag attributes s ∧ Vocabulary.isTextOnly tag = true := by
  by_cases hmode : ∃ q, b.mode = .plainText q
  · obtain ⟨q, hq⟩ := hmode
    -- Any token but a character ends the element.
    have hend : b.rules t = .settled (b.pop.enter q) → False := by
      intro hr
      rw [process_of_settled hr] at hp
      cases hp
    cases t with
    | character c => exact .inl ⟨⟨c, rfl⟩, q, hq⟩
    | endOfFile => exact absurd rfl he
    | doctype | startTag | endTag | comment =>
        refine (hend ?_).elim
        rw [rules, hq]
        rfl
  · exact .inr (Moves.textElement hm (fun q hq => hmode ⟨q, hq⟩) hp)

/-- Reader and construction agree on where plain text is. -/
theorem Builder.delivered_process (hm : b.Becomes t w (b.process t)) (he : t ≠ .endOfFile)
    (hplain : ∀ p, b.mode = .plainText p → plain = true) (hd : Delivered plain (t :: ts)) :
    ∃ plain', Delivered plain' ts ∧ ∀ p, (b.process t).mode = .plainText p → plain' = true := by
  have hmode := fun p => plainText_process (p := p) hm he
  cases hd with
  | endOfFile => exact absurd rfl he
  | character _ hd =>
      refine ⟨plain, hd, fun p hp => ?_⟩
      rcases hmode p hp with ⟨-, q, hq⟩ | ⟨tag, attributes, s, heq, -⟩
      · exact hplain q hq
      · cases heq
  | @startTag _ name _ _ _ _ hd =>
      refine ⟨_, hd, fun p hp => ?_⟩
      rcases hmode p hp with ⟨⟨c, heq⟩, -⟩ | ⟨tag, attributes, s, heq, htext⟩
      · cases heq
      · cases heq
        exact htext
  | endTag hd | comment hd | doctype hd =>
      refine ⟨_, hd, fun p hp => ?_⟩
      rcases hmode p hp with ⟨⟨c, heq⟩, -⟩ | ⟨tag, attributes, s, heq, -⟩
      all_goals cases heq

/-! ### All tokens -/

/-- The text of a document grows by what its tokens show. -/
theorem Building.visibleText_run (h : Building false b) (hb : b.frame.Trailing)
    (hplain : ∀ p, b.mode = .plainText p → plain = true) (hd : Delivered plain ts)
    (ht : ∀ t ∈ ts, t.isTemplateStart = false) :
    (b.run ts).tree.visibleText Tree.root =
      b.tree.visibleText Tree.root ++ ts.flatMap Token.visible := by
  induction ts generalizing b plain with
  | nil => cases hd
  | cons t ts ih =>
      have htemplate := ht t List.mem_cons_self
      obtain ⟨w, hmoves, hshows⟩ := h.moves_process (t := t) fun tag attributes s he =>
        hd.lower_of_mem tag attributes s (he ▸ List.mem_cons_self)
      obtain ⟨hnext, htext⟩ := Moves.continues hmoves htemplate hb
      have hw : w.nonBlank = t.visible := by
        refine hshows.resolve_right ?_
        rintro ⟨⟨p, hp⟩, rfl⟩
        cases hd with
        | character hc _ => exact hc (hplain p hp) rfl
      have hstep : (b.process t).tree.visibleText Tree.root =
          b.tree.visibleText Tree.root ++ t.visible := hw ▸ htext
      rw [Builder.run_cons h.running, List.flatMap_cons, ← List.append_assoc, ← hstep]
      by_cases he : t = .endOfFile
      · subst he
        cases hd with
        | endOfFile => exact (List.append_nil _).symm
      · obtain ⟨plain', hd', hplain'⟩ := Builder.delivered_process hmoves he hplain hd
        rcases h.process t with hp | hc
        · rw [Builder.opensLateTemplate, htemplate, Bool.and_false, Bool.or_false] at hp
          exact ih (hp.same (.refl hp.sound.bounded) rfl rfl rfl rfl) hnext hplain' hd'
            fun t hm => ht t (List.mem_cons_of_mem _ hm)
        · exact absurd (Moves.eq_endOfFile hmoves h.running hc.stopped) he

theorem trailing_start : Builder.start.frame.Trailing where
  tidy := tidy_start
  nested := .nil
  ends := .root
  head h := by cases h

theorem flatMap_visible (ts : List Token) :
    ts.flatMap Token.visible =
      (ts.filterMap Token.character?).filter fun c => !isSpace c && c != '\x00' := by
  induction ts with
  | nil => rfl
  | cons t ts ih =>
      rw [List.flatMap_cons, ih, Token.visible, Text.nonBlank]
      cases hc : t.character? with
      | none => rw [List.filterMap_cons_none hc]; rfl
      | some c => rw [List.filterMap_cons_some hc, ← List.singleton_append, List.filter_append,
          Option.toList_some, List.filter_filter]

/-- Without a `template` start tag the text of a document is that of its tokens, in order, up to
spaces and the character U+0000. -/
theorem textContent_parse {u : Text} (h : ∀ t ∈ Token.ofText u, t.isTemplateStart = false) :
    ((parse u).1.textContent Tree.root).filter (fun c => !isSpace c) =
      ((Token.ofText u).filterMap Token.character?).filter fun c => !isSpace c && c != '\x00' := by
  have hrun := building_start.visibleText_run trailing_start (fun p hp => by cases hp)
    (delivered_ofText u) h
  rw [flatMap_visible] at hrun
  rw [parse_eq_construct]
  exact hrun

/-- Text before the body, late in the head, in the body and after the end of the document. -/
theorem textContent_parse_late_title :
    (∀ t ∈ Token.ofText "<head></head> <title>a</title>b</body>c<p>d</html>e",
      t.isTemplateStart = false) ∧
    ((parse "<head></head> <title>a</title>b</body>c<p>d</html>e").1.textContent Tree.root).filter
      (fun c => !isSpace c) = "abcde".toList := by
  have h : ∀ t ∈ Token.ofText "<head></head> <title>a</title>b</body>c<p>d</html>e",
      t.isTemplateStart = false := by decide +kernel
  refine ⟨h, (textContent_parse h).trans ?_⟩
  decide +kernel

end AmpMarkup.Html
