import AmpMarkup.Text.Space
import AmpMarkup.Proofs.Dom.Tidy

/-! Text in document order. Behind some nodes nothing but spaces follows in the whole document, and
what is added below such a node is added to the end of the text that shows. -/

namespace AmpMarkup

/-- The characters of a text that are not markup spaces. -/
def Text.nonBlank (t : Text) : Text :=
  t.filter fun c => !isSpace c

theorem Text.nonBlank_append (s t : Text) : (s ++ t).nonBlank = s.nonBlank ++ t.nonBlank :=
  List.filter_append ..

namespace Dom

/-- The data of a text, nothing for any other content. -/
def Content.data (content : Content) : Text :=
  content.text?.getD []

namespace Tree

/-- The data of a node itself. -/
def ownText (t : Tree) (id : NodeId) : Text :=
  (t.text? id).getD []

/-- What shows of the text at or below a node. -/
def visibleText (t : Tree) (id : NodeId) : Text :=
  (t.textContent id).nonBlank

/-- Nothing that shows follows a node and what is below it. -/
inductive EndsText (t : Tree) : NodeId → Prop where
  | root : EndsText t root
  | child {p c : NodeId} (before after : List NodeId) : EndsText t p →
      t.children p = before ++ c :: after → (∀ s ∈ after, t.visibleText s = []) → EndsText t c

/-- The second tree has grown out of the first, with changes to `p` and what is below it only. -/
structure ChangedBelow (t t' : Tree) (p : NodeId) : Prop where
  size_le : t.size ≤ t'.size
  children : ∀ j < t.size, ¬ t.Within p j → t'.children j = t.children j
  text : ∀ j < t.size, ¬ t.Within p j → t'.ownText j = t.ownText j

/-- The second tree has grown out of the first without anything new that shows. -/
structure QuietGrowth (t t' : Tree) : Prop where
  size_le : t.size ≤ t'.size
  children : ∀ j < t.size, ∃ extra, t'.children j = t.children j ++ extra ∧
    ∀ x ∈ extra, t'.visibleText x = []
  text : ∀ j < t.size, (t'.ownText j).nonBlank = (t.ownText j).nonBlank

variable {t t' : Tree} {p q id j e : Nat} {content : Content} {data w : Text}

/-! ### Text of a node and its children -/

theorem textContent_of_descendants_eq
    (h : t.descendants id = id :: (t.children id).flatMap t.descendants) :
    t.textContent id = t.ownText id ++ (t.children id).flatMap t.textContent := by
  have hflat : ∀ ids : List NodeId, ((ids.flatMap t.descendants).filterMap t.text?).flatten =
      ids.flatMap t.textContent := by
    intro ids
    induction ids with
    | nil => rfl
    | cons i ids ih =>
        rw [List.flatMap_cons, List.filterMap_append, List.flatten_append, ih]
        rfl
  rw [textContent, h, ownText]
  cases ht : t.text? id with
  | none => rw [List.filterMap_cons_none ht, hflat, Option.getD_none, List.nil_append]
  | some data =>
      rw [List.filterMap_cons_some ht, List.flatten_cons, hflat, Option.getD_some]

theorem textContent_eq (h : t.Ordered) (id : NodeId) :
    t.textContent id = t.ownText id ++ (t.children id).flatMap t.textContent :=
  textContent_of_descendants_eq (h.descendants_eq id)

theorem visible_flatMap (f : NodeId → Text) (ids : List NodeId) :
    Text.nonBlank (ids.flatMap f) = ids.flatMap fun i => (f i).nonBlank := by
  induction ids with
  | nil => rfl
  | cons i ids ih => rw [List.flatMap_cons, List.flatMap_cons, Text.nonBlank_append, ih]

theorem visibleText_eq (h : t.Ordered) (id : NodeId) :
    t.visibleText id = (t.ownText id).nonBlank ++ (t.children id).flatMap t.visibleText := by
  rw [visibleText, textContent_eq h, Text.nonBlank_append, visible_flatMap]
  rfl

theorem flatMap_visibleText_congr {ids : List NodeId}
    (h : ∀ c ∈ ids, t'.visibleText c = t.visibleText c) :
    ids.flatMap t'.visibleText = ids.flatMap t.visibleText := by
  rw [List.flatMap_def, List.flatMap_def, List.map_congr_left h]

theorem flatMap_visibleText_eq_nil {ids : List NodeId} (h : ∀ c ∈ ids, t.visibleText c = []) :
    ids.flatMap t.visibleText = [] :=
  List.flatMap_eq_nil_iff.mpr h

/-- Text that is the same at and below a node. -/
theorem visibleText_congr (h : t.Ordered) (h' : t'.Ordered)
    (hc : ∀ j, t.Within id j → t'.children j = t.children j ∧ t'.ownText j = t.ownText j) :
    t'.visibleText id = t.visibleText id := by
  induction id using h.childInduction with
  | step id ih =>
      obtain ⟨hchildren, hown⟩ := hc id .self
      rw [visibleText_eq h', visibleText_eq h, hchildren, hown]
      congr 1
      apply flatMap_visibleText_congr
      intro c hm
      apply ih c hm
      intro j hj
      exact hc j ((Within.child .self hm).trans hj)

/-! ### Changes below a node -/

/-- A sibling of a node that the change is below. -/
theorem ChangedBelow.sibling {c s : NodeId} (hb : t.ChangedBelow t' p) (h : t.Ordered)
    (h' : t'.Ordered) (hp : t.Within c p) (hc : c ∈ t.children q) (hs : s ∈ t.children q)
    (hne : s ≠ c) : t'.visibleText s = t.visibleText s := by
  apply visibleText_congr h h'
  intro j hj
  have hlt := h.lt_size_of_within hj (h.child_lt q s hs).2
  have hout : ¬ t.Within p j := fun hpj => hne (h.eq_of_within hs hc hj (hp.trans hpj))
  exact ⟨hb.children j hlt hout, hb.text j hlt hout⟩

theorem ChangedBelow.mono (hb : t.ChangedBelow t' p) (hp : t.Within q p) :
    t.ChangedBelow t' q where
  size_le := hb.size_le
  children j hj hout := hb.children j hj fun hpj => hout (hp.trans hpj)
  text j hj hout := hb.text j hj fun hpj => hout (hp.trans hpj)

/-- What is added below a node that ends the text is added to the text of the document. -/
theorem ChangedBelow.visibleText_root (hb : t.ChangedBelow t' p) (h : t.Ordered) (h' : t'.Ordered)
    (he : t.EndsText p) (hw : t'.visibleText p = t.visibleText p ++ w) :
    t'.visibleText root = t.visibleText root ++ w := by
  induction he with
  | root => exact hw
  | @child q c before after _ hchildren hafter ih =>
      have hc : c ∈ t.children q := by simp [hchildren]
      have hlt := h.child_lt q c hc
      have hout : ¬ t.Within c q := fun hw => Nat.not_le_of_lt hlt.1 (h.le_of_within hw)
      have hq := Nat.lt_trans hlt.1 hlt.2
      have hnodup := h.nodup q
      rw [hchildren, List.nodup_append] at hnodup
      have hbefore : before.flatMap t'.visibleText = before.flatMap t.visibleText := by
        apply flatMap_visibleText_congr
        intro s hs
        apply hb.sibling h h' .self hc (by simp [hchildren, hs])
        exact hnodup.2.2 s hs c List.mem_cons_self
      have hbehind : after.flatMap t'.visibleText = [] := by
        apply flatMap_visibleText_eq_nil
        intro s hs
        have hne : s ≠ c := fun hsc => (List.nodup_cons.mp hnodup.2.1).1 (hsc ▸ hs)
        rw [hb.sibling h h' .self hc (by simp [hchildren, hs]) hne, hafter s hs]
      apply ih (hb.mono (.child .self hc))
      rw [visibleText_eq h', visibleText_eq h, hb.children q hq hout, hb.text q hq hout, hchildren]
      simp only [List.flatMap_append, List.flatMap_cons]
      rw [hbefore, hw, hbehind, flatMap_visibleText_eq_nil hafter]
      simp

/-- A node above the change still ends the text. -/
theorem EndsText.changedBelow (he : t.EndsText e) (hb : t.ChangedBelow t' p) (h : t.Ordered)
    (h' : t'.Ordered) (hp : t.Within e p) : t'.EndsText e := by
  induction he with
  | root => exact .root
  | @child q c before after _ hchildren hafter ih =>
      have hc : c ∈ t.children q := by simp [hchildren]
      have hlt := h.child_lt q c hc
      have hout : ¬ t.Within p q := by
        intro hw
        have hle := h.le_of_within (hp.trans hw)
        omega
      have hnodup := h.nodup q
      rw [hchildren, List.nodup_append] at hnodup
      apply EndsText.child before after (ih ((Within.child .self hc).trans hp))
      · rw [hb.children q (by omega) hout, hchildren]
      · intro s hs
        have hne : s ≠ c := fun hsc => (List.nodup_cons.mp hnodup.2.1).1 (hsc ▸ hs)
        rw [hb.sibling h h' hp hc (by simp [hchildren, hs]) hne, hafter s hs]

/-- What is above a node that ends the text ends it too. -/
theorem EndsText.of_within (he : t.EndsText j) (h : t.Ordered) (hw : t.Within e j) :
    t.EndsText e := by
  induction hw with
  | self => exact he
  | @child q c _ hc ih =>
      apply ih
      cases he with
      | root => exact absurd (h.child_lt q Tree.root hc).1 (Nat.not_lt_zero q)
      | @child p _ before after hp hchildren _ =>
          have hmem : c ∈ t.children p := by simp [hchildren]
          rwa [h.parent_unique q p c hc hmem]

/-! ### Changes that do not show -/

theorem QuietGrowth.visibleText (hg : t.QuietGrowth t') (h : t.Ordered) (h' : t'.Ordered)
    (hid : id < t.size) : t'.visibleText id = t.visibleText id := by
  induction id using h.childInduction with
  | step id ih =>
      obtain ⟨extra, hchildren, hextra⟩ := hg.children id hid
      rw [visibleText_eq h', visibleText_eq h, hg.text id hid, hchildren, List.flatMap_append,
        flatMap_visibleText_eq_nil hextra, List.append_nil]
      congr 1
      apply flatMap_visibleText_congr
      intro c hc
      exact ih c hc (h.child_lt id c hc).2

theorem EndsText.quietGrowth (he : t.EndsText e) (hg : t.QuietGrowth t') (h : t.Ordered)
    (h' : t'.Ordered) : t'.EndsText e := by
  induction he with
  | root => exact .root
  | @child q c before after _ hchildren hafter ih =>
      have hc : c ∈ t.children q := by simp [hchildren]
      have hlt := h.child_lt q c hc
      obtain ⟨extra, hchildren', hextra⟩ := hg.children q (by omega)
      apply EndsText.child before (after ++ extra) ih
      · rw [hchildren', hchildren, List.append_assoc, List.cons_append]
      · intro s hs
        rcases List.mem_append.mp hs with hs | hs
        · have hm : s ∈ t.children q := by simp [hchildren, hs]
          rw [hg.visibleText h h' (h.child_lt q s hm).2, hafter s hs]
        · exact hextra s hs

/-! ### The changes of construction -/

theorem ownText_alloc_append (t : Tree) (p : NodeId) (content : Content) (j : NodeId) :
    ((t.alloc content).append p t.size).ownText j =
      if j = t.size then content.data else t.ownText j := by
  rw [ownText, text?_alloc_append]
  split <;> rfl

theorem changedBelow_alloc_append (hp : p < t.size) (content : Content) :
    t.ChangedBelow ((t.alloc content).append p t.size) p where
  size_le := by
    rw [size_append, size_alloc]
    exact Nat.le_succ _
  children j _ hout := by
    rw [children_alloc_append hp, if_neg]
    rintro rfl
    exact hout .self
  text j hj _ := by rw [ownText_alloc_append, if_neg (Nat.ne_of_lt hj)]

section
variable (h : t.Ordered) (hp : p < t.size)
include h hp

theorem visibleText_alloc_append_self (content : Content) :
    ((t.alloc content).append p t.size).visibleText t.size = content.data.nonBlank := by
  rw [visibleText_eq (h.alloc_append hp content), ownText_alloc_append, if_pos rfl,
    children_alloc_append hp, if_neg (Nat.ne_of_gt hp), children_eq_nil (Nat.le_refl _)]
  simp

theorem visibleText_alloc_append (content : Content) :
    ((t.alloc content).append p t.size).visibleText p =
      t.visibleText p ++ content.data.nonBlank := by
  have h' := h.alloc_append hp content
  have hold : (t.children p).flatMap ((t.alloc content).append p t.size).visibleText =
      (t.children p).flatMap t.visibleText := by
    apply flatMap_visibleText_congr
    intro c hc
    apply visibleText_congr h h'
    intro j hj
    have hlt := h.child_lt p c hc
    have hne : j ≠ p := Nat.ne_of_gt (Nat.lt_of_lt_of_le hlt.1 (h.le_of_within hj))
    have hnew : j ≠ t.size := Nat.ne_of_lt (h.lt_size_of_within hj hlt.2)
    rw [children_alloc_append hp, if_neg hne, ownText_alloc_append, if_neg hnew]
    exact ⟨rfl, rfl⟩
  rw [visibleText_eq h', visibleText_eq h, children_alloc_append hp, if_pos rfl,
    ownText_alloc_append, if_neg (Nat.ne_of_lt hp), List.flatMap_append, hold,
    List.flatMap_singleton, visibleText_alloc_append_self h hp, List.append_assoc]

/-- A new node that shows nothing. -/
theorem quietGrowth_alloc_append (hv : content.data.nonBlank = []) :
    t.QuietGrowth ((t.alloc content).append p t.size) where
  size_le := by
    rw [size_append, size_alloc]
    exact Nat.le_succ _
  children j _ := by
    rw [children_alloc_append hp]
    split
    · refine ⟨[t.size], rfl, ?_⟩
      intro x hx
      rw [List.mem_singleton.mp hx, visibleText_alloc_append_self h hp, hv]
    · exact ⟨[], (List.append_nil _).symm, fun x hx => by cases hx⟩
  text j hj := by rw [ownText_alloc_append, if_neg (Nat.ne_of_lt hj)]

end

/-- The new node ends the text. -/
theorem EndsText.alloc_append (he : t.EndsText p) (h : t.Ordered) (hp : p < t.size)
    (content : Content) : ((t.alloc content).append p t.size).EndsText t.size := by
  have hp' := he.changedBelow (changedBelow_alloc_append hp content) h (h.alloc_append hp content)
    .self
  apply EndsText.child (t.children p) [] hp'
  · rw [children_alloc_append hp, if_pos rfl]
  · intro s hs
    cases hs

theorem quietGrowth_mapAttributes (t : Tree) (id : NodeId) (f : Attributes → Attributes) :
    t.QuietGrowth (t.mapAttributes id f) where
  size_le := Nat.le_of_eq (size_mapAttributes ..).symm
  children j _ := by
    refine ⟨[], ?_, fun x hx => by cases hx⟩
    rw [children_mapAttributes, List.append_nil]
  text j _ := by rw [ownText, text?_mapAttributes, ownText]

/-! ### Text in portions -/

theorem ownText_setContent (hid : id < t.size) (data : Text) (j : NodeId) :
    (t.setContent id (.text data)).ownText j = if j = id then data else t.ownText j := by
  rw [ownText, text?_setContent hid]
  split <;> rfl

section
variable {last : Nat} {before : Text} (hl : t.trailingText? p = some (last, before))
include hl

theorem ownText_trailing : t.ownText last = before := by
  rw [ownText, (trailingText?_eq_some_iff.1 hl).2]
  rfl

theorem last_mem_children : last ∈ t.children p :=
  List.mem_of_getLast? (trailingText?_eq_some_iff.1 hl).1

variable (h : t.Ordered)
include h

theorem changedBelow_setContent (data : Text) :
    t.ChangedBelow (t.setContent last (.text data)) p where
  size_le := Nat.le_of_eq (size_setContent ..).symm
  children j _ _ := children_setContent ..
  text j _ hout := by
    have hm := last_mem_children hl
    rw [ownText_setContent (h.child_lt p last hm).2, if_neg]
    rintro rfl
    exact hout (.child .self hm)

theorem visibleText_setContent (hleaf : t.children last = []) (data : Text) :
    (t.setContent last (.text (before ++ data))).visibleText p =
      t.visibleText p ++ data.nonBlank := by
  have h' := h.setContent last (.text (before ++ data))
  have hm := last_mem_children hl
  have hlast := h.child_lt p last hm
  obtain ⟨front, hchildren⟩ := List.getLast?_eq_some_iff.mp (trailingText?_eq_some_iff.1 hl).1
  have hnodup := h.nodup p
  rw [hchildren, List.nodup_append] at hnodup
  have hfront : front.flatMap (t.setContent last (.text (before ++ data))).visibleText =
      front.flatMap t.visibleText := by
    apply flatMap_visibleText_congr
    intro s hs
    have hmem : s ∈ t.children p := by simp [hchildren, hs]
    have hne : s ≠ last := hnodup.2.2 s hs last (by simp)
    apply visibleText_congr h h'
    intro j hj
    have hj' : j ≠ last := by
      rintro rfl
      exact hne (h.eq_of_within hmem hm hj .self)
    rw [children_setContent, ownText_setContent hlast.2, if_neg hj']
    exact ⟨rfl, rfl⟩
  have hself : (t.setContent last (.text (before ++ data))).visibleText last =
      t.visibleText last ++ data.nonBlank := by
    rw [visibleText_eq h', visibleText_eq h, children_setContent, hleaf,
      ownText_setContent hlast.2, if_pos rfl, ownText_trailing hl, Text.nonBlank_append]
    simp
  have hp : p ≠ last := Nat.ne_of_lt hlast.1
  rw [visibleText_eq h', visibleText_eq h, children_setContent, ownText_setContent hlast.2,
    if_neg hp, hchildren, List.flatMap_append, List.flatMap_append, hfront, List.flatMap_singleton,
    List.flatMap_singleton, hself]
  simp

end

section
variable (h : t.Ordered) (hid : t.isElement p = true)
  (hleaf : ∀ j data, t.text? j = some data → t.children j = [])
include h hid

theorem changedBelow_appendText (data : Text) : t.ChangedBelow (t.appendText p data) p := by
  rw [appendText, if_pos hid]
  split
  · next last before hl => exact changedBelow_setContent hl h _
  · exact changedBelow_alloc_append (lt_size_of_isElement hid) _

include hleaf

/-- The text of an element after some has been added. -/
theorem visibleText_appendText (data : Text) :
    (t.appendText p data).visibleText p = t.visibleText p ++ data.nonBlank := by
  rw [appendText, if_pos hid]
  split
  · next last before hl =>
      exact visibleText_setContent hl h (hleaf last before (trailingText?_eq_some_iff.1 hl).2) data
  · exact visibleText_alloc_append h (lt_size_of_isElement hid) _

end

/-- Spaces are added without a trace. -/
theorem quietGrowth_appendText (h : t.Ordered) (id : NodeId) (hv : data.nonBlank = []) :
    t.QuietGrowth (t.appendText id data) := by
  unfold appendText
  split
  · next hid =>
      split
      · next last before hl =>
          have hlast := (h.child_lt id last (last_mem_children hl)).2
          refine ⟨Nat.le_of_eq (size_setContent ..).symm, fun j _ => ⟨[], ?_, ?_⟩, fun j _ => ?_⟩
          · rw [children_setContent, List.append_nil]
          · intro x hx
            cases hx
          · rw [ownText_setContent hlast]
            split
            · next hj =>
                rw [hj, ownText_trailing hl, Text.nonBlank_append, hv, List.append_nil]
            · rfl
      · exact quietGrowth_alloc_append h (lt_size_of_isElement hid) hv
  · refine ⟨Nat.le_refl _, fun j _ => ⟨[], (List.append_nil _).symm, ?_⟩, fun _ _ => rfl⟩
    intro x hx
    cases hx

end Tree

end Dom

end AmpMarkup
