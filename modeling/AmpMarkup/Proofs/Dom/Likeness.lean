import AmpMarkup.Proofs.Dom.Shape
import AmpMarkup.Proofs.Html.TokenLikeness

/-! Trees whose texts and attributes the same symbols spell under two registries. They have the same
shape, and what construction does to both of them keeps them alike. A stand-in that shows in a tag
or in the name of an attribute goes on to show, whatever construction does. -/

namespace AmpMarkup.Dom

open Source (Registry Alike SameName Hides)
open Html (AttributeLike LeaksName)

variable {r r' : Registry} {t t' : Tree} {id : NodeId}

/-- The elements have the same tag and alike attributes. -/
structure Element.Like (r r' : Registry) (e e' : Element) : Prop where
  tag : e.tag = e'.tag
  attributes : List.Forall₂ (AttributeLike r r') e.attributes.entries e'.attributes.entries

/-- The contents are alike. Comments and document types need not be. -/
inductive Content.Like (r r' : Registry) : Content → Content → Prop where
  | document : Like r r' .document .document
  | doctype (name name' : Text) : Like r r' (.doctype name) (.doctype name')
  | element {e e' : Element} (h : e.Like r r' e') : Like r r' (.element e) (.element e')
  | text {data data' : Text} (h : Alike r r' data data') : Like r r' (.text data) (.text data')
  | comment (data data' : Text) : Like r r' (.comment data) (.comment data')

/-- The nodes are alike and have the same place. -/
structure Node.Like (r r' : Registry) (n n' : Node) : Prop where
  content : n.content.Like r r' n'.content
  parent : n.parent = n'.parent
  children : n.children = n'.children

/-- The trees are alike node by node. -/
structure Tree.Like (r r' : Registry) (t t' : Tree) : Prop where
  size : t.size = t'.size
  node : ∀ id, Option.Rel (Node.Like r r') (t.get? id) (t'.get? id)

namespace Tree.Like

/-! ### What alike trees say -/

theorem parent? (h : t.Like r r' t') : t.parent? = t'.parent? := by
  funext id
  have hnode := h.node id
  rw [Tree.parent?, Tree.parent?]
  generalize t.get? id = n, t'.get? id = n' at hnode
  cases hnode with
  | none => rfl
  | some hn => exact hn.parent

theorem children (h : t.Like r r' t') : t.children = t'.children := by
  funext id
  have hnode := h.node id
  rw [Tree.children, Tree.children]
  generalize t.get? id = n, t'.get? id = n' at hnode
  cases hnode with
  | none => rfl
  | some hn => exact hn.children

theorem content? (h : t.Like r r' t') (id : NodeId) :
    Option.Rel (Content.Like r r') (t.content? id) (t'.content? id) := by
  have hnode := h.node id
  rw [Tree.content?, Tree.content?]
  generalize t.get? id = n, t'.get? id = n' at hnode
  cases hnode with
  | none => exact .none
  | some hn => exact .some hn.content

theorem element? (h : t.Like r r' t') (id : NodeId) :
    Option.Rel (Element.Like r r') (t.element? id) (t'.element? id) := by
  have hcontent := h.content? id
  rw [Tree.element?, Tree.element?]
  generalize t.content? id = c, t'.content? id = c' at hcontent
  cases hcontent with
  | none => exact .none
  | some hc =>
      cases hc with
      | element he => exact .some he
      | document | doctype | text | comment => exact .none

theorem text? (h : t.Like r r' t') (id : NodeId) :
    Option.Rel (Alike r r') (t.text? id) (t'.text? id) := by
  have hcontent := h.content? id
  rw [Tree.text?, Tree.text?]
  generalize t.content? id = c, t'.content? id = c' at hcontent
  cases hcontent with
  | none => exact .none
  | some hc =>
      cases hc with
      | text ht => exact .some ht
      | document | doctype | element | comment => exact .none

theorem tag? (h : t.Like r r' t') : t.tag? = t'.tag? := by
  funext id
  have helement := h.element? id
  rw [Tree.tag?, Tree.tag?]
  generalize t.element? id = e, t'.element? id = e' at helement
  cases helement with
  | none => rfl
  | some he => exact congrArg some he.tag

theorem shape (h : t.Like r r' t') : t.SameShape t' :=
  ⟨h.size, h.parent?, h.children, h.tag?⟩

theorem childText (h : t.Like r r' t') (id : NodeId) :
    Alike r r' (t.childText id) (t'.childText id) := by
  rw [Tree.childText, Tree.childText, h.children]
  induction t'.children id with
  | nil => exact .same []
  | cons child children ih =>
      have htext := h.text? child
      generalize hx : t.text? child = x, hx' : t'.text? child = x' at htext
      cases htext with
      | none => rwa [List.filterMap_cons_none hx, List.filterMap_cons_none hx']
      | some htext =>
          rw [List.filterMap_cons_some hx, List.filterMap_cons_some hx', List.flatten_cons,
            List.flatten_cons]
          exact htext.append ih

/-! ### Changes to alike trees -/

theorem modify (h : t.Like r r' t') (id : NodeId) {f f' : Node → Node}
    (hf : ∀ n n', n.Like r r' n' → (f n).Like r r' (f' n')) :
    (t.modify id f).Like r r' (t'.modify id f') where
  size := by rw [size_modify, size_modify, h.size]
  node j := by
    rw [get?_modify, get?_modify]
    split
    · have hnode := h.node j
      generalize t.get? j = n, t'.get? j = n' at hnode
      cases hnode with
      | none => exact .none
      | some hn => exact .some (hf _ _ hn)
    · exact h.node j

theorem alloc (h : t.Like r r' t') {content content' : Content}
    (hc : content.Like r r' content') : (t.alloc content).Like r r' (t'.alloc content') where
  size := by rw [size_alloc, size_alloc, h.size]
  node j := by
    rw [get?_alloc, get?_alloc, h.size]
    split
    · exact .some ⟨hc, rfl, rfl⟩
    · exact h.node j

theorem detach (h : t.Like r r' t') (child : NodeId) :
    (t.detach child).Like r r' (t'.detach child) := by
  rw [Tree.detach, Tree.detach, h.parent?]
  split
  · exact h
  · refine (h.modify child fun n n' hn => ?_).modify _ fun n n' hn => ?_
    · exact ⟨hn.content, rfl, hn.children⟩
    · exact ⟨hn.content, hn.parent, congrArg (List.filter _) hn.children⟩

theorem append (h : t.Like r r' t') (p child : NodeId) :
    (t.append p child).Like r r' (t'.append p child) := by
  refine ((h.detach child).modify p fun n n' hn => ?_).modify child fun n n' hn => ?_
  · exact ⟨hn.content, hn.parent, congrArg (· ++ [child]) hn.children⟩
  · exact ⟨hn.content, rfl, hn.children⟩

theorem setContent (h : t.Like r r' t') (id : NodeId) {content content' : Content}
    (hc : content.Like r r' content') :
    (t.setContent id content).Like r r' (t'.setContent id content') :=
  h.modify id fun _ _ hn => ⟨hc, hn.parent, hn.children⟩

/-- New nodes in the last place. -/
theorem alloc_append (h : t.Like r r' t') (p : NodeId) {content content' : Content}
    (hc : content.Like r r' content') :
    ((t.alloc content).append p t.size).Like r r' ((t'.alloc content').append p t'.size) := by
  rw [h.size]
  exact (h.alloc hc).append p t'.size

theorem appendText (h : t.Like r r' t') (id : NodeId) {data data' : Text}
    (hd : Alike r r' data data') : (t.appendText id data).Like r r' (t'.appendText id data') := by
  rw [Tree.appendText, Tree.appendText, h.shape.isElement]
  split
  · rw [trailingText?, trailingText?, lastChild?, lastChild?, h.children]
    cases (t'.children id).getLast? with
    | none => exact h.alloc_append id (.text hd)
    | some last =>
        rw [Option.bind_some, Option.bind_some]
        have htext := h.text? last
        generalize t.text? last = x, t'.text? last = x' at htext
        cases htext with
        | none => exact h.alloc_append id (.text hd)
        | some ht => exact h.setContent last (.text (ht.append hd))
  · exact h

end Tree.Like

theorem addAll_like {l l' m m' : List Attribute} (hm : List.Forall₂ (AttributeLike r r') m m')
    (hl : List.Forall₂ (AttributeLike r r') l l') :
    List.Forall₂ (AttributeLike r r') ((Attributes.mk m).addAll l).entries
      ((Attributes.mk m').addAll l').entries := by
  induction hl generalizing m m' with
  | nil => exact hm
  | @cons a a' l l' ha _ ih =>
      have hc := Html.any_name_eq hm ha.name
      rw [Attributes.addAll, Attributes.addAll, List.foldl_cons, List.foldl_cons,
        Attributes.addIfAbsent, Attributes.addIfAbsent, Attributes.contains, Attributes.contains,
        hc]
      split
      · exact ih hm
      · exact ih (List.rel_append hm (.cons ha .nil))

theorem Tree.Like.mapAttributes (h : t.Like r r' t') (id : NodeId) {l l' : List Attribute}
    (hl : List.Forall₂ (AttributeLike r r') l l') :
    (t.mapAttributes id (·.addAll l)).Like r r' (t'.mapAttributes id (·.addAll l')) := by
  have helement := h.element? id
  rw [Tree.mapAttributes, Tree.mapAttributes]
  generalize t.element? id = e, t'.element? id = e' at helement
  cases helement with
  | none => exact h
  | some he => exact h.setContent id (.element ⟨he.tag, addAll_like he.attributes hl⟩)

/-! ### Stand-ins that show -/

/-- Whether one of the words shows in the tag or in the name of an attribute. -/
def Element.Leaks (r : Registry) (words : List Text) (e : Element) : Prop :=
  ¬ Hides words e.tag ∨ LeaksName r words e.attributes.entries

/-- Whether one of the words shows in a tag or in the name of an attribute. -/
def Tree.Leaks (r : Registry) (words : List Text) (t : Tree) : Prop :=
  ∃ id e, t.element? id = some e ∧ e.Leaks r words

variable {words : List Text}

theorem Tree.Leaks.grow (h : t.Leaks r words) (hg : t.Grows t') : t'.Leaks r words := by
  obtain ⟨id, e, he, hl⟩ := h
  obtain ⟨e', he', htag, hsub⟩ := hg id e he
  refine ⟨id, e', he', ?_⟩
  rcases hl with hl | hl
  · exact .inl (htag ▸ hl)
  · exact .inr (hl.of_subset hsub)

theorem exists_mem_addAll (m : Attributes) {l : List Attribute} {a : Attribute} (ha : a ∈ l) :
    ∃ b ∈ (m.addAll l).entries, b.name = a.name := by
  induction l generalizing m with
  | nil => cases ha
  | cons c l ih =>
      rw [Attributes.addAll, List.foldl_cons]
      rcases List.mem_cons.1 ha with rfl | ha
      · rw [Attributes.addIfAbsent]
        split
        · next hc =>
            obtain ⟨b, hb, hn⟩ := List.any_eq_true.1 hc
            exact ⟨b, Tree.subset_addAll m l b hb, beq_iff_eq.1 hn⟩
        · exact ⟨a, Tree.subset_addAll _ l a (List.mem_append_right _ List.mem_cons_self), rfl⟩
      · exact ih _ ha

theorem leaksName_addAll {m : Attributes} {l : List Attribute} (h : LeaksName r words l) :
    LeaksName r words (m.addAll l).entries := by
  obtain ⟨a, ha, hw⟩ := h
  obtain ⟨b, hb, hn⟩ := exists_mem_addAll m ha
  exact ⟨b, hb, hn ▸ hw⟩

/-- A new element that shows a word. -/
theorem Tree.leaks_alloc_append {e : Element} (he : e.Leaks r words) (t : Tree) (p : NodeId) :
    ((t.alloc (.element e)).append p t.size).Leaks r words := by
  refine ⟨t.size, e, ?_, he⟩
  rw [element?_eq_some_iff, content?_alloc_append, if_pos rfl]

/-- New attributes that show a word. -/
theorem Tree.leaks_mapAttributes {e : Element} {l : List Attribute} (he : t.element? id = some e)
    (hl : LeaksName r words l) : (t.mapAttributes id (·.addAll l)).Leaks r words := by
  have hlt := lt_size_of_content? (element?_eq_some_iff.1 he)
  have hm : t.mapAttributes id (·.addAll l) =
      t.setContent id (.element { e with attributes := e.attributes.addAll l }) := by
    rw [mapAttributes, he]
  exact ⟨id, _, hm ▸ element?_eq_some_iff.2 (content?_setContent_self hlt _),
    .inr (leaksName_addAll hl)⟩

end AmpMarkup.Dom
