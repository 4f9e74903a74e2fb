import AmpMarkup.Dom.TrailingText

/-! How a tree grows under construction. A new node comes last below another one, text is added to,
attributes are added; what the tree says about the other nodes stays. -/

namespace AmpMarkup.Dom.Tree

variable {s t : Tree} {id p j : NodeId} {content : Content} {e : Element} {data : Text}

/-- Every child is a node of the tree. -/
def Bounded (t : Tree) : Prop :=
  ∀ id, ∀ c ∈ t.children id, c < t.size

/-- The elements among the children of a node. -/
def elementChildren (t : Tree) (id : NodeId) : List NodeId :=
  (t.children id).filter t.isElement

/-! ### Nodes of a tree -/

theorem get?_eq_none_iff : t.get? id = none ↔ t.size ≤ id :=
  Array.getElem?_eq_none_iff

theorem exists_get? (h : id < t.size) : ∃ n, t.get? id = some n :=
  Option.ne_none_iff_exists'.1 fun hn => Nat.not_lt_of_le (get?_eq_none_iff.1 hn) h

theorem content?_eq_none (h : t.size ≤ id) : t.content? id = none := by
  rw [content?, get?_eq_none_iff.2 h, Option.map_none]

theorem children_eq_nil (h : t.size ≤ id) : t.children id = [] := by
  rw [children, get?_eq_none_iff.2 h]
  rfl

theorem lt_size_of_content? (h : t.content? id = some content) : id < t.size := by
  refine Nat.lt_of_not_le fun hle => ?_
  rw [content?_eq_none hle] at h
  cases h

theorem element?_eq_some_iff : t.element? id = some e ↔ t.content? id = some (.element e) := by
  unfold element?
  split
  · next h => simp_all
  · next h =>
      simp only [reduceCtorEq, false_iff]
      exact h e

theorem element?_congr (h : s.content? id = t.content? id) : s.element? id = t.element? id := by
  rw [element?, element?, h]

theorem tag?_congr (h : s.content? id = t.content? id) : s.tag? id = t.tag? id := by
  rw [tag?, tag?, element?_congr h]

theorem element?_eq_none (h : t.size ≤ id) : t.element? id = none := by
  rw [element?, content?_eq_none h]

theorem isElement_eq_false (h : t.size ≤ id) : t.isElement id = false := by
  rw [isElement, element?_eq_none h]
  rfl

theorem isSome_tag? : (t.tag? id).isSome = t.isElement id := by
  rw [tag?, isElement, Option.isSome_map]

theorem elementIs_eq (t : Tree) (id : NodeId) (tag : Text) :
    t.elementIs id tag = (t.tag? id).any (·.sameIgnoringCase tag) := by
  rw [elementIs, tag?, Option.any_map]
  rfl

theorem lt_size_of_isElement (h : t.isElement id = true) : id < t.size := by
  obtain ⟨e, he⟩ := Option.isSome_iff_exists.1 h
  exact lt_size_of_content? (element?_eq_some_iff.1 he)

/-! ### A new node in the last place -/

theorem size_modify (t : Tree) (id : NodeId) (f : Node → Node) : (t.modify id f).size = t.size :=
  Array.size_modify ..

theorem size_alloc (t : Tree) (content : Content) : (t.alloc content).size = t.size + 1 :=
  Array.size_push ..

@[simp] theorem size_detach (t : Tree) (child : NodeId) : (t.detach child).size = t.size := by
  unfold detach
  split
  · rfl
  · rw [size_modify, size_modify]

theorem size_attach (t : Tree) (p child : NodeId) (place : List NodeId → List NodeId) :
    (t.attach p child place).size = t.size := by
  rw [attach, size_modify, size_modify]

theorem size_append (t : Tree) (p child : NodeId) : (t.append p child).size = t.size := by
  rw [append, size_attach, size_detach]

theorem size_setContent (t : Tree) (id : NodeId) (content : Content) :
    (t.setContent id content).size = t.size :=
  size_modify ..

theorem content?_modify (t : Tree) (id : NodeId) {f : Node → Node}
    (hf : ∀ n, (f n).content = n.content) (j : NodeId) :
    (t.modify id f).content? j = t.content? j := by
  rw [content?, content?, get?_modify]
  split
  · rw [Option.map_map]
    exact congrArg (Option.map · _) (funext hf)
  · rfl

theorem content?_detach (t : Tree) (child j : NodeId) :
    (t.detach child).content? j = t.content? j := by
  unfold detach
  split
  · rfl
  · rw [content?_modify, content?_modify] <;> exact fun _ => rfl

theorem content?_attach (t : Tree) (p child : NodeId) (place : List NodeId → List NodeId)
    (j : NodeId) : (t.attach p child place).content? j = t.content? j := by
  rw [attach, content?_modify, content?_modify] <;> exact fun _ => rfl

theorem content?_append (t : Tree) (p child j : NodeId) :
    (t.append p child).content? j = t.content? j := by
  rw [append, content?_attach, content?_detach]

theorem content?_alloc_append (t : Tree) (p : NodeId) (content : Content) (j : NodeId) :
    ((t.alloc content).append p t.size).content? j =
      if j = t.size then some content else t.content? j := by
  rw [content?_append, content?, content?, get?_alloc]
  split <;> rfl

section
variable (hp : p < t.size)
include hp

theorem children_alloc_append (content : Content) (j : NodeId) :
    ((t.alloc content).append p t.size).children j =
      if j = p then t.children j ++ [t.size] else t.children j := by
  rw [children, get?_alloc_append (Nat.ne_of_lt hp)]
  by_cases hs : j = t.size
  · rw [if_pos hs, if_neg (hs ▸ Nat.ne_of_gt hp), children_eq_nil (Nat.le_of_eq hs.symm)]
    rfl
  · rw [if_neg hs]
    split
    · next he =>
        obtain ⟨n, hn⟩ := exists_get? (he ▸ hp)
        rw [children, hn]
        rfl
    · rfl

theorem bounded_alloc_append (h : t.Bounded) : ((t.alloc content).append p t.size).Bounded := by
  intro j c hc
  rw [size_append, size_alloc]
  rw [children_alloc_append hp] at hc
  split at hc
  · rcases List.mem_append.1 hc with hc | hc
    · exact Nat.lt_succ_of_lt (h j c hc)
    · rw [List.mem_singleton.1 hc]
      exact Nat.lt_succ_self _
  · exact Nat.lt_succ_of_lt (h j c hc)

end

/-! ### Changes that leave the elements alone -/

/-- The second tree has the elements of the first one, with the same tags and in the same
places. -/
structure SameElements (s t : Tree) : Prop where
  size_le : s.size ≤ t.size
  bounded : t.Bounded
  tag? : ∀ id, t.tag? id = s.tag? id
  elementChildren : ∀ id, t.elementChildren id = s.elementChildren id

theorem SameElements.refl (h : t.Bounded) : SameElements t t :=
  ⟨Nat.le_refl _, h, fun _ => rfl, fun _ => rfl⟩

theorem SameElements.isElement (h : SameElements s t) (id : NodeId) :
    t.isElement id = s.isElement id := by
  rw [← isSome_tag?, ← isSome_tag?, h.tag?]

/-- A node that is no element. -/
theorem sameElements_alloc_append (h : t.Bounded) (hp : p < t.size)
    (hc : ∀ e, content ≠ .element e) :
    SameElements t ((t.alloc content).append p t.size) := by
  have hcontent := content?_alloc_append t p content
  have htag : ∀ id, ((t.alloc content).append p t.size).tag? id = t.tag? id := by
    intro id
    by_cases hid : id = t.size
    · have hnone : ((t.alloc content).append p t.size).element? id = none := by
        rw [Option.eq_none_iff_forall_ne_some]
        intro e he
        rw [element?_eq_some_iff, hcontent, if_pos hid] at he
        exact hc e (Option.some.inj he)
      rw [Tree.tag?, Tree.tag?, hnone, element?_eq_none (Nat.le_of_eq hid.symm)]
    · exact tag?_congr (by rw [hcontent, if_neg hid])
  have helement : ((t.alloc content).append p t.size).isElement = t.isElement := by
    funext id
    rw [← isSome_tag?, ← isSome_tag?, htag]
  refine ⟨?_, bounded_alloc_append hp h, htag, fun id => ?_⟩
  · rw [size_append, size_alloc]
    exact Nat.le_succ _
  · rw [Tree.elementChildren, Tree.elementChildren, children_alloc_append hp, helement]
    split
    · rw [List.filter_append, List.filter_cons_of_neg, List.filter_nil, List.append_nil]
      simp [isElement_eq_false]
    · rfl

/-- A node with another content, an element with the same tag or no element. -/
theorem sameElements_setContent (h : t.Bounded)
    (hc : ∀ id, (t.setContent p content).tag? id = t.tag? id) :
    SameElements t (t.setContent p content) := by
  have helement : (t.setContent p content).isElement = t.isElement := by
    funext id
    rw [← isSome_tag?, ← isSome_tag?, hc]
  refine ⟨Nat.le_of_eq (size_setContent ..).symm, ?_, hc, fun id => ?_⟩
  · intro id c hm
    rw [children_setContent] at hm
    rw [size_setContent]
    exact h id c hm
  · rw [Tree.elementChildren, Tree.elementChildren, children_setContent, helement]

theorem content?_setContent_self (h : p < t.size) (content : Content) :
    (t.setContent p content).content? p = some content := by
  obtain ⟨n, hn⟩ := exists_get? h
  rw [content?, get?_setContent, if_pos rfl, hn]
  rfl

theorem sameElements_mapAttributes (h : t.Bounded) (id : NodeId) (f : Attributes → Attributes) :
    SameElements t (t.mapAttributes id f) := by
  unfold mapAttributes
  split
  · next e he =>
      refine sameElements_setContent h fun j => ?_
      by_cases hj : id = j
      · subst hj
        have hlt := lt_size_of_content? (element?_eq_some_iff.1 he)
        have hset := element?_eq_some_iff.2
          (content?_setContent_self hlt (.element { e with attributes := f e.attributes }))
        rw [Tree.tag?, Tree.tag?, hset, he]
        rfl
      · exact tag?_congr (content?_setContent_of_ne _ hj)
  · exact .refl h

theorem sameElements_appendText (h : t.Bounded) (id : NodeId) (data : Text) :
    SameElements t (t.appendText id data) := by
  unfold appendText
  split
  · next hid =>
      split
      · next last before hl =>
          refine sameElements_setContent h fun j => ?_
          have hlast := text?_eq_some_iff.1 (trailingText?_eq_some_iff.1 hl).2
          by_cases hj : last = j
          · subst hj
            have hset := content?_setContent_self (lt_size_of_content? hlast)
              (.text (before ++ data))
            rw [Tree.tag?, Tree.tag?, element?, element?, hset, hlast]
          · exact tag?_congr (content?_setContent_of_ne _ hj)
      · exact sameElements_alloc_append h (lt_size_of_isElement hid) fun e he => by cases he
  · exact .refl h

/-! ### A new element -/

/-- The tree with a new element in the last place below `p`. -/
def withElement (t : Tree) (p : NodeId) (e : Element) : Tree :=
  (t.alloc (.element e)).append p t.size

theorem size_withElement (t : Tree) (p : NodeId) (e : Element) :
    (t.withElement p e).size = t.size + 1 :=
  (size_append ..).trans (size_alloc ..)

theorem children_withElement (hp : p < t.size) (e : Element) (id : NodeId) :
    (t.withElement p e).children id =
      if id = p then t.children id ++ [t.size] else t.children id :=
  children_alloc_append hp _ id

theorem bounded_withElement (h : t.Bounded) (hp : p < t.size) (e : Element) :
    (t.withElement p e).Bounded :=
  bounded_alloc_append hp h

theorem tag?_withElement (e : Element) (id : NodeId) :
    (t.withElement p e).tag? id = if id = t.size then some e.tag else t.tag? id := by
  split
  · next hid =>
      have : (t.withElement p e).element? id = some e :=
        element?_eq_some_iff.2 (by rw [withElement, content?_alloc_append, if_pos hid])
      rw [tag?, this]
      rfl
  · next hid =>
      exact tag?_congr (by rw [withElement, content?_alloc_append, if_neg hid])

theorem tag?_withElement_self (e : Element) :
    (t.withElement p e).tag? t.size = some e.tag := by
  rw [tag?_withElement, if_pos rfl]

theorem lt_size_of_tag? {tag : Text} (h : t.tag? id = some tag) : id < t.size :=
  lt_size_of_isElement (by rw [← isSome_tag?, h]; rfl)

theorem tag?_withElement_of_lt (e : Element) (hid : id < t.size) :
    (t.withElement p e).tag? id = t.tag? id := by
  rw [tag?_withElement, if_neg (Nat.ne_of_lt hid)]

theorem tag?_withElement_of_some (e : Element) {tag : Text}
    (h : t.tag? id = some tag) : (t.withElement p e).tag? id = some tag := by
  rw [tag?_withElement_of_lt e (lt_size_of_tag? h), h]

theorem elementChildren_withElement (h : t.Bounded) (hp : p < t.size) (e : Element)
    (id : NodeId) :
    (t.withElement p e).elementChildren id =
      if id = p then t.elementChildren id ++ [t.size] else t.elementChildren id := by
  have hold : ∀ j, ∀ c ∈ t.children j, (t.withElement p e).isElement c = t.isElement c := by
    intro j c hc
    rw [← isSome_tag?, ← isSome_tag?, tag?_withElement_of_lt e (h j c hc)]
  have hnew : (t.withElement p e).isElement t.size = true := by
    rw [← isSome_tag?, tag?_withElement_self]
    rfl
  rw [elementChildren, elementChildren, children_withElement hp]
  split
  · rw [List.filter_append, List.filter_congr (hold id), List.filter_cons_of_pos hnew,
      List.filter_nil]
  · exact List.filter_congr (hold id)

/-! ### Elements that stay -/

/-- The elements of the first tree are in the second one with the same tag and all their
attributes. -/
def Grows (t t' : Tree) : Prop :=
  ∀ id e, t.element? id = some e → ∃ e', t'.element? id = some e' ∧ e'.tag = e.tag ∧
    ∀ a ∈ e.attributes.entries, a ∈ e'.attributes.entries

namespace Grows

variable {t' t'' : Tree}

theorem refl (t : Tree) : t.Grows t :=
  fun _ e he => ⟨e, he, rfl, fun _ h => h⟩

theorem trans (h : t.Grows t') (h' : t'.Grows t'') : t.Grows t'' := by
  intro id e he
  obtain ⟨e', he', htag, hsub⟩ := h id e he
  obtain ⟨e'', he'', htag', hsub'⟩ := h' id e' he'
  exact ⟨e'', he'', htag'.trans htag, fun a ha => hsub' a (hsub a ha)⟩

end Grows

theorem grows_alloc_append (t : Tree) (p : NodeId) (content : Content) :
    t.Grows ((t.alloc content).append p t.size) := by
  intro id e he
  have hc := element?_eq_some_iff.1 he
  refine ⟨e, ?_, rfl, fun _ h => h⟩
  rw [element?_eq_some_iff, content?_alloc_append, if_neg (Nat.ne_of_lt (lt_size_of_content? hc)),
    hc]

theorem grows_appendText (t : Tree) (id : NodeId) (data : Text) :
    t.Grows (t.appendText id data) := by
  rw [appendText]
  split
  · split
    · next last before hl =>
        intro j e he
        refine ⟨e, ?_, rfl, fun _ h => h⟩
        have hlast := text?_eq_some_iff.1 (trailingText?_eq_some_iff.1 hl).2
        have hne : last ≠ j := by
          rintro rfl
          rw [element?_eq_some_iff, hlast] at he
          cases he
        rw [element?_congr (content?_setContent_of_ne _ hne), he]
    · exact t.grows_alloc_append id _
  · exact .refl t

theorem subset_addAll (a : Attributes) (l : List Attribute) :
    ∀ b ∈ a.entries, b ∈ (a.addAll l).entries := by
  induction l generalizing a with
  | nil => exact fun _ h => h
  | cons c l ih =>
      intro b hb
      rw [Attributes.addAll, List.foldl_cons, Attributes.addIfAbsent]
      split
      · exact ih a b hb
      · exact ih _ b (List.mem_append_left _ hb)

theorem grows_addAll (t : Tree) (id : NodeId) (l : List Attribute) :
    t.Grows (t.mapAttributes id (·.addAll l)) := by
  rw [mapAttributes]
  split
  · next e he =>
      intro j f hf
      by_cases hj : id = j
      · subst hj
        obtain rfl := Option.some.inj (he.symm.trans hf)
        have hlt := lt_size_of_content? (element?_eq_some_iff.1 he)
        exact ⟨_, element?_eq_some_iff.2 (content?_setContent_self hlt _), rfl, subset_addAll _ l⟩
      · exact ⟨f, by rw [element?_congr (content?_setContent_of_ne _ hj), hf], rfl, fun _ h => h⟩
  · exact .refl t

end AmpMarkup.Dom.Tree
