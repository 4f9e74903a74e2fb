import Mathlib.Data.List.Chain
import AmpMarkup.Vocabulary
import AmpMarkup.Proofs.Dom.Ordered

/-! Trees without the shapes that no markup stands for: texts side by side, empty texts, anything
below a void element, anything but one text below an element of plain text. -/

namespace AmpMarkup

theorem Attributes.nodup_addIfAbsent {a : Attributes} (h : a.names.Nodup) (entry : Attribute) :
    (a.addIfAbsent entry).names.Nodup := by
  rw [names_addIfAbsent]
  split
  · exact h
  · next hnew =>
      rw [List.nodup_append]
      refine ⟨h, by simp, ?_⟩
      rintro x hx y hy rfl
      exact hnew (List.mem_singleton.mp hy ▸ hx)

theorem Attributes.nodup_addAll {a : Attributes} (h : a.names.Nodup) (entries : List Attribute) :
    (a.addAll entries).names.Nodup := by
  induction entries generalizing a with
  | nil => exact h
  | cons entry entries ih => exact ih (nodup_addIfAbsent h entry)

namespace Dom

/-- The data of a text. -/
def Content.text? : Content → Option Text
  | .text data => some data
  | _ => none

namespace Tree

/-- A node that elements and comments may stand below: no text, and no element that takes nothing
or text alone. -/
structure Receives (t : Tree) (id : NodeId) : Prop where
  text : t.text? id = none
  tag : ∀ tag, t.tag? id = some tag →
    Vocabulary.isVoid tag = false ∧ Vocabulary.isTextOnly tag = false

/-- No node has children that it cannot have, texts are not empty and not side by side, and no
element has two attributes of one name. -/
structure Tidy (t : Tree) : Prop where
  apart : ∀ id, (t.children id).IsChain fun a b => t.text? a = none ∨ t.text? b = none
  text_ne_nil : ∀ id, t.text? id ≠ some []
  text_leaf : ∀ id data, t.text? id = some data → t.children id = []
  void_leaf : ∀ id tag, t.tag? id = some tag → Vocabulary.isVoid tag = true → t.children id = []
  text_only : ∀ id tag, t.tag? id = some tag → Vocabulary.isTextOnly tag = true →
    t.children id = [] ∨ ∃ c data, t.children id = [c] ∧ t.text? c = some data
  names_nodup : ∀ id e, t.element? id = some e → e.attributes.names.Nodup

/-- The second tree has grown out of the first with every node what it was. -/
structure Steady (t t' : Tree) : Prop where
  size_le : t.size ≤ t'.size
  tag? : ∀ id < t.size, t'.tag? id = t.tag? id
  text? : ∀ id < t.size, t'.text? id = none ↔ t.text? id = none
  children : ∀ id, ∀ c ∈ t.children id, c ∈ t'.children id

section
variable {t t' : Tree} {p id last : Nat} {content : Content} {data before : Text} {tag : Text}

theorem text?_eq (t : Tree) (id : NodeId) : t.text? id = (t.content? id).bind Content.text? := by
  unfold text?
  split
  · next h => simp [h, Content.text?]
  · next h =>
      cases hc : t.content? id with
      | none => rfl
      | some content =>
          cases content with
          | text data => exact absurd hc (h data)
          | document | doctype | element | comment => rfl

theorem lt_size_of_text? (h : t.text? id = some data) : id < t.size :=
  lt_size_of_content? (text?_eq_some_iff.1 h)

theorem text?_eq_none_of_isElement (h : t.isElement id = true) : t.text? id = none := by
  obtain ⟨e, he⟩ := Option.isSome_iff_exists.mp h
  rw [text?_eq, element?_eq_some_iff.1 he]
  rfl

/-! ### Growth that changes no node's kind -/

namespace Steady

theorem within (h : t.Steady t') (hw : t.Within p id) : t'.Within p id :=
  hw.mono h.children

theorem receives (h : t.Steady t') (hid : id < t.size) (hr : t.Receives id) : t'.Receives id where
  text := (h.text? id hid).mpr hr.text
  tag tag ht := by
    rw [h.tag? id hid] at ht
    exact hr.tag tag ht

theorem tag?_eq_some (h : t.Steady t') (ht : t.tag? id = some tag) : t'.tag? id = some tag := by
  rw [h.tag? id (lt_size_of_tag? ht), ht]

end Steady

theorem text?_alloc_append (t : Tree) (p : NodeId) (content : Content) (j : NodeId) :
    ((t.alloc content).append p t.size).text? j =
      if j = t.size then content.text? else t.text? j := by
  rw [text?_eq, text?_eq, content?_alloc_append]
  split <;> rfl

theorem element?_alloc_append (t : Tree) (p : NodeId) (content : Content) {j : NodeId}
    (hj : j ≠ t.size) : ((t.alloc content).append p t.size).element? j = t.element? j :=
  element?_congr (by rw [content?_alloc_append, if_neg hj])

theorem steady_alloc_append (hp : p < t.size) (content : Content) :
    t.Steady ((t.alloc content).append p t.size) where
  size_le := by
    rw [size_append, size_alloc]
    exact Nat.le_succ _
  tag? j hj := tag?_congr (by rw [content?_alloc_append, if_neg (Nat.ne_of_lt hj)])
  text? j hj := by rw [text?_alloc_append, if_neg (Nat.ne_of_lt hj)]
  children j c hc := by
    rw [children_alloc_append hp]
    split
    · exact List.mem_append_left _ hc
    · exact hc

theorem text?_setContent (hid : id < t.size) (data : Text) (j : NodeId) :
    (t.setContent id (.text data)).text? j = if j = id then some data else t.text? j := by
  split
  · next hj => rw [text?_eq_some_iff, hj, content?_setContent_self hid]
  · next hj => rw [text?_eq, text?_eq, content?_setContent_of_ne _ (Ne.symm hj)]

theorem element?_setContent_text (ht : t.text? last = some before) (data : Text) (j : NodeId) :
    (t.setContent last (.text data)).element? j = t.element? j := by
  by_cases hj : last = j
  · subst hj
    rw [element?, element?, content?_setContent_self (lt_size_of_text? ht), text?_eq_some_iff.1 ht]
  · exact element?_congr (content?_setContent_of_ne _ hj)

theorem steady_setContent (ht : t.text? last = some before) (data : Text) :
    t.Steady (t.setContent last (.text data)) where
  size_le := Nat.le_of_eq (size_setContent ..).symm
  tag? j _ := by rw [Tree.tag?, Tree.tag?, element?_setContent_text ht]
  text? j _ := by
    rw [text?_setContent (lt_size_of_text? ht)]
    split
    · next hj => simp [hj, ht]
    · rfl
  children j c hc := by rwa [children_setContent]

theorem steady_appendText (t : Tree) (id : NodeId) (data : Text) :
    t.Steady (t.appendText id data) := by
  unfold appendText
  split
  · next hid =>
      split
      · next last before hl => exact steady_setContent (trailingText?_eq_some_iff.1 hl).2 _
      · exact steady_alloc_append (lt_size_of_isElement hid) _
  · exact ⟨Nat.le_refl _, fun _ _ => rfl, fun _ _ => .rfl, fun _ _ hc => hc⟩

theorem children_mapAttributes (t : Tree) (id : NodeId) (f : Attributes → Attributes) (j : NodeId) :
    (t.mapAttributes id f).children j = t.children j := by
  unfold mapAttributes
  split
  · exact children_setContent ..
  · rfl

theorem size_mapAttributes (t : Tree) (id : NodeId) (f : Attributes → Attributes) :
    (t.mapAttributes id f).size = t.size := by
  unfold mapAttributes
  split
  · exact size_setContent ..
  · rfl

theorem text?_mapAttributes (t : Tree) (id : NodeId) (f : Attributes → Attributes) (j : NodeId) :
    (t.mapAttributes id f).text? j = t.text? j := by
  unfold mapAttributes
  split
  · next e he =>
      have hc := element?_eq_some_iff.1 he
      by_cases hj : id = j
      · subst hj
        rw [text?_eq, text?_eq, content?_setContent_self (lt_size_of_content? hc), hc]
        rfl
      · rw [text?_eq, text?_eq, content?_setContent_of_ne _ hj]
  · rfl

theorem element?_mapAttributes (t : Tree) (id : NodeId) (f : Attributes → Attributes)
    (j : NodeId) :
    (t.mapAttributes id f).element? j =
      if j = id then (t.element? j).map fun e => { e with attributes := f e.attributes }
      else t.element? j := by
  unfold mapAttributes
  split
  · next e he =>
      have hlt := lt_size_of_content? (element?_eq_some_iff.1 he)
      split
      · next hj => rw [hj, he, element?_eq_some_iff.2 (content?_setContent_self hlt _)]; rfl
      · next hj => exact element?_congr (content?_setContent_of_ne _ (Ne.symm hj))
  · next he =>
      split
      · next hj => rw [hj, he]; rfl
      · rfl

theorem steady_mapAttributes (t : Tree) (id : NodeId) (f : Attributes → Attributes) :
    t.Steady (t.mapAttributes id f) where
  size_le := Nat.le_of_eq (size_mapAttributes ..).symm
  tag? j _ := by
    rw [Tree.tag?, Tree.tag?, element?_mapAttributes]
    split
    · rw [Option.map_map]
      rfl
    · rfl
  text? j _ := by rw [text?_mapAttributes]
  children j c hc := by rwa [children_mapAttributes]

/-! ### Growth that keeps a tree tidy -/

/-- A text below an element that has no text in the last place can follow what is there. -/
theorem Tidy.last_of_trailingText? (h : t.trailingText? p = none) :
    ∀ c ∈ (t.children p).getLast?, t.text? c = none := by
  intro c hc
  cases ht : t.text? c with
  | none => rfl
  | some data =>
      have hl := trailingText?_eq_some_iff.2 ⟨hc, ht⟩
      rw [h] at hl
      cases hl

/-- The children of a tree in which no text has come or gone are still apart. -/
theorem Tidy.apart_of_text? (h : t.Tidy) (ho : t.Ordered) (hs : t.Steady t') (id : NodeId) :
    (t.children id).IsChain fun a b => t'.text? a = none ∨ t'.text? b = none := by
  apply (h.apart id).imp_of_mem_imp
  intro a b ha hb hab
  have ha := (ho.child_lt id a ha).2
  have hb := (ho.child_lt id b hb).2
  rwa [hs.text? a ha, hs.text? b hb]

/-- A new node in the last place is apart from the one before it if one of them is no text. -/
theorem Tidy.apart_alloc_append (h : t.Tidy) (ho : t.Ordered) (hp : p < t.size)
    (hlast : content.text? = none ∨ ∀ c ∈ (t.children p).getLast?, t.text? c = none)
    (id : NodeId) :
    (((t.alloc content).append p t.size).children id).IsChain fun a b =>
      ((t.alloc content).append p t.size).text? a = none ∨
        ((t.alloc content).append p t.size).text? b = none := by
  have hold := h.apart_of_text? ho (steady_alloc_append hp content) id
  rw [children_alloc_append hp]
  split
  · next hid =>
      refine hold.append (.singleton _) ?_
      intro a ha b hb
      rw [List.head?_cons, Option.mem_some_iff] at hb
      subst hb hid
      have hlt := (ho.child_lt id a (List.mem_of_getLast? ha)).2
      rw [text?_alloc_append, text?_alloc_append, if_pos rfl, if_neg (Nat.ne_of_lt hlt)]
      exact (hlast.imp_right fun hl => hl a ha).symm
  · exact hold

/-- An element of plain text takes a text in the first place. -/
theorem Tidy.text_only_alloc_append (h : t.Tidy) (hp : p < t.size)
    (honly : ∀ tag, t.tag? p = some tag → Vocabulary.isTextOnly tag = true →
      t.children p = [] ∧ content.text? ≠ none) (ht : t.tag? id = some tag)
    (hv : Vocabulary.isTextOnly tag = true) :
    ((t.alloc content).append p t.size).children id = [] ∨
      ∃ c data, ((t.alloc content).append p t.size).children id = [c] ∧
        ((t.alloc content).append p t.size).text? c = some data := by
  simp only [children_alloc_append hp, text?_alloc_append]
  split
  · next hid =>
      subst hid
      obtain ⟨hnil, hsome⟩ := honly tag ht hv
      obtain ⟨data, hd⟩ := Option.ne_none_iff_exists'.mp hsome
      exact .inr ⟨t.size, data, by rw [hnil]; rfl, by rw [if_pos rfl, hd]⟩
  · rcases h.text_only id tag ht hv with hnil | ⟨c, data, hc, hd⟩
    · exact .inl hnil
    · exact .inr ⟨c, data, hc, by rw [if_neg (Nat.ne_of_lt (lt_size_of_text? hd)), hd]⟩

/-- A new node in the last place below a node that may have it. -/
theorem Tidy.alloc_append (h : t.Tidy) (ho : t.Ordered) (hp : p < t.size)
    (hdata : content.text? ≠ some []) (htext : t.text? p = none)
    (hvoid : ∀ tag, t.tag? p = some tag → Vocabulary.isVoid tag = false)
    (honly : ∀ tag, t.tag? p = some tag → Vocabulary.isTextOnly tag = true →
      t.children p = [] ∧ content.text? ≠ none)
    (hlast : content.text? = none ∨ ∀ c ∈ (t.children p).getLast?, t.text? c = none)
    (hnames : ∀ e, content = .element e → e.attributes.names.Nodup) :
    ((t.alloc content).append p t.size).Tidy := by
  have htext? := text?_alloc_append t p content
  have hcontent := content?_alloc_append t p content t.size
  have helement : ∀ id, id ≠ t.size →
      ((t.alloc content).append p t.size).element? id = t.element? id := fun id hid =>
    element?_alloc_append t p content hid
  have htag : ∀ id tag, id ≠ t.size → ((t.alloc content).append p t.size).tag? id = some tag →
      t.tag? id = some tag := by
    intro id tag hid ht
    rwa [Tree.tag?, helement id hid] at ht
  have hapart := h.apart_alloc_append ho hp hlast
  have hplain := fun (id : NodeId) (tag : Text) (ht : t.tag? id = some tag) =>
    h.text_only_alloc_append hp honly ht
  have hchildren := children_alloc_append hp content
  -- Only `p` and the new node differ from before, so each case asks for nothing else.
  generalize (t.alloc content).append p t.size = t' at *
  have hnew : t'.children t.size = [] := by
    rw [hchildren, if_neg (Nat.ne_of_gt hp), children_eq_nil (Nat.le_refl _)]
  have hleaf : ∀ id, id ≠ p → t.children id = [] → t'.children id = [] := fun id hne hnil => by
    rw [hchildren, if_neg hne, hnil]
  constructor
  case apart => exact hapart
  case text_ne_nil =>
    intro id
    rw [htext?]
    split
    · exact hdata
    · exact h.text_ne_nil id
  case text_leaf =>
    intro id data ht
    by_cases hid : id = t.size
    · rw [hid, hnew]
    · rw [htext?, if_neg hid] at ht
      refine hleaf id ?_ (h.text_leaf id data ht)
      rintro rfl
      rw [htext] at ht
      cases ht
  case void_leaf =>
    intro id tag ht hv
    by_cases hid : id = t.size
    · rw [hid, hnew]
    · replace ht := htag id tag hid ht
      refine hleaf id ?_ (h.void_leaf id tag ht hv)
      rintro rfl
      rw [hvoid tag ht] at hv
      cases hv
  case text_only =>
    intro id tag ht hv
    by_cases hid : id = t.size
    · rw [hid]
      exact .inl hnew
    · exact hplain id tag (htag id tag hid ht) hv
  case names_nodup =>
    intro id e he
    by_cases hid : id = t.size
    · rw [element?_eq_some_iff, hid, hcontent, if_pos rfl] at he
      exact hnames e (Option.some.inj he)
    · rw [helement id hid] at he
      exact h.names_nodup id e he

/-- A node that is no text below one that may have it. -/
theorem Tidy.insert (h : t.Tidy) (ho : t.Ordered) (hp : p < t.size) (hr : t.Receives p)
    (hc : content.text? = none) (hnames : ∀ e, content = .element e → e.attributes.names.Nodup) :
    ((t.alloc content).append p t.size).Tidy := by
  refine h.alloc_append ho hp (by simp [hc]) hr.text (fun tag ht => (hr.tag tag ht).1) ?_ (.inl hc)
    hnames
  intro tag ht hv
  rw [(hr.tag tag ht).2] at hv
  cases hv

theorem Tidy.setContent (h : t.Tidy) (ho : t.Ordered) (ht : t.text? last = some before)
    (hdata : data ≠ []) : (t.setContent last (.text data)).Tidy := by
  have htext? := text?_setContent (lt_size_of_text? ht) data
  have hsteady := steady_setContent ht data
  have htag : ∀ id, (t.setContent last (.text data)).tag? id = t.tag? id := by
    intro id
    rw [Tree.tag?, Tree.tag?, element?_setContent_text ht]
  refine ⟨?_, ?_, ?_, ?_, ?_, ?_⟩
  · intro id
    rw [children_setContent]
    exact h.apart_of_text? ho hsteady id
  · intro id
    rw [htext?]
    split
    · exact fun hd => hdata (Option.some.inj hd)
    · exact h.text_ne_nil id
  · intro id d hd
    rw [children_setContent]
    rw [htext?] at hd
    split at hd
    · next hid => exact hid ▸ h.text_leaf last before ht
    · exact h.text_leaf id d hd
  · intro id tag hid hv
    rw [htag] at hid
    rw [children_setContent]
    exact h.void_leaf id tag hid hv
  · intro id tag hid hv
    rw [htag] at hid
    rw [children_setContent]
    rcases h.text_only id tag hid hv with hnil | ⟨c, d, hc, hd⟩
    · exact .inl hnil
    · refine .inr ⟨c, ?_⟩
      rw [htext?]
      split
      · exact ⟨data, hc, rfl⟩
      · exact ⟨d, hc, hd⟩
  · intro id e he
    rw [element?_setContent_text ht] at he
    exact h.names_nodup id e he

/-- Text in an element that may have children. -/
theorem Tidy.appendText (h : t.Tidy) (ho : t.Ordered) (ht : t.tag? p = some tag)
    (hv : Vocabulary.isVoid tag = false) (hdata : data ≠ []) : (t.appendText p data).Tidy := by
  have hp : t.isElement p = true := by rw [← isSome_tag?, ht]; rfl
  rw [Tree.appendText, if_pos hp]
  split
  · next last before hl =>
      apply h.setContent ho (trailingText?_eq_some_iff.1 hl).2
      intro hnil
      exact hdata (List.append_eq_nil_iff.mp hnil).2
  · next hl =>
      have hlast := Tidy.last_of_trailingText? hl
      refine h.alloc_append ho (lt_size_of_isElement hp) (fun hd => hdata (Option.some.inj hd))
        (text?_eq_none_of_isElement hp) ?_ ?_ (.inr hlast) (fun e he => by cases he)
      · intro u hu
        rw [ht] at hu
        rwa [← Option.some.inj hu]
      · intro u hu honly
        refine ⟨?_, Option.some_ne_none data⟩
        rcases h.text_only p u hu honly with hnil | ⟨c, d, hc, hd⟩
        · exact hnil
        · have hnone := hlast c (by simp [hc])
          rw [hd] at hnone
          cases hnone

theorem Tidy.addAll (h : t.Tidy) (id : NodeId) (entries : List Attribute) :
    (t.mapAttributes id (·.addAll entries)).Tidy := by
  have htag : ∀ j, (t.mapAttributes id (·.addAll entries)).tag? j = t.tag? j := by
    intro j
    rw [Tree.tag?, Tree.tag?, element?_mapAttributes]
    split
    · rw [Option.map_map]
      rfl
    · rfl
  refine ⟨?_, ?_, ?_, ?_, ?_, ?_⟩
  · intro j
    simp only [children_mapAttributes, text?_mapAttributes]
    exact h.apart j
  · intro j
    rw [text?_mapAttributes]
    exact h.text_ne_nil j
  · intro j data hd
    rw [text?_mapAttributes] at hd
    rw [children_mapAttributes]
    exact h.text_leaf j data hd
  · intro j tag ht hv
    rw [htag] at ht
    rw [children_mapAttributes]
    exact h.void_leaf j tag ht hv
  · intro j tag ht hv
    rw [htag] at ht
    simp only [children_mapAttributes, text?_mapAttributes]
    exact h.text_only j tag ht hv
  · intro j e he
    rw [element?_mapAttributes] at he
    split at he
    · obtain ⟨f, hf, rfl⟩ := Option.map_eq_some_iff.mp he
      exact Attributes.nodup_addAll (h.names_nodup j f hf) entries
    · exact h.names_nodup j e he

theorem tidy_empty : empty.Tidy := by
  have hchildren : ∀ id, empty.children id = [] := by
    intro id
    cases id <;> rfl
  have htext : ∀ id, empty.text? id = none := by
    intro id
    cases id <;> rfl
  have helement : ∀ id, empty.element? id = none := by
    intro id
    cases id <;> rfl
  refine ⟨?_, ?_, ?_, ?_, ?_, ?_⟩
  · intro id
    rw [hchildren]
    exact .nil
  · intro id
    simp [htext]
  · intro id data _
    exact hchildren id
  · intro id tag _ _
    exact hchildren id
  · intro id tag _ _
    exact .inl (hchildren id)
  · intro id e he
    rw [helement] at he
    cases he

end

section
variable {t : Tree} {p id : NodeId} {tag : Text}

/-! ### The text of an element under growth elsewhere -/

/-- Text is no element, and text that is added to leaves the elements alone. -/
theorem tag?_appendText (t : Tree) (id : NodeId) (data : Text) (j : NodeId) :
    (t.appendText id data).tag? j = t.tag? j := by
  unfold appendText
  split
  · split
    · next hl => rw [tag?, tag?, element?_setContent_text (trailingText?_eq_some_iff.1 hl).2]
    · by_cases hj : j = t.size
      · subst hj
        rw [tag?, tag?, element?, content?_alloc_append, if_pos rfl,
          element?_eq_none (Nat.le_refl t.size)]
      · rw [tag?, tag?, element?_alloc_append t id _ hj]
  · rfl

/-- The first text of an element is all of its text. -/
theorem childText_appendText (he : t.isElement id = true) (hc : t.children id = [])
    (data : Text) : (t.appendText id data).childText id = data := by
  have hnone : t.trailingText? id = none := by
    rw [trailingText?, lastChild?, hc]
    rfl
  rw [appendText, if_pos he, hnone, childText, children_alloc_append (lt_size_of_isElement he),
    if_pos rfl, hc, List.nil_append, List.filterMap_cons, text?_alloc_append, if_pos rfl]
  exact List.append_nil data

theorem childText_alloc_append (hb : t.Bounded) (hp : p < t.size) (hid : id ≠ p)
    (content : Content) :
    ((t.alloc content).append p t.size).childText id = t.childText id := by
  have htext : ∀ c ∈ t.children id,
      ((t.alloc content).append p t.size).text? c = t.text? c := fun c hc => by
    rw [text?_alloc_append, if_neg (Nat.ne_of_lt (hb id c hc))]
  rw [childText, childText, children_alloc_append hp, if_neg hid, List.filterMap_congr htext]

/-- A walk finds the one element of a tag once. -/
theorem Ordered.elementsByTag_eq_singleton (h : t.Ordered) (hid : id < t.size)
    (huniq : ∀ j, t.elementIs j tag = true ↔ j = id) : t.elementsByTag root tag = [id] := by
  have hfilter : t.elementsByTag root tag = (t.descendants root).filter (· == id) :=
    List.filter_congr fun j _ => Bool.eq_iff_iff.mpr ((huniq j).trans beq_iff_eq.symm)
  have hmem : id ∈ t.descendants root := h.mem_descendants.2 (h.within_root hid)
  rw [hfilter, List.filter_beq, (h.descendants_nodup root).count, if_pos hmem]
  rfl

end

end Tree

end Dom

end AmpMarkup
