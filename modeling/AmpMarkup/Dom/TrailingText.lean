import AmpMarkup.Dom.Edit
import AmpMarkup.Dom.Traversal

/-! The text that ends an element. Adding text there twice is the same as adding both at once, so it
does not matter in what portions the text of an element comes in. -/

namespace AmpMarkup.Dom.Tree

/-- The last child of a node with its data, if it is a text node. -/
def trailingText? (t : Tree) (id : NodeId) : Option (NodeId × Text) :=
  (t.lastChild? id).bind fun last => (t.text? last).map (last, ·)

/-- Adds to the text that ends an element, or starts a text there. Other nodes take no text. -/
def appendText (t : Tree) (id : NodeId) (data : Text) : Tree :=
  if t.isElement id then
    match t.trailingText? id with
    | some (last, before) => t.setContent last (.text (before ++ data))
    | none => (t.alloc (.text data)).append id t.size
  else t

variable {t : Tree} {id last : NodeId} {data : Text}

theorem ne_size_of_isElement (h : t.isElement id = true) : id ≠ t.size := by
  rintro rfl
  simp [isElement, element?, content?, get?_size] at h

theorem ne_of_text?_of_isElement (hl : t.text? last = some data) (h : t.isElement id = true) :
    last ≠ id := by
  rintro rfl
  rw [text?_eq_some_iff] at hl
  simp [isElement, element?, hl] at h

theorem trailingText?_eq_some_iff :
    t.trailingText? id = some (last, data) ↔
      (t.children id).getLast? = some last ∧ t.text? last = some data := by
  simp only [trailingText?, lastChild?, Option.bind_eq_some_iff, Option.map_eq_some_iff]
  constructor
  · rintro ⟨l, hl, d, hd, he⟩
    obtain ⟨rfl, rfl⟩ := Prod.mk.inj he
    exact ⟨hl, hd⟩
  · rintro ⟨hl, hd⟩
    exact ⟨last, hl, data, hd, rfl⟩

theorem trailingText?_setContent {before : Text} (h : t.trailingText? id = some (last, before)) :
    (t.setContent last (.text data)).trailingText? id = some (last, data) := by
  obtain ⟨hl, hb⟩ := trailingText?_eq_some_iff.1 h
  refine trailingText?_eq_some_iff.2 ⟨by rw [children_setContent, hl], ?_⟩
  rw [text?_eq_some_iff, content?] at hb ⊢
  obtain ⟨n, hn, -⟩ := Option.map_eq_some_iff.1 hb
  simp [get?_setContent, hn]

theorem trailingText?_alloc_append (h : t.isElement id = true) :
    ((t.alloc (.text data)).append id t.size).trailingText? id = some (t.size, data) := by
  have hid := ne_size_of_isElement h
  obtain ⟨n, hn⟩ : ∃ n, t.get? id = some n := by
    cases hn : t.get? id with
    | some n => exact ⟨n, rfl⟩
    | none => simp [isElement, element?, content?, hn] at h
  refine trailingText?_eq_some_iff.2 ⟨?_, ?_⟩
  · simp [children, get?_alloc_append hid, hid, hn]
  · simp [text?_eq_some_iff, content?, get?_alloc_append hid]

/-- Text may come in portions. -/
theorem appendText_appendText (t : Tree) (id : NodeId) (first second : Text) :
    (t.appendText id first).appendText id second = t.appendText id (first ++ second) := by
  by_cases he : t.isElement id = true
  · have hid := ne_size_of_isElement he
    cases ht : t.trailingText? id with
    | some p =>
        obtain ⟨last, before⟩ := p
        have hne := ne_of_text?_of_isElement (trailingText?_eq_some_iff.1 ht).2 he
        have hi : (t.setContent last (.text (before ++ first))).isElement id = true := by
          rw [isElement_congr (content?_setContent_of_ne _ hne), he]
        simp only [appendText, he, ht, hi, trailingText?_setContent ht, if_true,
          setContent_setContent, List.append_assoc]
    | none =>
        have hi : ((t.alloc (.text first)).append id t.size).isElement id = true := by
          rw [isElement_congr (t := t), he]
          simp [content?, get?_alloc_append hid, hid, Function.comp_def]
        simp only [appendText, he, ht, hi, trailingText?_alloc_append he, if_true]
        refine eq_of_get? fun j => ?_
        rw [get?_setContent, get?_alloc_append hid, get?_alloc_append hid]
        by_cases hj : j = t.size
        · simp [hj]
        · simp [hj, Ne.symm hj]
  · simp [appendText, he]

end AmpMarkup.Dom.Tree
