import AmpMarkup.Html.Construction
import AmpMarkup.Proofs.Dom.Growth

/-! What the changes of tree construction do to the open elements. All of them are elements of the
tree, a new one comes first, and closing takes some of the first ones away. -/

namespace AmpMarkup.Html

open Dom (Element Tree NodeId)

/-- The open elements are elements of a tree whose document node is none. -/
structure Builder.Sound (b : Builder) : Prop where
  bounded : b.tree.Bounded
  root : b.tree.isElement Tree.root = false
  root_lt : Tree.root < b.tree.size
  opened : ∀ id ∈ b.openElements, b.tree.isElement id = true

namespace Builder

variable {b b' : Builder} {tag t : Text} {markers tags family : List Text} {ids : List NodeId}

theorem start_sound : start.Sound where
  bounded id c h := by
    cases id with
    | zero => cases h
    | succ n => cases h
  root := rfl
  root_lt := Nat.zero_lt_one
  opened _ h := by cases h

/-- Changes that leave the elements alone and open nothing keep the open elements sound. -/
theorem Sound.same (h : b.Sound) (ht : Dom.Tree.SameElements b.tree b'.tree)
    (ho : ∀ id ∈ b'.openElements, id ∈ b.openElements) : b'.Sound where
  bounded := ht.bounded
  root := by rw [ht.isElement, h.root]
  root_lt := Nat.lt_of_lt_of_le h.root_lt ht.size_le
  opened id hid := by rw [ht.isElement, h.opened id (ho id hid)]

theorem Sound.current_lt (h : b.Sound) : b.current < b.tree.size := by
  rw [current]
  cases ho : b.openElements with
  | nil => exact h.root_lt
  | cons id ids =>
      exact Tree.lt_size_of_isElement (h.opened id (ho ▸ List.mem_cons_self))

theorem Sound.current_ne_root (h : b.Sound) (hne : b.openElements ≠ []) :
    b.current ≠ Tree.root := by
  intro he
  cases ho : b.openElements with
  | nil => exact hne ho
  | cons id ids =>
      have hid := h.opened id (ho ▸ List.mem_cons_self)
      rw [current, ho, List.head?_cons, Option.getD_some] at he
      rw [he, h.root] at hid
      cases hid

/-- A new element, which may be opened. -/
theorem Sound.grow {p : NodeId} {e : Element} (h : b.Sound) (hp : p < b.tree.size)
    (ht : b'.tree = b.tree.withElement p e)
    (ho : ∀ id ∈ b'.openElements, id = b.tree.size ∨ id ∈ b.openElements) : b'.Sound where
  bounded := ht ▸ Tree.bounded_withElement h.bounded hp e
  root := by
    rw [ht, ← Tree.isSome_tag?, Tree.tag?_withElement_of_lt e h.root_lt, Tree.isSome_tag?,
      h.root]
  root_lt := by
    rw [ht, Tree.size_withElement]
    exact Nat.succ_pos _
  opened id hid := by
    rw [ht, ← Tree.isSome_tag?]
    rcases ho id hid with rfl | hid
    · rw [Tree.tag?_withElement_self]
      rfl
    · have hid := h.opened id hid
      rw [Tree.tag?_withElement_of_lt e (Tree.lt_size_of_isElement hid), Tree.isSome_tag?, hid]

theorem Sound.insertElement (h : b.Sound) (tag : Text) (attributes : List Attribute) :
    (b.insertElement tag attributes).Sound :=
  h.grow h.current_lt rfl fun _ => List.mem_cons.1

/-! ### Tags of the open elements -/

theorem mem_openTags : t ∈ b.openTags ↔ ∃ id ∈ b.openElements, b.tree.tag? id = some t :=
  List.mem_filterMap

theorem mem_of_inScope {ts : List Text} (h : Category.inScope markers tag ts = true) :
    tag ∈ ts := by
  induction ts with
  | nil => cases h
  | cons t ts ih =>
      rw [Category.inScope, Bool.or_eq_true, Bool.and_eq_true, beq_iff_eq] at h
      rcases h with rfl | ⟨-, h⟩
      · exact List.mem_cons_self
      · exact List.mem_cons_of_mem _ (ih h)

theorem mem_of_openItem? {ts : List Text} (h : Category.openItem? family ts = some t) :
    t ∈ ts ∧ t ∈ family := by
  induction ts with
  | nil => cases h
  | cons u ts ih =>
      rw [Category.openItem?] at h
      split at h
      · next hu =>
          cases h
          exact ⟨List.mem_cons_self, List.contains_iff_mem.1 hu⟩
      · split at h
        · cases h
        · exact ⟨List.mem_cons_of_mem _ (ih h).1, (ih h).2⟩

/-! ### Closing through an element -/

theorem mem_dropWhile_of_mem {p : NodeId → Bool} {id : NodeId} (hid : id ∈ ids)
    (hp : p id = false) : id ∈ ids.dropWhile p := by
  rw [← List.takeWhile_append_dropWhile (p := p) (l := ids)] at hid
  refine (List.mem_append.1 hid).resolve_left fun hm => ?_
  have := List.all_eq_true.1 List.all_takeWhile id hm
  rw [hp] at this
  cases this

/-- Closing through the innermost element of some tags leaves what is open around it. -/
theorem popThrough_eq {inner outer : List NodeId} (hs : b.openElements = inner ++ outer)
    (ht : ∃ id ∈ inner, ∃ t ∈ tags, b.tree.tag? id = some t) :
    ∃ rest, rest <:+ inner ∧ b.popThrough tags = { b with openElements := rest ++ outer } := by
  obtain ⟨id, hid, t, htags, htag⟩ := ht
  have hmem := mem_dropWhile_of_mem (p := fun id => !(b.tree.tag? id).any tags.contains) hid
    (by simp [htag, htags])
  rw [popThrough, hs, List.dropWhile_append]
  generalize hd : inner.dropWhile _ = d at hmem
  cases d with
  | nil => cases hmem
  | cons x rest => exact ⟨rest, (List.suffix_cons x rest).trans (hd ▸ List.dropWhile_suffix _), rfl⟩

end Builder

end AmpMarkup.Html
