import Mathlib.Data.List.Infix
import Mathlib.Data.List.Perm.Subperm
import AmpMarkup.Dom.Path
import AmpMarkup.Proofs.Dom.DocumentOrder
import AmpMarkup.Proofs.Text.Numeral
import AmpMarkup.Proofs.Text.Occurrence

/-! A path names one element. The path can be cut at its spaces, so it has the segments from the
document element down; and under one parent a segment belongs to one element, since a tag that
stands alone has no second bearer and a position is counted among all the elements there. -/

namespace AmpMarkup

namespace Text

variable {c : Char} {sep u v : Text} {ss ss' : List Text} {m n : Nat}

theorem join_cons_cons (sep s s' : Text) (ss : List Text) :
    join sep (s :: s' :: ss) = s ++ sep ++ join sep (s' :: ss) :=
  rfl

/-- Texts without the first character of a separator can be read back from what they are joined to.
The empty list is left out: it is joined to what the list of one empty text is joined to. -/
theorem join_inj (hs : ∀ s ∈ ss, c ∉ s) (hs' : ∀ s ∈ ss', c ∉ s) (hne : ss ≠ []) (hne' : ss' ≠ [])
    (h : join (c :: sep) ss = join (c :: sep) ss') : ss = ss' := by
  induction ss generalizing ss' with
  | nil => exact absurd rfl hne
  | cons s rest ih =>
      obtain ⟨s', rest', rfl⟩ := List.exists_cons_of_ne_nil hne'
      simp only [List.forall_mem_cons] at hs hs'
      cases rest with
      | nil =>
          cases rest' with
          | nil => exact congrArg (fun s => [s]) h
          | cons t' rest' =>
              have hmem : c ∈ s := by
                rw [join, join_cons_cons] at h
                simp [h]
              exact absurd hmem hs.1
      | cons t rest =>
          cases rest' with
          | nil =>
              have hmem : c ∈ s' := by
                rw [join_cons_cons, join] at h
                simp [← h]
              exact absurd hmem hs'.1
          | cons t' rest' =>
              rw [join_cons_cons, join_cons_cons, List.append_assoc, List.append_assoc] at h
              obtain ⟨rfl, htail⟩ := append_cons_inj hs.1 hs'.1 h
              have hjoin := List.append_cancel_left htail
              rw [ih hs.2 hs'.2 (by simp) (by simp) hjoin]

/-- A text is cut at its last occurrence of a character in one way. -/
theorem append_cons_inj_last {u' v' : Text} (hv : c ∉ v) (hv' : c ∉ v')
    (h : u ++ c :: v = u' ++ c :: v') : u = u' ∧ v = v' := by
  have hrev : v.reverse ++ c :: u.reverse = v'.reverse ++ c :: u'.reverse := by
    simpa using congrArg List.reverse h
  obtain ⟨hv, hu⟩ := append_cons_inj (by simpa using hv) (by simpa using hv') hrev
  exact ⟨List.reverse_injective hu, List.reverse_injective hv⟩

theorem ofNat_inj : ofNat m = ofNat n ↔ m = n := by
  constructor
  · intro h
    simpa [numeral_ofNat] using congrArg (numeral 10) h
  · exact congrArg ofNat

theorem of_mem_number (h : c ∈ u ++ ofNat n ++ v) : c ∈ u ∨ c.isDigit = true ∨ c ∈ v := by
  rcases List.mem_append.mp h with h | h
  · rcases List.mem_append.mp h with h | h
    · exact .inl h
    · exact .inr (.inl (isDigit_of_mem_ofNat h))
  · exact .inr (.inr h)

end Text

namespace Dom.Tree

/-- What a segment has behind the tag where siblings share the tag. -/
def position (k : Nat) : Text :=
  ":nth-child(" ++ Text.ofNat k ++ ")"

/-- Only elements and the document node have children, the document node stands on top, and no tag
can be taken for more than one piece of a path. What parts the pieces starts with a space, so other
blanks and angle brackets in a tag do no harm. -/
structure Addressable (t : Tree) : Prop where
  inner : ∀ id, t.children id ≠ [] → id = root ∨ t.isElement id = true
  top : t.parent? root = none
  space : ∀ id tag, t.tag? id = some tag → ' ' ∉ tag
  marker : ∀ id tag, t.tag? id = some tag → ¬ (":nth-child(" : Text) <:+: tag

variable {t : Tree} {id p x y : NodeId} {tag tag' s : Text} {k k' : Nat}

/-- Numbers that no node has need no look. -/
theorem addressable_iff : t.Addressable ↔ t.parent? root = none ∧
    ∀ id < t.size, (t.children id ≠ [] → id = root ∨ t.isElement id = true) ∧
      ∀ tag ∈ t.tag? id, ' ' ∉ tag ∧ ¬ (":nth-child(" : Text) <:+: tag := by
  constructor
  · intro h
    refine ⟨h.top, ?_⟩
    intro id _
    exact ⟨h.inner id, fun tag htag => ⟨h.space id tag htag, h.marker id tag htag⟩⟩
  · rintro ⟨htop, hall⟩
    refine ⟨?_, htop, ?_, ?_⟩
    · intro id hne
      obtain ⟨c, hc⟩ := List.exists_mem_of_ne_nil _ hne
      exact (hall id (lt_size_of_mem_children hc)).1 hne
    · intro id tag htag
      exact ((hall id (lt_size_of_tag? htag)).2 tag htag).1
    · intro id tag htag
      exact ((hall id (lt_size_of_tag? htag)).2 tag htag).2

instance (t : Tree) : Decidable t.Addressable :=
  decidable_of_iff _ addressable_iff.symm

/-! ### Segments -/

/-- The part of a position behind its colon has no second colon. -/
theorem exists_position_eq (k : Nat) : ∃ rest : Text, position k = ':' :: rest ∧ ':' ∉ rest := by
  refine ⟨"nth-child(" ++ Text.ofNat k ++ ")", rfl, ?_⟩
  intro h
  rcases Text.of_mem_number h with h | h | h <;> simp at h

theorem space_not_mem_position (k : Nat) : ' ' ∉ position k := by
  intro h
  rcases Text.of_mem_number h with h | h | h <;> simp at h

theorem eq_of_position_eq (h : position k = position k') : k = k' :=
  Text.ofNat_inj.1 (List.append_cancel_left (List.append_cancel_right h))

/-- A tag may have colons of its own, so the tag and its position are parted at the last colon. -/
theorem append_position_inj (h : tag ++ position k = tag' ++ position k') :
    tag = tag' ∧ k = k' := by
  obtain ⟨rest, hrest, hcolon⟩ := exists_position_eq k
  obtain ⟨rest', hrest', hcolon'⟩ := exists_position_eq k'
  have hparts := h
  rw [hrest, hrest'] at hparts
  obtain ⟨rfl, -⟩ := Text.append_cons_inj_last hcolon hcolon' hparts
  exact ⟨rfl, eq_of_position_eq (List.append_cancel_left h)⟩

theorem infix_append_position (tag : Text) (k : Nat) :
    (":nth-child(" : Text) <:+: tag ++ position k := by
  have hinfix : ∀ u v w z : Text, v <:+: u ++ (v ++ w ++ z) := fun u v w z => ⟨u, w ++ z, by simp⟩
  exact hinfix ..

theorem elementIndex?_eq (hp : t.parent? x = some p) :
    t.elementIndex? x = (((t.children p).filter t.isElement).idxOf? x).map (· + 1) := by
  rw [elementIndex?, hp, Option.map_eq_bind]
  rfl

/-- A place among the elements of a parent belongs to one of them. -/
theorem eq_of_elementIndex? (hx : t.parent? x = some p) (hy : t.parent? y = some p)
    (hkx : t.elementIndex? x = some k) (hky : t.elementIndex? y = some k) : x = y := by
  rw [elementIndex?_eq hx, Option.map_eq_some_iff] at hkx
  rw [elementIndex?_eq hy, Option.map_eq_some_iff] at hky
  obtain ⟨i, hi, rfl⟩ := hkx
  obtain ⟨j, hj, hij⟩ := hky
  obtain rfl : j = i := by omega
  obtain ⟨_, hxi, -⟩ := List.idxOf?_eq_some_iff.mp hi
  obtain ⟨_, hyi, -⟩ := List.idxOf?_eq_some_iff.mp hj
  exact hxi.symm.trans hyi

/-- A segment is the tag of its element, with the position where a sibling has the same tag. -/
theorem pathSegment?_eq (hp : t.parent? x = some p) (htag : t.tag? x = some tag) :
    t.pathSegment? x =
      if 1 < (t.children p).countP (t.tag? · == some tag) then
        (t.elementIndex? x).map (tag ++ position ·)
      else some tag := by
  rw [pathSegment?, htag, hp]
  simp only [Option.bind_eq_bind, Option.bind_some]
  split
  · cases t.elementIndex? x with
    | none => rfl
    | some k =>
        have hassoc : ∀ u v w z : Text, u ++ v ++ w ++ z = u ++ (v ++ w ++ z) := by simp
        exact congrArg some (hassoc ..)
  · rfl

theorem pathSegment?_eq_none (hp : t.parent? x = none) : t.pathSegment? x = none := by
  rw [pathSegment?, hp]
  cases t.tag? x <;> rfl

/-- An element with a parent has a segment. -/
theorem Forest.exists_pathSegment? (h : t.Forest) (hp : t.parent? x = some p)
    (he : t.isElement x = true) : ∃ s, t.pathSegment? x = some s := by
  obtain ⟨e, he'⟩ := Option.isSome_iff_exists.mp he
  rw [pathSegment?_eq hp (congrArg (Option.map Element.tag) he')]
  split
  · have hmem : x ∈ (t.children p).filter t.isElement := by
      simp [h.mem_children_iff, hp, he]
    obtain ⟨i, hi⟩ := Option.isSome_iff_exists.mp (List.isSome_idxOf?.mpr hmem)
    simp [elementIndex?_eq hp, hi]
  · simp

/-- The two forms of a segment. -/
theorem pathSegment?_cases (hp : t.parent? x = some p) (h : t.pathSegment? x = some s) :
    ∃ tag, t.tag? x = some tag ∧
      ((∃ k, t.elementIndex? x = some k ∧ s = tag ++ position k) ∨
        ((t.children p).countP (t.tag? · == some tag) ≤ 1 ∧ s = tag)) := by
  cases htag : t.tag? x with
  | none => simp [pathSegment?, htag] at h
  | some tag =>
      refine ⟨tag, rfl, ?_⟩
      rw [pathSegment?_eq hp htag] at h
      split at h
      · obtain ⟨k, hk, rfl⟩ := Option.map_eq_some_iff.mp h
        exact .inl ⟨k, hk, rfl⟩
      · next hcount => exact .inr ⟨by omega, (Option.some.inj h).symm⟩

/-- Where at most one entry is counted, two entries that are counted are one. -/
theorem eq_of_countP_le {α : Type} {l : List α} {q : α → Bool} {a b : α} (hcount : l.countP q ≤ 1)
    (ha : a ∈ l) (hb : b ∈ l) (hqa : q a = true) (hqb : q b = true) : a = b := by
  by_contra hne
  have hsub : [a, b].Subperm l := List.Nodup.subperm (by simp [hne]) (by simp [ha, hb])
  have hle := hsub.countP_le q
  simp [hqa, hqb] at hle
  omega

/-- Under one parent a segment belongs to one element. -/
theorem Forest.eq_of_pathSegment? (h : t.Forest) (ha : t.Addressable) (hx : t.parent? x = some p)
    (hy : t.parent? y = some p) (hsx : t.pathSegment? x = some s)
    (hsy : t.pathSegment? y = some s) : x = y := by
  obtain ⟨tag, htag, ⟨k, hk, rfl⟩ | ⟨hcount, rfl⟩⟩ := pathSegment?_cases hx hsx
  · obtain ⟨tag', htag', ⟨k', hk', hs⟩ | ⟨-, hs⟩⟩ := pathSegment?_cases hy hsy
    · obtain ⟨rfl, rfl⟩ := append_position_inj hs
      exact eq_of_elementIndex? hx hy hk hk'
    · exact absurd (hs ▸ infix_append_position tag k) (ha.marker y tag' htag')
  · obtain ⟨tag', htag', ⟨k', -, hs⟩ | ⟨-, rfl⟩⟩ := pathSegment?_cases hy hsy
    · exact absurd (hs ▸ infix_append_position tag' k') (ha.marker x _ htag)
    · have hcx := (h.mem_children_iff p x).mpr hx
      have hcy := (h.mem_children_iff p y).mpr hy
      exact eq_of_countP_le hcount hcx hcy (by simpa using htag) (by simpa using htag')

theorem Addressable.space_not_mem (ha : t.Addressable) (h : t.pathSegment? x = some s) :
    ' ' ∉ s := by
  cases hp : t.parent? x with
  | none => simp [pathSegment?_eq_none hp] at h
  | some p =>
      obtain ⟨tag, htag, ⟨k, -, rfl⟩ | ⟨-, rfl⟩⟩ := pathSegment?_cases hp h
      · simpa using ⟨ha.space x tag htag, space_not_mem_position k⟩
      · exact ha.space x _ htag

/-! ### Paths -/

/-- The segments of a path. -/
def segments (t : Tree) (id : NodeId) : List Text :=
  ((t.ancestors id).reverse ++ [id]).filterMap t.pathSegment?

theorem elementPath_eq_join (t : Tree) (id : NodeId) :
    t.elementPath id = Text.join " > " (t.segments id) :=
  rfl

theorem segments_of_parent?_eq_none (hp : t.parent? id = none) : t.segments id = [] := by
  simp [segments, ancestors_eq_nil hp, pathSegment?_eq_none hp]

/-- The path of a child has one segment more than that of its parent. -/
theorem Forest.exists_segments_eq (h : t.Forest) (hc : x ∈ t.children p)
    (he : t.isElement x = true) :
    ∃ s, t.pathSegment? x = some s ∧ t.segments x = t.segments p ++ [s] := by
  have hp := (h.mem_children_iff p x).mp hc
  obtain ⟨s, hs⟩ := h.exists_pathSegment? hp he
  refine ⟨s, hs, ?_⟩
  rw [segments, h.ancestors_eq hp, List.reverse_cons, List.filterMap_append, ← segments]
  simp [hs]

/-- The document node is nobody's child. -/
theorem Addressable.isElement_of_mem_children (ha : t.Addressable) (h : t.Forest)
    (hc : x ∈ t.children p) (he : x = root ∨ t.isElement x = true) : t.isElement x = true := by
  apply he.resolve_left
  rintro rfl
  have hp := (h.mem_children_iff p root).mp hc
  rw [ha.top] at hp
  cases hp

/-- The segments from the document node down lead to one element. -/
theorem Forest.eq_of_segments_eq (h : t.Forest) (ha : t.Addressable) (hx : t.Within root x)
    (hy : t.Within root y) (hex : x = root ∨ t.isElement x = true)
    (hey : y = root ∨ t.isElement y = true) (hs : t.segments x = t.segments y) : x = y := by
  have hroot : t.segments root = [] := segments_of_parent?_eq_none ha.top
  induction hx generalizing y with
  | self =>
      cases hy with
      | self => rfl
      | child _ hcy =>
          obtain ⟨s, -, hsy⟩ :=
            h.exists_segments_eq hcy (ha.isElement_of_mem_children h hcy hey)
          simp [hroot, hsy] at hs
  | @child p x hp hcx ih =>
      obtain ⟨s, hsx, hsegx⟩ :=
        h.exists_segments_eq hcx (ha.isElement_of_mem_children h hcx hex)
      cases hy with
      | self => simp [hroot, hsegx] at hs
      | @child q y hq hcy =>
          obtain ⟨s', hsy, hsegy⟩ :=
            h.exists_segments_eq hcy (ha.isElement_of_mem_children h hcy hey)
          rw [hsegx, hsegy] at hs
          obtain ⟨hsegs, hlast⟩ := List.append_inj' hs rfl
          obtain rfl : s = s' := by simpa using hlast
          -- The parents are told apart by what comes before the last segment.
          obtain rfl : p = q :=
            ih hq (ha.inner p (List.ne_nil_of_mem hcx)) (ha.inner q (List.ne_nil_of_mem hcy)) hsegs
          exact h.eq_of_pathSegment? ha ((h.mem_children_iff p x).mp hcx)
            ((h.mem_children_iff p y).mp hcy) hsx hsy

theorem Forest.segments_ne_nil (h : t.Forest) (hp : t.parent? x = some p)
    (he : t.isElement x = true) : t.segments x ≠ [] := by
  obtain ⟨s, -, hs⟩ := h.exists_segments_eq ((h.mem_children_iff p x).mpr hp) he
  simp [hs]

theorem Addressable.space_not_mem_segments (ha : t.Addressable) (x : NodeId) :
    ∀ s ∈ t.segments x, ' ' ∉ s := by
  intro s hs
  obtain ⟨id, -, hid⟩ := List.mem_filterMap.mp hs
  exact ha.space_not_mem hid

/-- In a tree that allowed edits lead to, two elements below the document node have two paths, if
only elements and the document node have children, the document node has no parent, and no tag has a
space or the words before a position in it. -/
theorem Reachable.elementPath_ne (h : t.Reachable) (ha : t.Addressable)
    (hx : t.isElement x = true) (hy : t.isElement y = true)
    (hdx : t.isDescendantOf x root = true) (hdy : t.isDescendantOf y root = true) (hne : x ≠ y) :
    t.elementPath x ≠ t.elementPath y := by
  have hf := h.forest
  obtain ⟨hxr, hwx⟩ := hf.isDescendantOf_iff.1 hdx
  obtain ⟨hyr, hwy⟩ := hf.isDescendantOf_iff.1 hdy
  intro hpath
  rw [elementPath_eq_join, elementPath_eq_join] at hpath
  apply hne
  apply hf.eq_of_segments_eq ha hwx hwy (.inr hx) (.inr hy)
  have hnil : ∀ {z}, z ≠ root → t.Within root z → t.isElement z = true → t.segments z ≠ [] := by
    intro z hz hw he
    cases hw with
    | self => exact absurd rfl hz
    | child _ hc => exact hf.segments_ne_nil ((hf.mem_children_iff _ z).mp hc) he
  exact Text.join_inj (ha.space_not_mem_segments x) (ha.space_not_mem_segments y)
    (hnil hxr hwx hx) (hnil hyr hwy hy) hpath

/-- The emphasis between two paragraphs counts for the position of the second one. -/
theorem elementPath_ne_paragraphs :
    let made := (((empty.apply (.make (.element ⟨"div", .empty⟩))).apply
      (.make (.element ⟨"p", .empty⟩))).apply (.make (.element ⟨"em", .empty⟩))).apply
        (.make (.element ⟨"p", .empty⟩))
    let t := (((made.apply (.append 0 1)).apply (.append 1 2)).apply (.append 1 3)).apply
      (.append 1 4)
    t.Reachable ∧ t.Addressable ∧ t.elementPath 2 = "div > p:nth-child(1)" ∧
      t.elementPath 4 = "div > p:nth-child(3)" ∧ t.elementPath 2 ≠ t.elementPath 4 := by
  intro made t
  have hmade : made.Reachable :=
    (((Reachable.empty.change (.make _) trivial).change (.make _) trivial).change (.make _)
      trivial).change (.make _) trivial
  have ht : t.Reachable :=
    (((hmade.change (.append 0 1) (by decide)).change (.append 1 2)
      (by decide)).change (.append 1 3) (by decide)).change (.append 1 4)
      (by decide)
  have ha : t.Addressable := by decide
  refine ⟨ht, ha, by decide, by decide, ?_⟩
  exact ht.elementPath_ne ha (by decide) (by decide) (by decide)
    (by decide) (by decide)

end Dom.Tree

end AmpMarkup
