import AmpMarkup.Proofs.Source.Bracketed
import AmpMarkup.Proofs.Source.VoidEndTag
import AmpMarkup.Source.Transcoding

/-! End tags of void elements in markup. The relation `VoidClosed` holds where such end tags have been
put behind some closing angle brackets. Restoring templates and naming bindings again keep it, and
taking end tags out makes both forms the same. -/

namespace AmpMarkup.Source

open Text (replace)

/-- The second text is the first one with end tags of void elements behind some of its `>`. -/
inductive VoidClosed : Text → Text → Prop where
  | nil : VoidClosed [] []
  | char {s e : Text} (c : Char) (h : VoidClosed s e) : VoidClosed (c :: s) (c :: e)
  | close {name s e : Text} (hv : Vocabulary.isVoid name = true) (h : VoidClosed s e) :
      VoidClosed ('>' :: s) ('>' :: (endTag name ++ e))

namespace VoidClosed

variable {r : Registry} {s e t u w new : Text} {b : Bool}

theorem refl (t : Text) : VoidClosed t t := by
  induction t with
  | nil => exact .nil
  | cons c t ih => exact .char c ih

theorem append_left (t : Text) (h : VoidClosed s e) : VoidClosed (t ++ s) (t ++ e) := by
  induction t with
  | nil => exact h
  | cons c t ih => exact .char c ih

/-! ### What both forms start with -/

/-- Text without a closing angle bracket at the front of the source. -/
theorem exists_of_source (hw : '>' ∉ w) (h : VoidClosed (w ++ s) t) :
    ∃ e, t = w ++ e ∧ VoidClosed s e := by
  induction w generalizing t with
  | nil => exact ⟨t, rfl, h⟩
  | cons c w ih =>
      have hc : '>' ≠ c := fun he => hw (he ▸ List.mem_cons_self)
      cases h with
      | char _ h =>
          obtain ⟨e, rfl, he⟩ := ih (fun hm => hw (List.mem_cons_of_mem _ hm)) h
          exact ⟨e, rfl, he⟩
      | close => exact absurd rfl hc

/-- Text without a closing angle bracket at the front of the closed form. -/
theorem exists_of_closed (hw : '>' ∉ w) (h : VoidClosed t (w ++ e)) :
    ∃ s, t = w ++ s ∧ VoidClosed s e := by
  induction w generalizing t with
  | nil => exact ⟨t, rfl, h⟩
  | cons c w ih =>
      have hc : '>' ≠ c := fun he => hw (he ▸ List.mem_cons_self)
      generalize hx : c :: w ++ e = x at h
      cases h with
      | nil => simp at hx
      | char d h =>
          obtain ⟨rfl, rfl⟩ := List.cons.inj hx
          obtain ⟨s, rfl, hs⟩ := ih (fun hm => hw (List.mem_cons_of_mem _ hm)) h
          exact ⟨s, rfl, hs⟩
      | close => exact absurd (List.cons.inj hx).1.symm hc

theorem endsWord (h : VoidClosed s e) : EndsWord s ↔ EndsWord e := by
  cases h with
  | nil => rfl
  | char c h => rw [endsWord_cons, endsWord_cons]
  | close hv h => rw [endsWord_cons, endsWord_cons]

/-! ### Closing -/

theorem closePieces (ps : List Piece) :
    VoidClosed (ps.flatMap Piece.source) (Source.closePieces ps) := by
  induction ps with
  | nil => exact .nil
  | cons p ps ih =>
      rw [List.flatMap_cons]
      cases p with
      | text t => exact append_left t ih
      | tag s =>
          rw [Source.closePieces]
          split
          · next hv =>
              rw [Bool.and_eq_true] at hv
              have := append_left ('<' :: s.name ++ s.attributes) (close hv.1 ih)
              simpa [Piece.source, StartTag.source] using this
          · exact append_left s.source ih

theorem closeVoidElements (t : Text) : VoidClosed t (Source.closeVoidElements t) := by
  have := closePieces (pieces t)
  rwa [flatMap_source_pieces] at this

/-! ### Restoring templates -/

/-- A substitute does not start in an end tag of a void element: it would have to end in it, and
names of void elements are too short for that. -/
theorem replace_endTag {name : Text} (hw : IsSubstitute w) (hv : Vocabulary.isVoid name = true) :
    replace w new (endTag name ++ e) = endTag name ++ replace w new e := by
  refine Text.replace_append_of_not_prefix fun v hne hs hp => ?_
  have hgt : '>' ∉ w := hw.not_mem (by decide)
  rcases List.suffix_concat_iff.1 hs with rfl | ⟨u, rfl, hu⟩
  · exact hne rfl
  · rw [List.append_assoc, List.singleton_append, Text.prefix_append_cons hgt] at hp
    have hlen := Nat.le_trans hp.length_le hu.length_le
    have hname := length_le_of_isVoid hv
    rw [hw.length_eq, List.length_cons, List.length_cons] at hlen
    omega

theorem replace (h : VoidClosed s e) (hw : IsSubstitute w) :
    VoidClosed (Text.replace w new s) (Text.replace w new e) := by
  have hgt : '>' ∉ w := hw.not_mem (by decide)
  induction hn : s.length using Nat.strongRecOn generalizing s e with
  | ind n ih =>
      by_cases hp : w <+: s
      · obtain ⟨s, rfl⟩ := hp
        obtain ⟨e, rfl, hrest⟩ := h.exists_of_source hgt
        have hl : s.length < n := by
          rw [List.length_append, hw.length_eq] at hn
          omega
        rw [Text.replace_append_self hw.ne_nil, Text.replace_append_self hw.ne_nil]
        exact append_left new (ih s.length hl hrest rfl)
      · have hpe : ¬ w <+: e := by
          rintro ⟨e, rfl⟩
          obtain ⟨s, rfl, -⟩ := h.exists_of_closed hgt
          exact hp (List.prefix_append ..)
        cases h with
        | nil => exact refl _
        | @char s e c h =>
            rw [Text.replace_cons hp, Text.replace_cons hpe]
            exact .char c (ih s.length (by simp only [List.length_cons] at hn; omega) h rfl)
        | @close name s e hv h =>
            rw [Text.replace_cons hp, Text.replace_cons hpe, replace_endTag hw hv]
            exact .close hv (ih s.length (by simp only [List.length_cons] at hn; omega) h rfl)

theorem restoreTemplates (h : VoidClosed s e) (hr : r.WellFormed) :
    VoidClosed (r.restoreTemplates s) (r.restoreTemplates e) := by
  rw [hr.restoreTemplates_eq_restoreWith, hr.restoreTemplates_eq_restoreWith]
  exact List.foldl_rel (r := VoidClosed) h fun p hp _ _ h => h.replace (hr.isSubstitute p hp)

/-! ### Naming bindings again -/

theorem not_mem_of_name {mark name : Text} (hm : IsBindingMark mark)
    (hn : ∀ c ∈ name, isNameChar c = true) : '>' ∉ mark ++ name := by
  intro h
  have hc := (List.mem_append.1 h).elim hm.isNameChar_of_mem (hn '>')
  cases hc

theorem isSpace_of_mem_endTag {name : Text} (hv : Vocabulary.isVoid name = true) :
    ∀ c ∈ endTag name, isSpace c = false := by
  intro c hc
  simp only [endTag, List.cons_append, List.mem_cons, List.mem_append, List.not_mem_nil,
    or_false] at hc
  rcases hc with rfl | rfl | hc | rfl
  · decide
  · decide
  · exact isSpace_of_isVoid hv c hc
  · decide

/-- A marked name at the front of one form is at the front of the other. -/
theorem readMarked?_source {mark name rest : Text} (hm : IsBindingMark mark) (h : VoidClosed s e)
    (hr : readMarked? mark s = some (name, rest)) :
    ∃ rest', readMarked? mark e = some (name, rest') ∧ VoidClosed rest rest' := by
  obtain ⟨rfl, hne, hn, hend⟩ := readMarked?_eq_some_iff.1 hr
  obtain ⟨rest', rfl, hrest⟩ := h.exists_of_source (not_mem_of_name hm hn)
  exact ⟨rest', readMarked?_eq_some_iff.2 ⟨rfl, hne, hn, hrest.endsWord.1 hend⟩, hrest⟩

theorem readMarked?_eq_none {mark : Text} (hm : IsBindingMark mark) (h : VoidClosed s e)
    (hr : readMarked? mark s = none) : readMarked? mark e = none := by
  cases he : readMarked? mark e with
  | none => rfl
  | some p =>
      obtain ⟨name, rest⟩ := p
      obtain ⟨rfl, hne, hn, hend⟩ := readMarked?_eq_some_iff.1 he
      obtain ⟨s, rfl, hrest⟩ := h.exists_of_closed (not_mem_of_name hm hn)
      rw [readMarked?_eq_some_iff.2 ⟨rfl, hne, hn, hrest.endsWord.2 hend⟩] at hr
      cases hr

/-- An inserted end tag has no spaces, so no name in it comes back into brackets. -/
theorem decodeBindingsAfter {mark : Text} (hm : IsBindingMark mark) (h : VoidClosed s e)
    (b : Bool) :
    VoidClosed (Source.decodeBindingsAfter mark b s) (Source.decodeBindingsAfter mark b e) := by
  induction hn : s.length using Nat.strongRecOn generalizing s e b with
  | ind n ih =>
      by_cases hstop : b = false ∨ readMarked? mark s = none
      · have hstop' := hstop.imp_right (h.readMarked?_eq_none hm)
        cases h with
        | nil => exact refl _
        | @char s e c h =>
            rw [decodeBindingsAfter_of_none hstop, decodeBindingsAfter_of_none hstop']
            exact .char c (ih s.length (by simp only [List.length_cons] at hn; omega) h _ rfl)
        | @close name s e hv h =>
            rw [decodeBindingsAfter_of_none hstop, decodeBindingsAfter_of_none hstop',
              show isSpace '>' = false from rfl,
              decodeBindingsAfter_append (isSpace_of_mem_endTag hv)]
            exact .close hv (ih s.length (by simp only [List.length_cons] at hn; omega) h _ rfl)
      · obtain ⟨hb, hr⟩ := not_or.1 hstop
        obtain ⟨⟨name, rest⟩, hr⟩ := Option.ne_none_iff_exists'.1 hr
        obtain ⟨rest', hre, hrest⟩ := h.readMarked?_source hm hr
        rw [Bool.not_eq_false] at hb
        rw [hb, decodeBindingsAfter_of_some hr, decodeBindingsAfter_of_some hre]
        have hlt := readMarked?_length_lt hr
        exact .char '[' (append_left name (.char ']' (ih rest.length (hn ▸ hlt) hrest false rfl)))

/-! ### Taking end tags out -/

/-- An end tag of a void element starts in the closed form only where one starts in the source. -/
theorem afterVoidEndTag?_eq_none (h : VoidClosed s e) (hs : afterVoidEndTag? s = none) :
    afterVoidEndTag? e = none := by
  cases he : afterVoidEndTag? e with
  | none => rfl
  | some rest =>
      obtain ⟨w, rfl, hw⟩ := afterVoidEndTag?_eq_some_iff.1 he
      have hgt : '>' ∉ '<' :: '/' :: w := by simpa using not_mem_of_map_foldLetter hw
      obtain ⟨s, rfl, hrest⟩ := h.exists_of_closed hgt
      obtain ⟨s, rfl⟩ : ∃ s', s = '>' :: s' := by cases hrest <;> exact ⟨_, rfl⟩
      rw [afterVoidEndTag?_eq_some_iff.2 ⟨w, rfl, hw⟩] at hs
      cases hs

/-- Taking all end tags of void elements out hides that some were put in: they are taken out too, and
behind a `>` they stand in no other one. -/
theorem stripVoidEndTags_eq (h : VoidClosed s e) : stripVoidEndTags e = stripVoidEndTags s := by
  fun_induction stripVoidEndTags s generalizing e with
  | case1 =>
      cases h
      rw [stripVoidEndTags]
  | case2 c s rest ha ih =>
      obtain ⟨w, hs, hw⟩ := afterVoidEndTag?_eq_some_iff.1 ha
      have hgt : '>' ∉ '<' :: '/' :: w := by simpa using not_mem_of_map_foldLetter hw
      rw [hs] at h
      obtain ⟨e, rfl, hrest⟩ := h.exists_of_source hgt
      cases hrest with
      | char _ hrest =>
          rw [stripVoidEndTags_of_some (afterVoidEndTag?_eq_some_iff.2 ⟨w, rfl, hw⟩), ih hrest]
      | close hv hrest =>
          rw [stripVoidEndTags_of_some (afterVoidEndTag?_eq_some_iff.2 ⟨w, rfl, hw⟩),
            stripVoidEndTags_endTag hv, ih hrest]
  | case3 c s ha ih =>
      have hnone := h.afterVoidEndTag?_eq_none ha
      cases h with
      | char _ h => rw [stripVoidEndTags_of_none hnone, ih h]
      | close hv h => rw [stripVoidEndTags_of_none hnone, stripVoidEndTags_endTag hv, ih h]

end VoidClosed

end AmpMarkup.Source
