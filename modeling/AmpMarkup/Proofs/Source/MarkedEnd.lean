import Mathlib.Data.List.DropRight
import AmpMarkup.Proofs.Source.Bracketed

/-! Marked names at the end of a text. Names are read as far as they go, so that hyphens behind a text
belong to a marked name with which it ends. Between words nothing of the kind happens: what stands on
the two sides of a character of no name is named again on its own. -/

namespace AmpMarkup.Source

variable {mark name t k w : Text} {c : Char} {b : Bool}

/-- Whether the text ends, behind a space, with a word that starts with the mark if a hyphen follows
it. -/
def EndsMarked (mark t : Text) : Prop :=
  (t.rdropWhile isNameChar).getLast?.any isSpace = true ∧ mark <+: t.rtakeWhile isNameChar ++ ['-']

instance (mark t : Text) : Decidable (EndsMarked mark t) :=
  inferInstanceAs (Decidable (_ ∧ _))

/-! ### Between words -/

theorem readMarked?_append_cons (hm : IsBindingMark mark) (hc : isNameChar c = false) (t k : Text) :
    readMarked? mark (t ++ c :: k) = (readMarked? mark t).map fun p => (p.1, p.2 ++ c :: k) := by
  cases hr : readMarked? mark t with
  | some p =>
      obtain ⟨name, rest⟩ := p
      obtain ⟨rfl, hne, hn, hend⟩ := readMarked?_eq_some_iff.1 hr
      refine readMarked?_eq_some_iff.2 ⟨by simp, hne, hn, ?_⟩
      cases rest with
      | nil => exact endsWord_cons.2 hc
      | cons d rest => exact endsWord_cons.2 (endsWord_cons.1 hend)
  | none =>
      refine Option.eq_none_iff_forall_not_mem.2 fun p hp => ?_
      obtain ⟨name, rest⟩ := p
      obtain ⟨ht, hne, hn, hend⟩ := readMarked?_eq_some_iff.1 hp
      have hfree : c ∉ mark ++ name := by
        intro h
        have hname := (List.mem_append.1 h).elim hm.isNameChar_of_mem (hn c)
        exact Bool.false_ne_true (hc.symm.trans hname)
      obtain ⟨rest', rfl⟩ := (Text.prefix_append_cons hfree).1 ⟨rest, ht.symm⟩
      have hrest : rest' ++ c :: k = rest := by simpa using ht
      have hend' : EndsWord rest' := by
        cases rest' with
        | nil => exact .nil
        | cons d rest' => exact endsWord_cons.2 (endsWord_cons.1 (hrest ▸ hend))
      rw [readMarked?_eq_some_iff.2 ⟨rfl, hne, hn, hend'⟩] at hr
      cases hr

/-- What stands before a character of no name and what stands behind it are named again apart. -/
theorem decodeBindingsAfter_append_cons (hm : IsBindingMark mark) (hc : isNameChar c = false)
    (b : Bool) (t k : Text) : decodeBindingsAfter mark b (t ++ c :: k) =
      decodeBindingsAfter mark b t ++ c :: decodeBindingsAfter mark (isSpace c) k := by
  induction hn : t.length using Nat.strongRecOn generalizing t b with
  | ind n ih =>
      have happend := readMarked?_append_cons hm hc t k
      by_cases hstop : b = false ∨ readMarked? mark t = none
      · have hstop' := hstop.imp_right fun h => happend.trans (by rw [h, Option.map_none])
        cases t with
        | nil =>
            rw [List.nil_append] at hstop' ⊢
            rw [decodeBindingsAfter_of_none hstop', decodeBindingsAfter, List.nil_append]
        | cons d t =>
            rw [List.cons_append] at hstop' ⊢
            rw [List.length_cons] at hn
            rw [decodeBindingsAfter_of_none hstop, decodeBindingsAfter_of_none hstop',
              ih t.length (by omega) _ t rfl, List.cons_append]
      · obtain ⟨hb, hr⟩ := not_or.1 hstop
        obtain ⟨⟨name, rest⟩, hr⟩ := Option.ne_none_iff_exists'.1 hr
        have hlt := readMarked?_length_lt hr
        rw [hr, Option.map_some] at happend
        rw [Bool.not_eq_false] at hb
        rw [hb, decodeBindingsAfter_of_some hr, decodeBindingsAfter_of_some happend,
          ih rest.length (hn ▸ hlt) false rest rfl]
        simp

/-! ### One word -/

/-- The mark with a name behind it. -/
def IsMarked (mark w : Text) : Prop :=
  ∃ name, name ≠ [] ∧ w = mark ++ name

/-- Behind two hyphens a name needs one of them at most. -/
theorem isMarked_hyphens_iff : IsMarked mark (w ++ ['-', '-']) ↔ mark <+: w ++ ['-'] := by
  constructor
  · rintro ⟨name, hne, he⟩
    have hp : mark <+: (w ++ ['-']) ++ ['-'] := ⟨name, by simp [← he]⟩
    refine (List.prefix_concat_iff.1 hp).resolve_left fun hall => hne ?_
    simpa [hall] using he
  · rintro ⟨name, he⟩
    refine ⟨name ++ ['-'], by simp, ?_⟩
    rw [← List.append_assoc, he]
    simp

theorem IsMarked.prefix_hyphen (h : IsMarked mark w) : mark <+: w ++ ['-'] := by
  obtain ⟨name, -, rfl⟩ := h
  rw [List.append_assoc]
  exact List.prefix_append _ _

/-- The hyphens that close a comment lengthen a word. -/
theorem isNameChar_hyphens (hw : ∀ c ∈ w, isNameChar c = true) :
    ∀ c ∈ w ++ ['-', '-'], isNameChar c = true :=
  List.forall_mem_append.2 ⟨hw, by simp [isNameChar]⟩

theorem decodeBindingsAfter_spaceless (ht : ∀ c ∈ t, isSpace c = false) :
    decodeBindingsAfter mark false t = t := by
  have happend : decodeBindingsAfter mark false (t ++ []) = t ++ decodeBindingsAfter mark false [] :=
    decodeBindingsAfter_append ht []
  rwa [List.append_nil, decodeBindingsAfter, List.append_nil] at happend

/-- A word stays as it is if no space stands before it or it is no marked name. -/
theorem decodeBindingsAfter_word (hm : IsBindingMark mark) (hw : ∀ c ∈ w, isNameChar c = true)
    (hne : w ≠ []) (hk : EndsWord k) (h : b = false ∨ ¬ IsMarked mark w) :
    decodeBindingsAfter mark b (w ++ k) = w ++ decodeBindingsAfter mark false k := by
  have hspace : ∀ c ∈ w, isSpace c = false := fun c hc => isSpace_of_isNameChar (hw c hc)
  have hstop : b = false ∨ readMarked? mark (w ++ k) = none := by
    refine h.imp_right fun hunmarked => Option.eq_none_iff_forall_not_mem.2 fun p hp => ?_
    obtain ⟨name, rest⟩ := p
    obtain ⟨ht, hname, hn, hend⟩ := readMarked?_eq_some_iff.1 hp
    have hmarked : ∀ c ∈ mark ++ name, isNameChar c = true :=
      List.forall_mem_append.2 ⟨fun _ hc => hm.isNameChar_of_mem hc, hn⟩
    apply hunmarked
    refine ⟨name, hname, ?_⟩
    rw [← takeWhile_word hw hk, ht, takeWhile_word hmarked hend]
  obtain ⟨c, w, rfl⟩ := List.exists_cons_of_ne_nil hne
  rw [List.cons_append] at hstop ⊢
  rw [decodeBindingsAfter_of_none hstop, hspace c List.mem_cons_self,
    decodeBindingsAfter_append fun d hd => hspace d (List.mem_cons_of_mem _ hd), List.cons_append]

theorem decodeBindingsAfter_word_self (hm : IsBindingMark mark)
    (hw : ∀ c ∈ w, isNameChar c = true) (h : b = false ∨ ¬ IsMarked mark w) :
    decodeBindingsAfter mark b w = w := by
  by_cases hne : w = []
  · rw [hne, decodeBindingsAfter]
  · have hword := decodeBindingsAfter_word hm hw hne .nil h
    rwa [decodeBindingsAfter, List.append_nil] at hword

/-- What closes a comment goes on with no name behind a word that lacks more than a hyphen of the
mark. -/
theorem decodeBindingsAfter_word_closing (hm : IsBindingMark mark)
    (hw : ∀ c ∈ w, isNameChar c = true) (h : b = false ∨ ¬ mark <+: w ++ ['-']) :
    decodeBindingsAfter mark b (w ++ ['-', '-', '>']) =
      decodeBindingsAfter mark b w ++ ['-', '-', '>'] := by
  have hself : decodeBindingsAfter mark b w = w :=
    decodeBindingsAfter_word_self hm hw (h.imp_right fun hnot hmarked => hnot hmarked.prefix_hyphen)
  have hend : EndsWord ['>'] := endsWord_cons.2 (by decide)
  have hclosing := decodeBindingsAfter_word hm (isNameChar_hyphens hw) (by simp) hend
    (h.imp_right fun hnot hmarked => hnot (isMarked_hyphens_iff.1 hmarked))
  rw [decodeBindingsAfter_spaceless (by simp [isSpace])] at hclosing
  rw [hself]
  simpa using hclosing

/-- Behind another word after a space the hyphens come into brackets. -/
theorem exists_decodeBindingsAfter_closing (hw : ∀ c ∈ w, isNameChar c = true)
    (h : mark <+: w ++ ['-']) :
    ∃ u, decodeBindingsAfter mark true (w ++ ['-', '-', '>']) = u ++ [']', '>'] := by
  obtain ⟨name, hne, hmarked⟩ := isMarked_hyphens_iff.2 h
  have hn : ∀ c ∈ name, isNameChar c = true := fun c hc =>
    isNameChar_hyphens hw c (hmarked ▸ List.mem_append_right mark hc)
  have hsplit : w ++ ['-', '-', '>'] = mark ++ name ++ ['>'] := by
    rw [← hmarked]
    simp
  have hread : readMarked? mark (w ++ ['-', '-', '>']) = some (name, ['>']) :=
    readMarked?_eq_some_iff.2 ⟨hsplit, hne, hn, endsWord_cons.2 (by decide)⟩
  refine ⟨'[' :: name, ?_⟩
  rw [decodeBindingsAfter_of_some hread, decodeBindingsAfter_spaceless (by simp [isSpace])]

/-! ### The last word -/

/-- A text is one word, or it has a last character of no name with a word behind it. -/
theorem exists_lastWord (t : Text) :
    (t.rdropWhile isNameChar = [] ∧ t.rtakeWhile isNameChar = t) ∨
      ∃ u c, t.rdropWhile isNameChar = u ++ [c] ∧ isNameChar c = false ∧
        t = u ++ c :: t.rtakeWhile isNameChar := by
  have ht : t.rdropWhile isNameChar ++ t.rtakeWhile isNameChar = t := by
    rw [List.rdropWhile, List.rtakeWhile, ← List.reverse_append, List.takeWhile_append_dropWhile,
      List.reverse_reverse]
  rcases List.eq_nil_or_concat' (t.rdropWhile isNameChar) with hnil | ⟨u, c, hconcat⟩
  · exact .inl ⟨hnil, by rwa [hnil, List.nil_append] at ht⟩
  · refine .inr ⟨u, c, hconcat, ?_, ?_⟩
    · have hlast := List.rdropWhile_last_not isNameChar t (by rw [hconcat]; simp)
      simpa [hconcat] using hlast
    · conv => lhs; rw [← ht, hconcat]
      simp

theorem isNameChar_of_mem_rtakeWhile (t : Text) :
    ∀ c ∈ t.rtakeWhile isNameChar, isNameChar c = true :=
  fun _ hc => List.mem_rtakeWhile_imp hc

/-- What closes a comment is kept behind a text that does not end with a marked name. -/
theorem decodeBindingsAfter_closing (hm : IsBindingMark mark) (h : ¬ EndsMarked mark t) :
    decodeBindingsAfter mark false (t ++ ['-', '-', '>']) =
      decodeBindingsAfter mark false t ++ ['-', '-', '>'] := by
  have hword := isNameChar_of_mem_rtakeWhile t
  rcases exists_lastWord t with ⟨-, hall⟩ | ⟨u, c, hu, hc, ht⟩
  · rw [hall] at hword
    exact decodeBindingsAfter_word_closing hm hword (.inl rfl)
  · have hlast : isSpace c = false ∨ ¬ mark <+: t.rtakeWhile isNameChar ++ ['-'] := by
      rw [EndsMarked, hu, List.getLast?_concat, not_and_or] at h
      exact h.imp_left fun hs => Bool.eq_false_iff.2 hs
    rw [ht, List.append_assoc, List.cons_append, decodeBindingsAfter_append_cons hm hc,
      decodeBindingsAfter_append_cons hm hc, decodeBindingsAfter_word_closing hm hword hlast]
    simp

/-- Behind a text that does, the hyphens come into brackets. -/
theorem exists_decodeBindingsAfter_of_endsMarked (hm : IsBindingMark mark) (h : EndsMarked mark t) :
    ∃ u, decodeBindingsAfter mark false (t ++ ['-', '-', '>']) = u ++ [']', '>'] := by
  obtain ⟨hspace, hmark⟩ := h
  rcases exists_lastWord t with ⟨hnil, -⟩ | ⟨u, c, hu, hc, ht⟩
  · rw [hnil] at hspace
    cases hspace
  · rw [hu, List.getLast?_concat] at hspace
    have hs : isSpace c = true := hspace
    obtain ⟨v, hv⟩ := exists_decodeBindingsAfter_closing (isNameChar_of_mem_rtakeWhile t) hmark
    refine ⟨decodeBindingsAfter mark false u ++ c :: v, ?_⟩
    conv => lhs; rw [ht]
    rw [List.append_assoc, List.cons_append, decodeBindingsAfter_append_cons hm hc, hs, hv]
    simp

end AmpMarkup.Source
