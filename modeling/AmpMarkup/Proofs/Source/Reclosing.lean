import AmpMarkup.Proofs.Source.FragmentClosing

/-! Void elements are closed once. The end tags that closing puts in change neither which start tags are
found in the markup nor what follows them, so closed markup has no void start tag left without its end
tag, and closing it again changes nothing. Taking end tags of void elements out hides the closing. -/

namespace AmpMarkup.Source

variable {name s e t u rest : Text} {q : QuoteState} {tag : StartTag} {ps : List Piece}

/-! ### Closed pieces -/

/-- Every start tag of a void element is followed by its end tag. -/
def Ended : List Piece → Prop
  | [] => True
  | .text _ :: ps => Ended ps
  | .tag tag :: ps =>
    (Vocabulary.isVoid tag.name = true →
      startsWithEndTag tag.name (ps.flatMap Piece.source) = true) ∧ Ended ps

theorem closePieces_of_ended (h : Ended ps) : closePieces ps = ps.flatMap Piece.source := by
  induction ps with
  | nil => rfl
  | cons p ps ih =>
      cases p with
      | text t => rw [closePieces, List.flatMap_cons, ih h, Piece.source]
      | tag tag =>
          obtain ⟨htag, hrest⟩ := h
          have hnone : ¬ (Vocabulary.isVoid tag.name &&
              !startsWithEndTag tag.name (ps.flatMap Piece.source)) = true := by
            simpa using htag
          rw [closePieces_tag, List.flatMap_cons, ih hrest, if_neg hnone, List.nil_append,
            Piece.source]

theorem ended_map_text_append : Ended (t.map (.text [·]) ++ ps) ↔ Ended ps := by
  induction t with
  | nil => rfl
  | cons c t ih => exact ih

namespace VoidClosed

/-! ### End tags in closed markup -/

theorem head?_eq (h : VoidClosed s e) : e.head? = s.head? := by
  cases h <;> rfl

theorem endsName_eq (h : VoidClosed s e) : endsName e = endsName s := by
  rw [endsName, endsName, h.head?_eq]

theorem afterIgnoringCase?_eq_none (h : VoidClosed s e) (hn : ∀ c ∈ name, isNameChar c = true)
    (hs : Text.afterIgnoringCase? name s = none) : Text.afterIgnoringCase? name e = none := by
  cases he : Text.afterIgnoringCase? name e with
  | none => rfl
  | some rest =>
      obtain ⟨w, rfl, hw⟩ := Text.afterIgnoringCase?_eq_some_iff.1 he
      obtain ⟨s, rfl, -⟩ := h.exists_of_closed (not_mem_of_lower_eq hn hw)
      rw [Text.afterIgnoringCase?_eq_some_iff.2 ⟨w, rfl, hw⟩] at hs
      cases hs

theorem afterIgnoringCase?_eq_some (h : VoidClosed s e) (hn : ∀ c ∈ name, isNameChar c = true)
    (hs : Text.afterIgnoringCase? name s = some rest) :
    ∃ rest', Text.afterIgnoringCase? name e = some rest' ∧ VoidClosed rest rest' := by
  obtain ⟨w, rfl, hw⟩ := Text.afterIgnoringCase?_eq_some_iff.1 hs
  obtain ⟨rest', rfl, hrest⟩ := h.exists_of_source (not_mem_of_lower_eq hn hw)
  exact ⟨rest', Text.afterIgnoringCase?_eq_some_iff.2 ⟨w, rfl, hw⟩, hrest⟩

theorem closesElement_eq (h : VoidClosed s e) (hn : ∀ c ∈ name, isNameChar c = true) :
    closesElement name e = closesElement name s := by
  cases hs : Text.afterIgnoringCase? name s with
  | none => rw [closesElement, closesElement, hs, h.afterIgnoringCase?_eq_none hn hs]
  | some rest =>
      obtain ⟨rest', he, hrest⟩ := h.afterIgnoringCase?_eq_some hn hs
      have hempty : rest'.isEmpty = rest.isEmpty := by cases hrest <;> rfl
      simp only [closesElement, hs, he, hempty, hrest.endsName_eq]

theorem startsWithEndTag_eq (h : VoidClosed s e) (hn : ∀ c ∈ name, isNameChar c = true) :
    startsWithEndTag name e = startsWithEndTag name s := by
  rw [Bool.eq_iff_iff, startsWithEndTag_iff, startsWithEndTag_iff]
  constructor
  · rintro ⟨w, rest, rfl, hw⟩
    have hgt : '>' ∉ '<' :: '/' :: w := by simpa using not_mem_of_lower_eq hn hw
    obtain ⟨s, rfl, hrest⟩ := h.exists_of_closed hgt
    obtain ⟨s, rfl⟩ := List.head?_eq_some_iff.1 hrest.head?_eq.symm
    exact ⟨w, s, rfl, hw⟩
  · rintro ⟨w, rest, rfl, hw⟩
    have hgt : '>' ∉ '<' :: '/' :: w := by simpa using not_mem_of_lower_eq hn hw
    obtain ⟨e, rfl, hrest⟩ := h.exists_of_source hgt
    obtain ⟨e, rfl⟩ := List.head?_eq_some_iff.1 hrest.head?_eq
    exact ⟨w, e, rfl, hw⟩

/-! ### Start tags in closed markup -/

theorem ne_of_mem_endTag {quote : Char} (hv : Vocabulary.isVoid name = true)
    (hquote : quote = '"' ∨ quote = '\'') : ∀ c ∈ endTag name, c ≠ quote := by
  have hend : quote ∉ endTag name := by
    intro h
    have hname : quote ∈ name := by rcases hquote with rfl | rfl <;> simpa [endTag] using h
    have hlower := toLower_mem_of_isVoid hv hname
    rcases hquote with rfl | rfl <;> cases hlower
  exact fun c hc he => hend (he ▸ hc)

/-- Markup in which a tag is not closed does not close it with end tags put in: they stand in a value
that is not closed, and hold no quote. -/
theorem spanTag?_eq_none (h : VoidClosed s e) (hq : q.Sound) (hs : spanTag? q s = none) :
    spanTag? q e = none := by
  induction h generalizing q with
  | nil => rfl
  | @char s e c h ih =>
      rcases closes_or_not q c with ⟨rfl, hclose⟩ | hopen
      · rw [spanTag?_close hclose] at hs
        cases hs
      · rw [spanTag?_cons hopen, Option.map_eq_none_iff] at hs ⊢
        exact ih (hq.next c) hs
  | @close name s e hv h ih =>
      rcases closes_or_not q '>' with ⟨-, hclose⟩ | hopen
      · rw [spanTag?_close hclose] at hs
        cases hs
      · obtain ⟨quote, rfl⟩ := hopen rfl
        have hquote := hq quote rfl
        have hnext : (QuoteState.inside quote).next '>' = .inside quote := by
          rw [QuoteState.next, if_neg]
          rcases hquote with rfl | rfl <;> decide
        rw [spanTag?_cons hopen, hnext, Option.map_eq_none_iff] at hs
        rw [spanTag?_cons hopen, hnext, spanTag?_inside_append (ne_of_mem_endTag hv hquote),
          ih hq hs]
        rfl

theorem read?_eq_none (h : VoidClosed s e) (hs : StartTag.read? s = none) :
    StartTag.read? e = none := by
  cases he : StartTag.read? e with
  | none => rfl
  | some p =>
      obtain ⟨tag, rest⟩ := p
      obtain ⟨u, rfl, hn, hend, hstart, hspan⟩ := read?_eq_some_iff.1 he
      have hhead := h.head?_eq
      obtain ⟨v, rfl, hrest⟩ := h.exists_of_closed (not_mem_of_lower_eq hn rfl)
      cases hv : spanTag? .ordinary v with
      | none =>
          rw [hrest.spanTag?_eq_none QuoteState.sound_ordinary hv] at hspan
          cases hspan
      | some p =>
          have hread : StartTag.read? (tag.name ++ v) = some (⟨tag.name, p.1⟩, p.2) :=
            read?_eq_some_iff.2 ⟨v, rfl, hn, hrest.endsName_eq ▸ hend, hhead ▸ hstart, hv⟩
          rw [hread] at hs
          cases hs

/-- The content of an element of plain text ends where it did when void elements behind it are
closed. -/
theorem spanContent_eq (h : VoidClosed (spanContent name t).2 e)
    (hn : ∀ c ∈ name, isNameChar c = true) :
    spanContent name ((spanContent name t).1 ++ e) = ((spanContent name t).1, e) := by
  fun_induction spanContent name t with
  | case1 =>
      cases h
      rfl
  | case2 t hc =>
      cases h with
      | char _ h =>
          cases h with
          | char _ h =>
              rw [List.nil_append, spanContent, if_pos (by rw [h.closesElement_eq hn, hc])]
  | case3 t hc content rest hr ih =>
      have ht := spanContent_source name t
      rw [hr] at ht ih
      have hnot : closesElement name (content ++ e) = false := by
        rw [(append_left content h).closesElement_eq hn, ht, Bool.eq_false_iff]
        exact hc
      rw [List.cons_append, List.cons_append, spanContent_solidus hnot, ih h]
  | case4 c t hne content rest hr ih =>
      have ht := spanContent_source name t
      rw [hr] at ht ih
      have hnot : c ≠ '<' ∨ (content ++ e).head? ≠ some '/' := by
        rw [(append_left content h).head?_eq, ht, ← not_and_or, List.head?_eq_some_iff]
        rintro ⟨hc, t, ht⟩
        exact hne t hc ht
      rw [List.cons_append, spanContent_cons hnot, ih h]

end VoidClosed

/-! ### Closing again -/

theorem StartTag.source_append (tag : StartTag) (k : Text) :
    tag.source ++ k = '<' :: (tag.name ++ (tag.attributes ++ '>' :: k)) := by
  simp [StartTag.source]

/-- In closed markup every start tag of a void element is followed by its end tag. -/
theorem ended_pieces_closeVoidElements (t : Text) : Ended (pieces (closeVoidElements t)) := by
  rw [closeVoidElements]
  have hclosed : ∀ t, VoidClosed t (closePieces (pieces t)) := VoidClosed.closeVoidElements
  fun_induction pieces t with
  | case1 =>
      rw [closePieces, pieces]
      trivial
  | case2 t tag rest hr htext ih =>
      have hvoid := isVoid_of_isTextOnly htext
      have hcontent := (hclosed (spanContent tag.name rest).2).spanContent_eq (isNameChar_of_read? hr)
      rw [closePieces_tag, hvoid, Bool.false_and, if_neg Bool.false_ne_true, List.nil_append,
        closePieces, StartTag.source_append, pieces_of_read_textOnly (read?_append hr _) htext,
        hcontent]
      exact ⟨fun hv => absurd (hvoid.symm.trans hv) Bool.false_ne_true, ih⟩
  | case3 t tag rest hr hmarkup ih =>
      have hn := isNameChar_of_read? hr
      have hfollows := (hclosed rest).startsWithEndTag_eq hn
      rw [closePieces_tag, flatMap_source_pieces, StartTag.source_append,
        pieces_of_read (read?_append hr _) (Bool.eq_false_iff.2 hmarkup)]
      constructor
      · intro hv
        rw [flatMap_source_pieces, hv, Bool.true_and]
        split
        · exact startsWithEndTag_endTag_append tag.name _
        · next hnot => simpa [hfollows] using hnot
      · split
        · rw [pieces_endTag hn]
          exact ended_map_text_append.2 ih
        · exact ih
  | case4 t hr ih =>
      rw [closePieces, List.singleton_append, pieces_of_not_read ((hclosed t).read?_eq_none hr)]
      exact ih
  | case5 c t hc ih =>
      rw [closePieces, List.singleton_append, pieces, if_neg hc]
      exact ih

/-- Closing void elements a second time changes nothing. -/
theorem closeVoidElements_closeVoidElements (t : Text) :
    closeVoidElements (closeVoidElements t) = closeVoidElements t := by
  rw [closeVoidElements, closePieces_of_ended (ended_pieces_closeVoidElements t),
    flatMap_source_pieces]

/-- Taking end tags of void elements out hides that void elements have been closed. -/
theorem stripVoidEndTags_closeVoidElements (t : Text) :
    stripVoidEndTags (closeVoidElements t) = stripVoidEndTags t :=
  (VoidClosed.closeVoidElements t).stripVoidEndTags_eq

end AmpMarkup.Source
