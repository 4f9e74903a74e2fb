import AmpMarkup.Proofs.Source.AttributeSpan
import AmpMarkup.Source.VoidElement

/-! How markup is cut into pieces. A start tag is read up to the same `>` whatever follows it, and the
content of an element of plain text is what stands before its end tag. -/

namespace AmpMarkup.Source

variable {c quote : Char} {name t u k rest : Text} {s : QuoteState} {tag : StartTag} {ps : List Piece}

/-! ### The end of a start tag -/

/-- A quote inside which a tag is read has opened a value. -/
def QuoteState.Sound (s : QuoteState) : Prop :=
  ∀ quote, s = .inside quote → quote = '"' ∨ quote = '\''

theorem QuoteState.sound_ordinary : QuoteState.ordinary.Sound := by
  intro quote h
  cases h

theorem QuoteState.Sound.next (h : s.Sound) (c : Char) : (s.next c).Sound := by
  intro quote hq
  cases s with
  | ordinary =>
      rw [QuoteState.next] at hq
      split at hq <;> cases hq
  | opening =>
      rw [QuoteState.next] at hq
      split at hq
      · next hc => exact QuoteState.inside.inj hq ▸ hc
      · split at hq <;> cases hq
  | inside quote' =>
      rw [QuoteState.next] at hq
      split at hq
      · cases hq
      · exact h quote hq

/-- Inside a value the `>` does not end the tag, and elsewhere no other character does. -/
theorem spanTag?_cons (h : c = '>' → ∃ quote, s = .inside quote) (t : Text) :
    spanTag? s (c :: t) = (spanTag? (s.next c) t).map fun p => (c :: p.1, p.2) := by
  rw [spanTag?]
  · rintro rfl hc
    obtain ⟨quote, hq⟩ := h hc
    cases hq
  · rintro rfl hc
    obtain ⟨quote, hq⟩ := h hc
    cases hq

/-- At the end of a tag nothing is left to read of it. -/
theorem spanTag?_close (h : ∀ quote, s ≠ .inside quote) (t : Text) :
    spanTag? s ('>' :: t) = some ([], t) := by
  cases s with
  | ordinary => rfl
  | opening => rfl
  | inside quote => exact absurd rfl (h quote)

theorem closes_or_not (s : QuoteState) (c : Char) :
    (c = '>' ∧ ∀ quote, s ≠ .inside quote) ∨ (c = '>' → ∃ quote, s = .inside quote) := by
  by_cases h : ∃ quote, s = .inside quote
  · exact .inr fun _ => h
  · by_cases hc : c = '>'
    · exact .inl ⟨hc, not_exists.1 h⟩
    · exact .inr fun he => absurd he hc

/-- Text without the quote goes on with a value. -/
theorem spanTag?_inside_append (hu : ∀ c ∈ u, c ≠ quote) (t : Text) :
    spanTag? (.inside quote) (u ++ t) =
      (spanTag? (.inside quote) t).map fun p => (u ++ p.1, p.2) := by
  induction u with
  | nil => simp
  | cons c u ih =>
      rw [List.cons_append, spanTag?_cons fun _ => ⟨quote, rfl⟩, QuoteState.next,
        if_neg (hu c List.mem_cons_self), ih fun d hd => hu d (List.mem_cons_of_mem _ hd),
        Option.map_map]
      rfl

/-- The `>` that ends a tag does so whatever follows it. -/
theorem spanTag?_append {inside : Text} (h : spanTag? s t = some (inside, rest)) (k : Text) :
    spanTag? s (inside ++ '>' :: k) = some (inside, k) := by
  induction t generalizing s inside with
  | nil => simp [spanTag?] at h
  | cons c t ih =>
      rcases closes_or_not s c with ⟨rfl, hs⟩ | hs
      · rw [spanTag?_close hs] at h
        obtain ⟨rfl, rfl⟩ := Prod.mk.inj (Option.some.inj h)
        exact spanTag?_close hs k
      · rw [spanTag?_cons hs] at h
        obtain ⟨⟨inside', rest'⟩, hr, he⟩ := Option.map_eq_some_iff.1 h
        obtain ⟨rfl, rfl⟩ := Prod.mk.inj he
        rw [List.cons_append, spanTag?_cons hs, ih hr]
        rfl

/-! ### Start tags -/

theorem endsWord_of_endsName (h : endsName t = true) : EndsWord t := by
  intro c hc
  have hend : isSpace c = true ∨ c = '/' ∨ c = '>' := by simpa [endsName, hc, or_assoc] using h
  rcases hend with hs | rfl | rfl
  · exact isNameChar_of_isSpace hs
  · decide
  · decide

theorem read?_word (hn : ∀ c ∈ name, isNameChar c = true) (ht : EndsWord t) :
    StartTag.read? (name ++ t) =
      if (name ++ t).head?.any Char.isAlpha && endsName t then
        (spanTag? .ordinary t).map fun p => (⟨name, p.1⟩, p.2)
      else none := by
  rw [StartTag.read?, takeWhile_word hn ht, dropWhile_word hn ht]

/-- A start tag is a name that starts with a letter, and what stands from there to its `>`. -/
theorem read?_eq_some_iff : StartTag.read? t = some (tag, rest) ↔
    ∃ u, t = tag.name ++ u ∧ (∀ c ∈ tag.name, isNameChar c = true) ∧ endsName u = true ∧
      t.head?.any Char.isAlpha = true ∧ spanTag? .ordinary u = some (tag.attributes, rest) := by
  constructor
  · intro h
    have hsplit := List.takeWhile_append_dropWhile (p := isNameChar) (l := t)
    rw [StartTag.read?] at h
    dsimp only at h
    split at h
    · next hc =>
        obtain ⟨hstart, hend⟩ := Bool.and_eq_true_iff.1 hc
        obtain ⟨⟨attributes, rest'⟩, hspan, he⟩ := Option.map_eq_some_iff.1 h
        obtain ⟨rfl, rfl⟩ := Prod.mk.inj he
        refine ⟨t.dropWhile isNameChar, hsplit.symm, ?_, hend, hstart, hspan⟩
        exact fun c hc => List.all_eq_true.1 List.all_takeWhile c hc
    · cases h
  · rintro ⟨u, rfl, hn, hend, hstart, hspan⟩
    rw [read?_word hn (endsWord_of_endsName hend), hstart, hend, hspan]
    rfl

theorem isNameChar_of_read? (h : StartTag.read? t = some (tag, rest)) :
    ∀ c ∈ tag.name, isNameChar c = true := by
  obtain ⟨u, -, hn, -⟩ := read?_eq_some_iff.1 h
  exact hn

theorem name_ne_nil_of_read? (h : StartTag.read? t = some (tag, rest)) : tag.name ≠ [] := by
  obtain ⟨u, rfl, -, hend, hstart, -⟩ := read?_eq_some_iff.1 h
  intro hname
  -- The letter at the start would be what ends the word.
  rw [hname, List.nil_append] at hstart
  cases u with
  | nil => cases hstart
  | cons c u =>
      have hc := endsWord_cons.1 (endsWord_of_endsName hend)
      simp [isNameChar, Char.isAlphanum] at hc
      simp [hc] at hstart

/-- A start tag is read alike whatever follows it. -/
theorem read?_append (h : StartTag.read? t = some (tag, rest)) (k : Text) :
    StartTag.read? (tag.name ++ (tag.attributes ++ '>' :: k)) = some (tag, k) := by
  obtain ⟨u, rfl, hn, hend, hstart, hspan⟩ := read?_eq_some_iff.1 h
  refine read?_eq_some_iff.2 ⟨_, rfl, hn, ?_, ?_, spanTag?_append hspan k⟩
  · rw [spanTag?_source hspan] at hend
    cases hattributes : tag.attributes with
    | nil => rfl
    | cons c attributes =>
        rw [hattributes] at hend
        exact hend
  · obtain ⟨c, name, hname⟩ := List.exists_cons_of_ne_nil (name_ne_nil_of_read? h)
    rw [hname] at hstart ⊢
    exact hstart

/-! ### Pieces -/

theorem pieces_text (h : ∀ c ∈ t, c ≠ '<') (k : Text) :
    pieces (t ++ k) = t.map (.text [·]) ++ pieces k := by
  induction t with
  | nil => rfl
  | cons c t ih =>
      rw [List.cons_append, pieces, if_neg (h c List.mem_cons_self),
        ih fun d hd => h d (List.mem_cons_of_mem _ hd)]
      rfl

theorem pieces_of_not_read (h : StartTag.read? t = none) :
    pieces ('<' :: t) = .text ['<'] :: pieces t := by
  rw [pieces, if_pos rfl]
  split
  · next hr => rw [hr] at h; cases h
  · rfl

theorem pieces_of_read (h : StartTag.read? t = some (tag, k))
    (hs : Vocabulary.isTextOnly tag.name = false) : pieces ('<' :: t) = .tag tag :: pieces k := by
  rw [pieces, if_pos rfl]
  split
  · next hr =>
      obtain ⟨rfl, rfl⟩ := Prod.mk.inj (Option.some.inj (hr.symm.trans h))
      rw [if_neg (by rw [hs]; exact Bool.false_ne_true)]
  · next hr => rw [hr] at h; cases h

theorem pieces_of_read_textOnly (h : StartTag.read? t = some (tag, k))
    (hs : Vocabulary.isTextOnly tag.name = true) :
    pieces ('<' :: t) =
      .tag tag :: .text (spanContent tag.name k).1 :: pieces (spanContent tag.name k).2 := by
  rw [pieces, if_pos rfl]
  split
  · next hr =>
      obtain ⟨rfl, rfl⟩ := Prod.mk.inj (Option.some.inj (hr.symm.trans h))
      rw [if_pos hs]
  · next hr => rw [hr] at h; cases h

/-- An end tag holds no start tag. -/
theorem pieces_endTag (hn : ∀ c ∈ name, isNameChar c = true) (k : Text) :
    pieces (endTag name ++ k) = (endTag name).map (.text [·]) ++ pieces k := by
  have hrest : ∀ c ∈ '/' :: (name ++ ['>']), c ≠ '<' := by
    intro c hc
    rcases List.mem_cons.1 hc with rfl | hc
    · decide
    · rcases List.mem_append.1 hc with hc | hc
      · exact ne_of_isNameChar (hn c hc) (by decide)
      · exact List.mem_singleton.1 hc ▸ by decide
  have hnone : StartTag.read? ('/' :: (name ++ ['>']) ++ k) = none := rfl
  change pieces ('<' :: ('/' :: (name ++ ['>']) ++ k)) = _
  rw [pieces_of_not_read hnone]
  exact congrArg (Piece.text ['<'] :: ·) (pieces_text hrest k)

/-! ### The content of an element of plain text -/

theorem spanContent_cons (h : c ≠ '<' ∨ t.head? ≠ some '/') :
    spanContent name (c :: t) = (c :: (spanContent name t).1, (spanContent name t).2) := by
  rw [spanContent]
  rintro u rfl rfl
  simp at h

theorem spanContent_word (hw : ∀ c ∈ u, c ≠ '<') (t : Text) :
    spanContent name (u ++ t) = (u ++ (spanContent name t).1, (spanContent name t).2) := by
  induction u with
  | nil => rfl
  | cons c w ih =>
      rw [List.cons_append, spanContent_cons (.inl (hw c List.mem_cons_self)),
        ih fun d hd => hw d (List.mem_cons_of_mem _ hd)]
      rfl

theorem spanContent_solidus (h : closesElement name t = false) :
    spanContent name ('<' :: '/' :: t) =
      ('<' :: '/' :: (spanContent name t).1, (spanContent name t).2) := by
  rw [spanContent, if_neg (by rw [h]; exact Bool.false_ne_true)]

/-! ### Closing -/

theorem closePieces_tag (tag : StartTag) (ps : List Piece) :
    closePieces (.tag tag :: ps) = tag.source ++
      ((if Vocabulary.isVoid tag.name && !startsWithEndTag tag.name (ps.flatMap Piece.source) then
        endTag tag.name else []) ++ closePieces ps) := by
  rw [closePieces, endTagFollows_eq]
  split
  · rw [List.append_assoc]
  · rfl

end AmpMarkup.Source
