import AmpMarkup.Css.Lexer

/-! Line ends of a stylesheet. The specification of the syntax turns every line end into a line feed
before it reads tokens. The readers here do without that step: comments, spaces, numbers and spoiled
addresses are read the same with it and without it. -/

namespace AmpMarkup.Css

variable {c : Char} {t u p : Text} {q : Char → Bool}

/-- Whether a character ends a line and is not a line feed. -/
def endsLine (c : Char) : Bool :=
  c == '\r' || c == '\x0c'

/-- The stylesheet with a line feed for every line end: for a carriage return with a line feed after
it, for every other carriage return and for every form feed. -/
def normalizeLineEnds : Text → Text
  | '\r' :: '\n' :: t => '\n' :: normalizeLineEnds t
  | c :: t => (if endsLine c then '\n' else c) :: normalizeLineEnds t
  | [] => []

/-- Whether a text has no line end of any form. -/
def isOneLine (t : Text) : Bool :=
  t.all fun c => c != '\n' && !endsLine c

theorem endsLine_iff : endsLine c = true ↔ c = '\r' ∨ c = '\x0c' := by
  simp [endsLine]

/-- A carriage return before a line feed adds nothing to the line feed. -/
theorem normalizeLineEnds_pair (t : Text) :
    normalizeLineEnds ('\r' :: '\n' :: t) = normalizeLineEnds ('\n' :: t) := by
  rw [normalizeLineEnds, normalizeLineEnds]
  · rfl
  · intro _ h
    exact absurd h (by decide)

theorem normalizeLineEnds_cons (h : endsLine c = false) (t : Text) :
    normalizeLineEnds (c :: t) = c :: normalizeLineEnds t := by
  rw [normalizeLineEnds, if_neg (by simp [h])]
  rintro _ rfl
  exact absurd h (by decide)

/-- A line end becomes a line feed, and what follows is normalised from the next character on or
from the one behind the pair on. -/
theorem normalizeLineEnds_endsLine (h : endsLine c = true) (t : Text) :
    ∃ u, (t = u ∨ c = '\r' ∧ t = '\n' :: u) ∧
      normalizeLineEnds (c :: t) = '\n' :: normalizeLineEnds u := by
  by_cases hp : c = '\r' ∧ t.head? = some '\n'
  · obtain ⟨rfl, hn⟩ := hp
    obtain ⟨u, rfl⟩ := List.head?_eq_some_iff.1 hn
    exact ⟨u, .inr ⟨rfl, rfl⟩, by rw [normalizeLineEnds]⟩
  · refine ⟨t, .inl rfl, ?_⟩
    rw [normalizeLineEnds, if_pos h]
    rintro u rfl rfl
    exact hp ⟨rfl, rfl⟩

theorem head?_normalizeLineEnds (t : Text) :
    (normalizeLineEnds t).head? = t.head?.map fun c => if endsLine c then '\n' else c := by
  fun_cases normalizeLineEnds t with
  | case1 t => rfl
  | case2 c t h => rfl
  | case3 => rfl

theorem eq_nil_of_normalizeLineEnds (h : normalizeLineEnds t = []) : t = [] := by
  have hh := head?_normalizeLineEnds t
  rw [h, List.head?_nil, eq_comm, Option.map_eq_none_iff, List.head?_eq_none_iff] at hh
  exact hh

/-- A test that no line end passes tells nothing new of the next character. -/
theorem any_head?_normalizeLineEnds (hn : q '\n' = false) (hq : ∀ c, endsLine c = true → q c = false)
    (t : Text) : (normalizeLineEnds t).head?.any q = t.head?.any q := by
  rw [head?_normalizeLineEnds, Option.any_map]
  cases t with
  | nil => rfl
  | cons c t =>
      by_cases hc : endsLine c = true
      · simp [hc, hn, hq c hc]
      · simp [hc]

/-! ### Runs of characters -/

theorem takeWhile_normalizeLineEnds (hn : q '\n' = false)
    (hq : ∀ c, endsLine c = true → q c = false) (t : Text) :
    (normalizeLineEnds t).takeWhile q = t.takeWhile q := by
  induction t with
  | nil => rfl
  | cons c t ih =>
      cases hc : endsLine c with
      | true =>
          obtain ⟨u, -, hu⟩ := normalizeLineEnds_endsLine hc t
          rw [hu, List.takeWhile_cons_of_neg (by simp [hn]),
            List.takeWhile_cons_of_neg (by simp [hq c hc])]
      | false => rw [normalizeLineEnds_cons hc, List.takeWhile_cons, List.takeWhile_cons, ih]

theorem dropWhile_normalizeLineEnds (hn : q '\n' = false)
    (hq : ∀ c, endsLine c = true → q c = false) (t : Text) :
    (normalizeLineEnds t).dropWhile q = normalizeLineEnds (t.dropWhile q) := by
  induction t with
  | nil => rfl
  | cons c t ih =>
      cases hc : endsLine c with
      | true =>
          obtain ⟨u, -, hu⟩ := normalizeLineEnds_endsLine hc t
          rw [List.dropWhile_cons_of_neg (by simp [hq c hc]), hu,
            List.dropWhile_cons_of_neg (by simp [hn])]
      | false =>
          rw [normalizeLineEnds_cons hc, List.dropWhile_cons, List.dropWhile_cons]
          split
          · exact ih
          · exact (normalizeLineEnds_cons hc t).symm

theorem isSpace_of_endsLine (h : endsLine c = true) : isSpace c = true := by
  rcases endsLine_iff.1 h with rfl | rfl <;> rfl

theorem endsLine_of_isSpace (h : isSpace c = false) : endsLine c = false := by
  cases hc : endsLine c with
  | false => rfl
  | true => rw [isSpace_of_endsLine hc] at h; exact h

/-- Line ends of all forms are spaces. -/
theorem dropWhile_isSpace_normalizeLineEnds (t : Text) :
    (normalizeLineEnds t).dropWhile isSpace = normalizeLineEnds (t.dropWhile isSpace) := by
  fun_induction normalizeLineEnds t with
  | case1 t ih => exact ih
  | case2 c t h ih =>
      cases hc : endsLine c with
      | true =>
          rw [if_pos rfl, List.dropWhile_cons_of_pos (by rfl),
            List.dropWhile_cons_of_pos (isSpace_of_endsLine hc)]
          exact ih
      | false =>
          rw [if_neg (by simp), List.dropWhile_cons, List.dropWhile_cons]
          split
          · exact ih
          · exact (normalizeLineEnds_cons hc t).symm
  | case3 => rfl

theorem isOneLine_cons_iff :
    isOneLine (c :: t) = true ↔ (c ≠ '\n' ∧ endsLine c = false) ∧ isOneLine t = true := by
  simp [isOneLine]

theorem normalizeLineEnds_append (h : isOneLine p = true) (t : Text) :
    normalizeLineEnds (p ++ t) = p ++ normalizeLineEnds t := by
  induction p with
  | nil => rfl
  | cons c p ih =>
      obtain ⟨⟨-, hc⟩, hp⟩ := isOneLine_cons_iff.1 h
      rw [List.cons_append, normalizeLineEnds_cons hc, ih hp, List.cons_append]

theorem after?_normalizeLineEnds (h : isOneLine p = true) (t : Text) :
    Text.after? p (normalizeLineEnds t) = (Text.after? p t).map normalizeLineEnds := by
  induction p generalizing t with
  | nil => rfl
  | cons d p ih =>
      obtain ⟨⟨hd, hl⟩, hp⟩ := isOneLine_cons_iff.1 h
      cases t with
      | nil => rfl
      | cons c t =>
          cases hc : endsLine c with
          | true =>
              obtain ⟨u, -, hu⟩ := normalizeLineEnds_endsLine hc t
              have hne : d ≠ c := by
                rintro rfl
                rw [hl] at hc
                cases hc
              rw [hu, Text.after?, if_neg hd, Text.after?, if_neg hne]
              rfl
          | false =>
              rw [normalizeLineEnds_cons hc, Text.after?, Text.after?]
              split
              · exact ih hp t
              · rfl

theorem startsWith_normalizeLineEnds (h : isOneLine p = true) (t : Text) :
    (normalizeLineEnds t).startsWith p = t.startsWith p := by
  rw [Text.startsWith, after?_normalizeLineEnds h, Option.isSome_map, Text.startsWith]

theorem drop_normalizeLineEnds (h : isOneLine p = true)
    (hp : t.startsWith p = true) :
    (normalizeLineEnds t).drop p.length = normalizeLineEnds (t.drop p.length) := by
  obtain ⟨u, hu⟩ := Option.isSome_iff_exists.1 hp
  rw [Text.after?_eq_some_iff.1 hu, normalizeLineEnds_append h, List.drop_left, List.drop_left]

/-- Characters other than line ends that stand in front after normalising stood there before. -/
theorem exists_of_normalizeLineEnds (h : isOneLine p = true)
    (hu : normalizeLineEnds t = p ++ u) : ∃ v, t = p ++ v := by
  have ha := after?_normalizeLineEnds h t
  rw [hu, Text.after?_eq_some_iff.2 rfl] at ha
  cases hv : Text.after? p t with
  | none =>
      rw [hv] at ha
      cases ha
  | some v => exact ⟨v, Text.after?_eq_some_iff.1 hv⟩

/-! ### Comments -/

theorem dropComment_normalizeLineEnds (t : Text) :
    dropComment (normalizeLineEnds t) = normalizeLineEnds (dropComment t) := by
  fun_induction dropComment t with
  | case1 t =>
      rw [normalizeLineEnds_cons (by rfl), normalizeLineEnds_cons (by rfl)]
      rfl
  | case2 c t h ih =>
      cases hc : endsLine c with
      | true =>
          obtain ⟨u, hu, hn⟩ := normalizeLineEnds_endsLine hc t
          rw [hn, dropComment]
          · rcases hu with rfl | ⟨rfl, rfl⟩
            · exact ih
            · rw [normalizeLineEnds_cons (by rfl), dropComment] at ih
              · exact ih
              · intro _ hx
                exact absurd hx (by decide)
          · intro _ hx
            exact absurd hx (by decide)
      | false =>
          rw [normalizeLineEnds_cons hc, dropComment, ih]
          rintro v rfl hv
          obtain ⟨w, hw⟩ := exists_of_normalizeLineEnds (p := "/") rfl hv
          exact h w rfl hw
  | case3 => rfl

theorem dropComments_normalizeLineEnds (t : Text) :
    dropComments (normalizeLineEnds t) = normalizeLineEnds (dropComments t) := by
  fun_induction dropComments t with
  | case1 t ih =>
      rw [normalizeLineEnds_cons (by rfl), normalizeLineEnds_cons (by rfl), dropComments,
        dropComment_normalizeLineEnds, ih]
  | case2 t h =>
      rw [dropComments]
      intro v hv
      obtain ⟨w, hw⟩ := exists_of_normalizeLineEnds (p := "/*") rfl hv
      exact h w hw

/-! ### Numbers -/

theorem isDigit_of_endsLine (c : Char) (h : endsLine c = true) : c.isDigit = false := by
  rcases endsLine_iff.1 h with rfl | rfl <;> rfl

theorem startsDigit_normalizeLineEnds (t : Text) :
    startsDigit (normalizeLineEnds t) = startsDigit t :=
  any_head?_normalizeLineEnds rfl isDigit_of_endsLine t

theorem startsUnsigned_normalizeLineEnds (t : Text) :
    startsUnsigned (normalizeLineEnds t) = startsUnsigned t := by
  fun_cases startsUnsigned t with
  | case1 t =>
      rw [normalizeLineEnds_cons (by rfl)]
      exact startsDigit_normalizeLineEnds t
  | case2 t h =>
      rw [startsUnsigned, startsDigit_normalizeLineEnds]
      intro v hv
      obtain ⟨w, hw⟩ := exists_of_normalizeLineEnds (p := ".") rfl hv
      exact h w hw

theorem startsNumber_normalizeLineEnds (t : Text) :
    startsNumber (normalizeLineEnds t) = startsNumber t := by
  fun_cases startsNumber t with
  | case1 t =>
      rw [normalizeLineEnds_cons (by rfl)]
      exact startsUnsigned_normalizeLineEnds t
  | case2 t =>
      rw [normalizeLineEnds_cons (by rfl)]
      exact startsUnsigned_normalizeLineEnds t
  | case3 t hp hm =>
      rw [startsNumber, startsUnsigned_normalizeLineEnds]
      · intro v hv
        obtain ⟨w, hw⟩ := exists_of_normalizeLineEnds (p := "+") rfl hv
        exact hp w hw
      · intro v hv
        obtain ⟨w, hw⟩ := exists_of_normalizeLineEnds (p := "-") rfl hv
        exact hm w hw

theorem readSign_normalizeLineEnds (t : Text) :
    readSign (normalizeLineEnds t) = ((readSign t).1, normalizeLineEnds (readSign t).2) := by
  fun_cases readSign t with
  | case1 t =>
      rw [normalizeLineEnds_cons (by rfl)]
      rfl
  | case2 t =>
      rw [normalizeLineEnds_cons (by rfl)]
      rfl
  | case3 t hp hm =>
      rw [readSign]
      · intro v hv
        obtain ⟨w, hw⟩ := exists_of_normalizeLineEnds (p := "+") rfl hv
        exact hp w hw
      · intro v hv
        obtain ⟨w, hw⟩ := exists_of_normalizeLineEnds (p := "-") rfl hv
        exact hm w hw

theorem takeWhile_isDigit_normalizeLineEnds (t : Text) :
    (normalizeLineEnds t).takeWhile Char.isDigit = t.takeWhile Char.isDigit :=
  takeWhile_normalizeLineEnds rfl isDigit_of_endsLine t

theorem dropWhile_isDigit_normalizeLineEnds (t : Text) :
    (normalizeLineEnds t).dropWhile Char.isDigit = normalizeLineEnds (t.dropWhile Char.isDigit) :=
  dropWhile_normalizeLineEnds rfl isDigit_of_endsLine t

theorem readFraction_normalizeLineEnds (t : Text) :
    readFraction (normalizeLineEnds t) =
      ((readFraction t).1, normalizeLineEnds (readFraction t).2) := by
  fun_cases readFraction t with
  | case1 t hd =>
      rw [normalizeLineEnds_cons (by rfl), readFraction, startsDigit_normalizeLineEnds, if_pos hd,
        takeWhile_isDigit_normalizeLineEnds, dropWhile_isDigit_normalizeLineEnds]
  | case2 t hd =>
      rw [normalizeLineEnds_cons (by rfl), readFraction, startsDigit_normalizeLineEnds, if_neg hd]
  | case3 t h =>
      rw [readFraction]
      intro v hv
      obtain ⟨w, hw⟩ := exists_of_normalizeLineEnds (p := ".") rfl hv
      exact h w hw

/-- The digits of an exponent, with the text behind them. Without a digit there is no exponent, and
the text is the whole. -/
theorem readExponent_normalizeLineEnds (t : Text) :
    readExponent (normalizeLineEnds t) =
      ((readExponent t).1, normalizeLineEnds (readExponent t).2) := by
  cases t with
  | nil => rfl
  | cons c t =>
      cases hc : endsLine c with
      | true =>
          obtain ⟨u, -, hu⟩ := normalizeLineEnds_endsLine hc t
          have he : ¬ (c = 'e' ∨ c = 'E') := by
            rcases endsLine_iff.1 hc with rfl | rfl <;> decide
          rw [hu, readExponent, if_neg (by decide), readExponent, if_neg he, hu]
      | false =>
          rw [normalizeLineEnds_cons hc, readExponent, readExponent, readSign_normalizeLineEnds]
          by_cases he : c = 'e' ∨ c = 'E'
          · rw [if_pos he, if_pos he]
            simp only [startsDigit_normalizeLineEnds, takeWhile_isDigit_normalizeLineEnds,
              dropWhile_isDigit_normalizeLineEnds]
            split
            · rfl
            · rw [normalizeLineEnds_cons hc]
          · rw [if_neg he, if_neg he, normalizeLineEnds_cons hc]

theorem readNumber_normalizeLineEnds (t : Text) :
    readNumber (normalizeLineEnds t) = ((readNumber t).1, normalizeLineEnds (readNumber t).2) := by
  simp only [readNumber, readSign_normalizeLineEnds, takeWhile_isDigit_normalizeLineEnds,
    dropWhile_isDigit_normalizeLineEnds, readFraction_normalizeLineEnds,
    readExponent_normalizeLineEnds]

/-! ### Escapes -/

theorem isHexDigit_of_endsLine (h : endsLine c = true) : isHexDigit c = false := by
  rcases endsLine_iff.1 h with rfl | rfl <;> rfl

theorem spanHex_normalizeLineEnds (limit : Nat) (t : Text) :
    spanHex limit (normalizeLineEnds t) =
      ((spanHex limit t).1, normalizeLineEnds (spanHex limit t).2) := by
  induction limit generalizing t with
  | zero => simp [spanHex]
  | succ limit ih =>
      cases t with
      | nil => rfl
      | cons c t =>
          cases hc : endsLine c with
          | true =>
              obtain ⟨u, -, hu⟩ := normalizeLineEnds_endsLine hc t
              rw [hu, spanHex, if_neg (by decide), spanHex, if_neg (by simp [isHexDigit_of_endsLine hc]),
                hu]
          | false =>
              rw [normalizeLineEnds_cons hc, spanHex, spanHex, ih]
              split
              · rfl
              · rw [normalizeLineEnds_cons hc]

theorem dropSpace_normalizeLineEnds (h : t.startsWith ['\r', '\n'] = false) :
    dropSpace (normalizeLineEnds t) = normalizeLineEnds (dropSpace t) := by
  cases t with
  | nil => rfl
  | cons c t =>
      cases hc : endsLine c with
      | true =>
          obtain ⟨u, rfl | ⟨rfl, rfl⟩, hu⟩ := normalizeLineEnds_endsLine hc t
          · rw [hu, dropSpace, if_pos (by rfl), dropSpace, if_pos (isSpace_of_endsLine hc)]
          · cases h
      | false =>
          rw [normalizeLineEnds_cons hc, dropSpace, dropSpace]
          split
          · rfl
          · rw [normalizeLineEnds_cons hc]

end AmpMarkup.Css
