import AmpMarkup.Html.Lexer

/-! Where the reader ends a start tag. Its ten states inside a tag come down to five places, and from
these alone it follows which `>` ends the tag: the first one outside of a quoted value. -/

namespace AmpMarkup.Html

/-- A place inside a start tag, as far as it has a say in where the tag ends. -/
inductive TagPlace where
  /-- Where an attribute may start. -/
  | between
  /-- In a name or in the spaces behind it. -/
  | name
  /-- Behind the equals sign of an attribute. -/
  | beforeValue
  | quoted (quote : Char)
  | unquoted
deriving DecidableEq

namespace TagPlace

/-- The place after a character that does not end the tag. -/
def next : TagPlace → Char → TagPlace
  | .between, c => if isSpace c ∨ c = '/' then .between else .name
  | .name, c => if c = '/' then .between else if c = '=' then .beforeValue else .name
  | .beforeValue, c =>
    if isSpace c then .beforeValue
    else if c = '"' ∨ c = '\'' then .quoted c
    else .unquoted
  | .quoted quote, c => if c = quote then .between else .quoted quote
  | .unquoted, c => if isSpace c then .between else .unquoted

/-- Whether a character ends the tag. -/
def closes : TagPlace → Char → Bool
  | .quoted _, _ => false
  | _, c => c == '>'

/-- The text after the tag. There is none if the text ends first. -/
def rest? : TagPlace → Text → Option Text
  | _, [] => none
  | p, c :: t => if p.closes c then some t else (p.next c).rest? t

end TagPlace

/-- Whether a token is a start tag. -/
def Token.isStartTag : Token → Bool
  | .startTag .. => true
  | _ => false

/-- What is left of a text when its first start tag has been read. -/
def State.afterStartTag? (s : State) : Text → Option Text
  | [] => none
  | c :: t =>
    if (s.step c t).tokens.any Token.isStartTag then some (s.step c t).rest
    else (s.step c t).state.afterStartTag? (s.step c t).rest
termination_by t => t.length
decreasing_by exact Nat.lt_succ_of_le (State.step_length_le s c t)

/-- A reader inside a start tag, at a place. -/
def State.At : State → TagPlace → Prop
  | .beforeAttribute tag, p | .afterQuotedValue tag, p | .solidus tag, p =>
    tag.isEnd = false ∧ p = .between
  | .attributeName tag _, p | .afterAttributeName tag _, p => tag.isEnd = false ∧ p = .name
  | .beforeValue tag _, p => tag.isEnd = false ∧ p = .beforeValue
  | .inValue .double tag _ _, p => tag.isEnd = false ∧ p = .quoted '"'
  | .inValue .single tag _ _, p => tag.isEnd = false ∧ p = .quoted '\''
  | .inValue .unquoted tag _ _, p => tag.isEnd = false ∧ p = .unquoted
  | _, _ => False

/-- A step that ends a start tag. -/
def Step.EndsTag (t : Text) (st : Step) : Prop :=
  ∃ name attributes selfClosing, st =
    ⟨[.startTag name attributes selfClosing], .content (TagDraft.readingAfter name), t⟩

/-- A step inside a start tag. It may take more text than one character, but none that matters. -/
def Step.StaysInTag (p : TagPlace) (t : Text) (st : Step) : Prop :=
  ∃ s rest, st = .goto s rest ∧ s.At p ∧ p.rest? t = p.rest? rest

variable {s : State} {p : TagPlace} {tag : TagDraft} {c d : Char} {t u rest : Text}
  {name value : Text}

/-! ### Character references -/

/-- Characters that may belong to a character reference. -/
def IsReferenceText (u : Text) : Prop :=
  ∀ c ∈ u, c.isAlphanum = true ∨ c = '#' ∨ c = ';'

namespace CharacterReference

theorem exists_dropSemicolon (t : Text) :
    ∃ u, t = u ++ dropSemicolon t ∧ IsReferenceText u := by
  unfold dropSemicolon
  split
  · next rest => exact ⟨[';'], rfl, fun c hc => .inr (.inr (List.mem_singleton.mp hc))⟩
  · exact ⟨[], rfl, fun c hc => by cases hc⟩

theorem isReferenceText_append {u v : Text} (hu : IsReferenceText u) (hv : IsReferenceText v) :
    IsReferenceText (u ++ v) := by
  intro c hc
  rcases List.mem_append.mp hc with hc | hc
  · exact hu c hc
  · exact hv c hc

theorem exists_readDigits? {base : Nat} {isDigit : Char → Bool}
    (hd : ∀ c, isDigit c = true → c.isAlphanum = true)
    (h : readDigits? base isDigit t = some (d, rest)) :
    ∃ u, t = u ++ rest ∧ IsReferenceText u := by
  unfold readDigits? at h
  split at h
  · cases h
  · next digits _ =>
      obtain ⟨-, rfl⟩ := Prod.mk.inj (Option.some.inj h)
      obtain ⟨u, hu, hc⟩ := exists_dropSemicolon (t.dropWhile isDigit)
      refine ⟨t.takeWhile isDigit ++ u, ?_, isReferenceText_append (fun c hm => ?_) hc⟩
      · rw [List.append_assoc, ← hu, List.takeWhile_append_dropWhile]
      · exact .inl (hd c (List.all_eq_true.mp List.all_takeWhile c hm))

theorem exists_readName? {inValue : Bool} {length : Nat}
    (hl : length ≤ (t.takeWhile Char.isAlphanum).length)
    (h : readName? inValue t length = some (d, rest)) :
    ∃ u, t = u ++ rest ∧ IsReferenceText u := by
  induction length with
  | zero => cases h
  | succ length ih =>
      have htake : IsReferenceText (t.take (length + 1)) := by
        intro c hc
        have hword : t.take (length + 1) <+: t.takeWhile Char.isAlphanum :=
          List.prefix_of_prefix_length_le (List.take_prefix _ _) (List.takeWhile_prefix _)
            (Nat.le_trans (List.length_take_le _ _) hl)
        exact .inl (List.all_eq_true.mp List.all_takeWhile c (hword.subset hc))
      have hsplit := (List.take_append_drop (length + 1) t).symm
      unfold readName? at h
      split at h
      · next hd =>
          obtain ⟨-, rfl⟩ := Prod.mk.inj (Option.some.inj h)
          refine ⟨t.take (length + 1) ++ [';'], ?_, isReferenceText_append htake fun c hc => ?_⟩
          · rw [List.append_assoc, List.singleton_append, ← hd]
            exact hsplit
          · exact .inr (.inr (List.mem_singleton.mp hc))
      · split at h
        · split at h
          · cases h
          · obtain ⟨-, rfl⟩ := Prod.mk.inj (Option.some.inj h)
            exact ⟨_, hsplit, htake⟩
        · exact ih (Nat.le_of_succ_le hl) h
      · exact ih (Nat.le_of_succ_le hl) h

theorem isAlphanum_of_isDigit (h : c.isDigit = true) : c.isAlphanum = true := by
  unfold Char.isAlphanum
  rw [h, Bool.or_true]

theorem isAlphanum_of_isHexDigit (h : isHexDigit c = true) : c.isAlphanum = true := by
  unfold isHexDigit at h
  unfold Char.isAlphanum Char.isAlpha Char.isLower Char.isUpper
  simp only [Bool.or_eq_true, Bool.and_eq_true, decide_eq_true_eq, ge_iff_le] at h ⊢
  rcases h with (h | ⟨h1, h2⟩) | ⟨h1, h2⟩
  · exact .inr h
  · exact .inl (.inr ⟨h1, Nat.le_trans h2 (by decide)⟩)
  · exact .inl (.inl ⟨h1, Nat.le_trans h2 (by decide)⟩)

/-- A reference is made of letters, digits, a number sign and a semicolon. -/
theorem exists_read? {inValue : Bool} (h : read? inValue t = some (d, rest)) :
    ∃ u, t = u ++ rest ∧ IsReferenceText u := by
  have hsign : ∀ {v : Text}, IsReferenceText v → IsReferenceText ('#' :: v) := by
    intro v hv c hc
    rcases List.mem_cons.mp hc with rfl | hc
    · exact .inr (.inl rfl)
    · exact hv c hc
  have hletter : ∀ {v : Text} {e : Char}, e.isAlphanum = true → IsReferenceText v →
      IsReferenceText (e :: v) := by
    intro v e he hv c hc
    rcases List.mem_cons.mp hc with rfl | hc
    · exact .inl he
    · exact hv c hc
  unfold read? at h
  split at h
  · obtain ⟨u, rfl, hu⟩ := exists_readDigits? (fun c => isAlphanum_of_isHexDigit) h
    exact ⟨'#' :: 'x' :: u, rfl, hsign (hletter rfl hu)⟩
  · obtain ⟨u, rfl, hu⟩ := exists_readDigits? (fun c => isAlphanum_of_isHexDigit) h
    exact ⟨'#' :: 'X' :: u, rfl, hsign (hletter rfl hu)⟩
  · obtain ⟨u, rfl, hu⟩ := exists_readDigits? (fun _ => isAlphanum_of_isDigit) h
    exact ⟨'#' :: u, rfl, hsign hu⟩
  · exact exists_readName? (Nat.le_refl _) h

end CharacterReference

/-- A character reference inside a value neither ends the value nor the tag. -/
theorem TagPlace.rest?_append (hp : p = .quoted '"' ∨ p = .quoted '\'' ∨ p = .unquoted)
    (hu : IsReferenceText u) (rest : Text) : p.rest? (u ++ rest) = p.rest? rest := by
  induction u with
  | nil => rfl
  | cons c u ih =>
      have hc := hu c List.mem_cons_self
      have hne : ∀ e : Char, e.isAlphanum = false → e ≠ '#' → e ≠ ';' → c ≠ e := by
        rintro e he h1 h2 rfl
        rcases hc with hc | hc | hc
        · rw [he] at hc
          cases hc
        · exact h1 hc
        · exact h2 hc
      have hspace : isSpace c = false := by
        refine Bool.eq_false_iff.mpr fun hs => ?_
        simp only [isSpace, Bool.or_eq_true, beq_iff_eq] at hs
        rcases hs with (((rfl | rfl) | rfl) | rfl) | rfl <;> exact absurd hc (by decide)
      have hstep : p.closes c = false ∧ p.next c = p := by
        rcases hp with rfl | rfl | rfl
        · exact ⟨rfl, if_neg (hne '"' (by decide) (by decide) (by decide))⟩
        · exact ⟨rfl, if_neg (hne '\'' (by decide) (by decide) (by decide))⟩
        · refine ⟨beq_false_of_ne (hne '>' (by decide) (by decide) (by decide)), ?_⟩
          rw [next, hspace, if_neg Bool.false_ne_true]
      rw [List.cons_append, rest?, hstep.1, if_neg Bool.false_ne_true, hstep.2]
      exact ih fun d hd => hu d (List.mem_cons_of_mem _ hd)

/-! ### Steps inside a tag -/

theorem isEnd_add (tag : TagDraft) (name : Text) (value : Option Text) :
    (tag.add name value).isEnd = tag.isEnd := by
  unfold TagDraft.add
  split <;> rfl

theorem TagDraft.name_add (tag : TagDraft) (name : Text) (value : Option Text) :
    (tag.add name value).name = tag.name := by
  unfold add
  split <;> rfl

theorem Step.endsTag_finish (h : tag.isEnd = false) (selfClosing : Bool) (t : Text) :
    (tag.finish selfClosing t).EndsTag t := by
  refine ⟨tag.name, tag.attributes, selfClosing, ?_⟩
  rw [TagDraft.finish, h, if_neg Bool.false_ne_true]

theorem Step.staysInTag_goto (h : s.At p) (t : Text) : (Step.goto s t).StaysInTag p t :=
  ⟨s, t, rfl, h, rfl⟩

/-- A step at a place that is right for the place: it ends the tag or goes on to the next place. -/
def Step.Fits (p : TagPlace) (c : Char) (t : Text) (st : Step) : Prop :=
  if p.closes c then st.EndsTag t else st.StaysInTag (p.next c) t

/-- A character of a value that does not end it. -/
theorem Step.staysInTag_valueCharacter {quoting : Quoting}
    (hs : ∀ value, (State.inValue quoting tag name value).At p) (value : Text) (c : Char)
    (t : Text) : (Step.valueCharacter quoting tag name value c t).StaysInTag p t := by
  have hp : p = .quoted '"' ∨ p = .quoted '\'' ∨ p = .unquoted := by
    cases quoting with
    | double => exact .inl (hs []).2
    | single => exact .inr (.inl (hs []).2)
    | unquoted => exact .inr (.inr (hs []).2)
  unfold Step.valueCharacter
  refine iteInduction (fun _ => ?_) fun _ => staysInTag_goto (hs _) t
  split
  · next d rest hr =>
      obtain ⟨u, rfl, hu⟩ := CharacterReference.exists_read? hr
      exact ⟨_, rest, rfl, hs _, TagPlace.rest?_append hp hu rest⟩
  · exact staysInTag_goto (hs _) t

section
variable (h : tag.isEnd = false)
include h

theorem Step.fits_beforeAttribute (c : Char) (t : Text) :
    (Step.beforeAttribute tag c t).Fits .between c t := by
  unfold Step.Fits Step.beforeAttribute
  by_cases hclose : c = '>'
  · subst hclose
    exact endsTag_finish h false t
  · have hopen : TagPlace.between.closes c = false := beq_false_of_ne hclose
    rw [hopen, if_neg Bool.false_ne_true, TagPlace.next]
    by_cases hspace : isSpace c = true
    · rw [if_pos hspace, if_pos (.inl hspace)]
      exact staysInTag_goto (s := .beforeAttribute tag) ⟨h, rfl⟩ t
    · rw [if_neg hspace]
      by_cases hslash : c = '/'
      · rw [if_pos hslash, if_pos (.inr hslash)]
        exact staysInTag_goto (s := .solidus tag) ⟨h, rfl⟩ t
      · rw [if_neg hslash, if_neg hclose, if_neg fun hc => hc.elim hspace hslash]
        exact staysInTag_goto (s := .attributeName tag [c.toLower]) ⟨h, rfl⟩ t

theorem Step.fits_finish (hp : ∀ quote, p ≠ .quoted quote) (selfClosing : Bool) (t : Text) :
    (tag.finish selfClosing t).Fits p '>' t := by
  unfold Step.Fits
  cases p with
  | quoted quote => exact absurd rfl (hp quote)
  | between | name | beforeValue | unquoted => exact endsTag_finish h selfClosing t

theorem Step.fits_unquotedValue (name value : Text) (c : Char) (t : Text) :
    (Step.unquotedValue tag name value c t).Fits .unquoted c t := by
  have hadd : (tag.add name (some value)).isEnd = false := (isEnd_add ..).trans h
  unfold Step.unquotedValue
  by_cases hspace : isSpace c = true
  · have hopen : TagPlace.unquoted.closes c = false := by
      refine beq_false_of_ne ?_
      rintro rfl
      cases hspace
    rw [Step.Fits, hopen, if_neg Bool.false_ne_true, TagPlace.next, if_pos hspace, if_pos hspace]
    exact staysInTag_goto (s := .beforeAttribute _) ⟨hadd, rfl⟩ t
  · rw [if_neg hspace]
    refine iteInduction (fun hclose => ?_) fun hclose => ?_
    · subst hclose
      exact fits_finish hadd (fun quote hq => by cases hq) false t
    · have hopen : TagPlace.unquoted.closes c = false := beq_false_of_ne hclose
      rw [Step.Fits, hopen, if_neg Bool.false_ne_true, TagPlace.next, if_neg hspace]
      exact staysInTag_valueCharacter (fun _ => by exact ⟨h, rfl⟩) value c t

end

/-- Going on from a place that no `>` ends. -/
theorem Step.fits_of_stays {st : Step} (hc : p.closes c = false)
    (h : st.StaysInTag (p.next c) t) : st.Fits p c t := by
  rw [Step.Fits, hc, if_neg Bool.false_ne_true]
  exact h

/-- Going on from a place in or behind a name. -/
theorem Step.fits_name (h : tag.isEnd = false) (name : Text) (hs : s = .attributeName tag name ∨
    s = .afterAttributeName tag name) (c : Char) (t : Text) : (s.step c t).Fits .name c t := by
  have hadd : (tag.add name none).isEnd = false := (isEnd_add ..).trans h
  by_cases hclose : c = '>'
  · subst hclose
    rcases hs with rfl | rfl
    · exact fits_finish hadd (fun quote hq => by cases hq) false t
    · exact fits_finish hadd (fun quote hq => by cases hq) false t
  refine fits_of_stays (beq_false_of_ne hclose) ?_
  by_cases hspace : isSpace c = true
  · have hnext : TagPlace.name.next c = .name := by
      rw [TagPlace.next, if_neg, if_neg]
      all_goals
        rintro rfl
        cases hspace
    rw [hnext]
    rcases hs with rfl | rfl
    · rw [State.step, if_pos hspace]
      exact staysInTag_goto (s := .afterAttributeName tag name) ⟨h, rfl⟩ t
    · rw [State.step, if_pos hspace]
      exact staysInTag_goto (s := .afterAttributeName tag name) ⟨h, rfl⟩ t
  by_cases hslash : c = '/'
  · rw [TagPlace.next, if_pos hslash]
    rcases hs with rfl | rfl
    · rw [State.step, if_neg hspace, if_pos hslash]
      exact staysInTag_goto (s := .solidus _) ⟨hadd, rfl⟩ t
    · rw [State.step, if_neg hspace, if_pos hslash]
      exact staysInTag_goto (s := .solidus _) ⟨hadd, rfl⟩ t
  by_cases hequals : c = '='
  · rw [TagPlace.next, if_neg hslash, if_pos hequals]
    rcases hs with rfl | rfl
    · rw [State.step, if_neg hspace, if_neg hslash, if_neg hclose, if_pos hequals]
      exact staysInTag_goto (s := .beforeValue tag name) ⟨h, rfl⟩ t
    · rw [State.step, if_neg hspace, if_neg hslash, if_pos hequals]
      exact staysInTag_goto (s := .beforeValue tag name) ⟨h, rfl⟩ t
  · rw [TagPlace.next, if_neg hslash, if_neg hequals]
    rcases hs with rfl | rfl
    · rw [State.step, if_neg hspace, if_neg hslash, if_neg hclose, if_neg hequals]
      exact staysInTag_goto (s := .attributeName tag _) ⟨h, rfl⟩ t
    · rw [State.step, if_neg hspace, if_neg hslash, if_neg hequals, if_neg hclose]
      exact staysInTag_goto (s := .attributeName _ _) ⟨hadd, rfl⟩ t

theorem Step.fits_beforeValue (h : tag.isEnd = false) (name : Text) (c : Char) (t : Text) :
    ((State.beforeValue tag name).step c t).Fits .beforeValue c t := by
  have hadd : (tag.add name (some [])).isEnd = false := (isEnd_add ..).trans h
  by_cases hclose : c = '>'
  · subst hclose
    exact fits_finish hadd (fun quote hq => by cases hq) false t
  have hopen : TagPlace.beforeValue.closes c = false := beq_false_of_ne hclose
  by_cases hspace : isSpace c = true
  · refine fits_of_stays hopen ?_
    rw [State.step, TagPlace.next, if_pos hspace, if_pos hspace]
    exact staysInTag_goto (s := .beforeValue tag name) ⟨h, rfl⟩ t
  by_cases hdouble : c = '"'
  · subst hdouble
    exact fits_of_stays hopen (staysInTag_goto (s := .inValue .double tag name []) ⟨h, rfl⟩ t)
  by_cases hsingle : c = '\''
  · subst hsingle
    exact fits_of_stays hopen (staysInTag_goto (s := .inValue .single tag name []) ⟨h, rfl⟩ t)
  · -- Any other character is the first one of a value without quotes.
    have hfits := fits_unquotedValue h name [] c t
    rw [State.step, if_neg hspace, if_neg hdouble, if_neg hsingle, if_neg hclose]
    have hclosed : TagPlace.unquoted.closes c = false := beq_false_of_ne hclose
    rw [Step.Fits, hclosed, if_neg Bool.false_ne_true, TagPlace.next, if_neg hspace] at hfits
    refine fits_of_stays hopen ?_
    rw [TagPlace.next, if_neg hspace, if_neg fun hc => hc.elim hdouble hsingle]
    exact hfits

theorem Step.fits_quoted {quote : Char} {quoting : Quoting} (h : tag.isEnd = false)
    (hs : ∀ value, (State.inValue quoting tag name value).At (.quoted quote)) (value : Text)
    (c : Char) (t : Text) : ((State.inValue quoting tag name value).step c t).Fits (.quoted quote) c
      t := by
  have hadd : (tag.add name (some value)).isEnd = false := (isEnd_add ..).trans h
  have hstep : (State.inValue quoting tag name value).step c t =
      if c = quote then .goto (.afterQuotedValue (tag.add name (some value))) t
      else .valueCharacter quoting tag name value c t := by
    cases quoting with
    | double =>
        cases (hs []).2
        rfl
    | single =>
        cases (hs []).2
        rfl
    | unquoted => cases (hs []).2
  refine fits_of_stays rfl ?_
  rw [hstep, TagPlace.next]
  by_cases hc : c = quote
  · rw [if_pos hc, if_pos hc]
    exact staysInTag_goto (s := .afterQuotedValue _) ⟨hadd, rfl⟩ t
  · rw [if_neg hc, if_neg hc]
    exact staysInTag_valueCharacter hs value c t

/-- Every step inside a tag fits the place that the reader is at. -/
theorem State.At.fits (h : s.At p) (c : Char) (t : Text) : (s.step c t).Fits p c t := by
  cases s with
  | beforeAttribute tag =>
      obtain ⟨ht, rfl⟩ := h
      exact Step.fits_beforeAttribute ht c t
  | afterQuotedValue tag =>
      obtain ⟨ht, rfl⟩ := h
      exact Step.fits_beforeAttribute ht c t
  | solidus tag =>
      obtain ⟨ht, rfl⟩ := h
      refine iteInduction (fun hc => ?_) fun _ => Step.fits_beforeAttribute ht c t
      subst hc
      exact Step.fits_finish ht (fun quote hq => by cases hq) true t
  | attributeName tag name =>
      obtain ⟨ht, rfl⟩ := h
      exact Step.fits_name ht name (.inl rfl) c t
  | afterAttributeName tag name =>
      obtain ⟨ht, rfl⟩ := h
      exact Step.fits_name ht name (.inr rfl) c t
  | beforeValue tag name =>
      obtain ⟨ht, rfl⟩ := h
      exact Step.fits_beforeValue ht name c t
  | inValue quoting tag name value =>
      cases quoting with
      | double =>
          obtain ⟨ht, rfl⟩ := h
          exact Step.fits_quoted ht (fun _ => by exact ⟨ht, rfl⟩) value c t
      | single =>
          obtain ⟨ht, rfl⟩ := h
          exact Step.fits_quoted ht (fun _ => by exact ⟨ht, rfl⟩) value c t
      | unquoted =>
          obtain ⟨ht, rfl⟩ := h
          exact Step.fits_unquotedValue ht name value c t
  | _ => exact h.elim

/-! ### Whole tags -/

/-- The reader ends a start tag where the places say, and drops it if they say nowhere. -/
theorem State.At.afterStartTag? (h : s.At p) (t : Text) :
    s.afterStartTag? t = p.rest? t ∧ (p.rest? t = none ↔ s.tokens t = [.endOfFile]) := by
  fun_induction State.tokens s t generalizing p with
  | case1 s =>
      rw [State.afterStartTag?, TagPlace.rest?]
      refine ⟨rfl, iff_of_true rfl ?_⟩
      cases s with
      | beforeAttribute | afterQuotedValue | solidus | attributeName | afterAttributeName | beforeValue
      | inValue => rfl
      | _ => exact h.elim
  | case2 s c t ih =>
      have hfits := h.fits c t
      rw [State.afterStartTag?, TagPlace.rest?]
      unfold Step.Fits at hfits
      split at hfits
      · next hc =>
          obtain ⟨name, attributes, selfClosing, hstep⟩ := hfits
          rw [hstep, if_pos hc, if_pos (by rfl)]
          refine ⟨rfl, iff_of_false (Option.some_ne_none t) ?_⟩
          exact fun he => by cases (List.cons.inj he).1
      · next hc =>
          obtain ⟨s', rest, hstep, hs', hrest⟩ := hfits
          rw [hstep] at ih ⊢
          obtain ⟨hafter, htokens⟩ := ih hs'
          rw [if_neg hc, if_neg (by exact Bool.false_ne_true), hrest]
          exact ⟨hafter, htokens⟩

end AmpMarkup.Html
