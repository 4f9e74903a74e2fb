import AmpMarkup.Proofs.Source.FragmentEncoding
import AmpMarkup.Proofs.Source.PlainText
import AmpMarkup.Proofs.Source.Template

/-! Scanning spelled markup. Stand-ins consist of characters of names, so a scanner takes them for a
part of a word and cuts the markup at the same symbols under every registry. -/

namespace AmpMarkup.Source

variable {r : Registry} {z : List Symbol} {c : Char} {b : Bool} {t u w : Text}

/-! ### Words -/

/-- Whether a symbol is a part of a word. -/
def Symbol.isWord : Symbol → Bool
  | .char c => isNameChar c
  | _ => true

theorem Registry.WellFormed.isNameChar_spell (hr : r.WellFormed) {a : Symbol}
    (ha : ∀ d, a = .delimiter d → d ∈ delimiters) (hw : a.isWord = true) :
    ∀ c ∈ a.spell r.spelling, isNameChar c = true := by
  intro c hc
  cases a with
  | char e => rwa [List.mem_singleton.1 hc]
  | delimiter d => exact hr.wordy.delimiter_chars d (ha d rfl) c hc
  | mark => exact hr.wordy.mark_chars c hc

theorem Registry.WellFormed.spell_ne_nil (hr : r.WellFormed) {a : Symbol}
    (ha : ∀ d, a = .delimiter d → d ∈ delimiters) : a.spell r.spelling ≠ [] := by
  cases a with
  | char e => exact List.cons_ne_nil _ _
  | delimiter d => exact hr.wordy.delimiter_ne d (ha d rfl)
  | mark => exact hr.wordy.mark_ne

theorem Delimited.head {a : Symbol} (h : Delimited (a :: z)) :
    ∀ d, a = .delimiter d → d ∈ delimiters :=
  fun d hd => h d (hd ▸ List.mem_cons_self)

theorem not_isWord {a : Symbol} (h : a.isWord = false) : ∃ c, a = .char c ∧ isNameChar c = false := by
  cases a with
  | char c => exact ⟨c, rfl, h⟩
  | delimiter d => cases h
  | mark => cases h

/-- The word at the front of spelled markup is spelled by the symbols of a word. -/
theorem span_word_spell (hr : r.WellFormed) (hz : Delimited z) :
    (spell r.spelling z).takeWhile isNameChar = spell r.spelling (z.takeWhile Symbol.isWord) ∧
      (spell r.spelling z).dropWhile isNameChar = spell r.spelling (z.dropWhile Symbol.isWord) := by
  induction z with
  | nil => exact ⟨rfl, rfl⟩
  | cons a z ih =>
      obtain ⟨ht, hd⟩ := ih hz.tail
      by_cases ha : a.isWord = true
      · have hw := hr.isNameChar_spell hz.head ha
        rw [List.takeWhile_cons_of_pos ha, List.dropWhile_cons_of_pos ha, spell_cons, spell_cons,
          List.takeWhile_append_of_pos hw, List.dropWhile_append_of_pos hw, ht, hd]
        exact ⟨rfl, rfl⟩
      · rw [Bool.not_eq_true] at ha
        obtain ⟨c, rfl, hc⟩ := not_isWord ha
        rw [List.takeWhile_cons_of_neg (by simp [ha]), List.dropWhile_cons_of_neg (by simp [ha])]
        have hs : spell r.spelling (.char c :: z) = c :: spell r.spelling z := rfl
        rw [hs, List.takeWhile_cons_of_neg (by simp [hc]), List.dropWhile_cons_of_neg (by simp [hc])]
        exact ⟨rfl, hs.symm⟩

/-- Without a space in front the first character of spelled markup is the same under every
registry. -/
theorem exists_head?_spell (hz : Delimited z) (hs : Spaced false z) :
    ∃ o, ∀ r : Registry, r.WellFormed → (spell r.spelling z).head? = o := by
  cases z with
  | nil => exact ⟨none, fun _ _ => rfl⟩
  | cons a z =>
      cases a with
      | char c => exact ⟨some c, fun _ _ => rfl⟩
      | delimiter d =>
          refine ⟨some '_', fun r hr => ?_⟩
          obtain ⟨t, ht⟩ := (hr.isSubstitute_spelling (hz d List.mem_cons_self)).eq_cons
          rw [spell_cons, Symbol.spell, ht]
          rfl
      | mark => cases hs.1

/-- A character that is in no name stands at the front only as itself. -/
theorem head?_spell_ne (hr : r.WellFormed) (hz : Delimited z) (hc : isNameChar c = false)
    (h : ∀ y, z ≠ .char c :: y) : (spell r.spelling z).head? ≠ some c := by
  cases z with
  | nil =>
      intro he
      cases he
  | cons a z =>
      intro he
      obtain ⟨e, u, hu⟩ := List.exists_cons_of_ne_nil (hr.spell_ne_nil hz.head)
      rw [spell_cons, hu] at he
      obtain rfl : e = c := Option.some.inj he
      cases hw : a.isWord with
      | true =>
          rw [hr.isNameChar_spell hz.head hw e (hu ▸ List.mem_cons_self)] at hc
          cases hc
      | false =>
          obtain ⟨c, rfl, -⟩ := not_isWord hw
          exact h z (by rw [(List.cons.inj hu).1])

/-! ### The end of a start tag -/

/-- What a quote means after a word. -/
def QuoteState.afterWord : QuoteState → QuoteState
  | .inside quote => .inside quote
  | _ => .ordinary

variable {s : QuoteState}

theorem QuoteState.Sound.afterWord (h : s.Sound) : s.afterWord.Sound := by
  intro quote hq
  cases s with
  | ordinary => cases hq
  | opening => cases hq
  | inside quote' => exact h quote hq

theorem QuoteState.Sound.next_eq (h : s.Sound) (hc : isNameChar c = true) :
    s.next c = s.afterWord := by
  cases s with
  | ordinary => rw [QuoteState.next, if_neg (ne_of_isNameChar hc (by decide))]; rfl
  | opening =>
      rw [QuoteState.next, if_neg, if_neg]
      · rfl
      · rintro (rfl | hs)
        · exact absurd hc (by decide)
        · rw [isSpace_of_isNameChar hc] at hs
          cases hs
      · rintro (rfl | rfl) <;> exact absurd hc (by decide)
  | inside quote =>
      have hquote : isNameChar quote = false := by rcases h quote rfl with rfl | rfl <;> decide
      rw [QuoteState.next, if_neg (ne_of_isNameChar hc hquote)]
      rfl

theorem QuoteState.afterWord_afterWord (s : QuoteState) : s.afterWord.afterWord = s.afterWord := by
  cases s <;> rfl

theorem spanTag?_word (hs : s.Sound) (hne : w ≠ []) (hw : ∀ c ∈ w, isNameChar c = true) (t : Text) :
    spanTag? s (w ++ t) = (spanTag? s.afterWord t).map fun p => (w ++ p.1, p.2) := by
  induction w generalizing s with
  | nil => exact absurd rfl hne
  | cons c w ih =>
      have hc := hw c List.mem_cons_self
      rw [List.cons_append, spanTag?_cons fun h => absurd h (ne_of_isNameChar hc (by decide)), hs.next_eq hc]
      by_cases hn : w = []
      · subst hn
        rfl
      · rw [ih hs.afterWord hn fun d hd => hw d (List.mem_cons_of_mem _ hd),
          QuoteState.afterWord_afterWord, Option.map_map]
        rfl

/-- The end of a start tag is at the same symbol under every registry. -/
theorem exists_spanTag? (hz : Delimited z) (hs : s.Sound) :
    (∀ r : Registry, r.WellFormed → spanTag? s (spell r.spelling z) = none) ∨
      ∃ x y, z = x ++ .char '>' :: y ∧ ∀ r : Registry, r.WellFormed →
        spanTag? s (spell r.spelling z) = some (spell r.spelling x, spell r.spelling y) := by
  induction z generalizing s with
  | nil => exact .inl fun _ _ => rfl
  | cons a z ih =>
      -- Any symbol that does not end the tag is put in front of what the rest gives.
      have hcons : ∀ s' : QuoteState, s'.Sound → (∀ r : Registry, r.WellFormed →
          spanTag? s (spell r.spelling (a :: z)) = (spanTag? s' (spell r.spelling z)).map
            fun p => (a.spell r.spelling ++ p.1, p.2)) →
          (∀ r : Registry, r.WellFormed → spanTag? s (spell r.spelling (a :: z)) = none) ∨
            ∃ x y, a :: z = x ++ .char '>' :: y ∧ ∀ r : Registry, r.WellFormed →
              spanTag? s (spell r.spelling (a :: z)) =
                some (spell r.spelling x, spell r.spelling y) := by
        intro s' hs' h
        rcases ih hz.tail hs' with hn | ⟨x, y, rfl, hxy⟩
        · exact .inl fun r hr => by rw [h r hr, hn r hr]; rfl
        · exact .inr ⟨a :: x, y, rfl, fun r hr => by rw [h r hr, hxy r hr]; rfl⟩
      cases a with
      | char c =>
          rcases closes_or_not s c with ⟨rfl, hclose⟩ | hopen
          · exact .inr ⟨[], z, rfl, fun _ _ => spanTag?_close hclose _⟩
          · exact hcons _ (hs.next c) fun r _ => spanTag?_cons hopen _
      | delimiter d =>
          exact hcons _ hs.afterWord fun r hr => spanTag?_word hs (hr.spell_ne_nil hz.head)
            (hr.isNameChar_spell hz.head rfl) _
      | mark =>
          exact hcons _ hs.afterWord fun r hr => spanTag?_word hs (hr.spell_ne_nil hz.head)
            (hr.isNameChar_spell hz.head rfl) _

/-- A start tag takes the same symbols under every registry. -/
theorem exists_read? (hz : Delimited z) (hs : Spaced false z) :
    (∀ r : Registry, r.WellFormed → StartTag.read? (spell r.spelling z) = none) ∨
      ∃ n a y, z = n ++ (a ++ .char '>' :: y) ∧ ∀ r : Registry, r.WellFormed →
        StartTag.read? (spell r.spelling z) =
          some (⟨spell r.spelling n, spell r.spelling a⟩, spell r.spelling y) := by
  have hsplit := List.takeWhile_append_dropWhile (p := Symbol.isWord) (l := z)
  generalize hn : z.takeWhile Symbol.isWord = n at hsplit
  generalize hq : z.dropWhile Symbol.isWord = q at hsplit
  have hdq : Delimited q := fun d hd => hz d (hsplit ▸ List.mem_append_right _ hd)
  obtain ⟨o, ho⟩ := exists_head?_spell hz hs
  have hrest : ∃ o', ∀ r : Registry, r.WellFormed → (spell r.spelling q).head? = o' := by
    have hhead := List.head?_dropWhile_not Symbol.isWord z
    rw [hq] at hhead
    cases q with
    | nil => exact ⟨none, fun _ _ => rfl⟩
    | cons a q =>
        obtain ⟨c, rfl, -⟩ := not_isWord (by simpa using hhead)
        exact ⟨some c, fun _ _ => rfl⟩
  obtain ⟨o', ho'⟩ := hrest
  have hread : ∀ r : Registry, r.WellFormed → StartTag.read? (spell r.spelling z) =
      if o.any Char.isAlpha && o'.any fun c => isSpace c || c == '/' || c == '>' then
        (spanTag? .ordinary (spell r.spelling q)).map fun p => (⟨spell r.spelling n, p.1⟩, p.2)
      else none := by
    intro r hr
    obtain ⟨htake, hdrop⟩ := span_word_spell hr hz
    rw [StartTag.read?, htake, hdrop, hn, hq, ho r hr, endsName, ho' r hr]
  by_cases hc : (o.any Char.isAlpha && o'.any fun c => isSpace c || c == '/' || c == '>') = true
  · rcases exists_spanTag? hdq QuoteState.sound_ordinary with h | ⟨a, y, rfl, h⟩
    · exact .inl fun r hr => by rw [hread r hr, if_pos hc, h r hr]; rfl
    · exact .inr ⟨n, a, y, hsplit.symm, fun r hr => by rw [hread r hr, if_pos hc, h r hr]; rfl⟩
  · exact .inl fun r hr => by rw [hread r hr, if_neg hc]

/-! ### End tags -/

/-- A character that stands in no substitute and for no space, in any case. -/
def isSolid (c : Char) : Bool :=
  !isSpace c.toLower && c.toLower != '_'

/-- Taking an expected text off the front, character by character, up to what counts as the same. -/
structure TakesOff (same : Char → Char → Prop) (take : Text → Text → Option Text) : Prop where
  nil : ∀ t, take [] t = some t
  empty : ∀ c u, take (c :: u) [] = none
  next : ∀ {c d}, same c d → ∀ u t, take (c :: u) (d :: t) = take u t
  other : ∀ {c d}, ¬ same c d → ∀ u t, take (c :: u) (d :: t) = none

theorem takesOff_after? : TakesOff (· = ·) Text.after? where
  nil _ := rfl
  empty _ _ := rfl
  next h _ _ := if_pos h
  other h _ _ := if_neg h

theorem takesOff_afterIgnoringCase? :
    TakesOff (fun c d => c.toLower = d.toLower) Text.afterIgnoringCase? where
  nil _ := rfl
  empty _ _ := rfl
  next h _ _ := if_pos h
  other h _ _ := if_neg h

/-- A text that is expected at some place takes the same symbols there under every registry. -/
theorem TakesOff.exists_spell {same : Char → Char → Prop} {take : Text → Text → Option Text}
    (htake : TakesOff same take) (hspace : ∀ c ∈ u, ∀ d, same c d → isSpace d = false)
    (hwrap : ∀ c ∈ u, ¬ same c '_') (hz : Delimited z) (hs : Spaced false z) :
    (∀ r : Registry, r.WellFormed → take u (spell r.spelling z) = none) ∨
      ∃ y, y.length ≤ z.length ∧ Delimited y ∧ Spaced false y ∧ ∀ r : Registry, r.WellFormed →
        take u (spell r.spelling z) = some (spell r.spelling y) := by
  induction u generalizing z with
  | nil => exact .inr ⟨z, Nat.le_refl _, hz, hs, fun _ _ => htake.nil _⟩
  | cons c u ih =>
      cases z with
      | nil => exact .inl fun _ _ => htake.empty c u
      | cons a z =>
          cases a with
          | char e =>
              by_cases he : same c e
              · have hs' : Spaced false z := hspace c List.mem_cons_self e he ▸ hs
                have hcons : ∀ r : Registry, take (c :: u) (spell r.spelling (.char e :: z)) =
                    take u (spell r.spelling z) := fun r => htake.next he u _
                rcases ih (fun d hd => hspace d (List.mem_cons_of_mem _ hd))
                    (fun d hd => hwrap d (List.mem_cons_of_mem _ hd)) hz.tail hs' with
                  h | ⟨y, hl, hy, hsy, h⟩
                · exact .inl fun r hr => (hcons r).trans (h r hr)
                · exact .inr ⟨y, Nat.le_succ_of_le hl, hy, hsy,
                    fun r hr => (hcons r).trans (h r hr)⟩
              · exact .inl fun r _ => htake.other he u _
          | delimiter d =>
              refine .inl fun r hr => ?_
              obtain ⟨t, ht⟩ := (hr.isSubstitute_spelling (hz d List.mem_cons_self)).eq_cons
              rw [spell_cons, Symbol.spell, ht]
              exact htake.other (hwrap c List.mem_cons_self) u _
          | mark => cases hs.1

theorem toLower_of_isSpace (h : isSpace c = true) : c.toLower = c := by
  rcases toLower_eq_or_isLower c with h' | h'
  · exact h'
  · simp only [isSpace, Bool.or_eq_true, beq_iff_eq] at h
    rcases h with (((rfl | rfl) | rfl) | rfl) | rfl <;> rfl

theorem exists_afterIgnoringCase? (hu : ∀ c ∈ u, isSolid c = true) (hz : Delimited z)
    (hs : Spaced false z) :
    (∀ r : Registry, r.WellFormed → Text.afterIgnoringCase? u (spell r.spelling z) = none) ∨
      ∃ y, y.length ≤ z.length ∧ Delimited y ∧ Spaced false y ∧ ∀ r : Registry, r.WellFormed →
        Text.afterIgnoringCase? u (spell r.spelling z) = some (spell r.spelling y) := by
  have hsolid : ∀ c ∈ u, isSpace c.toLower = false ∧ c.toLower ≠ '_' := fun c hc => by
    simpa [isSolid] using hu c hc
  refine takesOff_afterIgnoringCase?.exists_spell (fun c hc d hd => ?_)
    (fun c hc => (hsolid c hc).2) hz hs
  refine Bool.eq_false_iff.2 fun h => ?_
  have hspace := (hsolid c hc).1
  rw [hd, toLower_of_isSpace h, h] at hspace
  cases hspace

/-- The same with the case as expected. -/
theorem exists_after? (hu : ∀ c ∈ u, isSpace c = false ∧ c ≠ '_') (hz : Delimited z)
    (hs : Spaced false z) :
    (∀ r : Registry, r.WellFormed → Text.after? u (spell r.spelling z) = none) ∨
      ∃ y, y.length ≤ z.length ∧ Delimited y ∧ Spaced false y ∧ ∀ r : Registry, r.WellFormed →
        Text.after? u (spell r.spelling z) = some (spell r.spelling y) :=
  takesOff_after?.exists_spell (fun c hc _ hd => hd ▸ (hu c hc).1) (fun c hc => (hu c hc).2) hz hs

/-- Whether an end tag follows is the same under every registry. -/
theorem exists_startsWithEndTag {name : Text} (hn : ∀ c ∈ name, isSolid c = true)
    (hz : Delimited z) (hs : Spaced false z) :
    ∃ b, ∀ r : Registry, r.WellFormed → startsWithEndTag name (spell r.spelling z) = b := by
  have hu : ∀ c ∈ endTag name, isSolid c = true := by
    intro c hc
    simp only [endTag, List.mem_append, List.mem_cons, List.not_mem_nil, or_false] at hc
    rcases hc with (rfl | rfl | hc) | rfl
    · rfl
    · rfl
    · exact hn c hc
    · rfl
  rcases exists_afterIgnoringCase? hu hz hs with h | ⟨y, -, -, -, h⟩
  · exact ⟨false, fun r hr => by rw [startsWithEndTag, h r hr]; rfl⟩
  · exact ⟨true, fun r hr => by rw [startsWithEndTag, h r hr]; rfl⟩

theorem exists_closesElement {name : Text} (hn : ∀ c ∈ name, isSolid c = true)
    (hz : Delimited z) (hs : Spaced false z) :
    ∃ b, ∀ r : Registry, r.WellFormed → closesElement name (spell r.spelling z) = b := by
  rcases exists_afterIgnoringCase? hn hz hs with h | ⟨y, -, hy, hsy, h⟩
  · exact ⟨false, fun r hr => by rw [closesElement, h r hr]⟩
  · obtain ⟨o, ho⟩ := exists_head?_spell hy hsy
    refine ⟨o.isNone || o.any fun c => isSpace c || c == '/' || c == '>', fun r hr => ?_⟩
    rw [closesElement, h r hr, ← ho r hr]
    cases spell r.spelling y <;> rfl

/-! ### The content of an element of plain text -/

/-- Symbols of which the content of an element of plain text takes the same under every registry. -/
def SpansAlike (name : Text) (z : List Symbol) : Prop :=
  ∃ x y, z = x ++ y ∧ ∀ r : Registry, r.WellFormed →
    spanContent name (spell r.spelling z) = (spell r.spelling x, spell r.spelling y)

/-- A symbol that no end tag starts with belongs to the content. -/
theorem SpansAlike.cons {name : Text} {a : Symbol} (hz : SpansAlike name z)
    (h : ∀ r : Registry, r.WellFormed → spanContent name (spell r.spelling (a :: z)) =
      (a.spell r.spelling ++ (spanContent name (spell r.spelling z)).1,
        (spanContent name (spell r.spelling z)).2)) : SpansAlike name (a :: z) := by
  obtain ⟨x, y, rfl, hxy⟩ := hz
  exact ⟨a :: x, y, rfl, fun r hr => by rw [h r hr, hxy r hr]; rfl⟩

theorem SpansAlike.word {name : Text} {a : Symbol} (hz : SpansAlike name z)
    (ha : ∀ d, a = .delimiter d → d ∈ delimiters) (hw : a.isWord = true) :
    SpansAlike name (a :: z) :=
  hz.cons fun r hr => spanContent_word (fun c hc => ne_of_isNameChar
    (hr.isNameChar_spell ha hw c hc) (by decide)) _

/-- An end tag ends the content if it is that of the element. -/
theorem SpansAlike.endTag {name : Text} (hn : ∀ c ∈ name, isSolid c = true) (hd : Delimited z)
    (hs : Spaced false z) (hz : SpansAlike name z) :
    SpansAlike name (.char '<' :: .char '/' :: z) := by
  obtain ⟨closes, hcl⟩ := exists_closesElement hn hd hs
  cases closes with
  | true =>
      refine ⟨[], .char '<' :: .char '/' :: z, rfl, fun r hr => ?_⟩
      change spanContent name ('<' :: '/' :: spell r.spelling z) = _
      rw [spanContent, if_pos (hcl r hr)]
      rfl
  | false =>
      obtain ⟨x, y, rfl, hxy⟩ := hz
      refine ⟨.char '<' :: .char '/' :: x, y, rfl, fun r hr => ?_⟩
      change spanContent name ('<' :: '/' :: spell r.spelling (x ++ y)) = _
      rw [spanContent_solidus (hcl r hr), hxy r hr]
      rfl

theorem spansAlike {name : Text} (hn : ∀ c ∈ name, isSolid c = true) (hz : Delimited z)
    (hs : Spaced b z) : SpansAlike name z := by
  induction hl : z.length using Nat.strongRecOn generalizing z b with
  | ind n ih =>
      cases z with
      | nil => exact ⟨[], [], rfl, fun _ _ => rfl⟩
      | cons a z =>
          rw [List.length_cons] at hl
          have hlt : z.length < n := hl ▸ Nat.lt_succ_self _
          cases a with
          | delimiter d => exact (ih z.length hlt hz.tail (b := false) hs rfl).word hz.head rfl
          | mark => exact (ih z.length hlt hz.tail hs.2 rfl).word hz.head rfl
          | char c =>
              have hrec : SpansAlike name z := ih z.length hlt hz.tail (b := isSpace c) hs rfl
              by_cases hc : c = '<'
              · subst hc
                by_cases hslash : ∃ y, z = .char '/' :: y
                · obtain ⟨y, rfl⟩ := hslash
                  have hs : Spaced false y := hs
                  have hy := ih y.length (Nat.lt_of_succ_lt hlt) hz.tail.tail hs rfl
                  exact hy.endTag hn hz.tail.tail hs
                · exact hrec.cons fun r hr => spanContent_cons (.inr (head?_spell_ne hr hz.tail
                    (by decide) fun y hy => hslash ⟨y, hy⟩))
              · exact hrec.cons fun r _ => spanContent_cons (.inl hc)

end AmpMarkup.Source
