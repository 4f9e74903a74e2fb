import Mathlib.Data.List.DropRight
import AmpMarkup.Proofs.Source.AttributeSpan

/-! The grammar of attribute spans: attributes in their written form, one after the other, and spaces
behind the last. A span splits exactly if it has this form, and then into the only attributes that
make it up. -/

namespace AmpMarkup.Source

variable {t u k : Text} {c : Char} {a : SourceAttribute} {as bs : List SourceAttribute}

/-- The attributes make up the span, with spaces behind the last one. -/
structure Splits (span : Text) (as : List SourceAttribute) : Prop where
  written : ∀ a ∈ as, a.Written
  source_eq : ∃ trailing, (∀ c ∈ trailing, isSpace c = true) ∧
    span = as.flatMap SourceAttribute.source ++ trailing

/-- Whether the text goes on with a space, if it goes on. -/
def EndsAttribute (t : Text) : Prop :=
  ∀ c, t.head? = some c → isSpace c = true

/-! ### Values -/

theorem spanThrough?_append {stop : Char} (hu : stop ∉ u) (t : Text) :
    spanThrough? stop (u ++ stop :: t) = some (u ++ [stop], t) := by
  induction u with
  | nil => simp [spanThrough?]
  | cons c u ih =>
      obtain ⟨hc, hu⟩ := not_or.1 (mt List.mem_cons.2 hu)
      rw [List.cons_append, spanThrough?, if_neg (Ne.symm hc), ih hu]
      rfl

/-- A value is read up to the space behind it. -/
theorem IsWrittenValue.readValue?_append (h : IsWrittenValue ('=' :: u)) (hk : EndsAttribute k) :
    readValue? (u ++ k) = some ('=' :: u, k) := by
  generalize hv : '=' :: u = v at h
  cases h with
  | @quoted quote inside hquote hinside =>
      obtain rfl := (List.cons.inj hv).2
      have hthrough := spanThrough?_append hinside k
      simp only [List.cons_append, List.append_assoc, List.nil_append]
      rw [readValue?, if_pos hquote, hthrough]
      rfl
  | @unquoted w hne hchars =>
      obtain rfl := (List.cons.inj hv).2
      obtain ⟨c, w, rfl⟩ := List.exists_cons_of_ne_nil hne
      obtain ⟨hdouble, hsingle, hspace⟩ := hchars c List.mem_cons_self
      have hw : ∀ d ∈ w, isUnquoted d = true := fun d hd =>
        isUnquoted_iff.2 (hchars d (List.mem_cons_of_mem _ hd))
      have hstop : ∀ d, k.head? = some d → isUnquoted d = false := by
        intro d hd
        simp [isUnquoted, hk d hd]
      rw [List.cons_append, readValue?, if_neg (by simp [hdouble, hsingle]), hspace,
        Text.takeWhile_append_stop hw hstop, Text.dropWhile_append_stop hw hstop]
      simp

theorem IsWrittenValue.exists_eq_concat {v : Text} (h : IsWrittenValue v) :
    ∃ before c, v = before ++ [c] ∧ isSpace c = false := by
  cases h with
  | @quoted quote inside hquote hinside =>
      refine ⟨'=' :: quote :: inside, quote, by simp, ?_⟩
      rcases hquote with rfl | rfl <;> decide
  | @unquoted w hne hchars =>
      refine ⟨'=' :: w.dropLast, w.getLast hne, by simp [List.dropLast_append_getLast], ?_⟩
      exact (hchars _ (List.getLast_mem hne)).2.2

namespace SourceAttribute.Written

/-! ### Attributes -/

/-- What stands behind the name of an attribute neither goes on with the name nor closes its bracket. -/
theorem head?_value (h : a.Written) (hk : EndsAttribute k) :
    ∀ c, (a.value.getD [] ++ k).head? = some c → c = '=' ∨ isSpace c = true := by
  intro c hc
  cases hv : a.value with
  | none => exact .inr (hk c (by simpa [hv] using hc))
  | some v =>
      obtain ⟨w, rfl⟩ := (h.value v hv).exists_eq_cons
      left
      simpa [hv, eq_comm] using hc

theorem readBracket_writtenName (h : a.Written) (k : Text) :
    readBracket '[' (a.writtenName ++ k) =
      (a.opened, a.name ++ ((if a.closed then [']'] else []) ++ k)) := by
  obtain ⟨c, name, hname⟩ := List.exists_cons_of_ne_nil h.name_ne
  have hc : c ≠ '[' := ne_of_isNameChar (h.name_chars c (hname ▸ List.mem_cons_self)) (by decide)
  cases ho : a.opened <;> simp [writtenName, readBracket, ho, hname, hc]

theorem readBracket_close (h : a.Written) (hk : EndsAttribute k) :
    readBracket ']' ((if a.closed then [']'] else []) ++ (a.value.getD [] ++ k)) =
      (a.closed, a.value.getD [] ++ k) := by
  have hhead := h.head?_value hk
  generalize a.value.getD [] ++ k = rest at hhead
  cases hc : a.closed with
  | true => simp [readBracket]
  | false =>
      cases rest with
      | nil => rfl
      | cons c rest =>
          have hne : c ≠ ']' := by
            rcases hhead c rfl with rfl | hs
            · decide
            · rintro rfl
              exact absurd hs (by decide)
          simp [readBracket, hne]

theorem endsWord_close (h : a.Written) (hk : EndsAttribute k) :
    EndsWord ((if a.closed then [']'] else []) ++ (a.value.getD [] ++ k)) := by
  intro c hc
  cases hclosed : a.closed with
  | true =>
      obtain rfl : ']' = c := by simpa [hclosed] using hc
      decide
  | false =>
      rcases h.head?_value hk c (by simpa [hclosed] using hc) with rfl | hs
      · decide
      · exact isNameChar_of_isSpace hs

/-- An attribute is read up to the space behind it. -/
theorem read?_append (h : a.Written) (hk : EndsAttribute k) :
    read? a.leading (a.writtenName ++ (a.value.getD [] ++ k)) = some (a, k) := by
  have hend := h.endsWord_close hk
  rw [read?, h.readBracket_writtenName]
  dsimp only
  rw [takeWhile_word h.name_chars hend, dropWhile_word h.name_chars hend, h.readBracket_close hk,
    if_neg (by simpa using h.name_ne)]
  obtain ⟨leading, opened, name, closed, value⟩ := a
  cases value with
  | some v =>
      have hv := h.value v rfl
      obtain ⟨w, rfl⟩ := hv.exists_eq_cons
      simp [hv.readValue?_append hk]
  | none =>
      dsimp only [Option.getD_none, List.nil_append]
      split
      · next t => exact absurd (hk '=' rfl) (by decide)
      · rfl

theorem exists_eq_concat (h : a.Written) :
    ∃ before c, a.source = before ++ [c] ∧ isSpace c = false := by
  rw [source]
  cases hv : a.value with
  | some v =>
      obtain ⟨before, c, rfl, hc⟩ := (h.value v hv).exists_eq_concat
      exact ⟨a.leading ++ a.writtenName ++ before, c, by simp, hc⟩
  | none =>
      cases hclosed : a.closed with
      | true =>
          refine ⟨a.leading ++ (if a.opened then ['['] else []) ++ a.name, ']', ?_, by decide⟩
          simp [writtenName, hclosed]
      | false =>
          have hlast := List.dropLast_append_getLast h.name_ne
          refine ⟨a.leading ++ (if a.opened then ['['] else []) ++ a.name.dropLast,
            a.name.getLast h.name_ne, ?_, ?_⟩
          · simp [writtenName, hclosed, hlast]
          · exact isSpace_of_isNameChar (h.name_chars _ (List.getLast_mem _))

end SourceAttribute.Written

/-! ### Spans -/

theorem splitAttributes?_spaces (ht : ∀ c ∈ t, isSpace c = true) : splitAttributes? t = some [] := by
  have hdrop : t.dropWhile isSpace = [] := List.dropWhile_eq_nil_iff.2 ht
  rw [splitAttributes?]
  split
  · rfl
  · next h => rw [hdrop] at h; cases h

/-- The attribute in front is split off first. -/
theorem splitAttributes?_append (h : a.Written) (hk : EndsAttribute k) :
    splitAttributes? (a.source ++ k) = (splitAttributes? k).map (a :: ·) := by
  have hname : ∀ c, (a.writtenName ++ (a.value.getD [] ++ k)).head? = some c →
      isSpace c = false := by
    intro c hc
    obtain ⟨d, name, hname⟩ := List.exists_cons_of_ne_nil h.name_ne
    cases ho : a.opened with
    | true =>
        obtain rfl : '[' = c := by simpa [SourceAttribute.writtenName, ho] using hc
        decide
    | false =>
        obtain rfl : d = c := by simpa [SourceAttribute.writtenName, ho, hname] using hc
        exact isSpace_of_isNameChar (h.name_chars d (hname ▸ List.mem_cons_self))
  have hsource : a.source ++ k = a.leading ++ (a.writtenName ++ (a.value.getD [] ++ k)) := by
    simp [SourceAttribute.source]
  have htake := Text.takeWhile_append_stop h.leading_space hname
  have hdrop := Text.dropWhile_append_stop h.leading_space hname
  have hread := h.read?_append hk
  rw [hsource, splitAttributes?, htake, hdrop]
  split
  · next hnil =>
      rw [hnil] at hread
      simp [SourceAttribute.read?, readBracket] at hread
  · next c rest hcons =>
      rw [if_neg (by simpa using h.leading_ne), ← hcons, hread]

/-- Attributes in their written form are split off one after the other. -/
theorem splitAttributes?_flatMap (h : ∀ a ∈ as, a.Written) (ht : ∀ c ∈ t, isSpace c = true) :
    splitAttributes? (as.flatMap SourceAttribute.source ++ t) = some as := by
  induction as with
  | nil => exact splitAttributes?_spaces ht
  | cons a as ih =>
      have hrest : ∀ b ∈ as, b.Written := fun b hb => h b (List.mem_cons_of_mem _ hb)
      have hend : EndsAttribute (as.flatMap SourceAttribute.source ++ t) := by
        intro c hc
        cases as with
        | nil => exact ht c (List.mem_of_head? hc)
        | cons b as =>
            have hb := hrest b List.mem_cons_self
            obtain ⟨d, leading, hl⟩ := List.exists_cons_of_ne_nil hb.leading_ne
            obtain rfl : d = c := by simpa [SourceAttribute.source, hl] using hc
            exact hb.leading_space d (hl ▸ List.mem_cons_self)
      rw [List.flatMap_cons, List.append_assoc, splitAttributes?_append (h a List.mem_cons_self) hend,
        ih hrest]
      rfl

theorem Splits.splitAttributes?_eq (h : Splits t as) : splitAttributes? t = some as := by
  obtain ⟨trailing, htrailing, rfl⟩ := h.source_eq
  exact splitAttributes?_flatMap h.written htrailing

/-- What stands behind the last attribute are the spaces at the end of the span. -/
theorem Splits.eq_append_rtakeWhile (h : Splits t as) :
    t = as.flatMap SourceAttribute.source ++ t.rtakeWhile isSpace := by
  obtain ⟨trailing, htrailing, rfl⟩ := h.source_eq
  have hlast : ∀ c, (as.flatMap SourceAttribute.source).reverse.head? = some c →
      isSpace c = false := by
    intro c hc
    rcases List.eq_nil_or_concat as with rfl | ⟨before, a, rfl⟩
    · simp at hc
    · obtain ⟨u, d, hu, hd⟩ := (h.written a (by simp)).exists_eq_concat
      obtain rfl : d = c := by simpa [hu] using hc
      exact hd
  have htake : trailing = (as.flatMap SourceAttribute.source ++ trailing).rtakeWhile isSpace := by
    rw [List.rtakeWhile, List.reverse_append, Text.takeWhile_append_stop (by simpa using htrailing) hlast,
      List.reverse_reverse]
  rw [← htake]

/-- A span splits exactly if attributes in their written form make it up, and then into the only ones
that do; behind them stand the spaces at the end of the span. -/
theorem splitAttributes?_grammar (t : Text) :
    ((splitAttributes? t).isSome = true ↔ ∃ as, Splits t as) ∧
      ∀ as, splitAttributes? t = some as →
        Splits t as ∧ (∀ bs, Splits t bs → bs = as) ∧
          t = as.flatMap SourceAttribute.source ++ t.rtakeWhile isSpace := by
  have hsplits : ∀ as, splitAttributes? t = some as → Splits t as := by
    intro as h
    obtain ⟨hwritten, hsource⟩ := splitAttributes?_spec h
    exact ⟨hwritten, hsource⟩
  refine ⟨?_, ?_⟩
  · rw [Option.isSome_iff_exists]
    exact exists_congr fun as => ⟨hsplits as, Splits.splitAttributes?_eq⟩
  · intro as h
    refine ⟨hsplits as h, ?_, (hsplits as h).eq_append_rtakeWhile⟩
    intro bs hbs
    exact Option.some.inj (hbs.splitAttributes?_eq.symm.trans h)

end AmpMarkup.Source
