import AmpMarkup.Css.AtRule
import AmpMarkup.Proofs.Css.ClearReading

/-! The at-rules of a stylesheet with its line ends normalised: a stylesheet whose strings and escapes
meet no line end other than a line feed has the same tokens with line ends of any form. -/

namespace AmpMarkup.Css

variable {c : Char} {t u : Text}

/-- Whether the escapes of the token with this first character, or its string, are clear. -/
def clearToken (c : Char) (t : Text) : Bool :=
  if isSpace c then true
  else if c = '"' ∨ c = '\'' then clearString c t
  else if startsNumber (c :: t) then
    !startsName (readNumber (c :: t)).2 || clearName (readNumber (c :: t)).2
  else if c = '-' ∧ t.startsWith "->" then true
  else if startsName (c :: t) then clearIdentLike (c :: t)
  else if c = '#' ∧ (t.head?.any isNameChar ∨ (t.head? = some '\\' ∧ escapes t.tail)) then clearName t
  else if c = '@' ∧ startsName t then clearName t
  else true

/-- Whether no string and no escape of the stylesheet meets a line end other than a line feed. -/
def clearOfLineEnds (css : Text) : Bool :=
  match _h : dropComments css with
  | [] => true
  | c :: t => clearToken c t && clearOfLineEnds (readToken c t).2
termination_by css.length
decreasing_by
  have hd := dropComments_length_le css
  have ht := readToken_length_le c t
  rw [_h, List.length_cons] at hd
  omega

/-! ### Tokens -/

theorem startsHash_normalizeLineEnds
    (h : t.head?.any isNameChar ∨ (t.head? = some '\\' ∧ escapes t.tail) → clearName t = true) :
    (normalizeLineEnds t).head?.any isNameChar ∨
        ((normalizeLineEnds t).head? = some '\\' ∧ escapes (normalizeLineEnds t).tail) ↔
      t.head?.any isNameChar ∨ (t.head? = some '\\' ∧ escapes t.tail) := by
  rw [any_head?_normalizeLineEnds rfl fun _ => isNameChar_of_endsLine]
  cases t with
  | nil => rfl
  | cons c t =>
      by_cases hb : c = '\\'
      · subst hb
        rw [normalizeLineEnds_cons (by rfl), List.tail_cons, List.tail_cons,
          escapes_normalizeLineEnds_eq fun he => clearEscape_of_clearName (h (.inr ⟨rfl, he⟩)) he]
        rfl
      · have hn : (normalizeLineEnds (c :: t)).head? ≠ some '\\' := by
          rw [head?_normalizeLineEnds, List.head?_cons, Option.map_some, ne_eq, Option.some_inj]
          split
          · decide
          · exact hb
        simp [hb, hn]

theorem readToken_normalizeLineEnds (hc : endsLine c = false) (h : clearToken c t = true) :
    readToken c (normalizeLineEnds t) =
      ((readToken c t).1, normalizeLineEnds (readToken c t).2) := by
  change _ = Prod.map id normalizeLineEnds (readToken c t)
  have hcons := normalizeLineEnds_cons hc t
  unfold clearToken at h
  simp only [readToken, apply_ite (Prod.map id normalizeLineEnds), ← hcons,
    startsNumber_normalizeLineEnds]
  -- Both texts give the token a kind by the same tests in the same order.
  refine ite_congr rfl (fun hs => ?_) fun hs => ?_
  · rw [dropWhile_isSpace_normalizeLineEnds]
    rfl
  rw [if_neg hs] at h
  refine ite_congr rfl (fun hq => ?_) fun hq => ?_
  · rw [if_pos hq] at h
    rw [readString_normalizeLineEnds hq h]
    obtain ⟨_ | value, rest⟩ := readString c t <;> rfl
  rw [if_neg hq] at h
  refine ite_congr rfl (fun hd => ?_) fun hd => ?_
  · rw [if_pos hd, Bool.or_eq_true, Bool.not_eq_true'] at h
    exact readNumeric_normalizeLineEnds fun hn => h.resolve_left (by simp [hn])
  rw [if_neg hd] at h
  refine ite_congr (by rw [startsWith_normalizeLineEnds rfl]) (fun hm => ?_) fun hm => ?_
  · exact congrArg _ (drop_normalizeLineEnds rfl hm.2)
  rw [if_neg hm] at h
  have hname : startsName (c :: t) = true → clearName (c :: t) = true := fun hn => by
    rw [if_pos hn, clearIdentLike, Bool.and_eq_true] at h
    exact h.1
  refine ite_congr (by rw [startsName_normalizeLineEnds hname]) (fun hn => ?_) fun hn => ?_
  · rw [if_pos hn] at h
    exact readIdentLike_normalizeLineEnds h
  rw [if_neg hn] at h
  refine ite_congr (propext (and_congr_right fun hh => ?_)) (fun hh => ?_) fun hh => ?_
  · refine startsHash_normalizeLineEnds fun hx => ?_
    rw [if_pos ⟨hh, hx⟩] at h
    exact h
  · rw [if_pos hh] at h
    rw [readName_normalizeLineEnds h]
    rfl
  rw [if_neg hh] at h
  refine ite_congr (propext (and_congr_right fun ha => ?_)) (fun ha => ?_) fun _ => ?_
  · rw [startsName_normalizeLineEnds fun hx => ?_]
    rw [if_pos ⟨ha, hx⟩] at h
    exact h
  · rw [if_pos ha] at h
    rw [readName_normalizeLineEnds h]
    rfl
  refine ite_congr (by rw [startsWith_normalizeLineEnds rfl]) (fun ho => ?_) fun _ => rfl
  exact congrArg _ (drop_normalizeLineEnds rfl ho.2)

/-- A line end is read as a space, and the spaces with line ends after it belong to the token. -/
theorem exists_readToken_normalizeLineEnds (h : clearToken c t = true) :
    ∃ d u, normalizeLineEnds (c :: t) = d :: u ∧
      readToken d u = ((readToken c t).1, normalizeLineEnds (readToken c t).2) := by
  cases hc : endsLine c with
  | true =>
      obtain ⟨u, hu, hn⟩ := normalizeLineEnds_endsLine hc t
      refine ⟨_, _, hn, ?_⟩
      rw [readToken, if_pos (by rfl), readToken, if_pos (isSpace_of_endsLine hc),
        dropWhile_isSpace_normalizeLineEnds]
      rcases hu with rfl | ⟨-, rfl⟩ <;> rfl
  | false =>
      exact ⟨c, normalizeLineEnds t, normalizeLineEnds_cons hc t, readToken_normalizeLineEnds hc h⟩

/-- Line ends of any form give the same tokens where no string and no escape meets one. -/
theorem Token.ofText_normalizeLineEnds (h : clearOfLineEnds t = true) :
    Token.ofText (normalizeLineEnds t) = Token.ofText t := by
  fun_induction clearOfLineEnds t with
  | case1 t hd =>
      have hn := dropComments_normalizeLineEnds t
      rw [hd, normalizeLineEnds] at hn
      rw [Token.ofText_of_dropComments_nil hn, Token.ofText_of_dropComments_nil hd]
  | case2 t c u hd ih =>
      rw [Bool.and_eq_true] at h
      have hn := dropComments_normalizeLineEnds t
      obtain ⟨d, v, hv, hr⟩ := exists_readToken_normalizeLineEnds h.1
      rw [hd, hv] at hn
      rw [Token.ofText_of_dropComments hn, Token.ofText_of_dropComments hd, hr, ih h.2]

/-- The forms of line ends do not change which at-rules are seen, as long as no string and no escape
meets one of them other than a line feed. -/
theorem atRules_normalizeLineEnds (css : Text) (h : clearOfLineEnds css = true) :
    atRules (normalizeLineEnds css) = atRules css :=
  congrArg (List.filterMap AtRule.ofToken?) (Token.ofText_normalizeLineEnds h)

/-- Pairs between tokens and behind an unfinished string, a return in a comment and a form feed. -/
theorem atRules_normalizeLineEnds_mixed :
    clearOfLineEnds "@media x\r\n\x0c\"a\r\n/*\\\r*/@-o-\\63 c\r" = true ∧
      normalizeLineEnds "@media x\r\n\x0c\"a\r\n/*\\\r*/@-o-\\63 c\r" =
        "@media x\n\n\"a\n/*\\\n*/@-o-\\63 c\n" ∧
      atRules (normalizeLineEnds "@media x\r\n\x0c\"a\r\n/*\\\r*/@-o-\\63 c\r") =
        atRules "@media x\r\n\x0c\"a\r\n/*\\\r*/@-o-\\63 c\r" :=
  ⟨by decide +kernel, by decide, atRules_normalizeLineEnds _ (by decide +kernel)⟩

/-- A carriage return does not end a string, and so hides the at-rule behind it. -/
example : clearOfLineEnds "\"\r@import" = false ∧ atRules "\"\r@import" = [] ∧
    atRules (normalizeLineEnds "\"\r@import") = [⟨"import", "import"⟩] := by
  decide +kernel

end AmpMarkup.Css
