import AmpMarkup.Proofs.Html.FragmentTokens
import AmpMarkup.Proofs.Html.TagEnd

/-! Where a start tag ends in markup that has not been read as HTML yet. The scan and the reader of
HTML agree on it as long as they agree on which quotes open a value. They need not: to the scan every
equals sign lets a quote open a value, to the reader only one behind the name of an attribute. -/

namespace AmpMarkup.Source

open Html (State TagPlace Token)

/-- Up to the end of a tag, every quote that opens a value for the scan does so for the reader. -/
def quotesAgree : QuoteState → TagPlace → Text → Bool
  | _, _, [] => true
  | s, p, c :: t =>
    p.closes c ||
      (!(s == .opening && (c == '"' || c == '\'')) || p == .beforeValue) &&
        quotesAgree (s.next c) (p.next c) t

/-- What the scan and the reader know at the same place of a tag: they are inside the same quoted
value, and where the reader lets a quote open one, the scan does. -/
structure InStep (s : QuoteState) (p : TagPlace) : Prop where
  inside : ∀ quote, s = .inside quote ↔ p = .quoted quote
  opening : p = .beforeValue → s = .opening

variable {s : QuoteState} {p : TagPlace} {c : Char} {t name rest : Text}

theorem InStep.closes (h : InStep s p) (c : Char) (t : Text) :
    (spanTag? s (c :: t)).map Prod.snd =
      if p.closes c then some t else (spanTag? (s.next c) t).map Prod.snd := by
  have hmap : ((spanTag? (s.next c) t).map fun p => (c :: p.1, p.2)).map Prod.snd =
      (spanTag? (s.next c) t).map Prod.snd := by
    rw [Option.map_map]
    rfl
  cases s with
  | inside quote =>
      rw [(h.inside quote).mp rfl]
      exact hmap
  | ordinary | opening =>
      have hp : p.closes c = (c == '>') := by
        cases p with
        | quoted quote => cases (h.inside quote).mpr rfl
        | between | name | beforeValue | unquoted => rfl
      rw [hp]
      by_cases hc : c = '>'
      · subst hc
        rfl
      · rw [beq_false_of_ne hc, if_neg Bool.false_ne_true, ← hmap]
        congr 1
        rw [spanTag?]
        · rintro - rfl
          exact hc rfl
        · rintro - rfl
          exact hc rfl

/-- Outside of a value in quotes only equals signs and spaces let a quote open one. -/
theorem InStep.of_ne (hs : ∀ quote, s ≠ .inside quote) (hp : ∀ quote, p ≠ .quoted quote)
    (h : p = .beforeValue → s = .opening) : InStep s p :=
  ⟨fun quote => iff_of_false (hs quote) (hp quote), h⟩

theorem next_ne_inside (hs : ∀ quote, s ≠ .inside quote)
    (hq : s = .opening → ¬ (c = '"' ∨ c = '\'')) (quote : Char) : s.next c ≠ .inside quote := by
  cases s with
  | inside q => exact absurd rfl (hs q)
  | ordinary =>
      rw [QuoteState.next]
      split <;> simp
  | opening =>
      rw [QuoteState.next, if_neg (hq rfl)]
      split <;> simp

theorem next_equals (hs : ∀ quote, s ≠ .inside quote) : s.next '=' = .opening := by
  cases s with
  | inside q => exact absurd rfl (hs q)
  | ordinary | opening => rfl

/-- A value is awaited only behind an equals sign. -/
theorem eq_equals_of_next (hp : p ≠ .beforeValue) (h : p.next c = .beforeValue) : c = '=' := by
  cases p with
  | beforeValue => exact absurd rfl hp
  | name =>
      rw [TagPlace.next] at h
      split at h
      · cases h
      · split at h
        · assumption
        · cases h
  | between | quoted quote | unquoted =>
      rw [TagPlace.next] at h
      split at h <;> cases h

theorem next_ne_quoted (hp : ∀ quote, p ≠ .quoted quote) (hv : p ≠ .beforeValue) (quote : Char) :
    p.next c ≠ .quoted quote := by
  cases p with
  | quoted q => exact absurd rfl (hp q)
  | beforeValue => exact absurd rfl hv
  | between | unquoted =>
      rw [TagPlace.next]
      split <;> simp
  | name =>
      rw [TagPlace.next]
      split
      · simp
      · split <;> simp

/-- A character that leaves both inside the tag. -/
theorem InStep.next (h : InStep s p)
    (hq : s = .opening → c = '"' ∨ c = '\'' → p = .beforeValue) :
    InStep (s.next c) (p.next c) := by
  by_cases hv : p = .beforeValue
  · obtain rfl := h.opening hv
    subst hv
    by_cases hspace : isSpace c = true
    · have hquote : ¬ (c = '"' ∨ c = '\'') := by
        rintro (rfl | rfl) <;> cases hspace
      rw [QuoteState.next, if_neg hquote, if_pos (.inr hspace), TagPlace.next, if_pos hspace]
      exact h
    by_cases hquote : c = '"' ∨ c = '\''
    · rw [QuoteState.next, if_pos hquote, TagPlace.next, if_neg hspace, if_pos hquote]
      exact ⟨fun quote => by simp, fun he => by cases he⟩
    · rw [TagPlace.next, if_neg hspace, if_neg hquote]
      exact .of_ne (next_ne_inside (fun quote => by simp) fun _ => hquote)
        (fun quote => by simp) fun he => by cases he
  by_cases hp : ∃ quote, p = .quoted quote
  · obtain ⟨quote, rfl⟩ := hp
    obtain rfl := (h.inside quote).mpr rfl
    rw [QuoteState.next, TagPlace.next]
    split
    · exact .of_ne (fun quote => by simp) (fun quote => by simp) fun he => by cases he
    · exact h
  · have hs : ∀ quote, s ≠ .inside quote := fun quote he => hp ⟨quote, (h.inside quote).mp he⟩
    refine .of_ne (next_ne_inside hs fun ho hc => hv (hq ho hc))
      (next_ne_quoted (fun quote he => hp ⟨quote, he⟩) hv) fun he => ?_
    rw [eq_equals_of_next hv he]
    exact next_equals hs

/-- The scan and the reader find the same end of a tag. -/
theorem InStep.rest?_eq (h : InStep s p) (hq : quotesAgree s p t = true) :
    (spanTag? s t).map Prod.snd = p.rest? t := by
  induction t generalizing s p with
  | nil => rfl
  | cons c t ih =>
      rw [h.closes, TagPlace.rest?]
      rw [quotesAgree, Bool.or_eq_true, Bool.and_eq_true] at hq
      split
      · rfl
      · next hc =>
          obtain ⟨hquote, hrest⟩ := hq.resolve_left hc
          refine ih (h.next fun hs hd => ?_) hrest
          rcases hd with rfl | rfl <;> simpa [hs] using hquote

/-! ### From the name on -/

theorem afterStartTag?_goto {s s' : State} (h : s.step c t = .goto s' t) :
    s.afterStartTag? (c :: t) = s'.afterStartTag? t := by
  rw [State.afterStartTag?, h, if_neg (by exact Bool.false_ne_true)]
  rfl

/-- The reader stays in the name of a start tag while the name goes on. -/
theorem exists_nameRest {u : Text} (hu : ∀ c ∈ u, isNameChar c = true) (rest : Text)
    (tag : Html.TagDraft) (ht : tag.isEnd = false) : ∃ tag' : Html.TagDraft, tag'.isEnd = false ∧
      (State.tagName tag).afterStartTag? (u ++ rest) = (State.tagName tag').afterStartTag? rest ∧
      (State.tagName tag).tokens (u ++ rest) = (State.tagName tag').tokens rest := by
  induction u generalizing tag with
  | nil => exact ⟨tag, ht, rfl, rfl⟩
  | cons c u ih =>
      have hc := hu c List.mem_cons_self
      have hstep : (State.tagName tag).step c (u ++ rest) =
          .goto (.tagName { tag with name := tag.name ++ [c.toLower] }) (u ++ rest) := by
        rw [State.step, isSpace_of_isNameChar hc, if_neg Bool.false_ne_true,
          if_neg (ne_of_isNameChar hc (by decide)), if_neg (ne_of_isNameChar hc (by decide))]
      obtain ⟨tag', ht', hafter, htokens⟩ := ih (fun d hd => hu d (List.mem_cons_of_mem _ hd))
        { tag with name := tag.name ++ [c.toLower] } ht
      refine ⟨tag', ht', ?_, ?_⟩
      · rw [List.cons_append, afterStartTag?_goto hstep, hafter]
      · rw [List.cons_append, State.tokens_goto hstep, htokens]

/-- The reader goes through the name of a start tag. -/
theorem exists_tagName (hn : name.head?.any Char.isAlpha = true)
    (hname : ∀ c ∈ name, isNameChar c = true) (rest : Text) : ∃ tag : Html.TagDraft,
      tag.isEnd = false ∧
      (State.content .markup).afterStartTag? ('<' :: (name ++ rest)) =
        (State.tagName tag).afterStartTag? rest ∧
      Token.ofText ('<' :: (name ++ rest)) = (State.tagName tag).tokens rest := by
  cases name with
  | nil => cases hn
  | cons c u =>
      have hc := hname c List.mem_cons_self
      have hopen : (State.content .markup).step '<' (c :: (u ++ rest)) =
          .goto .tagOpen (c :: (u ++ rest)) := rfl
      have hstart : State.tagOpen.step c (u ++ rest) =
          .goto (.tagName ⟨false, [c.toLower], []⟩) (u ++ rest) := by
        rw [State.step, if_neg (ne_of_isNameChar hc (by decide)),
          if_neg (ne_of_isNameChar hc (by decide)), if_pos (by simpa using hn)]
      obtain ⟨tag, ht, hafter, htokens⟩ := exists_nameRest
        (fun d hd => hname d (List.mem_cons_of_mem _ hd)) rest ⟨false, [c.toLower], []⟩ rfl
      refine ⟨tag, ht, ?_, ?_⟩
      · rw [List.cons_append, afterStartTag?_goto hopen, afterStartTag?_goto hstart, hafter]
      · rw [Token.ofText, List.cons_append, State.tokens_goto hopen, State.tokens_goto hstart,
          htokens]

/-- What ends the name of a tag is read as if an attribute might start there. -/
theorem step_tagName (hr : endsName (c :: t) = true) (tag : Html.TagDraft) :
    (State.tagName tag).step c t = (State.beforeAttribute tag).step c t := by
  simp only [State.step, Html.Step.beforeAttribute]
  simp only [endsName, List.head?_cons, Option.any_some, Bool.or_eq_true, beq_iff_eq] at hr
  rcases hr with (hr | rfl) | rfl
  · rw [if_pos hr, if_pos hr]
  · rfl
  · rfl

/-- Scan and reader agree on where a start tag ends if they agree on its quotes: the scan finds a tag
with the same text left as the reader, and it finds none exactly if the reader drops the tag. -/
theorem read?_eq_afterStartTag? (hn : name.head?.any Char.isAlpha = true)
    (hname : ∀ c ∈ name, isNameChar c = true) (hr : endsName rest = true)
    (hq : quotesAgree .ordinary .between rest = true) :
    (StartTag.read? (name ++ rest)).map Prod.snd =
        (State.content .markup).afterStartTag? ('<' :: (name ++ rest)) ∧
      (StartTag.read? (name ++ rest) = none ↔
        Token.ofText ('<' :: (name ++ rest)) = [.endOfFile]) := by
  obtain ⟨tag, ht, hafter, htokens⟩ := exists_tagName hn hname rest
  cases rest with
  | nil => cases hr
  | cons c t =>
      have hc : isNameChar c = false := by
        simp only [endsName, List.head?_cons, Option.any_some, Bool.or_eq_true, beq_iff_eq] at hr
        rcases hr with (hr | rfl) | rfl
        · exact isNameChar_of_isSpace hr
        · decide
        · decide
      have htake : (name ++ c :: t).takeWhile isNameChar = name := by
        rw [List.takeWhile_append_of_pos hname, List.takeWhile_cons_of_neg (by simp [hc]),
          List.append_nil]
      have hdrop : (name ++ c :: t).dropWhile isNameChar = c :: t := by
        rw [List.dropWhile_append_of_pos hname, List.dropWhile_cons_of_neg (by simp [hc])]
      have hhead : (name ++ c :: t).head?.any Char.isAlpha = true := by
        cases name with
        | nil => cases hn
        | cons d u => exact hn
      have hscan : StartTag.read? (name ++ c :: t) =
          (spanTag? .ordinary (c :: t)).map fun p => (⟨name, p.1⟩, p.2) := by
        rw [StartTag.read?, htake, hdrop, hhead, hr]
        rfl
      -- Both stand between attributes now, and from there they agree as they agree on the quotes.
      have hstep : InStep .ordinary .between :=
        .of_ne (fun quote => by simp) (fun quote => by simp) fun he => by cases he
      have hspan := hstep.rest?_eq hq
      have hat : (State.beforeAttribute tag).At .between := ⟨ht, rfl⟩
      obtain ⟨hreader, hdropped⟩ := hat.afterStartTag? (c :: t)
      have hsame : (State.tagName tag).afterStartTag? (c :: t) =
          (State.beforeAttribute tag).afterStartTag? (c :: t) := by
        rw [State.afterStartTag?, State.afterStartTag?, step_tagName hr]
      have htokens' : (State.tagName tag).tokens (c :: t) =
          (State.beforeAttribute tag).tokens (c :: t) := by
        rw [State.tokens_cons, State.tokens_cons, step_tagName hr]
      refine ⟨?_, ?_⟩
      · rw [hafter, hsame, hreader, ← hspan, hscan, Option.map_map]
        rfl
      · rw [htokens, htokens', ← hdropped, ← hspan, hscan, Option.map_eq_none_iff,
          Option.map_eq_none_iff]

/-- Quotes where the reader awaits a value, inside a value, and behind a name without one. -/
theorem read?_eq_afterStartTag?_quotes :
    ((StartTag.read? "a title = '>' b\">c").map Prod.snd =
        (State.content .markup).afterStartTag? "<a title = '>' b\">c") ∧
      (StartTag.read? "a title = '>' b\">c" = none ↔
        Token.ofText "<a title = '>' b\">c" = [.endOfFile]) :=
  @read?_eq_afterStartTag? "a".toList " title = '>' b\">c".toList (by decide)
    (List.all_eq_true.1 (by decide : "a".toList.all isNameChar = true)) (by decide) (by decide)

/-- After an equals sign that starts a name the scan takes a quote for the start of a value. -/
example : StartTag.read? "br =\">" = none ∧
    (State.content .markup).afterStartTag? "<br =\">" = some [] := by
  decide +kernel

end AmpMarkup.Source
