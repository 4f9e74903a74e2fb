import AmpMarkup.Proofs.Html.TokenLikeness

/-! Markup that the same symbols spell under two registries is read as alike tokens. The reader takes
one symbol after the other: a character with what it looks ahead, a substitute as a whole, and a
mark together with the space before it. -/

namespace AmpMarkup.Html

open Source (Registry Symbol Alike AlikeUnmarked AlikeName Delimited Spaced spell)

variable {r r' : Registry} {s s' : State} {c : Char} {ts ts' : List Token} {z : List Symbol}

/-! ### Behind a space -/

/-- The states in which the reader is behind a space. -/
def State.BehindSpace : State → Prop
  | .content _ | .beforeAttribute _ | .afterAttributeName .. | .beforeValue .. => True
  | .inValue .. | .bogusComment _ | .comment _ | .beforeDoctypeName | .afterDoctypeName _ => True
  | _ => False

theorem content_space (hc : isSpace c = true) (reading : Reading) (k : Text) :
    Step.content reading c k = ⟨[.character c], .content reading, k⟩ := by
  have hne : ∀ d, isSpace d = false → c ≠ d := by
    rintro d hd rfl
    rw [hc] at hd
    cases hd
  cases reading with
  | markup => rw [Step.content, if_neg (hne '<' rfl), if_neg (hne '&' rfl)]
  | plain references element =>
      rw [Step.content, if_neg (hne '<' rfl), if_neg fun h => hne '&' rfl h.1,
        if_neg (hne '\x00' rfl)]

theorem step_space (hc : isSpace c = true) (s : State) (k : Text) :
    (s.step c k).rest = k ∧ (s.step c k).state.BehindSpace := by
  have hne : ∀ d, isSpace d = false → c ≠ d := by
    rintro d hd rfl
    rw [hc] at hd
    cases hd
  have halpha : c.isAlpha = false := by
    simp only [isSpace, Bool.or_eq_true, beq_iff_eq] at hc
    rcases hc with (((rfl | rfl) | rfl) | rfl) | rfl <;> rfl
  have hcomment : ∀ data, Step.comment data c k = .goto (.comment (data ++ [c])) k := fun data => by
    rw [Step.comment, if_neg (hne '-' rfl), if_neg (hne '\x00' rfl)]
  have hbogus : ∀ data, Step.bogusComment data c k = .goto (.bogusComment (data ++ [c])) k :=
    fun data => by rw [Step.bogusComment, if_neg (hne '>' rfl), if_neg (hne '\x00' rfl)]
  have hvalue : ∀ quoting tag name value, Step.valueCharacter quoting tag name value c k =
      .goto (.inValue quoting tag name (value ++ [c])) k := fun quoting tag name value => by
    rw [Step.valueCharacter, if_neg (hne '&' rfl)]
  have hsolidus := hne '/' rfl
  have hclose := hne '>' rfl
  have hdash := hne '-' rfl
  have hequals := hne '=' rfl
  cases s with
  | inValue quoting tag name value =>
      cases quoting with
      | double =>
          simp only [State.step, hvalue, hne '"' rfl, if_false]
          exact ⟨rfl, trivial⟩
      | single =>
          simp only [State.step, hvalue, hne '\'' rfl, if_false]
          exact ⟨rfl, trivial⟩
      | unquoted =>
          simp only [State.step, Step.unquotedValue, hc, if_true]
          exact ⟨rfl, trivial⟩
  | _ =>
      simp only [State.step, Step.beforeAttribute, content_space hc, hcomment, hbogus, hc, halpha,
        hne '!' rfl, hne '?' rfl, hsolidus, hclose, hdash, hequals, Bool.false_eq_true, if_true,
        if_false, true_and, false_and]
      repeat' split
      all_goals first
        | exact trivial
        | exact ⟨rfl, trivial⟩

/-! ### Stand-ins -/

section
variable (hr : r.WellFormed) (hr' : r'.WellFormed)
include hr hr'

/-- A substitute keeps states alike. -/
theorem State.Like.substitute {d : Text} (h : s.Like r r' s') (hd : d ∈ Source.delimiters)
    (ht : TokensLike r r' ts ts') :
    (s.afterWord (r.spelling.delimiter d)).Like r r' (s'.afterWord (r'.spelling.delimiter d)) ∧
      TokensLike r r' (s.wordTokens (r.spelling.delimiter d) ++ ts)
        (s'.wordTokens (r'.spelling.delimiter d) ++ ts') := by
  have hword : AlikeUnmarked r r' (r.spelling.delimiter d) (r'.spelling.delimiter d) :=
    .delimiter hd
  have hvalue : Alike r r' (r.spelling.delimiter d) (r'.spelling.delimiter d) :=
    Source.alike_symbol (a := .delimiter d) fun e he => Symbol.delimiter.inj he ▸ hd
  have htext : ∀ t : Text, TokensLike r r'
      ((t ++ r.spelling.delimiter d).map .character ++ ts)
      ((t ++ r'.spelling.delimiter d).map .character ++ ts') := by
    intro t
    rw [List.map_append, List.map_append, List.append_assoc, List.append_assoc]
    exact (TokensLike.word (a := .delimiter d) (.inr ⟨d, hd, rfl⟩) ht).characters t
  cases h with
  | content reading => exact ⟨.content reading, htext []⟩
  | tagOpen => exact ⟨.content _, htext ['<']⟩
  | endTagOpen => exact ⟨.bogusComment .., ht⟩
  | plainLessThan references element => exact ⟨.content _, htext ['<']⟩
  | plainEndTagOpen references element => exact ⟨.content _, htext ['<', '/']⟩
  | plainEndTagName references element written =>
      exact ⟨.content _, htext ('<' :: '/' :: written)⟩
  | tagName h => exact ⟨.tagName ⟨h.isEnd, h.name.append hword, h.attributes⟩, ht⟩
  | beforeAttribute h => exact ⟨.attributeName h (.inl hword), ht⟩
  | attributeName h hn => exact ⟨.attributeName h (hn.append hword), ht⟩
  | afterAttributeName h hn =>
      exact ⟨.attributeName (h.add hr hr' hn (.same [])) (.inl hword), ht⟩
  | beforeValue h hn => exact ⟨.inValue _ h hn hvalue, ht⟩
  | inValue quoting h hn hv => exact ⟨.inValue _ h hn (hv.append hvalue), ht⟩
  | afterQuotedValue h => exact ⟨.attributeName h (.inl hword), ht⟩
  | solidus h => exact ⟨.attributeName h (.inl hword), ht⟩
  | bogusComment data data' => exact ⟨.bogusComment .., ht⟩
  | commentStart => exact ⟨.comment .., ht⟩
  | commentStartDash => exact ⟨.comment .., ht⟩
  | comment data data' => exact ⟨.comment .., ht⟩
  | commentDash data data' => exact ⟨.comment .., ht⟩
  | commentEnd data data' => exact ⟨.comment .., ht⟩
  | commentBang data data' => exact ⟨.comment .., ht⟩
  | beforeDoctypeName => exact ⟨.doctypeName .., ht⟩
  | doctypeName name name' => exact ⟨.doctypeName .., ht⟩
  | afterDoctypeName name name' => exact ⟨.afterDoctypeName .., ht⟩

/-- A mark behind a space is read as alike tokens if what comes after it is. -/
theorem State.Like.mark {k k' : Text} (h : s.Like r r' s') (hs : s.BehindSpace)
    (hk : ∀ s s' : State, s.Like r r' s' → TokensLike r r' (s.tokens k) (s'.tokens k')) :
    TokensLike r r' (s.tokens (r.bindingMark ++ k)) (s'.tokens (r'.bindingMark ++ k')) := by
  have hname : AlikeName r r' r.bindingMark r'.bindingMark :=
    .inr ⟨[], [], .same [], (List.append_nil _).symm, (List.append_nil _).symm⟩
  have hvalue : Alike r r' r.bindingMark r'.bindingMark :=
    Source.alike_symbol (a := .mark) fun _ he => nomatch he
  have hword : ∀ s : State, s.Loose → ∀ r : Registry, r.WellFormed → ∀ k,
      s.tokens (r.bindingMark ++ k) =
        s.wordTokens r.bindingMark ++ (s.afterWord r.bindingMark).tokens k := fun s hs r hr k =>
    tokens_word hs hr.wordy.mark_ne (fun c hc => hr.isBindingMark.isLowerNameChar_of_mem hc) k
  -- Behind a space the reader is in no name: the mark starts one, or it goes into text or a value.
  cases h with
  | content reading =>
      rw [hword (.content reading) trivial r hr, hword (.content reading) trivial r' hr']
      exact .word (a := .mark) (.inl rfl) (hk _ _ (.content reading))
  | @beforeAttribute tag tag' h =>
      rw [hword (.beforeAttribute tag) trivial r hr, hword (.beforeAttribute tag') trivial r' hr']
      exact hk _ _ (.attributeName h hname)
  | @afterAttributeName tag tag' name name' h hn =>
      rw [hword (.afterAttributeName tag name) trivial r hr,
        hword (.afterAttributeName tag' name') trivial r' hr']
      exact hk _ _ (.attributeName (h.add hr hr' hn (.same [])) hname)
  | @beforeValue tag tag' name name' h hn =>
      rw [hword (.beforeValue tag name) trivial r hr,
        hword (.beforeValue tag' name') trivial r' hr']
      exact hk _ _ (.inValue _ h hn hvalue)
  | @inValue quoting tag tag' name name' value value' h hn hv =>
      rw [hword (.inValue quoting tag name value) trivial r hr,
        hword (.inValue quoting tag' name' value') trivial r' hr']
      exact hk _ _ (.inValue _ h hn (hv.append hvalue))
  | bogusComment data data' =>
      rw [hword (.bogusComment data) trivial r hr, hword (.bogusComment data') trivial r' hr']
      exact hk _ _ (.bogusComment ..)
  | comment data data' =>
      obtain ⟨after, ha⟩ := tokens_comment_mark hr.isBindingMark data k
      obtain ⟨after', ha'⟩ := tokens_comment_mark hr'.isBindingMark data' k'
      rw [ha, ha']
      exact hk _ _ (.commentDash ..)
  | beforeDoctypeName =>
      rw [hword .beforeDoctypeName trivial r hr, hword .beforeDoctypeName trivial r' hr']
      exact hk _ _ (.doctypeName ..)
  | afterDoctypeName name name' =>
      rw [hword (.afterDoctypeName name) trivial r hr,
        hword (.afterDoctypeName name') trivial r' hr']
      exact hk _ _ (.afterDoctypeName ..)
  | _ => exact hs.elim

end

/-! ### The whole text -/

theorem State.Like.finish (h : s.Like r r' s') :
    TokensLike r r' (s.finish ++ [.endOfFile]) (s'.finish ++ [.endOfFile]) := by
  have hend : TokensLike r r' [.endOfFile] [.endOfFile] := .single .endOfFile
  cases h with
  | tagOpen => exact hend.characters ['<']
  | endTagOpen => exact hend.characters ['<', '/']
  | plainLessThan references element => exact hend.characters ['<']
  | plainEndTagOpen references element => exact hend.characters ['<', '/']
  | plainEndTagName references element written => exact hend.characters ('<' :: '/' :: written)
  | bogusComment => exact .cons (.comment ..) hend
  | commentStart => exact .cons (.comment ..) hend
  | commentStartDash => exact .cons (.comment ..) hend
  | comment => exact .cons (.comment ..) hend
  | commentDash => exact .cons (.comment ..) hend
  | commentEnd => exact .cons (.comment ..) hend
  | commentBang => exact .cons (.comment ..) hend
  | beforeDoctypeName => exact .cons (.doctype ..) hend
  | doctypeName => exact .cons (.doctype ..) hend
  | afterDoctypeName => exact .cons (.doctype ..) hend
  | _ => exact hend

/-- From alike states, symbols are read as alike tokens. -/
theorem State.Like.tokens (hr : r.WellFormed) (hr' : r'.WellFormed) (h : s.Like r r' s')
    (hz : Delimited z) (hs : Spaced false z) :
    TokensLike r r' (s.tokens (spell r.spelling z)) (s'.tokens (spell r'.spelling z)) := by
  induction hl : z.length using Nat.strongRecOn generalizing s s' z with
  | ind n ih =>
      cases z with
      | nil =>
          rw [Source.spell_nil, Source.spell_nil, State.tokens, State.tokens]
          exact h.finish
      | cons a z =>
          rw [List.length_cons] at hl
          cases a with
          | mark => cases hs.1
          | delimiter d =>
              have hd := hz d List.mem_cons_self
              have hs : Spaced false z := hs
              rw [Source.spell_cons, Source.spell_cons]
              rw [Symbol.spell, Symbol.spell, tokens_substitute (hr.isSubstitute_spelling hd),
                tokens_substitute (hr'.isSubstitute_spelling hd)]
              refine (h.substitute hr hr' hd ?_).2
              exact ih z.length (by omega) (h.substitute hr hr' hd .nil).1 hz.tail hs rfl
          | char c =>
              have hs : Spaced (isSpace c) z := hs
              have hcons : ∀ (s : State) (r : Registry), s.tokens (spell r.spelling (.char c :: z)) =
                  (s.step c (spell r.spelling z)).tokens ++
                    (s.step c (spell r.spelling z)).state.tokens
                      (s.step c (spell r.spelling z)).rest := fun s r =>
                State.tokens_cons s c _
              obtain ⟨ht, hstate, y, hly, hdy, hy, hrest, hrest'⟩ := h.step hz.tail hr hr' hs
              rw [hcons, hcons, hrest, hrest']
              refine ht.append ?_
              by_cases hm : ∃ x, y = .mark :: x
              · obtain ⟨x, rfl⟩ := hm
                -- A mark comes right after a space, and behind a space nothing is looked ahead.
                obtain ⟨rfl, hspace⟩ : Symbol.mark :: x = z ∧ isSpace c = true := by
                  rcases hy with rfl | ⟨-, hy⟩
                  · exact ⟨rfl, hs.1⟩
                  · cases hy.1
                rw [List.length_cons] at hl
                exact hstate.mark hr hr' (step_space hspace s _).2 fun s s' h =>
                  ih x.length (by omega) h hdy.tail hs.2 rfl
              · have hsy : Spaced false y := by
                  rcases hy with rfl | ⟨-, hy⟩
                  · cases y with
                    | nil => trivial
                    | cons a y =>
                        cases a with
                        | char e => exact hs
                        | delimiter e => exact hs
                        | mark => exact absurd ⟨y, rfl⟩ hm
                  · exact hy
                exact ih y.length (by omega) hstate hdy hsy rfl

/-- The encoded forms of markup under two registries are read as alike tokens. -/
theorem tokensLike_encode (hr : r.WellFormed) (hr' : r'.WellFormed) (t : Text) :
    TokensLike r r' (Token.ofText (Source.encode r t)) (Token.ofText (Source.encode r' t)) := by
  obtain ⟨z, hz, hs, he⟩ := Source.exists_spell_eq_encode t
  rw [← he r hr, ← he r' hr']
  exact (State.Like.content .markup).tokens hr hr' hz hs

end AmpMarkup.Html
