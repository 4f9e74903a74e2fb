import AmpMarkup.Css.Lexer
import AmpMarkup.Proofs.Text.Occurrence

/-! The pieces of a stylesheet that its tokens are read from. They stand in the order of the tokens with
comments between them and nothing else, and none is empty, so reading comes to the end of the stylesheet
and reaches it once. -/

namespace AmpMarkup.Css

/-- A token with the comments in front of it and the piece of the stylesheet that it is read from. -/
structure Lexeme where
  comments : Text
  source : Text
  token : Token
deriving DecidableEq, Repr, Inhabited

/-- What a lexeme takes of the stylesheet. -/
def Lexeme.text (l : Lexeme) : Text :=
  l.comments ++ l.source

/-- The lexeme is what is read in front of `rest`: behind its comments comes its source, and the token
that is read there takes all of it and nothing of `rest`. -/
structure Lexeme.Reads (l : Lexeme) (rest : Text) : Prop where
  comments : dropComments (l.text ++ rest) = l.source ++ rest
  source : ∃ c t, l.source = c :: t ∧ readToken c (t ++ rest) = (l.token, rest)

/-- A lexeme that takes at least one character. The marks of comments take themselves and no more. -/
structure Lexeme.Proper (l : Lexeme) : Prop where
  source : l.source ≠ []
  token : l.token ≠ .endOfFile
  close : l.token = .commentClose → l.source = "-->"
  opening : l.token = .commentOpen → l.source = "<!--"

/-- Each lexeme is what is read in front of the others, and the tail holds nothing but comments. -/
def Lexed : List Lexeme → Text → Prop
  | [], tail => dropComments tail = []
  | l :: ls, tail => l.Reads (ls.flatMap Lexeme.text ++ tail) ∧ Lexed ls tail

/-- The tokens of the marks around a comment of markup, and the end of the stylesheet. -/
def Token.isMark : Token → Bool
  | .commentOpen | .commentClose | .endOfFile => true
  | _ => false

/-- A round of reading: the token behind the comments, or the end of the stylesheet. -/
def readRound (t : Text) : Token × Text :=
  match dropComments t with
  | [] => (.endOfFile, [])
  | c :: rest => readToken c rest

/-- The tokens of the rounds up to the end of the stylesheet, or nothing if so many rounds do not
suffice. -/
def Token.readRounds? : (rounds : Nat) → Text → Option (List Token)
  | 0, _ => none
  | rounds + 1, t =>
    if (readRound t).1 = .endOfFile then some [.endOfFile]
    else (readRounds? rounds (readRound t).2).map ((readRound t).1 :: ·)

variable {c : Char} {t rest tail : Text} {token : Token} {l : Lexeme} {ls : List Lexeme} {rounds : Nat}

/-! ### Tokens -/

theorem isMark_readNumeric (t : Text) : (readNumeric t).1.isMark = false := by
  unfold readNumeric
  dsimp only
  split
  · rfl
  · split <;> rfl

theorem isMark_readIdentLike (t : Text) : (readIdentLike t).1.isMark = false := by
  unfold readIdentLike
  repeat' split
  all_goals rfl

theorem isMark_punctuation (c : Char) : (punctuation c).isMark = false := by
  unfold punctuation
  split <;> rfl

/-- A mark takes its own characters, and no other token is a mark. -/
theorem source_of_isMark (h : readToken c t = (token, rest)) (hm : token.isMark = true) :
    token = .commentClose ∧ c :: t = "-->" ++ rest ∨ token = .commentOpen ∧ c :: t = "<!--" ++ rest := by
  have hnot : ∀ {r : Token × Text}, r = (token, rest) → r.1.isMark ≠ false := by
    rintro _ rfl
    simp [hm]
  have hdrop : ∀ {p : Text}, t.startsWith p = true → t = p ++ t.drop p.length := by
    intro p hp
    obtain ⟨k, rfl⟩ := Text.startsWith_iff.1 hp
    rw [List.drop_left]
  unfold readToken at h
  split at h
  · exact absurd rfl (hnot h)
  split at h
  · split at h <;> exact absurd rfl (hnot h)
  split at h
  · exact absurd (isMark_readNumeric _) (hnot h)
  split at h
  · next hc =>
      obtain ⟨rfl, rfl⟩ := Prod.mk.inj h
      exact .inl ⟨rfl, by rw [hc.1]; exact congrArg ('-' :: ·) (hdrop hc.2)⟩
  split at h
  · exact absurd (isMark_readIdentLike _) (hnot h)
  split at h
  · exact absurd rfl (hnot h)
  split at h
  · exact absurd rfl (hnot h)
  split at h
  · next hc =>
      obtain ⟨rfl, rfl⟩ := Prod.mk.inj h
      exact .inr ⟨rfl, by rw [hc.1]; exact congrArg ('<' :: ·) (hdrop hc.2)⟩
  exact absurd (isMark_punctuation c) (hnot h)

/-! ### Lexemes -/

theorem Lexeme.Reads.readRound_eq (h : l.Reads rest) : readRound (l.text ++ rest) = (l.token, rest) := by
  obtain ⟨c, t, hs, hread⟩ := h.source
  rw [readRound, h.comments, hs]
  exact hread

theorem Lexeme.Reads.proper (h : l.Reads rest) : l.Proper := by
  obtain ⟨c, t, hs, hread⟩ := h.source
  have hmark : l.token.isMark = true → l.token = .commentClose ∧ l.source = "-->" ∨
      l.token = .commentOpen ∧ l.source = "<!--" := by
    intro hm
    rw [hs]
    exact (source_of_isMark hread hm).imp (.imp_right (List.append_cancel_right ·))
      (.imp_right (List.append_cancel_right ·))
  refine ⟨hs ▸ List.cons_ne_nil c t, fun he => ?_, fun he => ?_, fun he => ?_⟩
  · simp [he, Token.isMark] at hmark
  · simpa [he, Token.isMark] using hmark
  · simpa [he, Token.isMark] using hmark

theorem Lexeme.Reads.ofText_eq (h : l.Reads rest) :
    Token.ofText (l.text ++ rest) = l.token :: Token.ofText rest := by
  obtain ⟨c, t, hs, hread⟩ := h.source
  have hc : dropComments (l.text ++ rest) = c :: (t ++ rest) := by
    rw [h.comments, hs, List.cons_append]
  rw [Token.ofText_of_dropComments hc, hread]

namespace Lexed

theorem proper (h : Lexed ls tail) : ∀ l ∈ ls, l.Proper := by
  induction ls with
  | nil => exact fun _ hl => nomatch hl
  | cons l ls ih => exact List.forall_mem_cons.2 ⟨h.1.proper, ih h.2⟩

/-- There are no more lexemes than characters. -/
theorem length_le (h : Lexed ls tail) : ls.length ≤ (ls.flatMap Lexeme.text ++ tail).length := by
  induction ls with
  | nil => exact Nat.zero_le _
  | cons l ls ih =>
      have hl := List.length_pos_iff.2 h.1.proper.source
      have hls := ih h.2
      simp only [List.flatMap_cons, Lexeme.text, List.length_append, List.length_cons] at hls ⊢
      omega

/-- The tokens of the lexemes are the tokens of the stylesheet. -/
theorem ofText_eq (h : Lexed ls tail) :
    Token.ofText (ls.flatMap Lexeme.text ++ tail) = ls.map Lexeme.token ++ [.endOfFile] := by
  induction ls with
  | nil => exact Token.ofText_of_dropComments_nil h
  | cons l ls ih => rw [List.flatMap_cons, List.append_assoc, h.1.ofText_eq, ih h.2]; rfl

/-- A round for each lexeme and one for the end read all tokens. -/
theorem readRounds?_eq (h : Lexed ls tail) (hr : ls.length < rounds) :
    Token.readRounds? rounds (ls.flatMap Lexeme.text ++ tail) =
      some (ls.map Lexeme.token ++ [.endOfFile]) := by
  induction ls generalizing rounds with
  | nil =>
      obtain ⟨rounds, rfl⟩ := Nat.exists_eq_add_of_lt hr
      have hend : readRound tail = (.endOfFile, []) := by rw [readRound, h]
      rw [List.flatMap_nil, List.nil_append, Token.readRounds?, hend, if_pos rfl]
      rfl
  | cons l ls ih =>
      obtain ⟨rounds, rfl⟩ := Nat.exists_eq_add_of_lt hr
      rw [List.flatMap_cons, List.append_assoc, Token.readRounds?, h.1.readRound_eq,
        if_neg h.1.proper.token, ih h.2 (by simp; omega)]
      rfl

end Lexed

/-- Every stylesheet falls into lexemes and a tail of comments. -/
theorem exists_lexed (t : Text) : ∃ ls tail, t = ls.flatMap Lexeme.text ++ tail ∧ Lexed ls tail := by
  fun_induction Token.ofText t with
  | case1 t h => exact ⟨[], t, rfl, h⟩
  | case2 t c rest h ih =>
      obtain ⟨comments, hcomments⟩ := dropComments_suffix t
      obtain ⟨source, hsource⟩ := readToken_suffix c rest
      obtain ⟨ls, tail, hrest, hls⟩ := ih
      cases hread : readToken c rest with
      | mk token u =>
          rw [hread] at hsource hrest
          dsimp only at hsource hrest
          subst hsource hrest
          have htext : t = comments ++ c :: source ++ (ls.flatMap Lexeme.text ++ tail) := by
            rw [← hcomments, h]
            simp
          refine ⟨⟨comments, c :: source, token⟩ :: ls, tail, ?_, ⟨?_, c, source, rfl, hread⟩, hls⟩
          · rw [List.flatMap_cons, List.append_assoc]
            exact htext
          · rw [Lexeme.text, ← htext, h]
            rfl

/-- Reading round by round ends for every stylesheet. Each token but the last takes at least one
character of the stylesheet, behind what the tokens before have taken, and the end of the stylesheet is the
last token and no other. -/
theorem readRounds?_ofText (t : Text) :
    (∀ more, Token.readRounds? (t.length + 1 + more) t = some (Token.ofText t)) ∧
      ∃ ls tail, t = ls.flatMap Lexeme.text ++ tail ∧ Lexed ls tail ∧
        (∀ l ∈ ls, l.Proper) ∧
        Token.ofText t = ls.map Lexeme.token ++ [.endOfFile] := by
  obtain ⟨ls, tail, rfl, h⟩ := exists_lexed t
  rw [h.ofText_eq]
  have hle := h.length_le
  exact ⟨fun more => h.readRounds?_eq (by omega), ls, tail, rfl, h, h.proper, rfl⟩

end AmpMarkup.Css
