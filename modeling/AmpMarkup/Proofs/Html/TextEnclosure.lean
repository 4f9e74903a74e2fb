import AmpMarkup.Proofs.Html.TidyTree

/-! Elements of plain text in the tokens of a text. Between the start tag of such an element and the
next end tag there is nothing but characters, so construction meets no start tag under the rules for
plain text. -/

namespace AmpMarkup.Html

/-- Tokens in which nothing but characters stands between the start tag of an element of plain text and
the next end tag or the end of the input. `plain` says whether such an element is open. -/
inductive Enclosed : (plain : Bool) → List Token → Prop where
  | endOfFile (plain : Bool) : Enclosed plain [.endOfFile]
  | character {plain : Bool} {c : Char} {ts : List Token} : Enclosed plain ts →
      Enclosed plain (.character c :: ts)
  | startTag {name : Text} {attributes : List Attribute} {selfClosing : Bool} {ts : List Token} :
      Enclosed (Vocabulary.isTextOnly name) ts →
      Enclosed false (.startTag name attributes selfClosing :: ts)
  | endTag {plain : Bool} {name : Text} {ts : List Token} : Enclosed false ts →
      Enclosed plain (.endTag name :: ts)
  | comment {data : Text} {ts : List Token} : Enclosed false ts → Enclosed false (.comment data :: ts)
  | doctype {name : Option Text} {ts : List Token} : Enclosed false ts →
      Enclosed false (.doctype name :: ts)

/-- Whether nothing but characters and an end tag can come next. -/
def State.plain : State → Bool
  | .content (.plain ..) | .plainLessThan .. | .plainEndTagOpen .. | .plainEndTagName .. => true
  | .tagName tag | .beforeAttribute tag | .attributeName tag _ | .afterAttributeName tag _
  | .beforeValue tag _ | .inValue _ tag _ _ | .afterQuotedValue tag | .solidus tag => tag.isEnd
  | _ => false

/-- A step after which the tokens are enclosed if those of the state after it are. -/
def Step.Encloses (plain : Bool) (s : Step) : Prop :=
  ∀ ts, Enclosed s.state.plain ts → Enclosed plain (s.tokens ++ ts)

variable {plain references selfClosing : Bool} {s : State} {st : Step} {ts : List Token}
  {tag : TagDraft} {pending : AttributeDraft} {c : Char} {t rest element : Text} {f g : Frame}
  {w : Text} {u : Token}

theorem Enclosed.of_plain (h : Enclosed true ts) (plain : Bool) : Enclosed plain ts := by
  generalize hp : true = p at h
  induction h with
  | endOfFile => exact .endOfFile plain
  | character _ ih => exact .character (ih hp)
  | endTag h _ => exact .endTag h
  | startTag | comment | doctype => cases hp

theorem Enclosed.characters (h : Enclosed plain ts) (t : Text) :
    Enclosed plain (t.map .character ++ ts) := by
  induction t with
  | nil => exact h
  | cons c t ih => exact .character ih

theorem State.plain_iff : s.plain = true ↔
    (∃ reading held, reading ≠ .markup ∧ s.region = .text reading held) ∨
      ∃ tag pending, s.region = .tag tag pending ∧ tag.isEnd = true := by
  rcases s with (_ | _) | _ <;> simp [plain, region]

/-! ### Steps -/

namespace Step

theorem encloses_goto (hp : plain = true → s.plain = true) (rest : Text) :
    (goto s rest).Encloses plain := by
  intro ts h
  cases hs : s.plain with
  | true => exact Enclosed.of_plain (by rwa [goto, hs] at h) plain
  | false =>
      obtain rfl : plain = false := Bool.eq_false_iff.2 fun h => by rw [hp h] at hs; cases hs
      rwa [goto, hs] at h

theorem encloses_character (hs : s.plain = plain) (c : Char) (rest : Text) :
    (Step.mk [.character c] s rest).Encloses plain :=
  fun _ h => .character (hs ▸ h)

theorem Encloses.withText (h : st.Encloses plain) (t : Text) : (st.withText t).Encloses plain := by
  intro ts hs
  rw [Step.withText, List.append_assoc]
  exact (h ts hs).characters t

/-- What follows a start tag is read as the element asks for. -/
theorem plain_readingAfter (name : Text) :
    (State.content (TagDraft.readingAfter name)).plain = Vocabulary.isTextOnly name := by
  unfold TagDraft.readingAfter Vocabulary.isTextOnly
  cases hr : Vocabulary.isRawText name <;> cases he : Vocabulary.isEscapableText name <;> rfl

theorem encloses_finish (hp : plain = true → tag.isEnd = true) (selfClosing : Bool)
    (rest : Text) : (tag.finish selfClosing rest).Encloses plain := by
  intro ts h
  unfold TagDraft.finish at h ⊢
  cases he : tag.isEnd with
  | true =>
      rw [he, if_pos rfl] at h
      exact .endTag h
  | false =>
      rw [he, if_neg Bool.false_ne_true] at h
      rw [plain_readingAfter] at h
      obtain rfl : plain = false := Bool.eq_false_iff.2 fun h => by rw [hp h] at he; cases he
      exact .startTag h

/-- Nothing but an end tag comes where only text and an end tag can come. -/
theorem Edits.encloses (h : st.Edits tag pending c rest) (hp : plain = true → tag.isEnd = true) :
    st.Encloses plain := by
  cases h with
  | goto h hs _ =>
      refine encloses_goto (fun he => State.plain_iff.2 (.inr ⟨_, _, hs, ?_⟩)) _
      exact h.isEnd_eq.trans (hp he)
  | finish h selfClosing =>
      exact encloses_finish (fun he => h.isEnd_eq.trans (hp he)) selfClosing rest

end Step

/-- Every step encloses elements of plain text. -/
theorem State.encloses_step (s : State) (c : Char) (rest : Text) :
    (s.step c rest).Encloses s.plain := by
  have hstep := s.transition c rest
  generalize s.step c rest = st at hstep
  generalize hs : s.region = region at hstep
  cases hstep with
  | hold _ hs' => exact Step.encloses_goto (by simp [plain_iff, hs, hs']) rest
  | reopen _ hs' =>
      exact (Step.encloses_goto (by simp [plain_iff, hs, hs']) rest).withText _
  | @character reading held d k =>
      have hp : (content reading).plain = s.plain :=
        Bool.eq_iff_iff.2 (by simp [plain_iff, hs])
      exact (Step.encloses_character hp d k).withText held
  | startTag | drop | comment | bogusComment | doctype =>
      exact Step.encloses_goto (by simp [plain_iff, hs]) _
  | endTag => exact Step.encloses_goto (fun _ => rfl) rest
  | plainEndTag he => exact he.encloses fun _ => rfl
  | inTag he => exact he.encloses (by simp [plain_iff, hs])
  | inComment | inDoctype => exact Step.encloses_goto (by simp [plain_iff, hs]) rest
  | endComment =>
      have hp : s.plain = false := Bool.eq_false_iff.2 (by simp [plain_iff, hs])
      exact hp ▸ fun _ h => .comment h
  | endDoctype =>
      have hp : s.plain = false := Bool.eq_false_iff.2 (by simp [plain_iff, hs])
      exact hp ▸ fun _ h => .doctype h

/-! ### Texts -/

theorem State.enclosed_finish (s : State) : Enclosed s.plain (s.finish ++ [.endOfFile]) := by
  have hfinish := s.finish_region
  generalize s.finish = ts at hfinish
  generalize hs : s.region = region at hfinish
  cases hfinish with
  | text => exact (Enclosed.endOfFile _).characters _
  | tag => exact .endOfFile _
  | comment | doctype =>
      have hp : s.plain = false := Bool.eq_false_iff.2 (by simp [plain_iff, hs])
      rw [hp]
      constructor
      exact .endOfFile _

theorem State.enclosed_tokens (s : State) (t : Text) : Enclosed s.plain (s.tokens t) := by
  fun_induction State.tokens s t with
  | case1 s => exact s.enclosed_finish
  | case2 s c rest ih => exact s.encloses_step c rest _ ih

/-- The tokens of every text. -/
theorem enclosed_ofText (t : Text) : Enclosed false (Token.ofText t) :=
  State.enclosed_tokens (.content .markup) t

/-! ### Construction -/

/-- The rules for plain text come with the start tag of an element of plain text alone. -/
theorem Move.plainText (h : Move u f w g) {p : Phase} (hg : g.mode = .plainText p) :
    (∃ p, f.mode = .plainText p) ∨
      ∃ tag attributes selfClosing, u = .startTag tag attributes selfClosing ∧
        Vocabulary.isTextOnly tag = true := by
  cases h with
  | text | attributes => exact .inl ⟨p, hg⟩
  | textElement hu _ ht => exact .inr ⟨_, _, _, hu, ht⟩
  | close | endHead | endText | comment | doctype | element | leaf | lateTemplate | stop => cases hg

theorem Moves.plainText (h : Moves u f w g) {p : Phase} (hg : g.mode = .plainText p) :
    (∃ p, f.mode = .plainText p) ∨
      ∃ tag attributes selfClosing, u = .startTag tag attributes selfClosing ∧
        Vocabulary.isTextOnly tag = true := by
  induction h with
  | refl => exact .inl ⟨p, hg⟩
  | step hm _ ih =>
      rcases ih hg with ⟨p, hp⟩ | hu
      · exact hm.plainText hp
      · exact .inr hu

/-- Construction is under way, and the tokens to come are such as texts have. The rules for plain text
are in force inside an element of plain text alone. -/
structure Builder.Awaits (b : Builder) (ts : List Token) : Prop where
  building : ∃ late, Building late b
  enclosed : ∃ plain, Enclosed plain ts ∧ ∀ p, b.mode = .plainText p → plain = true
  lower : ∀ tag attributes s, Token.startTag tag attributes s ∈ ts → tag.lower = tag

theorem awaits_start (t : Text) : Builder.start.Awaits (Token.ofText t) where
  building := ⟨false, building_start⟩
  enclosed := ⟨false, enclosed_ofText t, fun p hp => by cases hp⟩
  lower := (delivered_ofText t).lower_of_mem

namespace Builder.Awaits

variable {b : Builder} {name : Text} {attributes : List Attribute}

theorem mode_ne (h : b.Awaits (.startTag name attributes selfClosing :: ts)) (p : Phase) :
    b.mode ≠ .plainText p := by
  intro hm
  obtain ⟨plain, he, hp⟩ := h.enclosed
  cases he
  cases hp p hm

/-- A token leaves an element of plain text open only if it is a character or opens it. -/
theorem exists_enclosed (h : b.Awaits (u :: ts)) (hr : (b.process u).stopped = false) :
    ∃ plain, Enclosed plain ts ∧ ∀ p, (b.process u).mode = .plainText p → plain = true := by
  obtain ⟨late, hb⟩ := h.building
  obtain ⟨plain, he, hp⟩ := h.enclosed
  obtain ⟨w, hm, -⟩ := hb.moves_process (t := u) fun tag attributes s hu =>
    h.lower tag attributes s (hu ▸ List.mem_cons_self)
  cases he with
  | endOfFile =>
      rw [b.process_endOfFile] at hr
      cases hr
  | character he =>
      refine ⟨plain, he, fun p hmode => ?_⟩
      rcases hm.plainText hmode with ⟨q, hq⟩ | ⟨_, _, _, hu, -⟩
      · exact hp q hq
      · cases hu
  | startTag he =>
      refine ⟨_, he, fun p hmode => ?_⟩
      rcases hm.plainText hmode with ⟨q, hq⟩ | ⟨_, _, _, hu, ht⟩
      · cases hp q hq
      · cases hu
        exact ht
  | @endTag _ name _ he =>
      refine ⟨false, he, fun p hmode => ?_⟩
      rcases hm.plainText hmode with ⟨q, hq⟩ | ⟨_, _, _, hu, -⟩
      · have hrules : b.rules (.endTag name) = .settled (b.pop.enter q) := by
          rw [Builder.rules, show b.mode = .plainText q from hq]
          rfl
        rw [Builder.process_of_settled hrules] at hmode
        cases hmode
      · cases hu
  | comment he | doctype he =>
      refine ⟨false, he, fun p hmode => ?_⟩
      rcases hm.plainText hmode with ⟨q, hq⟩ | ⟨_, _, _, hu, -⟩
      · exact hp q hq
      · cases hu

/-- After a token construction has ended or awaits the rest of them. -/
theorem process (h : b.Awaits (u :: ts)) (n : Nat) :
    { b.process u with position := n }.stopped = true ∨
      { b.process u with position := n }.Awaits ts := by
  obtain ⟨late, hb⟩ := h.building
  rcases hb.process u with hb' | hend
  · exact .inr ⟨⟨_, hb'.same (.refl hb'.sound.bounded) rfl rfl rfl rfl⟩, h.exists_enclosed hb'.running,
      fun tag attributes s hm => h.lower tag attributes s (List.mem_cons_of_mem _ hm)⟩
  · exact .inl hend.stopped

end Builder.Awaits

end AmpMarkup.Html
