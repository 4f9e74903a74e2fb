import AmpMarkup.Proofs.Html.Transition
import AmpMarkup.Proofs.Source.FragmentScan

/-! What holds of the tokens of every text. Tags are in lower case, the end of the input comes last
and only there, and the character U+0000 is not among the characters that follow the start tag of an
element of plain text. -/

namespace AmpMarkup.Html

/-- Tokens as the reader delivers them. `plain` says whether the last token that was no character is
the start tag of an element of plain text. -/
inductive Delivered : (plain : Bool) → List Token → Prop where
  | endOfFile (plain : Bool) : Delivered plain [.endOfFile]
  | character {plain : Bool} {c : Char} {ts : List Token} : (plain = true → c ≠ '\x00') →
      Delivered plain ts → Delivered plain (.character c :: ts)
  | startTag {plain : Bool} {name : Text} {attributes : List Attribute} {selfClosing : Bool}
      {ts : List Token} : name.lower = name → Delivered (Vocabulary.isTextOnly name) ts →
      Delivered plain (.startTag name attributes selfClosing :: ts)
  | endTag {plain : Bool} {name : Text} {ts : List Token} : Delivered false ts →
      Delivered plain (.endTag name :: ts)
  | comment {plain : Bool} {data : Text} {ts : List Token} : Delivered false ts →
      Delivered plain (.comment data :: ts)
  | doctype {plain : Bool} {name : Option Text} {ts : List Token} : Delivered false ts →
      Delivered plain (.doctype name :: ts)

/-- Whether U+0000 can not come as a character before the next token of another kind. -/
def State.excludesNull : State → Bool
  | .content .markup | .tagOpen | .endTagOpen => false
  | _ => true

/-- A reader whose unfinished token has a name in lower case. -/
def State.LowerCase : State → Prop
  | .content (.plain _ element) | .plainLessThan _ element | .plainEndTagOpen _ element =>
    element.lower = element
  | .plainEndTagName _ element written => element.lower = element ∧ '\x00' ∉ written
  | .tagName tag | .beforeAttribute tag | .attributeName tag _ | .afterAttributeName tag _
  | .beforeValue tag _ | .inValue _ tag _ _ | .afterQuotedValue tag | .solidus tag =>
    tag.name.lower = tag.name
  | _ => True

/-- A step after which the reader goes on to deliver tokens as it should. -/
structure Step.Delivers (plain : Bool) (s : Step) : Prop where
  lowerCase : s.state.LowerCase
  tokens : ∀ ts, Delivered s.state.excludesNull ts → Delivered plain (s.tokens ++ ts)

variable {plain references : Bool} {s : State} {st : Step} {ts : List Token} {tag : TagDraft}
  {pending : AttributeDraft} {reading : Reading} {c d : Char} {rest element name value held : Text}

theorem Delivered.of_plain (h : Delivered true ts) (plain : Bool) : Delivered plain ts := by
  generalize hp : true = p at h
  induction h with
  | endOfFile => exact .endOfFile plain
  | character hc _ ih => exact .character (fun _ => hc hp.symm) (ih hp)
  | startTag hl h _ => exact .startTag hl h
  | endTag h _ => exact .endTag h
  | comment h _ => exact .comment h
  | doctype h _ => exact .doctype h

theorem Delivered.weaken (h : Delivered plain ts) : Delivered false ts := by
  cases plain with
  | false => exact h
  | true => exact h.of_plain false

theorem Delivered.characters {t : Text} (ht : plain = true → '\x00' ∉ t) (h : Delivered plain ts) :
    Delivered plain (t.map .character ++ ts) := by
  induction t with
  | nil => exact h
  | cons c t ih =>
      refine .character (fun hp => ?_) (ih fun hp hm => ht hp (List.mem_cons_of_mem _ hm))
      rintro rfl
      exact ht hp List.mem_cons_self

/-- The end of the input comes last and only there. -/
theorem Delivered.exists_eq_append (h : Delivered plain ts) :
    ∃ before, Token.endOfFile ∉ before ∧ ts = before ++ [.endOfFile] := by
  induction h with
  | endOfFile => exact ⟨[], List.not_mem_nil, rfl⟩
  | character _ _ ih | startTag _ _ ih | endTag _ ih | comment _ ih | doctype _ ih =>
      obtain ⟨before, hnot, rfl⟩ := ih
      exact ⟨_ :: before, by simp [hnot], rfl⟩

/-! ### Regions -/

theorem State.excludesNull_iff : s.excludesNull = true ↔ ∀ held, s.region ≠ .text .markup held := by
  rcases s with (_ | _) | _ <;> simp [excludesNull, region]

theorem State.lowerCase_text (hs : s.region = .text reading held) : s.LowerCase ↔
    ∀ references element, reading = .plain references element →
      element.lower = element ∧ '\x00' ∉ held := by
  rcases s with (_ | _) | _ <;> cases hs <;> simp [LowerCase, -Bool.forall_bool]

/-- U+0000 is not held back where it is excluded. -/
theorem State.LowerCase.notMem_held (h : s.LowerCase) (hs : s.region = .text reading held)
    (he : s.excludesNull = true) : '\x00' ∉ held := by
  cases reading with
  | markup => exact absurd hs (excludesNull_iff.1 he held)
  | plain references element => exact ((lowerCase_text hs).1 h references element rfl).2

theorem State.lowerCase_tag (hs : s.region = .tag tag pending) :
    s.LowerCase ↔ tag.name.lower = tag.name := by
  cases s <;> cases hs <;> rfl

theorem State.lowerCase_comment (hs : s.region = .comment) : s.LowerCase := by
  cases s <;> trivial

theorem State.lowerCase_doctype (hs : s.region = .doctype) : s.LowerCase := by
  cases s <;> trivial

theorem lower_append_toLower (h : name.lower = name) (c : Char) :
    Text.lower (name ++ [c.toLower]) = name ++ [c.toLower] := by
  rw [Text.lower, List.map_append, List.map_singleton, Source.toLower_toLower]
  exact congrArg (· ++ [c.toLower]) h

/-- A tag in lower case stays so. -/
theorem TagDraft.Edits.lower {tag' : TagDraft} {pending pending' : AttributeDraft}
    (h : tag.Edits c pending tag' pending') (hl : tag.name.lower = tag.name) :
    tag'.name.lower = tag'.name := by
  cases h with
  | keep | startAttribute | attributeName | value => exact hl
  | name => exact lower_append_toLower hl c
  | addBare | addBareBefore | add => rwa [TagDraft.name_add]

/-! ### Steps -/

theorem Step.delivers_goto (hl : s.LowerCase) (hp : plain = true → s.excludesNull = true) :
    (Step.goto s rest).Delivers plain where
  lowerCase := hl
  tokens _ h := by
    cases plain with
    | false => exact h.weaken
    | true => exact hp rfl ▸ h

theorem Step.Delivers.withText (h : st.Delivers plain) (t : Text)
    (ht : plain = true → '\x00' ∉ t) : (st.withText t).Delivers plain where
  lowerCase := h.lowerCase
  tokens ts hs := by
    rw [Step.withText, List.append_assoc]
    exact (h.tokens ts hs).characters ht

/-- What follows a start tag is read as the element asks for. -/
theorem excludesNull_readingAfter (name : Text) :
    (State.content (TagDraft.readingAfter name)).excludesNull = Vocabulary.isTextOnly name := by
  unfold TagDraft.readingAfter Vocabulary.isTextOnly
  cases hr : Vocabulary.isRawText name <;> cases he : Vocabulary.isEscapableText name <;> rfl

theorem Step.delivers_finish (hl : tag.name.lower = tag.name) (selfClosing : Bool) (rest : Text) :
    (tag.finish selfClosing rest).Delivers plain := by
  unfold TagDraft.finish
  split
  · exact ⟨trivial, fun ts h => .endTag h⟩
  · refine ⟨?_, fun ts h => .startTag hl (excludesNull_readingAfter tag.name ▸ h)⟩
    change (State.content (TagDraft.readingAfter tag.name)).LowerCase
    unfold TagDraft.readingAfter
    split
    · exact hl
    · split
      · exact hl
      · trivial

/-- A step inside a tag, whatever comes before the tag. -/
theorem Step.Edits.delivers (h : st.Edits tag pending c rest) (hl : tag.name.lower = tag.name) :
    st.Delivers plain := by
  cases h with
  | goto h hs _ =>
      exact delivers_goto ((State.lowerCase_tag hs).2 (h.lower hl)) fun _ =>
        State.excludesNull_iff.2 (by simp [hs])
  | finish h selfClosing => exact delivers_finish (h.lower hl) selfClosing rest

/-- Every step delivers tokens as it should. -/
theorem State.delivers_step (h : s.LowerCase) (c : Char) (rest : Text) :
    (s.step c rest).Delivers s.excludesNull := by
  have hstep := s.transition c rest
  generalize s.step c rest = st at hstep
  generalize hs : s.region = region at hstep
  cases hstep with
  | @hold reading held s' hc hs' =>
      have hl : s'.LowerCase := (lowerCase_text hs').2 fun references element hr => by
        obtain ⟨hl, hn⟩ := (lowerCase_text hs).1 h references element hr
        exact ⟨hl, by simp [hn, hc.symm]⟩
      exact Step.delivers_goto hl (by simp [excludesNull_iff, hs, hs'])
  | @reopen reading held s' hc hs' =>
      have hl : s'.LowerCase := (lowerCase_text hs').2 fun references element hr =>
        ⟨((lowerCase_text hs).1 h references element hr).1, by simp [hc]⟩
      exact (Step.delivers_goto hl (by simp [excludesNull_iff, hs, hs'])).withText held
        (h.notMem_held hs)
  | @character reading held d k hd hk =>
      have hl : (content reading).LowerCase := (lowerCase_text rfl).2 fun references element hr =>
        ⟨((lowerCase_text hs).1 h references element hr).1, List.not_mem_nil⟩
      have he : (content reading).excludesNull = s.excludesNull :=
        Bool.eq_iff_iff.2 (by simp [excludesNull_iff, hs])
      have hchar : (Step.mk [.character d] (content reading) k).Delivers s.excludesNull :=
        ⟨hl, fun ts hts => .character (fun hp => hd (by simpa [excludesNull_iff, hs] using hp))
          (he ▸ hts)⟩
      exact hchar.withText held (h.notMem_held hs)
  | startTag | endTag =>
      have hnil : Text.lower [] = [] := rfl
      exact Step.delivers_goto (lower_append_toLower hnil c) fun _ => rfl
  | plainEndTag he => exact he.delivers ((lowerCase_text hs).1 h _ _ rfl).1
  | drop => exact Step.delivers_goto trivial (by simp [excludesNull_iff, hs])
  | comment | bogusComment | doctype => exact Step.delivers_goto trivial fun _ => rfl
  | inTag he => exact he.delivers ((lowerCase_tag hs).1 h)
  | inComment hs' =>
      exact Step.delivers_goto (lowerCase_comment hs') (by simp [excludesNull_iff, hs'])
  | endComment => exact ⟨trivial, fun _ h => .comment h⟩
  | inDoctype hs' =>
      exact Step.delivers_goto (lowerCase_doctype hs') (by simp [excludesNull_iff, hs'])
  | endDoctype => exact ⟨trivial, fun _ h => .doctype h⟩

/-! ### Texts -/

theorem State.delivered_finish (h : s.LowerCase) :
    Delivered s.excludesNull (s.finish ++ [.endOfFile]) := by
  have hfinish := s.finish_region
  generalize s.finish = ts at hfinish
  generalize hs : s.region = region at hfinish
  cases hfinish with
  | text => exact (Delivered.endOfFile _).characters (h.notMem_held hs)
  | tag => exact .endOfFile _
  | comment => exact .comment (.endOfFile _)
  | doctype => exact .doctype (.endOfFile _)

theorem State.delivered_tokens (h : s.LowerCase) (u : Text) :
    Delivered s.excludesNull (s.tokens u) := by
  fun_induction State.tokens s u with
  | case1 s => exact s.delivered_finish h
  | case2 s c rest ih =>
      have hstep := s.delivers_step h c rest
      exact hstep.tokens _ (ih hstep.lowerCase)

/-- The tokens of every text. -/
theorem delivered_ofText (u : Text) : Delivered false (Token.ofText u) :=
  State.delivered_tokens (s := .content .markup) trivial u

end AmpMarkup.Html
