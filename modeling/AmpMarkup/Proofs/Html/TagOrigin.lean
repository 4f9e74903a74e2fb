import AmpMarkup.Proofs.Html.CommentText
import AmpMarkup.Proofs.Html.SourceTag

/-! Where the start tags of a text come from. Every start tag that is delivered stands in the source
behind a `<`, and what is delivered is the tag that stands there. -/

namespace AmpMarkup.Html

/-- A reader that is neither in a start tag nor in a comment. -/
def State.Outside : State → Prop
  | .content _ | .tagOpen | .endTagOpen | .plainLessThan .. | .plainEndTagOpen ..
  | .plainEndTagName .. | .beforeDoctypeName | .doctypeName _ | .afterDoctypeName _ => True
  | .tagName tag | .beforeAttribute tag | .attributeName tag _ | .afterAttributeName tag _
  | .beforeValue tag _ | .inValue _ tag _ _ | .afterQuotedValue tag | .solidus tag =>
    tag.isEnd = true
  | .bogusComment _ | .commentStart | .commentStartDash | .comment _ | .commentDash _
  | .commentEnd _ | .commentBang _ => False

/-- A reader that is not inside a start tag. -/
inductive State.BetweenTags : State → Prop where
  | outside {s : State} : s.Outside → BetweenTags s
  | bogusComment {data : Text} : IsBogusText data → BetweenTags (.bogusComment data)
  | comment {s : State} {t : Text} : s.InComment t → BetweenTags s

/-- What has been read of a start tag whose name is still to be read. -/
def State.opening : State → Text
  | .tagOpen => ['<']
  | _ => []

/-- A step that completes no start tag and goes on between tags. It leaves an end of the text, and a
`<` that opens a tag counts as left. -/
structure Step.StaysBetweenTags (c : Char) (rest : Text) (st : Step) : Prop where
  tokens : ∀ t ∈ st.tokens, t.isStartTag = false
  state : st.state.BetweenTags
  suffix : st.state.opening ++ st.rest <:+ c :: rest

/-- A tag that is written in a text behind a `<`, with the text behind the tag. -/
def SourceTag.StandsIn (tag : SourceTag) (t rest : Text) : Prop :=
  ∃ before u : Text, t = before ++ '<' :: u ∧ SourceTag.read? u = some (tag, rest)

/-- The name and the attributes of a start tag in the form in which they are delivered. -/
structure IsDelivered (name : Text) (attributes : List Attribute) : Prop where
  initial : ∃ c t, name = c :: t ∧ c.isLower = true
  name : ∀ c ∈ name, c.isUpper = false ∧ isNameEnd c = false
  nodup : (attributes.map Attribute.name).Nodup
  nonempty : ∀ a ∈ attributes, a.name ≠ []
  names : ∀ a ∈ attributes, ∀ c ∈ a.name, c.isUpper = false ∧ isNameEnd c = false
  equals : ∀ a ∈ attributes, '=' ∉ a.name.tail
  bare : ∀ a ∈ attributes, a.value = none → a.text = []

variable {s : State} {c : Char} {t u k rest name data : Text} {attributes : List Attribute}
  {selfClosing : Bool} {ts us : List Token} {tag : SourceTag}

/-! ### Between tags -/

theorem State.outside_iff : s.Outside ↔
    s.region ≠ .comment ∧ ∀ tag pending, s.region = .tag tag pending → tag.isEnd = true := by
  cases s <;> simp [Outside, region]

theorem State.outside_text {reading : Reading} {held : Text} (hs : s.region = .text reading held) :
    s.Outside :=
  State.outside_iff.2 (by simp [hs])

theorem State.eq_tagOpen (h : s.region = .text .markup ['<']) : s = .tagOpen := by
  cases s <;> cases h
  rfl

theorem State.opening_of_ne (h : s ≠ .tagOpen) : s.opening = [] := by
  cases s with
  | tagOpen => exact absurd rfl h
  | _ => rfl

theorem State.ne_tagOpen {region : Region} (hs : s.region = region)
    (h : ∀ reading held, region ≠ .text reading held) : s ≠ .tagOpen := by
  rintro rfl
  exact h _ _ hs.symm

namespace Step

theorem staysBetweenTags_goto {s' : State} (h : s'.BetweenTags) (hne : s' ≠ .tagOpen)
    (hk : k <:+ rest) : (goto s' k).StaysBetweenTags c rest where
  tokens _ ht := nomatch ht
  state := h
  suffix := by
    rw [goto, State.opening_of_ne hne]
    exact hk.trans (List.suffix_cons c rest)

/-- A step that holds a character back, which may be a `<` that opens a tag. -/
theorem staysBetweenTags_hold {s' : State} {reading : Reading} (held : Text)
    (hs : s'.region = .text reading (held ++ [c])) : (goto s' rest).StaysBetweenTags c rest where
  tokens _ ht := nomatch ht
  state := .outside (State.outside_text hs)
  suffix := by
    by_cases ho : s' = .tagOpen
    · subst ho
      have hheld : ['<'] = held ++ [c] := (Region.text.inj hs).2
      have hc : c = '<' := by simpa using (congrArg List.getLast? hheld).symm
      exact hc ▸ List.suffix_rfl
    · rw [goto, State.opening_of_ne ho]
      exact List.suffix_cons c rest

theorem staysBetweenTags_single {x : Token} (hx : x.isStartTag = false) (reading : Reading)
    (hk : k <:+ rest) : (Step.mk [x] (.content reading) k).StaysBetweenTags c rest where
  tokens _ ht := List.mem_singleton.1 ht ▸ hx
  state := .outside trivial
  suffix := hk.trans (List.suffix_cons c rest)

theorem StaysBetweenTags.withText {st : Step} (h : st.StaysBetweenTags c rest) (before : Text) :
    (st.withText before).StaysBetweenTags c rest where
  tokens t ht := by
    rcases List.mem_append.1 ht with ht | ht
    · obtain ⟨d, -, rfl⟩ := List.mem_map.1 ht
      rfl
    · exact h.tokens t ht
  state := h.state
  suffix := h.suffix

/-- A step inside an end tag. -/
theorem Edits.staysBetweenTags {st : Step} {tag : TagDraft} {pending : AttributeDraft}
    (h : st.Edits tag pending c rest) (he : tag.isEnd = true) : st.StaysBetweenTags c rest := by
  cases h with
  | goto h hs hk =>
      exact staysBetweenTags_goto (.outside (State.outside_iff.2 (by simp [hs, h.isEnd_eq, he])))
        (State.ne_tagOpen hs nofun) hk
  | finish h selfClosing =>
      rw [TagDraft.finish, if_pos (h.isEnd_eq.trans he)]
      exact staysBetweenTags_single rfl .markup List.suffix_rfl

end Step

theorem State.Outside.step (h : s.Outside) (hs : s = .tagOpen → c.isAlpha = false) (rest : Text) :
    (s.step c rest).StaysBetweenTags c rest := by
  obtain ⟨hcomment, htag⟩ := State.outside_iff.1 h
  have hstep := s.transition c rest
  generalize s.step c rest = st at hstep
  generalize hr : s.region = region at hstep
  cases hstep with
  | hold _ hs' => exact Step.staysBetweenTags_hold _ hs'
  | reopen _ hs' => exact (Step.staysBetweenTags_hold [] hs').withText _
  | character _ hk => exact (Step.staysBetweenTags_single rfl _ hk).withText _
  | startTag hc => exact absurd hc (Bool.eq_false_iff.1 (hs (State.eq_tagOpen hr)))
  | endTag => exact Step.staysBetweenTags_goto (.outside rfl) nofun List.suffix_rfl
  | plainEndTag he => exact he.staysBetweenTags rfl
  | drop => exact Step.staysBetweenTags_goto (.outside trivial) nofun List.suffix_rfl
  | comment hk => exact Step.staysBetweenTags_goto (.comment .start) nofun hk
  | bogusComment hd hk => exact Step.staysBetweenTags_goto (.bogusComment hd) nofun hk
  | doctype hk => exact Step.staysBetweenTags_goto (.outside trivial) nofun hk
  | inTag he => exact he.staysBetweenTags (htag _ _ hr)
  | inComment | endComment => exact absurd hr hcomment
  | inDoctype hs' =>
      exact Step.staysBetweenTags_goto (.outside (State.outside_iff.2 (by simp [hs'])))
        (State.ne_tagOpen hs' nofun) List.suffix_rfl
  | endDoctype => exact Step.staysBetweenTags_single rfl .markup List.suffix_rfl

/-- Between tags only a letter behind a `<` opens a start tag. -/
theorem State.BetweenTags.step (h : s.BetweenTags) (hs : s = .tagOpen → c.isAlpha = false)
    (rest : Text) : (s.step c rest).StaysBetweenTags c rest := by
  cases h with
  | outside h => exact h.step hs rest
  | @bogusComment data hd =>
      change (Step.bogusComment data c rest).StaysBetweenTags c rest
      rcases Step.bogusComment_cases hd c rest with ⟨-, hstep⟩ | ⟨data', hd', hstep⟩
      · rw [hstep]
        exact Step.staysBetweenTags_single rfl .markup List.suffix_rfl
      · rw [hstep]
        exact Step.staysBetweenTags_goto (.bogusComment hd') nofun List.suffix_rfl
  | @comment _ t ht =>
      obtain ⟨d, hd, hstep⟩ := ht.exists_step_eq c rest
      rw [hstep]
      rcases ht.step hd with ⟨s', hgoto, hs'⟩ | ⟨-, data, -, hclose⟩
      · exact hgoto rest ▸ Step.staysBetweenTags_goto (.comment hs')
          (State.ne_tagOpen hs'.region nofun) List.suffix_rfl
      · exact hclose rest ▸ Step.staysBetweenTags_single rfl .markup List.suffix_rfl

/-! ### The source of a tag -/

/-- What ends a list of tokens without start tags and more tokens, and starts with a start tag, is
an end of the tokens behind. -/
theorem suffix_of_suffix_append {x : Token} (hx : x ∉ ts) {vs : List Token}
    (h : x :: us <:+ ts ++ vs) : x :: us <:+ vs := by
  rcases List.suffix_or_suffix_of_suffix h (List.suffix_append ts vs) with hs | ⟨w, hw⟩
  · exact hs
  · cases w with
    | nil => exact ⟨[], hw.symm⟩
    | cons y w =>
        obtain ⟨rfl, rfl⟩ := List.cons.inj hw
        obtain ⟨v, hv⟩ := h
        have hts : v ++ y :: w = ts := List.append_cancel_right (by simpa using hv)
        exact absurd (hts ▸ List.mem_append_right v List.mem_cons_self) hx

/-- A start tag that is delivered stands in the text behind a `<`, and the text behind the tag is
read for the tokens behind it. -/
theorem State.BetweenTags.exists_read? (hs : s.BetweenTags)
    (h : .startTag name attributes selfClosing :: us <:+ s.tokens t) :
    ∃ (u rest : Text) (written : List Attribute), '<' :: u <:+ s.opening ++ t ∧
      SourceTag.read? u = some (⟨name, written, selfClosing⟩, rest) ∧
      us = (State.content (TagDraft.readingAfter name)).tokens rest ∧
      SourceTag.Keeps ⟨name, written, selfClosing⟩ attributes := by
  -- A step keeps the reader between tags, except for the one that goes from `<` into a name, which
  -- is taken together with the whole tag.
  induction hn : t.length using Nat.strong_induction_on generalizing s t with
  | _ n ih =>
    subst hn
    have hnot : ∀ {ts : List Token}, (∀ t ∈ ts, t.isStartTag = false) →
        .startTag name attributes selfClosing ∉ ts := fun hts hm => nomatch hts _ hm
    cases t with
    | nil =>
        rw [State.tokens] at h
        have hend := suffix_of_suffix_append (hnot fun _ => s.isStartTag_of_mem_finish) h
        exact absurd (hend.subset List.mem_cons_self) (by simp)
    | cons c t =>
        by_cases hopen : s = .tagOpen → c.isAlpha = false
        · have hstep := hs.step hopen t
          rw [State.tokens_cons] at h
          obtain ⟨u, rest, written, hu, hread⟩ := ih _
            (Nat.lt_succ_of_le (State.step_length_le s c t)) hstep.state
            (suffix_of_suffix_append (hnot hstep.tokens) h) rfl
          exact ⟨u, rest, written, hu.trans (hstep.suffix.trans (List.suffix_append ..)), hread⟩
        · obtain ⟨rfl, hc⟩ := Classical.not_imp.1 hopen
          rw [Bool.not_eq_false] at hc
          rw [tokens_read? hc] at h
          cases hr : SourceTag.read? (c :: t) with
          | none =>
              rw [hr] at h
              exact absurd (h.subset List.mem_cons_self) (by simp)
          | some p =>
              obtain ⟨tag, k⟩ := p
              rw [hr] at h
              rcases List.suffix_cons_iff.1 h with he | hrest
              · cases he
                exact ⟨c :: t, k, tag.attributes, List.suffix_rfl, hr, rfl, tag.keeps_addAll _⟩
              · have hk := SourceTag.suffix_of_read? hr
                have hcontent : (State.content (TagDraft.readingAfter tag.name)).BetweenTags :=
                  .outside trivial
                obtain ⟨u, rest, written, hu, hread⟩ := ih _ (Nat.lt_succ_of_le hk.length_le)
                  hcontent hrest rfl
                exact ⟨u, rest, written, hu.trans (hk.trans ⟨['<', c], rfl⟩), hread⟩

/-! ### The form of a tag -/

theorem IsTagChar.delivered (h : IsTagChar c) : c.isUpper = false ∧ isNameEnd c = false :=
  ⟨Source.isUpper_of_toLower_eq h.lower, h.not_isNameEnd⟩

/-- A tag whose attributes have names of their own is in that form. -/
theorem TagDraft.WellNamed.isDelivered (h : (⟨false, name, attributes⟩ : TagDraft).WellNamed) :
    IsDelivered name attributes where
  initial := by
    obtain ⟨ha, hc⟩ := h.name rfl
    rename_i c t
    refine ⟨c, t, rfl, ?_⟩
    have hupper := (hc c List.mem_cons_self).delivered.1
    unfold Char.isAlpha at ha
    rwa [hupper, Bool.false_or] at ha
  name c hc := by
    obtain ⟨-, ht⟩ := h.name rfl
    exact (ht c hc).delivered
  nodup := h.nodup
  nonempty a ha he := by
    have hn := h.attributes a ha
    rw [he] at hn
    cases hn
  names a ha c hc := by
    obtain ⟨b, n⟩ := a
    obtain ⟨hd, ht⟩ := h.attributes _ ha
    rcases List.mem_cons.1 hc with rfl | hc
    · exact hd.delivered
    · exact (ht c hc).isTagChar.delivered
  equals a ha he := by
    obtain ⟨b, n⟩ := a
    obtain ⟨-, ht⟩ := h.attributes _ ha
    exact (ht '=' he).equals rfl
  bare a _ hv := by rw [Attribute.text, hv]; rfl

/-- A start tag that is delivered has a name and attributes in that form, and it is the tag that
stands at its place in the text, of whose attributes the first one of each name is kept. -/
theorem startTag_of_ofText_eq
    (h : Token.ofText t = ts ++ .startTag name attributes selfClosing :: us) :
    IsDelivered name attributes ∧ ∃ (written : List Attribute) (rest : Text),
      SourceTag.StandsIn ⟨name, written, selfClosing⟩ t rest ∧
      SourceTag.Keeps ⟨name, written, selfClosing⟩ attributes ∧
      us = (State.content (TagDraft.readingAfter name)).tokens rest := by
  have hmem : .startTag name attributes selfClosing ∈ Token.ofText t :=
    h ▸ List.mem_append_right ts List.mem_cons_self
  have hsuffix : .startTag name attributes selfClosing :: us <:+ Token.ofText t := ⟨ts, h.symm⟩
  have hstart : (State.content .markup).BetweenTags := .outside trivial
  obtain ⟨u, rest, written, ⟨before, hu⟩, hread, hus, hkeeps⟩ := hstart.exists_read? hsuffix
  exact ⟨(Token.wellNamed_of_mem_ofText hmem).isDelivered, written, rest,
    ⟨before, u, hu.symm, hread⟩, hkeeps, hus⟩

/-- A tag behind a comment that holds another one, with an attribute that is written three times. -/
theorem startTag_of_ofText_eq_duplicates :
    Token.ofText "<!--<a>--><B X=&lt; y x=2 =z X>" = [.comment "<a>"] ++
        .startTag "b" [⟨"x", some "<"⟩, ⟨"y", none⟩, ⟨"=z", none⟩] false :: [.endOfFile] ∧
      IsDelivered "b" [⟨"x", some "<"⟩, ⟨"y", none⟩, ⟨"=z", none⟩] ∧
      ∃ (written : List Attribute) (rest : Text),
        SourceTag.StandsIn ⟨"b", written, false⟩ "<!--<a>--><B X=&lt; y x=2 =z X>" rest ∧
        SourceTag.Keeps ⟨"b", written, false⟩ [⟨"x", some "<"⟩, ⟨"y", none⟩, ⟨"=z", none⟩] ∧
        [.endOfFile] = (State.content (TagDraft.readingAfter "b")).tokens rest := by
  have h : Token.ofText "<!--<a>--><B X=&lt; y x=2 =z X>" = [.comment "<a>"] ++
      .startTag "b" [⟨"x", some "<"⟩, ⟨"y", none⟩, ⟨"=z", none⟩] false :: [.endOfFile] := by
    decide +kernel
  exact ⟨h, startTag_of_ofText_eq h⟩

end AmpMarkup.Html
