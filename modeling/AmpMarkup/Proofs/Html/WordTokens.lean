import AmpMarkup.Proofs.Html.FragmentTokens

/-! Reading a stand-in. It has no character that ends anything, so the reader takes it as a whole
into whatever it is reading, and goes on in a state that does not depend on the stand-in
otherwise. -/

namespace AmpMarkup.Html

open Source (isLowerNameChar IsSubstitute IsBindingMark)

variable {s : State} {c : Char} {t u w k : Text}

namespace State

/-- The tokens that a word completes. -/
def wordTokens (s : State) (w : Text) : List Token :=
  match s with
  | .content _ => w.map .character
  | .tagOpen | .plainLessThan .. => ('<' :: w).map .character
  | .plainEndTagOpen .. => ('<' :: '/' :: w).map .character
  | .plainEndTagName _ _ written => ('<' :: '/' :: (written ++ w)).map .character
  | _ => []

/-- The state after a word. -/
def afterWord (s : State) (w : Text) : State :=
  match s with
  | .content reading => .content reading
  | .tagOpen => .content .markup
  | .endTagOpen => .bogusComment w
  | .plainLessThan references element => .content (.plain references element)
  | .plainEndTagOpen references element => .content (.plain references element)
  | .plainEndTagName references element _ => .content (.plain references element)
  | .tagName tag => .tagName { tag with name := tag.name ++ w }
  | .beforeAttribute tag | .afterQuotedValue tag | .solidus tag => .attributeName tag w
  | .attributeName tag name => .attributeName tag (name ++ w)
  | .afterAttributeName tag name => .attributeName (tag.add name none) w
  | .beforeValue tag name => .inValue .unquoted tag name w
  | .inValue quoting tag name value => .inValue quoting tag name (value ++ w)
  | .bogusComment data => .bogusComment (data ++ w)
  | .commentStart => .comment w
  | .commentStartDash => .comment ('-' :: w)
  | .comment data => .comment (data ++ w)
  | .commentDash data => .comment (data ++ '-' :: w)
  | .commentEnd data => .comment (data ++ '-' :: '-' :: w)
  | .commentBang data => .comment (data ++ '-' :: '-' :: '!' :: w)
  | .beforeDoctypeName => .doctypeName w
  | .doctypeName name => .doctypeName (name ++ w)
  | .afterDoctypeName name => .afterDoctypeName name

/-- A state in which every character of a name is read in the same way. -/
def Loose : State → Prop
  | .content _ | .tagName _ | .beforeAttribute _ | .attributeName .. => True
  | .afterAttributeName .. | .beforeValue .. | .inValue .. | .afterQuotedValue _ => True
  | .solidus _ | .bogusComment _ | .beforeDoctypeName | .doctypeName _ => True
  | .afterDoctypeName _ => True
  | _ => False

end State

/-- A state that adds the characters of a class to what it holds, each giving the same tokens
whatever is held. -/
def Takes (p : Char → Prop) (state : Text → State) (out : Char → List Token) : Prop :=
  ∀ c, p c → ∀ held k, (state held).step c k = ⟨out c, state (held ++ [c]), k⟩

theorem Takes.tokens_append {p : Char → Prop} {state : Text → State} {out : Char → List Token}
    (h : Takes p state out) (hu : ∀ c ∈ u, p c) (held k : Text) :
    (state held).tokens (u ++ k) = u.flatMap out ++ (state (held ++ u)).tokens k := by
  induction u generalizing held with
  | nil => simp
  | cons c u ih =>
      rw [List.cons_append, State.tokens_cons, h c (hu c List.mem_cons_self),
        ih fun d hd => hu d (List.mem_cons_of_mem _ hd), List.flatMap_cons, List.append_assoc,
        List.append_assoc, List.singleton_append]

/-- The same where the characters give no tokens. -/
theorem Takes.tokens_eq {p : Char → Prop} {state : Text → State} (h : Takes p state fun _ => [])
    (hu : ∀ c ∈ u, p c) (held k : Text) :
    (state held).tokens (u ++ k) = (state (held ++ u)).tokens k := by
  rw [h.tokens_append hu, List.flatMap_eq_nil_iff.2 fun _ _ => rfl, List.nil_append]

/-! ### The states that take characters of names -/

section
variable (h : isLowerNameChar c = true)
include h

theorem ne_of_isLowerNameChar {d : Char} (hd : Source.isNameChar d = false) : c ≠ d :=
  Source.ne_of_isNameChar (Source.isNameChar_of_isLowerNameChar h) hd

theorem step_content (reading : Reading) (k : Text) :
    Step.content reading c k = ⟨[.character c], .content reading, k⟩ := by
  have hlt := ne_of_isLowerNameChar h (d := '<') (by decide)
  have hamp := ne_of_isLowerNameChar h (d := '&') (by decide)
  have hnull := ne_of_isLowerNameChar h (d := '\x00') (by decide)
  cases reading with
  | markup => rw [Step.content, if_neg hlt, if_neg hamp]
  | plain references element =>
      rw [Step.content, if_neg hlt, if_neg fun h => hamp h.1, if_neg hnull]

theorem step_beforeAttribute (tag : TagDraft) (k : Text) :
    Step.beforeAttribute tag c k = .goto (.attributeName tag [c]) k := by
  have hc := isPlainNameChar_of_isLowerNameChar h
  rw [Step.beforeAttribute, hc.space, if_neg Bool.false_ne_true, if_neg hc.solidus,
    if_neg hc.close, hc.lower]

theorem step_unquotedValue (tag : TagDraft) (name value k : Text) :
    Step.unquotedValue tag name value c k = .goto (.inValue .unquoted tag name (value ++ [c])) k := by
  have hc := isPlainNameChar_of_isLowerNameChar h
  rw [Step.unquotedValue, hc.space, if_neg Bool.false_ne_true, if_neg hc.close,
    Step.valueCharacter, if_neg (ne_of_isLowerNameChar h (by decide))]

theorem step_comment (hd : c ≠ '-') (data k : Text) :
    Step.comment data c k = .goto (.comment (data ++ [c])) k := by
  rw [Step.comment, if_neg hd, if_neg (ne_of_isLowerNameChar h (by decide))]

end

theorem takes_content (reading : Reading) :
    Takes (isLowerNameChar · = true) (fun _ => .content reading) fun c => [.character c] :=
  fun _ h _ k => step_content h reading k

theorem takes_tagName (isEnd : Bool) (attributes : List Attribute) :
    Takes (isLowerNameChar · = true) (fun held => .tagName ⟨isEnd, held, attributes⟩)
      fun _ => [] := by
  intro c h held k
  have hc := isPlainNameChar_of_isLowerNameChar h
  rw [State.step, hc.space, if_neg Bool.false_ne_true, if_neg hc.solidus, if_neg hc.close, hc.lower]
  rfl

theorem takes_attributeName (tag : TagDraft) :
    Takes (isLowerNameChar · = true) (.attributeName tag) fun _ => [] := by
  intro c h held k
  have hc := isPlainNameChar_of_isLowerNameChar h
  rw [State.step, hc.space, if_neg Bool.false_ne_true, if_neg hc.solidus, if_neg hc.close,
    if_neg hc.equals, hc.lower]
  rfl

theorem takes_inValue (quoting : Quoting) (tag : TagDraft) (name : Text) :
    Takes (isLowerNameChar · = true) (.inValue quoting tag name) fun _ => [] := by
  intro c h held k
  have hamp := ne_of_isLowerNameChar h (d := '&') (by decide)
  cases quoting with
  | double =>
      rw [State.step, if_neg (ne_of_isLowerNameChar h (by decide)), Step.valueCharacter, if_neg hamp]
      rfl
  | single =>
      rw [State.step, if_neg (ne_of_isLowerNameChar h (by decide)), Step.valueCharacter, if_neg hamp]
      rfl
  | unquoted => exact step_unquotedValue h tag name held k

theorem takes_bogusComment : Takes (isLowerNameChar · = true) .bogusComment fun _ => [] := by
  intro c h held k
  rw [State.step, Step.bogusComment, if_neg (ne_of_isLowerNameChar h (by decide)),
    if_neg (ne_of_isLowerNameChar h (by decide))]
  rfl

theorem takes_comment :
    Takes (fun c => isLowerNameChar c = true ∧ c ≠ '-') .comment fun _ => [] :=
  fun _ h held k => step_comment h.1 h.2 held k

theorem takes_doctypeName : Takes (isLowerNameChar · = true) .doctypeName fun _ => [] := by
  intro c h held k
  have hc := isPlainNameChar_of_isLowerNameChar h
  rw [State.step, hc.space, if_neg Bool.false_ne_true, if_neg hc.close, hc.lower]
  rfl

theorem takes_afterDoctypeName (name : Text) :
    Takes (isLowerNameChar · = true) (fun _ => .afterDoctypeName name) fun _ => [] := by
  intro c h _ k
  rw [State.step, if_neg (isPlainNameChar_of_isLowerNameChar h).close]
  rfl

/-! ### Words -/

theorem flatMap_character (t : Text) : t.flatMap (fun c => [Token.character c]) = t.map .character := by
  induction t with
  | nil => rfl
  | cons c t ih => rw [List.flatMap_cons, ih]; rfl

/-- Reading a word in a state in which it does not matter what the word starts with. -/
theorem tokens_word (hs : s.Loose) (hne : w ≠ []) (hw : ∀ c ∈ w, isLowerNameChar c = true)
    (k : Text) : s.tokens (w ++ k) = s.wordTokens w ++ (s.afterWord w).tokens k := by
  obtain ⟨c, u, rfl⟩ := List.exists_cons_of_ne_nil hne
  have hc := hw c List.mem_cons_self
  have hu : ∀ d ∈ u, isLowerNameChar d = true := fun d hd => hw d (List.mem_cons_of_mem _ hd)
  have hp := isPlainNameChar_of_isLowerNameChar hc
  have hstart : ∀ tag, (State.attributeName tag [c]).tokens (u ++ k) =
      (State.attributeName tag (c :: u)).tokens k := fun tag =>
    (takes_attributeName tag).tokens_eq hu [c] k
  cases s with
  | content reading =>
      rw [(takes_content reading).tokens_append hw [], flatMap_character]
      rfl
  | tagName tag => exact (takes_tagName tag.isEnd tag.attributes).tokens_eq hw tag.name k
  | beforeAttribute tag =>
      rw [List.cons_append, State.tokens_goto (s := .beforeAttribute tag)
        (step_beforeAttribute hc tag (u ++ k)), hstart]
      rfl
  | attributeName tag name => exact (takes_attributeName tag).tokens_eq hw name k
  | afterAttributeName tag name =>
      have hstep : (State.afterAttributeName tag name).step c (u ++ k) =
          .goto (.attributeName (tag.add name none) [c]) (u ++ k) := by
        rw [State.step, hp.space, if_neg Bool.false_ne_true, if_neg hp.solidus, if_neg hp.equals,
          if_neg hp.close, hp.lower]
      rw [List.cons_append, State.tokens_goto hstep, hstart]
      rfl
  | beforeValue tag name =>
      have hstep : (State.beforeValue tag name).step c (u ++ k) =
          .goto (.inValue .unquoted tag name [c]) (u ++ k) := by
        rw [State.step, hp.space, if_neg Bool.false_ne_true,
          if_neg (ne_of_isLowerNameChar hc (by decide)),
          if_neg (ne_of_isLowerNameChar hc (by decide)), if_neg hp.close,
          step_unquotedValue hc tag name []]
        rfl
      rw [List.cons_append, State.tokens_goto hstep]
      exact (takes_inValue .unquoted tag name).tokens_eq hu [c] k
  | inValue quoting tag name value => exact (takes_inValue quoting tag name).tokens_eq hw value k
  | afterQuotedValue tag =>
      rw [List.cons_append, State.tokens_goto (s := .afterQuotedValue tag)
        (step_beforeAttribute hc tag (u ++ k)), hstart]
      rfl
  | solidus tag =>
      have hstep : (State.solidus tag).step c (u ++ k) = .goto (.attributeName tag [c]) (u ++ k) := by
        rw [State.step, if_neg hp.close, step_beforeAttribute hc]
      rw [List.cons_append, State.tokens_goto hstep, hstart]
      rfl
  | bogusComment data => exact takes_bogusComment.tokens_eq hw data k
  | beforeDoctypeName =>
      have hstep : State.beforeDoctypeName.step c (u ++ k) = .goto (.doctypeName [c]) (u ++ k) := by
        rw [State.step, hp.space, if_neg Bool.false_ne_true, if_neg hp.close, hp.lower]
      rw [List.cons_append, State.tokens_goto hstep]
      exact takes_doctypeName.tokens_eq hu [c] k
  | doctypeName name => exact takes_doctypeName.tokens_eq hw name k
  | afterDoctypeName name => exact (takes_afterDoctypeName name).tokens_eq hw [] k
  | _ => exact hs.elim

theorem isLowerNameChar_of_mem_substitute (hw : IsSubstitute w) (hc : c ∈ w) :
    isLowerNameChar c = true ∧ c ≠ '-' := by
  refine ⟨?_, (hw.isNameChar_of_mem hc).2⟩
  obtain ⟨f, hf, rfl⟩ := hw
  rcases List.mem_append.1 hc with hc | hc
  · exact List.all_eq_true.1 (by decide : Source.substituteMark.all isLowerNameChar = true) c hc
  · exact Source.isLowerNameChar_of_isLowerHex (hf.digits c hc)

/-- Reading a substitute in any state: it starts with an underscore, which no name starts with. -/
theorem tokens_substitute (hw : IsSubstitute w) (s : State) (k : Text) :
    s.tokens (w ++ k) = s.wordTokens w ++ (s.afterWord w).tokens k := by
  have hmem := fun c (hc : c ∈ w) => isLowerNameChar_of_mem_substitute hw hc
  have hword : s.Loose → s.tokens (w ++ k) = s.wordTokens w ++ (s.afterWord w).tokens k := fun hs =>
    tokens_word hs hw.ne_nil (fun c hc => (hmem c hc).1) k
  obtain ⟨u, rfl⟩ := hw.eq_cons
  have hu := fun c (hc : c ∈ u) => hmem c (List.mem_cons_of_mem _ hc)
  have hcontent : ∀ reading : Reading, (State.content reading).tokens (u ++ k) =
      u.map .character ++ (State.content reading).tokens k := fun reading => by
    rw [(takes_content reading).tokens_append (fun c hc => (hu c hc).1) [], flatMap_character]
  have hcomment : ∀ data : Text, (State.comment (data ++ ['_'])).tokens (u ++ k) =
      (State.comment (data ++ '_' :: u)).tokens k := fun data => by
    rw [takes_comment.tokens_eq hu, List.append_assoc, List.singleton_append]
  -- An underscore is no letter, so where a name would start it is content, or a comment.
  cases s with
  | tagOpen =>
      have hstep : State.tagOpen.step '_' (u ++ k) =
          ⟨[.character '<', .character '_'], .content .markup, u ++ k⟩ := rfl
      rw [List.cons_append, State.tokens_cons, hstep, hcontent]
      rfl
  | endTagOpen =>
      have hstep : State.endTagOpen.step '_' (u ++ k) = .goto (.bogusComment ['_']) (u ++ k) := rfl
      rw [List.cons_append, State.tokens_goto hstep]
      exact takes_bogusComment.tokens_eq (fun c hc => (hu c hc).1) ['_'] k
  | plainLessThan references element =>
      have hstep : (State.plainLessThan references element).step '_' (u ++ k) =
          ⟨[.character '<', .character '_'], .content (.plain references element), u ++ k⟩ := rfl
      rw [List.cons_append, State.tokens_cons, hstep, hcontent]
      rfl
  | plainEndTagOpen references element =>
      have hstep : (State.plainEndTagOpen references element).step '_' (u ++ k) =
          ⟨[.character '<', .character '/', .character '_'], .content (.plain references element),
            u ++ k⟩ := rfl
      rw [List.cons_append, State.tokens_cons, hstep, hcontent]
      rfl
  | plainEndTagName references element written =>
      have hstep : (State.plainEndTagName references element written).step '_' (u ++ k) =
          ⟨('<' :: '/' :: written).map .character ++ [.character '_'],
            .content (.plain references element), u ++ k⟩ := rfl
      rw [List.cons_append, State.tokens_cons, hstep, hcontent]
      simp [State.wordTokens, State.afterWord]
  | commentStart =>
      have hstep : State.commentStart.step '_' (u ++ k) = .goto (.comment ['_']) (u ++ k) := rfl
      rw [List.cons_append, State.tokens_goto hstep]
      exact hcomment []
  | commentStartDash =>
      have hstep : State.commentStartDash.step '_' (u ++ k) = .goto (.comment ['-', '_']) (u ++ k) :=
        rfl
      rw [List.cons_append, State.tokens_goto hstep]
      exact hcomment ['-']
  | comment data => exact takes_comment.tokens_eq hmem data k
  | commentDash data =>
      have hstep : (State.commentDash data).step '_' (u ++ k) =
          .goto (.comment (data ++ ['-'] ++ ['_'])) (u ++ k) := rfl
      rw [List.cons_append, State.tokens_goto hstep, hcomment]
      simp [State.wordTokens, State.afterWord]
  | commentEnd data =>
      have hstep : (State.commentEnd data).step '_' (u ++ k) =
          .goto (.comment (data ++ ['-', '-'] ++ ['_'])) (u ++ k) := rfl
      rw [List.cons_append, State.tokens_goto hstep, hcomment]
      simp [State.wordTokens, State.afterWord]
  | commentBang data =>
      have hstep : (State.commentBang data).step '_' (u ++ k) =
          .goto (.comment (data ++ ['-', '-', '!'] ++ ['_'])) (u ++ k) := rfl
      rw [List.cons_append, State.tokens_goto hstep, hcomment]
      simp [State.wordTokens, State.afterWord]
  | _ => exact hword trivial

/-- Reading a mark in a comment: it ends with a hyphen, which might start the end of the comment. -/
theorem tokens_comment_mark (hw : IsBindingMark w) (data k : Text) :
    ∃ data', (State.comment data).tokens (w ++ k) = (State.commentDash data').tokens k := by
  have hdash : ∀ data k : Text,
      (State.comment data).tokens ('-' :: k) = (State.commentDash data).tokens k := fun data k =>
    State.tokens_goto rfl
  have hpart : ∀ u : Text, u ≠ [] → (∀ c ∈ u, isLowerNameChar c = true ∧ c ≠ '-') →
      ∀ data k : Text, (State.commentDash data).tokens (u ++ '-' :: k) =
        (State.commentDash (data ++ '-' :: u)).tokens k := by
    intro u hne hu data k
    obtain ⟨c, u, rfl⟩ := List.exists_cons_of_ne_nil hne
    obtain ⟨hc, hd⟩ := hu c List.mem_cons_self
    have hstep : (State.commentDash data).step c (u ++ '-' :: k) =
        .goto (.comment (data ++ ['-'] ++ [c])) (u ++ '-' :: k) := by
      rw [State.step, if_neg hd]
      exact step_comment hc hd (data ++ ['-']) _
    rw [List.cons_append, State.tokens_goto hstep,
      takes_comment.tokens_eq fun d hd => hu d (List.mem_cons_of_mem _ hd), hdash]
    simp
  obtain ⟨f, hf, rfl⟩ := hw
  have hfd : ∀ c ∈ f, isLowerNameChar c = true ∧ c ≠ '-' := fun c hc =>
    ⟨Source.isLowerNameChar_of_isLowerHex (hf.digits c hc),
      Source.isLowerHex_ne (hf.digits c hc) (by decide)⟩
  have hchars : ∀ u : Text, u.all (fun c => isLowerNameChar c && c != '-') = true →
      ∀ c ∈ u, isLowerNameChar c = true ∧ c ≠ '-' := fun u hu c hc => by
    simpa using List.all_eq_true.1 hu c hc
  have hamp := hchars ['a', 'm', 'p'] (by decide)
  have hbinding := hchars ['b', 'i', 'n', 'd', 'i', 'n', 'g'] (by decide)
  have hstart : Source.bindingMarkStart =
      ['a', 'm', 'p'] ++ '-' :: (['b', 'i', 'n', 'd', 'i', 'n', 'g'] ++ ['-']) := rfl
  have hform : Source.bindingMarkStart ++ f ++ ['-'] ++ k = ['a', 'm', 'p'] ++
      '-' :: (['b', 'i', 'n', 'd', 'i', 'n', 'g'] ++ '-' :: (f ++ '-' :: k)) := by
    rw [hstart]
    simp only [List.append_assoc, List.cons_append, List.nil_append]
  have hfne : f ≠ [] := List.ne_nil_of_length_eq_add_one hf.length_eq
  rw [hform, takes_comment.tokens_eq hamp, hdash, hpart _ (by decide) hbinding, hpart f hfne hfd]
  exact ⟨_, rfl⟩

end AmpMarkup.Html
