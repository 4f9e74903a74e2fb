import AmpMarkup.Dom.Subtree
import AmpMarkup.Proofs.Html.Transition

/-! Comments that are written and read again. The reader holds the text of a comment as it stands in
the source, up to what may close the comment, so the text of every comment that is read goes through
the reader without closing anything, and the comment that is written around it is read as that
comment. -/

namespace AmpMarkup.Html

open Dom (renderComment)

/-- A reader that goes through a text and completes no token, whatever follows. -/
inductive State.Passes : State → Text → State → Prop where
  | nil (s : State) : Passes s [] s
  | cons {s s' s'' : State} {c : Char} {t : Text} (h : ∀ k, s.step c k = .goto s' k)
      (ht : Passes s' t s'') : Passes s (c :: t) s''

/-- A reader inside a comment, behind the given text of it. -/
inductive State.InComment : State → Text → Prop where
  | start : InComment .commentStart []
  | startDash : InComment .commentStartDash ['-']
  | text (data : Text) : InComment (.comment data) data
  | dash (data : Text) : InComment (.commentDash data) (data ++ ['-'])
  | dashes (data : Text) : InComment (.commentEnd data) (data ++ ['-', '-'])
  | bang (data : Text) : InComment (.commentBang data) (data ++ ['-', '-', '!'])

/-- Text that does not close the comment that it stands in. -/
structure IsCommentText (data : Text) : Prop where
  passes : ∃ s, State.commentStart.Passes data s
  null : '\x00' ∉ data

/-- A reader whose unfinished comment has text that does not close it. -/
structure State.CommentOpen (s : State) : Prop where
  bogus : ∀ data, s = .bogusComment data → IsBogusText data
  text : ∀ t, s.InComment t → State.commentStart.Passes t s ∧ '\x00' ∉ t

/-- A step that completes comments with such text and leaves one open. -/
structure Step.KeepsComments (st : Step) : Prop where
  state : st.state.CommentOpen
  tokens : ∀ data, .comment data ∈ st.tokens → IsCommentText data

variable {s s' s'' : State} {st : Step} {c : Char} {t u v k data : Text}

/-! ### Going through a text -/

namespace State.Passes

theorem tokens_eq (h : s.Passes t s') (k : Text) : s.tokens (t ++ k) = s'.tokens k := by
  induction h with
  | nil => rfl
  | cons hc _ ih => rw [List.cons_append, tokens_goto (hc _), ih]

theorem append (h : s.Passes t s') (h' : s'.Passes u s'') : s.Passes (t ++ u) s'' := by
  induction h with
  | nil => exact h'
  | cons hc _ ih => exact .cons hc (ih h')

theorem exists_of_append (h : s.Passes (t ++ u) s'') : ∃ s', s.Passes t s' ∧ s'.Passes u s'' := by
  induction t generalizing s with
  | nil => exact ⟨s, .nil s, h⟩
  | cons c t ih =>
      cases h with
      | cons hc ht =>
          obtain ⟨s', h₁, h₂⟩ := ih ht
          exact ⟨s', .cons hc h₁, h₂⟩

theorem single (h : ∀ k, s.step c k = .goto s' k) : s.Passes [c] s' :=
  .cons h (.nil s')

end State.Passes

theorem IsCommentText.front (h : IsCommentText t) (hd : data <+: t) : IsCommentText data := by
  obtain ⟨u, rfl⟩ := hd
  obtain ⟨s, hs⟩ := h.passes
  obtain ⟨s', hs', -⟩ := hs.exists_of_append
  exact ⟨⟨s', hs'⟩, fun hm => h.null (List.mem_append_left u hm)⟩

/-! ### Steps inside a comment -/

/-- A character that goes to the text. -/
theorem Step.comment_text (hc : c ≠ '-') (hn : c ≠ '\x00') (data k : Text) :
    Step.comment data c k = .goto (.comment (data ++ [c])) k := by
  rw [Step.comment, if_neg hc, if_neg hn]

namespace State.InComment

/-- A hyphen may belong to the end of the comment or to its text. -/
theorem step_hyphen (h : s.InComment t) :
    ∃ s', (∀ k, s.step '-' k = .goto s' k) ∧ s'.InComment (t ++ ['-']) := by
  cases h with
  | start => exact ⟨_, fun _ => rfl, .startDash⟩
  | startDash => exact ⟨_, fun _ => rfl, .dashes []⟩
  | text => exact ⟨_, fun _ => rfl, .dash t⟩
  | dash data =>
      refine ⟨_, fun _ => rfl, ?_⟩
      rw [List.append_assoc]
      exact .dashes data
  | dashes data =>
      refine ⟨_, fun _ => rfl, ?_⟩
      have hsame : data ++ ['-', '-'] ++ ['-'] = (data ++ ['-']) ++ ['-', '-'] := by simp
      exact hsame ▸ .dashes (data ++ ['-'])
  | bang data =>
      exact ⟨_, fun _ => rfl, .dash _⟩

/-- A `>` goes to the text or closes the comment, which may have been over before. -/
theorem step_close (h : s.InComment t) :
    (∃ s', (∀ k, s.step '>' k = .goto s' k) ∧ s'.InComment (t ++ ['>'])) ∨
      ∃ data, data <+: t ∧ ∀ k, s.step '>' k = ⟨[.comment data], .content .markup, k⟩ := by
  cases h with
  | start => exact .inr ⟨[], List.nil_prefix, fun _ => rfl⟩
  | startDash => exact .inr ⟨[], List.nil_prefix, fun _ => rfl⟩
  | text => exact .inl ⟨_, fun _ => rfl, .text _⟩
  | dash data => exact .inl ⟨_, fun _ => rfl, .text _⟩
  | dashes data => exact .inr ⟨data, List.prefix_append .., fun _ => rfl⟩
  | bang data => exact .inr ⟨data, List.prefix_append .., fun _ => rfl⟩

/-- Any other character goes to the text, with what may have been the end of the comment. -/
theorem step_other (h : s.InComment t) (hc : c ≠ '-') (hgt : c ≠ '>') (hn : c ≠ '\x00') :
    ∃ s', (∀ k, s.step c k = .goto s' k) ∧ s'.InComment (t ++ [c]) := by
  cases h with
  | start =>
      refine ⟨_, fun k => ?_, .text [c]⟩
      rw [State.step, if_neg hc, if_neg hgt, Step.comment_text hc hn]
      rfl
  | startDash =>
      refine ⟨_, fun k => ?_, .text ['-', c]⟩
      rw [State.step, if_neg hc, if_neg hgt, Step.comment_text hc hn]
      rfl
  | text => exact ⟨_, Step.comment_text hc hn t, .text _⟩
  | dash data =>
      refine ⟨_, fun k => ?_, .text _⟩
      rw [State.step, if_neg hc, Step.comment_text hc hn]
      rfl
  | dashes data =>
      by_cases hbang : c = '!'
      · subst hbang
        refine ⟨_, fun _ => rfl, ?_⟩
        rw [List.append_assoc]
        exact .bang data
      · refine ⟨_, fun k => ?_, .text _⟩
        rw [State.step, if_neg hgt, if_neg hbang, if_neg hc, Step.comment_text hc hn]
        rfl
  | bang data =>
      refine ⟨_, fun k => ?_, .text _⟩
      rw [State.step, if_neg hc, if_neg hgt, Step.comment_text hc hn]
      rfl

/-- A character goes to the text of the comment, or it is a `>` that closes the comment. -/
theorem step (h : s.InComment t) (hn : c ≠ '\x00') :
    (∃ s', (∀ k, s.step c k = .goto s' k) ∧ s'.InComment (t ++ [c])) ∨
      (c = '>' ∧ ∃ data, data <+: t ∧
        ∀ k, s.step c k = ⟨[.comment data], .content .markup, k⟩) := by
  by_cases hc : c = '-'
  · exact .inl (hc ▸ h.step_hyphen)
  · by_cases hgt : c = '>'
    · subst hgt
      exact h.step_close.imp_right fun hclose => ⟨rfl, hclose⟩
    · exact .inl (h.step_other hc hgt hn)

/-- A replaced character is read like the one that replaces it. -/
theorem exists_step_eq (h : s.InComment t) (c : Char) (k : Text) :
    ∃ d : Char, d ≠ '\x00' ∧ s.step c k = s.step d k := by
  by_cases hc : c = '\x00'
  · refine ⟨replacement, by decide, ?_⟩
    subst hc
    cases h <;> rfl
  · exact ⟨c, hc, rfl⟩

/-- The end of the input closes the comment, which may have been over before. -/
theorem finish (h : s.InComment t) : ∃ data, data <+: t ∧ s.finish = [.comment data] := by
  cases h with
  | start | startDash => exact ⟨[], List.nil_prefix, rfl⟩
  | text => exact ⟨t, List.prefix_rfl, rfl⟩
  | dash | dashes | bang => exact ⟨_, List.prefix_append .., rfl⟩

/-- What has been read of a comment is its text. -/
theorem passes (h : s.InComment t) (hp : s.Passes u s') (hn : '\x00' ∉ u) :
    s'.InComment (t ++ u) := by
  induction hp generalizing t with
  | nil => rwa [List.append_nil]
  | @cons s s₁ s' c u hc hp ih =>
      have hc0 : c ≠ '\x00' := fun he => hn (he ▸ List.mem_cons_self)
      rcases h.step hc0 with ⟨s₂, hstep, h₂⟩ | ⟨-, data, -, hstep⟩
      · have hsame : s₁ = s₂ := congrArg Step.state ((hc []).symm.trans (hstep []))
        rw [← List.singleton_append, ← List.append_assoc]
        exact ih (hsame ▸ h₂) fun hm => hn (List.mem_cons_of_mem _ hm)
      · cases congrArg Step.tokens ((hc []).symm.trans (hstep []))

/-- Text without `>` does not close the comment. -/
theorem exists_passes (h : s.InComment t) (hgt : '>' ∉ u) (hn : '\x00' ∉ u) :
    ∃ s', s.Passes u s' := by
  induction u generalizing s t with
  | nil => exact ⟨s, .nil s⟩
  | cons c u ih =>
      rw [List.mem_cons, not_or] at hgt hn
      rcases h.step (Ne.symm hn.1) with ⟨s₁, hstep, h₁⟩ | ⟨hc, -⟩
      · obtain ⟨s', hs'⟩ := ih h₁ hgt.2 hn.2
        exact ⟨s', .cons hstep hs'⟩
      · exact absurd hc.symm hgt.1

/-- Two hyphens behind the text may be the end of the comment, and none of them is part of its text
then. -/
theorem passes_hyphens (h : s.InComment t) : s.Passes ['-', '-'] (.commentEnd t) := by
  cases h with
  | start => exact .cons (fun _ => rfl) (.single fun _ => rfl)
  | startDash => exact .cons (fun _ => rfl) (.single fun _ => rfl)
  | text => exact .cons (fun _ => rfl) (.single fun _ => rfl)
  | dash data => exact .cons (fun _ => rfl) (.single fun _ => rfl)
  | dashes data =>
      have hsame : data ++ ['-', '-'] = data ++ ['-'] ++ ['-'] := by simp
      rw [hsame]
      exact .cons (fun _ => rfl) (.single fun _ => rfl)
  | bang data => exact .cons (fun _ => rfl) (.single fun _ => rfl)

end State.InComment

/-! ### Written comments -/

theorem IsBogusText.isCommentText (h : IsBogusText data) : IsCommentText data :=
  ⟨State.InComment.start.exists_passes h.close h.null, h.null⟩

/-- A comment that is written around text which does not close it is read as that comment. -/
theorem IsCommentText.tokens_renderComment (h : IsCommentText data) (k : Text) :
    (State.content .markup).tokens (renderComment data ++ k) =
      .comment data :: (State.content .markup).tokens k := by
  obtain ⟨s, hs⟩ := h.passes
  have hin : s.InComment data := State.InComment.start.passes hs h.null
  have hsource : renderComment data ++ k =
      '<' :: '!' :: '-' :: '-' :: (data ++ (['-', '-'] ++ '>' :: k)) := by
    simp [Dom.renderComment_eq]
  have hopen : State.tagOpen.step '!' ('-' :: '-' :: (data ++ (['-', '-'] ++ '>' :: k))) =
      .goto .commentStart (data ++ (['-', '-'] ++ '>' :: k)) := rfl
  rw [hsource, State.tokens_goto rfl, State.tokens_cons, hopen]
  exact (hs.tokens_eq _).trans ((hin.passes_hyphens.tokens_eq _).trans (State.tokens_cons ..))

/-! ### Comments that are read -/

theorem State.InComment.unique (h : s.InComment t) (h' : s.InComment u) : t = u := by
  cases h <;> cases h' <;> rfl

theorem State.InComment.region (h : s.InComment t) : s.region = .comment := by
  cases h <;> rfl

/-- The states inside a comment. -/
theorem State.inComment_of_region (h : s.region = .comment) :
    (∃ data, s = .bogusComment data) ∨ ∃ t, s.InComment t := by
  cases s with
  | bogusComment data => exact .inl ⟨data, rfl⟩
  | commentStart => exact .inr ⟨_, .start⟩
  | commentStartDash => exact .inr ⟨_, .startDash⟩
  | comment data => exact .inr ⟨_, .text data⟩
  | commentDash data => exact .inr ⟨_, .dash data⟩
  | commentEnd data => exact .inr ⟨_, .dashes data⟩
  | commentBang data => exact .inr ⟨_, .bang data⟩
  | _ => cases h

theorem State.commentOpen_of_region (h : s.region ≠ .comment) : s.CommentOpen where
  bogus _ hs := absurd (hs ▸ rfl) h
  text _ ht := absurd ht.region h

theorem State.commentOpen_commentStart : State.commentStart.CommentOpen where
  bogus := nofun
  text t ht := by
    cases ht
    exact ⟨.nil _, List.not_mem_nil⟩

theorem IsBogusText.commentOpen (h : IsBogusText data) : (State.bogusComment data).CommentOpen :=
  ⟨fun _ he => State.bogusComment.inj he ▸ h, nofun⟩

namespace Step

theorem keepsComments_goto (h : s.CommentOpen) (rest : Text) : (goto s rest).KeepsComments :=
  ⟨h, nofun⟩

theorem keepsComments_comment (h : IsCommentText data) (rest : Text) :
    (Step.mk [.comment data] (.content .markup) rest).KeepsComments where
  state := State.commentOpen_of_region nofun
  tokens _ hm := by
    cases List.mem_singleton.1 hm
    exact h

theorem KeepsComments.withText (h : st.KeepsComments) (before : Text) :
    (st.withText before).KeepsComments where
  state := h.state
  tokens _ hm := by
    rcases List.mem_append.1 hm with hm | hm
    · obtain ⟨c, -, hc⟩ := List.mem_map.1 hm
      cases hc
    · exact h.tokens _ hm

theorem Edits.keepsComments {tag : TagDraft} {pending : AttributeDraft} {rest : Text}
    (h : st.Edits tag pending c rest) : st.KeepsComments := by
  cases h with
  | goto _ hs _ => exact keepsComments_goto (State.commentOpen_of_region (by simp [hs])) _
  | @finish tag' _ selfClosing =>
      unfold TagDraft.finish
      split
      · exact ⟨State.commentOpen_of_region nofun, by simp⟩
      · exact ⟨State.commentOpen_of_region (by simp), by simp⟩

/-- A step outside of comments opens comments without text or with bogus text. -/
theorem keepsComments_of_region (h : s.region ≠ .comment) (c : Char) (rest : Text) :
    (s.step c rest).KeepsComments := by
  have hstep := s.transition c rest
  generalize s.step c rest = st at hstep
  generalize s.region = region at hstep h
  cases hstep with
  | hold _ hs => exact keepsComments_goto (State.commentOpen_of_region (by simp [hs])) rest
  | reopen _ hs =>
      exact (keepsComments_goto (State.commentOpen_of_region (by simp [hs])) rest).withText _
  | @character reading held d k =>
      have hchar : (Step.mk [.character d] (.content reading) k).KeepsComments :=
        ⟨State.commentOpen_of_region (by simp), by simp⟩
      exact hchar.withText held
  | startTag | endTag | drop | doctype =>
      exact keepsComments_goto (State.commentOpen_of_region (by nofun)) _
  | comment => exact keepsComments_goto State.commentOpen_commentStart _
  | bogusComment hd => exact keepsComments_goto hd.commentOpen _
  | plainEndTag he | inTag he => exact he.keepsComments
  | inDoctype hs => exact keepsComments_goto (State.commentOpen_of_region (by simp [hs])) rest
  | inComment | endComment => exact absurd rfl h
  | endDoctype => exact ⟨State.commentOpen_of_region nofun, by simp⟩

theorem keepsComments_bogusComment (h : IsBogusText data) (c : Char) (rest : Text) :
    (Step.bogusComment data c rest).KeepsComments := by
  rcases Step.bogusComment_cases h c rest with ⟨-, hstep⟩ | ⟨data', hd, hstep⟩
  · exact hstep ▸ keepsComments_comment h.isCommentText rest
  · exact hstep ▸ keepsComments_goto hd.commentOpen rest

/-- A step in a comment adds to its text or completes a comment with a part of it. -/
theorem keepsComments_of_inComment (h : s.InComment t) (hp : State.commentStart.Passes t s)
    (hn : '\x00' ∉ t) (c : Char) (rest : Text) : (s.step c rest).KeepsComments := by
  obtain ⟨d, hd, hstep⟩ := h.exists_step_eq c rest
  rw [hstep]
  rcases h.step hd with ⟨s', hgoto, hs'⟩ | ⟨-, data, hdata, hclose⟩
  · rw [hgoto]
    refine keepsComments_goto ⟨fun data he => ?_, fun u hu => ?_⟩ rest
    · subst he
      cases hs'
    · obtain rfl := hs'.unique hu
      exact ⟨hp.append (.single hgoto), by simp [hn, hd.symm]⟩
  · exact hclose rest ▸ keepsComments_comment (.front ⟨⟨s, hp⟩, hn⟩ hdata) rest

end Step

/-- Every step completes comments with text that does not close them. -/
theorem State.CommentOpen.step (h : s.CommentOpen) (c : Char) (rest : Text) :
    (s.step c rest).KeepsComments := by
  by_cases hs : s.region = .comment
  · rcases State.inComment_of_region hs with ⟨data, rfl⟩ | ⟨t, ht⟩
    · exact Step.keepsComments_bogusComment (h.bogus data rfl) c rest
    · exact Step.keepsComments_of_inComment ht (h.text t ht).1 (h.text t ht).2 c rest
  · exact Step.keepsComments_of_region hs c rest

/-! ### Texts -/

/-- The end of the input completes a comment with such text, too. -/
theorem State.CommentOpen.finish (h : s.CommentOpen) (hm : .comment data ∈ s.finish) :
    IsCommentText data := by
  have hfinish := s.finish_region
  generalize hts : s.finish = ts at hfinish hm
  generalize hs : s.region = region at hfinish
  cases hfinish with
  | text =>
      obtain ⟨c, -, hc⟩ := List.mem_map.1 hm
      cases hc
  | tag => cases hm
  | doctype => cases List.mem_singleton.1 hm
  | comment data' =>
      cases List.mem_singleton.1 hm
      rcases State.inComment_of_region hs with ⟨data, rfl⟩ | ⟨t, ht⟩
      · cases hts
        exact (h.bogus _ rfl).isCommentText
      · obtain ⟨data', hdata, hfinish⟩ := ht.finish
        cases hts.symm.trans hfinish
        exact .front ⟨⟨s, (h.text t ht).1⟩, (h.text t ht).2⟩ hdata

theorem State.CommentOpen.isCommentText (h : s.CommentOpen) (hm : .comment data ∈ s.tokens u) :
    IsCommentText data := by
  fun_induction State.tokens s u with
  | case1 s =>
      rcases List.mem_append.1 hm with hm | hm
      · exact h.finish hm
      · cases List.mem_singleton.1 hm
  | case2 s c rest ih =>
      have hstep := h.step c rest
      exact (List.mem_append.1 hm).elim (hstep.tokens data) (ih hstep.state)

/-- A comment that has been read is written between its delimiters, and what is written is read as
that comment and nothing else. -/
theorem ofText_outerHtml_comment {tree : Dom.Tree} {id : Dom.NodeId}
    (h : .comment data ∈ Token.ofText u) (hc : tree.content? id = some (.comment data)) :
    tree.outerHtml id = "<!--" ++ data ++ "-->" ∧
      Token.ofText (tree.outerHtml id) = [.comment data, .endOfFile] := by
  have hdata := (State.commentOpen_of_region (s := .content .markup) nofun).isCommentText h
  have hread := hdata.tokens_renderComment []
  rw [List.append_nil, State.tokens] at hread
  rw [Dom.Tree.outerHtml_comment hc]
  exact ⟨rfl, hread⟩

/-- A comment that a bang might have closed, with a hyphen behind it and the end of the input. -/
theorem ofText_outerHtml_comment_bang :
    let tree : Dom.Tree := ⟨#[⟨.document, none, [1]⟩, ⟨.comment "--!-x--!", some 0, []⟩]⟩
    .comment "--!-x--!" ∈ Token.ofText "<!----!-x--!-" ∧
      tree.content? 1 = some (.comment "--!-x--!") ∧
      tree.outerHtml 1 = "<!----!-x--!-->".toList ∧
      Token.ofText (tree.outerHtml 1) = [.comment "--!-x--!", .endOfFile] := by
  intro tree
  have h : .comment "--!-x--!" ∈ Token.ofText "<!----!-x--!-" := by decide +kernel
  have hc : tree.content? 1 = some (.comment "--!-x--!") := by decide
  obtain ⟨hwritten, hread⟩ := ofText_outerHtml_comment h hc
  have hsource : ("<!--" ++ "--!-x--!" ++ "-->" : Text) = "<!----!-x--!-->".toList := by decide
  exact ⟨h, hc, hwritten.trans hsource, hread⟩

end AmpMarkup.Html
