import AmpMarkup.Proofs.Html.FragmentTokens
import AmpMarkup.Proofs.Html.Transition

/-! The names in the start tags of a text. The reader starts a name with a character that can start
one and goes on with characters that do not end it, and it keeps one attribute of each name, so its
start tags can be written and read again. -/

namespace AmpMarkup.Html

/-- A tag whose attributes have names of their own. What the reader calls an end tag is never a start
tag. -/
structure TagDraft.WellNamed (tag : TagDraft) : Prop where
  name : tag.isEnd = false → IsTagName tag.name
  attributes : ∀ a ∈ tag.attributes, IsAttributeName a.name
  nodup : (tag.attributes.map Attribute.name).Nodup

/-- A start tag whose attributes have names of their own. -/
def Token.WellNamed : Token → Prop
  | .startTag name attributes _ => TagDraft.WellNamed ⟨false, name, attributes⟩
  | _ => True

/-- A reader whose unfinished tag has the names of a tag and of attributes. -/
def State.WellNamed : State → Prop
  | .tagName tag | .beforeAttribute tag | .afterQuotedValue tag | .solidus tag => tag.WellNamed
  | .attributeName tag name | .afterAttributeName tag name | .beforeValue tag name
  | .inValue _ tag name _ => tag.WellNamed ∧ IsAttributeName name
  | _ => True

/-- A step after which the tags that it completes and the unfinished one have names of their own. -/
structure Step.WellNamed (s : Step) : Prop where
  state : s.state.WellNamed
  tokens : ∀ t ∈ s.tokens, t.WellNamed

variable {s : State} {st : Step} {tag tag' : TagDraft} {pending pending' : AttributeDraft}
  {t : Token} {c : Char} {rest u name : Text}

theorem Token.wellNamed_of_isStartTag (h : t.isStartTag = false) : t.WellNamed := by
  cases t with
  | startTag => cases h
  | doctype | endTag | comment | character | endOfFile => trivial

/-! ### Names -/

theorem isTagChar_toLower (h : isNameEnd c = false) : IsTagChar c.toLower where
  lower := Source.toLower_toLower c
  space := by
    rcases Source.toLower_eq_or_isLower c with hc | hc
    · rw [hc]
      exact Bool.eq_false_iff.2 fun hs => Bool.eq_false_iff.1 h (isNameEnd_iff.2 (.inl (.inl hs)))
    · exact Source.isSpace_of_isLowerNameChar (by simp [Source.isLowerNameChar, hc])
  solidus he := by
    rw [Source.eq_of_toLower_eq he rfl] at h
    cases h
  close he := by
    rw [Source.eq_of_toLower_eq he rfl] at h
    cases h

theorem isPlainNameChar_toLower (h : isNameEnd c = false) (he : c ≠ '=') :
    IsPlainNameChar c.toLower :=
  have h := isTagChar_toLower h
  ⟨h.lower, h.space, h.solidus, h.close, fun h => he (Source.eq_of_toLower_eq h rfl)⟩

theorem IsAttributeName.append (h : IsAttributeName name) (hc : IsPlainNameChar c) :
    IsAttributeName (name ++ [c]) := by
  obtain ⟨hd, ht⟩ := h
  refine .mk hd fun d hd => ?_
  rcases List.mem_append.1 hd with hd | hd
  · exact ht d hd
  · exact List.mem_singleton.1 hd ▸ hc

theorem isAttributeName_singleton (h : IsTagChar c) : IsAttributeName [c] :=
  .mk h fun _ hd => nomatch hd

theorem IsTagName.append (h : IsTagName name) (hc : IsTagChar c) : IsTagName (name ++ [c]) := by
  obtain ⟨ha, ht⟩ := h
  rename_i d t
  show IsTagName (d :: (t ++ [c]))
  refine .mk ha fun e he => ?_
  rw [← List.cons_append] at he
  rcases List.mem_append.1 he with he | he
  · exact ht e he
  · exact List.mem_singleton.1 he ▸ hc

theorem isTagName_singleton (h : c.isAlpha = true) : IsTagName [c.toLower] := by
  have hchar : IsTagChar c.toLower := isTagChar_toLower (isNameEnd_of_isAlpha h)
  refine .mk ?_ fun d hd => List.mem_singleton.1 hd ▸ hchar
  rcases Source.toLower_eq_or_isLower c with he | hl
  · rw [he, h]
  · exact Source.isAlpha_of_isLower hl

namespace TagDraft.WellNamed

theorem add (h : tag.WellNamed) (hn : IsAttributeName name) (value : Option Text) :
    (tag.add name value).WellNamed := by
  unfold TagDraft.add
  split
  · exact h
  · next hany =>
      refine ⟨h.name, fun a ha => ?_, ?_⟩
      · rcases List.mem_append.1 ha with ha | ha
        · exact h.attributes a ha
        · exact List.mem_singleton.1 ha ▸ hn
      · rw [List.map_append, List.map_singleton, List.nodup_append]
        refine ⟨h.nodup, List.pairwise_singleton _ _, fun n hm m hs => ?_⟩
        rintro rfl
        obtain ⟨a, ha, rfl⟩ := List.mem_map.1 hm
        exact hany (List.any_eq_true.2 ⟨a, ha, beq_iff_eq.2 (List.mem_singleton.1 hs)⟩)

/-- A tag without attributes. -/
theorem bare (h : tag.isEnd = false → IsTagName tag.name) (ha : tag.attributes = []) :
    tag.WellNamed :=
  ⟨h, by simp [ha], by simp [ha]⟩

end TagDraft.WellNamed

/-- The name of an attribute that a tag does not have yet is one. -/
def AttributeDraft.WellNamed : AttributeDraft → Prop
  | .none => True
  | .name name | .value name => IsAttributeName name

theorem State.wellNamed_iff : s.WellNamed ↔
    ∀ tag pending, s.region = .tag tag pending → tag.WellNamed ∧ pending.WellNamed := by
  cases s <;> simp [WellNamed, region, AttributeDraft.WellNamed]

/-! ### Steps -/

/-- What goes on with a name is a part of names, and what is added has a name of its own. -/
theorem TagDraft.Edits.wellNamed (h : tag.Edits c pending tag' pending') (ht : tag.WellNamed)
    (hp : pending.WellNamed) : tag'.WellNamed ∧ pending'.WellNamed := by
  cases h with
  | keep => exact ⟨ht, hp⟩
  | name hc =>
      exact ⟨⟨fun he => (ht.name he).append (isTagChar_toLower hc), ht.attributes, ht.nodup⟩, hp⟩
  | startAttribute hc => exact ⟨ht, isAttributeName_singleton (isTagChar_toLower hc)⟩
  | attributeName hc he => exact ⟨ht, IsAttributeName.append hp (isPlainNameChar_toLower hc he)⟩
  | value => exact ⟨ht, hp⟩
  | addBare => exact ⟨ht.add hp none, trivial⟩
  | addBareBefore hc => exact ⟨ht.add hp none, isAttributeName_singleton (isTagChar_toLower hc)⟩
  | add value => exact ⟨ht.add hp (some value), trivial⟩

namespace Step

/-- A step without a start tag that leaves no unfinished tag, either. -/
theorem wellNamed_of_region {ts : List Token} (hs : ∀ tag pending, s.region ≠ .tag tag pending)
    (hts : ∀ t ∈ ts, t.isStartTag = false) : (Step.mk ts s rest).WellNamed where
  state := State.wellNamed_iff.2 fun tag pending h => absurd h (hs tag pending)
  tokens t ht := Token.wellNamed_of_isStartTag (hts t ht)

theorem WellNamed.withText (h : st.WellNamed) (before : Text) : (st.withText before).WellNamed where
  state := h.state
  tokens t ht := by
    rcases List.mem_append.1 ht with ht | ht
    · obtain ⟨c, -, rfl⟩ := List.mem_map.1 ht
      trivial
    · exact h.tokens t ht

theorem wellNamed_finish (h : tag.WellNamed) (selfClosing : Bool) (rest : Text) :
    (tag.finish selfClosing rest).WellNamed := by
  unfold TagDraft.finish
  split
  · exact wellNamed_of_region nofun fun _ ht => List.mem_singleton.1 ht ▸ rfl
  · next he =>
      refine ⟨trivial, fun t ht => List.mem_singleton.1 ht ▸ ?_⟩
      exact ⟨fun _ => h.name (Bool.eq_false_iff.2 he), h.attributes, h.nodup⟩

theorem wellNamed_openTag (hc : c.isAlpha = true) (isEnd : Bool) (rest : Text) :
    (Step.goto (.tagName ⟨isEnd, [c.toLower], []⟩) rest).WellNamed :=
  ⟨.bare (fun _ => isTagName_singleton hc) rfl, fun _ ht => nomatch ht⟩

theorem Edits.wellNamed (h : st.Edits tag pending c rest) (ht : tag.WellNamed)
    (hp : pending.WellNamed) : st.WellNamed := by
  cases h with
  | goto h hs _ =>
      refine ⟨State.wellNamed_iff.2 fun tag pending hs' => ?_, fun _ ht => nomatch ht⟩
      cases hs.symm.trans hs'
      exact h.wellNamed ht hp
  | finish h selfClosing => exact wellNamed_finish (h.wellNamed ht hp).1 selfClosing rest

end Step

/-- Every step keeps the names apart. -/
theorem State.wellNamed_step (h : s.WellNamed) (c : Char) (rest : Text) :
    (s.step c rest).WellNamed := by
  have hstep := s.transition c rest
  generalize s.step c rest = st at hstep
  generalize hs : s.region = region at hstep
  have hnone : ∀ t ∈ ([] : List Token), t.isStartTag = false := fun _ ht => nomatch ht
  have hsingle : ∀ {u : Token}, u.isStartTag = false → ∀ t ∈ [u], t.isStartTag = false :=
    fun hu _ ht => List.mem_singleton.1 ht ▸ hu
  cases hstep with
  | hold _ hs' => exact Step.wellNamed_of_region (by simp [hs']) hnone
  | reopen _ hs' => exact (Step.wellNamed_of_region (by simp [hs']) hnone).withText _
  | character => exact (Step.wellNamed_of_region (by simp) (hsingle rfl)).withText _
  | startTag hc => exact Step.wellNamed_openTag hc false rest
  | endTag hc => exact Step.wellNamed_openTag hc true rest
  | plainEndTag he => exact he.wellNamed (.bare (fun he => nomatch he) rfl) trivial
  | drop | comment | bogusComment | doctype => exact Step.wellNamed_of_region nofun hnone
  | inTag he => exact he.wellNamed (wellNamed_iff.1 h _ _ hs).1 (wellNamed_iff.1 h _ _ hs).2
  | inComment hs' | inDoctype hs' => exact Step.wellNamed_of_region (by simp [hs']) hnone
  | endComment | endDoctype => exact Step.wellNamed_of_region nofun (hsingle rfl)

/-! ### Texts -/

/-- The end of the input completes no start tag. -/
theorem State.isStartTag_of_mem_finish (h : t ∈ s.finish) : t.isStartTag = false := by
  have hfinish := s.finish_region
  generalize s.finish = ts at hfinish h
  generalize s.region = region at hfinish
  cases hfinish with
  | text =>
      obtain ⟨c, -, rfl⟩ := List.mem_map.1 h
      rfl
  | tag => cases h
  | comment | doctype => exact List.mem_singleton.1 h ▸ rfl

theorem State.wellNamed_tokens (h : s.WellNamed) (u : Text) : ∀ t ∈ s.tokens u, t.WellNamed := by
  fun_induction State.tokens s u with
  | case1 s =>
      intro t ht
      rcases List.mem_append.1 ht with ht | ht
      · exact Token.wellNamed_of_isStartTag (s.isStartTag_of_mem_finish ht)
      · exact List.mem_singleton.1 ht ▸ trivial
  | case2 s c rest ih =>
      have hstep := s.wellNamed_step h c rest
      intro t ht
      exact (List.mem_append.1 ht).elim (hstep.tokens t) (ih hstep.state t)

theorem Token.wellNamed_of_mem_ofText (h : t ∈ Token.ofText u) : t.WellNamed :=
  (State.content .markup).wellNamed_tokens trivial u t h

end AmpMarkup.Html
