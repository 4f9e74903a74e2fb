import AmpMarkup.Proofs.Html.WrittenTag
import AmpMarkup.Proofs.Source.FragmentClosing

/-! The tokens of a fragment. A tag gives one token with its attributes as they were written, and a
text one token a character. -/

namespace AmpMarkup

open Html (Token State TagDraft Step)
open Source (Fragment IsTag CanonicalAttributes IsWrittenName IsValueChar attributeSource
  startTagSource endTag isNameChar)

/-- The tokens of the fragment with its void elements closed. -/
def Source.Fragment.tokens : Fragment → List Token
  | .nil => []
  | .text t rest => t.map .character ++ rest.tokens
  | .element tag attributes content rest =>
    .startTag tag attributes false :: (content.tokens ++ .endTag tag :: rest.tokens)
  | .void tag attributes rest =>
    .startTag tag attributes false :: .endTag tag :: rest.tokens

/-! ### Written start tags -/

section

variable {t : Text} {attributes : List Attribute}

theorem escapeValue_eq (h : ∀ c ∈ t, Source.IsValueChar c) : Dom.escapeValue t = t := by
  induction t with
  | nil => rfl
  | cons c t ih =>
      obtain ⟨hquote, hamp, hspace⟩ := h c List.mem_cons_self
      have hc : Dom.escapeValueChar c = [c] := by
        rw [Dom.escapeValueChar, if_neg hamp, if_neg hspace, if_neg hquote]
      rw [Dom.escapeValue, List.flatMap_cons, hc, List.singleton_append]
      exact congrArg (c :: ·) (ih fun d hd => h d (List.mem_cons_of_mem _ hd))

theorem renderStartTag_eq (tag : Text) (h : CanonicalAttributes attributes) :
    Dom.renderStartTag ⟨tag, ⟨attributes⟩⟩ = startTagSource tag attributes := by
  have hone : ∀ a ∈ attributes, Dom.renderAttribute a = Source.attributeSource a := by
    intro a ha
    rw [Dom.renderAttribute, Source.attributeSource]
    cases hv : a.value with
    | none => rfl
    | some v =>
        dsimp only
        rw [escapeValue_eq (h.values a ha v hv)]
        rfl
  rw [Dom.renderStartTag, startTagSource, List.flatMap_def, List.flatMap_def,
    List.map_congr_left hone]

end

namespace Html

variable {c : Char} {t u k name : Text} {tag draft : TagDraft} {s : State} {a : Attribute}
  {attributes : List Attribute} {f : Fragment}

/-- Characters between tags that stand for themselves. -/
theorem tokens_text (h : ∀ c ∈ t, c ≠ '<' ∧ c ≠ '&') (k : Text) :
    (State.content .markup).tokens (t ++ k) =
      t.map .character ++ (State.content .markup).tokens k := by
  induction t with
  | nil => rfl
  | cons c t ih =>
      obtain ⟨hlt, hamp⟩ := h c List.mem_cons_self
      have hstep : (State.content .markup).step c (t ++ k) =
          ⟨[.character c], .content .markup, t ++ k⟩ := by
        rw [State.step, Step.content, if_neg hlt, if_neg hamp]
      rw [List.cons_append, State.tokens_cons, hstep, ih fun d hd => h d (List.mem_cons_of_mem _ hd)]
      rfl

/-! ### Attributes -/

theorem isPlainNameChar_of_isLowerNameChar (h : Source.isLowerNameChar c = true) :
    IsPlainNameChar c :=
  have hc := Source.isNameChar_of_isLowerNameChar h
  ⟨Source.toLower_of_isLowerNameChar h, Source.isSpace_of_isLowerNameChar h,
    Source.ne_of_isNameChar hc (by decide), Source.ne_of_isNameChar hc (by decide),
    Source.ne_of_isNameChar hc (by decide)⟩

theorem isPlainNameChar_of_mem (h : IsWrittenName name) : ∀ c ∈ name, IsPlainNameChar c := by
  rcases h with h | ⟨bare, hb, rfl⟩
  · exact fun c hc => isPlainNameChar_of_isLowerNameChar (h.2 c hc)
  · intro c hc
    rcases List.mem_cons.1 hc with rfl | hc
    · exact ⟨rfl, rfl, by decide, by decide, by decide⟩
    · rcases List.mem_append.1 hc with hc | hc
      · exact isPlainNameChar_of_isLowerNameChar (hb.2 c hc)
      · exact List.mem_singleton.1 hc ▸ ⟨rfl, rfl, by decide, by decide, by decide⟩

theorem isAttributeName_of_isWrittenName (h : IsWrittenName name) : IsAttributeName name := by
  have hplain := isPlainNameChar_of_mem h
  obtain ⟨c, t, rfl, -⟩ := h.exists_eq_cons
  exact .mk (hplain c List.mem_cons_self).isTagChar fun d hd => hplain d (List.mem_cons_of_mem _ hd)

theorem separate_of_isWrittenName (h : ∀ a ∈ attributes, IsWrittenName a.name) :
    Separate attributes := by
  induction attributes with
  | nil => exact .nil
  | cons a attributes ih =>
      refine List.isChain_cons.2 ⟨fun b hb _ he => ?_, ih fun b hb => h b (List.mem_cons_of_mem _ hb)⟩
      have hname := h b (List.mem_cons_of_mem _ (List.mem_of_head? hb))
      exact (isPlainNameChar_of_mem hname _ (List.mem_of_head? he)).equals rfl

/-! ### Tags -/

/-- A start tag in lower case, after which its name says how the reader goes on. -/
theorem tokens_lowerStartTag {tag : Text} (hs : tag.head?.any Char.isAlpha = true)
    (hc : ∀ c ∈ tag, Source.isLowerNameChar c = true) (ha : CanonicalAttributes attributes)
    (k : Text) :
    (State.content .markup).tokens (startTagSource tag attributes ++ k) =
      .startTag tag attributes false :: (State.content (TagDraft.readingAfter tag)).tokens k := by
  have hname : IsTagName tag := by
    cases tag with
    | nil => cases hs
    | cons c u =>
        exact .mk (by simpa using hs) fun d hd =>
          (isPlainNameChar_of_isLowerNameChar (hc d hd)).isTagChar
  rw [← renderStartTag_eq tag ha]
  exact tokens_renderStartTag hname
    (fun a h => isAttributeName_of_isWrittenName (ha.names a h)) ha.nodup
    (separate_of_isWrittenName ha.names) k

theorem tokens_startTag {tag : Text} (ht : IsTag tag) (ha : CanonicalAttributes attributes)
    (k : Text) :
    (State.content .markup).tokens (startTagSource tag attributes ++ k) =
      .startTag tag attributes false :: (State.content .markup).tokens k := by
  have hreading : TagDraft.readingAfter tag = .markup := by
    have hnot := ht.not_textOnly
    rw [Vocabulary.isTextOnly, Bool.or_eq_false_iff] at hnot
    rw [TagDraft.readingAfter, hnot.1, hnot.2]
    rfl
  rw [tokens_lowerStartTag ht.start ht.chars ha, hreading]

theorem tokens_endTag {tag : Text} (ht : IsTag tag) (k : Text) :
    (State.content .markup).tokens (endTag tag ++ k) =
      .endTag tag :: (State.content .markup).tokens k := by
  obtain ⟨c, u, rfl⟩ := List.exists_cons_of_ne_nil ht.ne_nil
  have hstart : State.endTagOpen.step c (u ++ '>' :: k) =
      .goto (.tagName ⟨true, [c], []⟩) (u ++ '>' :: k) := by
    rw [State.step, if_pos (by simpa using ht.start),
      Source.toLower_of_isLowerNameChar (ht.chars c List.mem_cons_self)]
  rw [endTag]
  simp only [List.cons_append, List.append_assoc, List.nil_append]
  have hopen : (State.content .markup).step '<' ('/' :: c :: (u ++ '>' :: k)) =
      .goto .tagOpen ('/' :: c :: (u ++ '>' :: k)) := rfl
  have hsolidus : State.tagOpen.step '/' (c :: (u ++ '>' :: k)) =
      .goto .endTagOpen (c :: (u ++ '>' :: k)) := rfl
  rw [State.tokens_goto hopen, State.tokens_goto hsolidus, State.tokens_goto hstart,
    tokens_tagName fun d hd =>
      (isPlainNameChar_of_isLowerNameChar (ht.chars d (List.mem_cons_of_mem _ hd))).isTagChar,
    State.tokens_cons]
  rfl

/-- The tokens of a fragment are read in front of any other markup. -/
theorem tokens_closedSource (h : f.Readable) (k : Text) :
    (State.content .markup).tokens (f.closedSource ++ k) =
      f.tokens ++ (State.content .markup).tokens k := by
  induction f generalizing k with
  | nil => rfl
  | text t rest ih =>
      have hchars : ∀ c ∈ t, c ≠ '<' ∧ c ≠ '&' := fun c hc => ⟨(h.1 c hc).1, (h.1 c hc).2.2.1⟩
      rw [Fragment.closedSource, List.append_assoc, tokens_text hchars, ih h.2, Fragment.tokens,
        List.append_assoc]
  | element tag attributes content rest ihc ihr =>
      obtain ⟨ht, -, ha, hc, hr⟩ := h
      rw [Fragment.closedSource, List.append_assoc, List.append_assoc, List.append_assoc,
        tokens_startTag ht ha, ihc hc, tokens_endTag ht, ihr hr, Fragment.tokens]
      simp only [List.cons_append, List.append_assoc]
  | void tag attributes rest ih =>
      obtain ⟨ht, -, ha, hr⟩ := h
      rw [Fragment.closedSource, List.append_assoc, List.append_assoc, tokens_startTag ht ha,
        tokens_endTag ht, ih hr, Fragment.tokens]
      rfl

end Html

end AmpMarkup
