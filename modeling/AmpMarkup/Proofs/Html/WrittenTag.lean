import Mathlib.Data.List.Chain
import AmpMarkup.Dom.Subtree
import AmpMarkup.Html.Lexer

/-! Written start tags and escaped texts that are read. A name is read up to the space, the equals sign or the end of
the tag behind it, and an escaped value up to its closing quote, so the attributes of the tag come
back one by one. Behind a space an equals sign would give a name without a value the value it does not
have, and only there what has been written before matters. In a text, every reference that escaping
writes ends with its own semicolon, so what stands behind it is never taken for a part of it. -/

namespace AmpMarkup.Html

open Dom (Element escapeText escapeTextChar escapeValue escapeValueChar renderAttribute renderStartTag)

/-- A character that goes on with the name of an attribute. -/
structure IsPlainNameChar (c : Char) : Prop where
  lower : c.toLower = c
  space : isSpace c = false
  solidus : c ≠ '/'
  close : c ≠ '>'
  equals : c ≠ '='

/-- A character that goes on with the name of a tag, or starts the name of an attribute. -/
structure IsTagChar (c : Char) : Prop where
  lower : c.toLower = c
  space : isSpace c = false
  solidus : c ≠ '/'
  close : c ≠ '>'

/-- Whether a character ends the name of a tag. -/
def isNameEnd (c : Char) : Bool :=
  isSpace c || c == '/' || c == '>'

/-- Whether a character ends the name of an attribute, its first character apart. -/
def isAttributeNameEnd (c : Char) : Bool :=
  isNameEnd c || c == '='

/-- A name of a start tag: a letter with anything behind it that does not end a name. -/
inductive IsTagName : Text → Prop where
  | mk {c : Char} {t : Text} : c.isAlpha = true → (∀ d ∈ c :: t, IsTagChar d) → IsTagName (c :: t)

/-- A name of an attribute. An equals sign may come first and nowhere else. -/
inductive IsAttributeName : Text → Prop where
  | mk {c : Char} {t : Text} : IsTagChar c → (∀ d ∈ t, IsPlainNameChar d) → IsAttributeName (c :: t)

/-- No name that starts with an equals sign stands right behind an attribute without a value. -/
def Separate (attributes : List Attribute) : Prop :=
  attributes.IsChain fun a b => a.value = none → b.name.head? ≠ some '='

/-- A state in which a draft can be finished and an attribute can start behind a space. `bare` says
whether an equals sign there would belong to the attribute before. -/
structure State.Ready (s : State) (draft : TagDraft) (bare : Bool) : Prop where
  close : ∀ k, s.step '>' k = draft.finish false k
  next : ∀ c k, IsTagChar c → (bare = true → c ≠ '=') →
    s.tokens (' ' :: c :: k) = (State.attributeName draft [c]).tokens k

variable {c : Char} {t u k name value : Text} {tag draft : TagDraft} {s : State} {a : Attribute}
  {attributes : List Attribute} {bare : Bool}

theorem State.tokens_cons (s : State) (c : Char) (t : Text) :
    s.tokens (c :: t) = (s.step c t).tokens ++ (s.step c t).state.tokens (s.step c t).rest := by
  rw [State.tokens]

theorem State.tokens_goto {s' : State} (h : s.step c t = .goto s' t) :
    s.tokens (c :: t) = s'.tokens t := by
  rw [State.tokens_cons, h]
  rfl

theorem ne_of_isAlpha {d : Char} (h : c.isAlpha = true) (hd : d.isAlpha = false) : c ≠ d := by
  rintro rfl
  rw [h] at hd
  cases hd

theorem isSpace_of_isAlpha (h : c.isAlpha = true) : isSpace c = false := by
  have hne : ∀ d : Char, d.isAlpha = false → (c == d) = false := fun d hd =>
    beq_eq_false_iff_ne.2 (ne_of_isAlpha h hd)
  rw [isSpace, hne _ rfl, hne _ rfl, hne _ rfl, hne _ rfl, hne _ rfl]
  rfl

theorem isNameEnd_iff : isNameEnd c = true ↔ (isSpace c = true ∨ c = '/') ∨ c = '>' := by
  simp only [isNameEnd, Bool.or_eq_true, beq_iff_eq]

theorem isNameEnd_of_isAlpha (h : c.isAlpha = true) : isNameEnd c = false := by
  simp [isNameEnd, isSpace_of_isAlpha h, ne_of_isAlpha h]

theorem IsTagChar.not_isNameEnd (h : IsTagChar c) : isNameEnd c = false := by
  rw [isNameEnd, h.space, beq_eq_false_iff_ne.2 h.solidus, beq_eq_false_iff_ne.2 h.close]
  rfl

theorem IsPlainNameChar.isTagChar (h : IsPlainNameChar c) : IsTagChar c :=
  ⟨h.lower, h.space, h.solidus, h.close⟩

/-! ### Names -/

/-- The name of a tag is read in lower case, up to a character that ends it. -/
theorem tokens_lower_tagName (h : ∀ c ∈ u, isNameEnd c = false) (draft : TagDraft) (k : Text) :
    (State.tagName draft).tokens (u ++ k) =
      (State.tagName { draft with name := draft.name ++ u.lower }).tokens k := by
  induction u generalizing draft with
  | nil => rw [Text.lower, List.nil_append, List.map_nil, List.append_nil]
  | cons c u ih =>
      have hc := h c List.mem_cons_self
      simp only [isNameEnd, Bool.or_eq_false_iff, beq_eq_false_iff_ne] at hc
      have hstep : (State.tagName draft).step c (u ++ k) =
          .goto (.tagName { draft with name := draft.name ++ [c.toLower] }) (u ++ k) := by
        rw [State.step, hc.1.1, if_neg Bool.false_ne_true, if_neg hc.1.2, if_neg hc.2]
      rw [List.cons_append, State.tokens_goto hstep, ih fun d hd => h d (List.mem_cons_of_mem _ hd)]
      simp only [List.append_assoc, List.singleton_append, Text.lower, List.map_cons]

/-- The name of an attribute is read in lower case, up to a character that ends it. -/
theorem tokens_lower_attributeName (h : ∀ c ∈ u, isAttributeNameEnd c = false) (draft : TagDraft)
    (name k : Text) : (State.attributeName draft name).tokens (u ++ k) =
      (State.attributeName draft (name ++ u.lower)).tokens k := by
  induction u generalizing name with
  | nil => rw [Text.lower, List.nil_append, List.map_nil, List.append_nil]
  | cons c u ih =>
      have hc := h c List.mem_cons_self
      simp only [isAttributeNameEnd, isNameEnd, Bool.or_eq_false_iff, beq_eq_false_iff_ne] at hc
      have hstep : (State.attributeName draft name).step c (u ++ k) =
          .goto (.attributeName draft (name ++ [c.toLower])) (u ++ k) := by
        rw [State.step, hc.1.1.1, if_neg Bool.false_ne_true, if_neg hc.1.1.2, if_neg hc.1.2,
          if_neg hc.2]
      rw [List.cons_append, State.tokens_goto hstep, ih fun d hd => h d (List.mem_cons_of_mem _ hd)]
      simp only [List.append_assoc, List.singleton_append, Text.lower, List.map_cons]

/-- What is in lower case is read as it stands. -/
theorem lower_eq_of_isTagChar (h : ∀ c ∈ u, IsTagChar c) : u.lower = u :=
  (List.map_congr_left fun c hc => (h c hc).lower).trans (List.map_id' u)

theorem tokens_tagName (h : ∀ c ∈ u, IsTagChar c) (draft : TagDraft) (k : Text) :
    (State.tagName draft).tokens (u ++ k) =
      (State.tagName { draft with name := draft.name ++ u }).tokens k := by
  rw [tokens_lower_tagName fun c hc => (h c hc).not_isNameEnd, lower_eq_of_isTagChar h]

theorem tokens_attributeName (h : ∀ c ∈ u, IsPlainNameChar c) (draft : TagDraft) (name k : Text) :
    (State.attributeName draft name).tokens (u ++ k) =
      (State.attributeName draft (name ++ u)).tokens k := by
  have hend : ∀ c ∈ u, isAttributeNameEnd c = false := fun c hc => by
    rw [isAttributeNameEnd, (h c hc).isTagChar.not_isNameEnd, beq_eq_false_iff_ne.2 (h c hc).equals]
    rfl
  rw [tokens_lower_attributeName hend, lower_eq_of_isTagChar fun c hc => (h c hc).isTagChar]

/-! ### Values -/

theorem read?_escapeValueChar (k : Text) :
    CharacterReference.read? true ('a' :: 'm' :: 'p' :: ';' :: k) = some ('&', k) ∧
      CharacterReference.read? true ('n' :: 'b' :: 's' :: 'p' :: ';' :: k) = some ('\u00a0', k) ∧
      CharacterReference.read? true ('q' :: 'u' :: 'o' :: 't' :: ';' :: k) = some ('"', k) :=
  ⟨rfl, rfl, rfl⟩

/-- The written form of a character of a value is read as that character. -/
theorem tokens_escapeValueChar (c : Char) (draft : TagDraft) (name t k : Text) :
    (State.inValue .double draft name t).tokens (escapeValueChar c ++ k) =
      (State.inValue .double draft name (t ++ [c])).tokens k := by
  obtain ⟨hamp, hspace, hquote⟩ := read?_escapeValueChar k
  -- A reference is read in one step, as the character it denotes.
  have href : ∀ {u d}, CharacterReference.read? true (u ++ k) = some (d, k) →
      (State.inValue .double draft name t).tokens ('&' :: (u ++ k)) =
        (State.inValue .double draft name (t ++ [d])).tokens k := by
    intro u d hu
    have hstep : (State.inValue .double draft name t).step '&' (u ++ k) =
        .goto (.inValue .double draft name (t ++ [d])) k := by
      rw [State.step, if_neg (by decide), Step.valueCharacter, if_pos rfl, hu]
    rw [State.tokens_cons, hstep]
    rfl
  unfold escapeValueChar
  split
  · next h => exact h ▸ href hamp
  · split
    · next h => exact h ▸ href hspace
    · split
      · next h => exact h ▸ href hquote
      · next hc _ hq =>
          have hstep : (State.inValue .double draft name t).step c k =
              .goto (.inValue .double draft name (t ++ [c])) k := by
            rw [State.step, if_neg hq, Step.valueCharacter, if_neg hc]
          exact State.tokens_goto hstep

theorem tokens_escapeValue (value : Text) (draft : TagDraft) (name t k : Text) :
    (State.inValue .double draft name t).tokens (escapeValue value ++ '"' :: k) =
      (State.afterQuotedValue (draft.add name (some (t ++ value)))).tokens k := by
  induction value generalizing t with
  | nil =>
      rw [List.append_nil]
      exact State.tokens_goto rfl
  | cons c value ih =>
      rw [escapeValue, List.flatMap_cons, List.append_assoc, tokens_escapeValueChar, ← escapeValue, ih,
        List.append_assoc, List.singleton_append]

/-! ### Attributes -/

theorem tokens_beforeAttribute (h : IsTagChar c) (draft : TagDraft) (k : Text) :
    (State.beforeAttribute draft).tokens (c :: k) =
      (State.attributeName draft [c]).tokens k := by
  refine State.tokens_goto ?_
  rw [State.step, Step.beforeAttribute, h.space, if_neg Bool.false_ne_true, if_neg h.solidus,
    if_neg h.close, h.lower]

theorem ready_tagName (draft : TagDraft) : (State.tagName draft).Ready draft false where
  close _ := rfl
  next c k h _ := by
    have hspace : (State.tagName draft).step ' ' (c :: k) = .goto (.beforeAttribute draft) (c :: k) :=
      rfl
    rw [State.tokens_goto hspace, tokens_beforeAttribute h]

theorem ready_attributeName (draft : TagDraft) (name : Text) :
    (State.attributeName draft name).Ready (draft.add name none) true where
  close _ := rfl
  next c k h hequals := by
    have hspace : (State.attributeName draft name).step ' ' (c :: k) =
        .goto (.afterAttributeName draft name) (c :: k) := rfl
    have hstart : (State.afterAttributeName draft name).step c k =
        .goto (.attributeName (draft.add name none) [c]) k := by
      rw [State.step, h.space, if_neg Bool.false_ne_true, if_neg h.solidus, if_neg (hequals rfl),
        if_neg h.close, h.lower]
    rw [State.tokens_goto hspace, State.tokens_goto hstart]

theorem ready_afterQuotedValue (draft : TagDraft) :
    (State.afterQuotedValue draft).Ready draft false where
  close _ := rfl
  next c k h _ := by
    have hspace : (State.afterQuotedValue draft).step ' ' (c :: k) =
        .goto (.beforeAttribute draft) (c :: k) := rfl
    rw [State.tokens_goto hspace, tokens_beforeAttribute h]

/-- The name of an attribute behind a space. -/
theorem State.Ready.tokens_name (hs : s.Ready draft bare) (hn : IsAttributeName name)
    (hb : bare = true → name.head? ≠ some '=') (k : Text) :
    s.tokens (' ' :: (name ++ k)) = (State.attributeName draft name).tokens k := by
  obtain ⟨hc, ht⟩ := hn
  rw [List.cons_append, hs.next _ _ hc fun h he => hb h (congrArg some he), tokens_attributeName ht]
  rfl

/-- An attribute is added to the draft as it was written. -/
theorem State.Ready.exists_attribute (hs : s.Ready draft bare) (hn : IsAttributeName a.name)
    (hb : bare = true → a.name.head? ≠ some '=') :
    ∃ s' : State, s'.Ready (draft.add a.name a.value) a.value.isNone ∧
      ∀ k, s.tokens (renderAttribute a ++ k) = s'.tokens k := by
  cases hv : a.value with
  | none =>
      refine ⟨_, ready_attributeName draft a.name, fun k => ?_⟩
      rw [renderAttribute, hv, List.append_nil, List.cons_append, hs.tokens_name hn hb]
  | some v =>
      refine ⟨_, ready_afterQuotedValue (draft.add a.name (some v)), fun k => ?_⟩
      have hsource : renderAttribute a ++ k =
          ' ' :: (a.name ++ '=' :: '"' :: (escapeValue v ++ '"' :: k)) := by
        simp [renderAttribute, hv]
      have hequals : (State.attributeName draft a.name).step '=' ('"' :: (escapeValue v ++ '"' :: k)) =
          .goto (.beforeValue draft a.name) ('"' :: (escapeValue v ++ '"' :: k)) := rfl
      have hquote : (State.beforeValue draft a.name).step '"' (escapeValue v ++ '"' :: k) =
          .goto (.inValue .double draft a.name []) (escapeValue v ++ '"' :: k) := rfl
      rw [hsource, hs.tokens_name hn hb, State.tokens_goto hequals, State.tokens_goto hquote,
        tokens_escapeValue, List.nil_append]

/-- An attribute of a new name is added. -/
theorem TagDraft.add_of_notMem (h : name ∉ draft.attributes.map Attribute.name)
    (value : Option Text) :
    draft.add name value = { draft with attributes := draft.attributes ++ [⟨name, value⟩] } := by
  refine if_neg fun hany => h ?_
  obtain ⟨b, hb, he⟩ := List.any_eq_true.1 hany
  exact beq_iff_eq.1 he ▸ List.mem_map_of_mem hb

/-- Attributes with different names are all added. -/
theorem TagDraft.foldl_add (hn : (draft.attributes.map Attribute.name ++
    attributes.map Attribute.name).Nodup) :
    attributes.foldl (fun d a => d.add a.name a.value) draft =
      { draft with attributes := draft.attributes ++ attributes } := by
  induction attributes generalizing draft with
  | nil => rw [List.foldl_nil, List.append_nil]
  | cons a attributes ih =>
      have hnot : a.name ∉ draft.attributes.map Attribute.name := fun hm =>
        (List.pairwise_append.1 hn).2.2 _ hm _ List.mem_cons_self rfl
      rw [List.foldl_cons, TagDraft.add_of_notMem hnot, ih]
      · simp
      · simpa using hn

/-- Separate attributes are added to the draft one after the other. -/
theorem State.Ready.exists_attributes (hs : s.Ready draft bare)
    (hn : ∀ a ∈ attributes, IsAttributeName a.name) (hsep : Separate attributes)
    (hb : ∀ a ∈ attributes.head?, bare = true → a.name.head? ≠ some '=') :
    ∃ (s' : State) (bare' : Bool),
      s'.Ready (attributes.foldl (fun d a => d.add a.name a.value) draft) bare' ∧
      ∀ k, s.tokens (attributes.flatMap renderAttribute ++ k) = s'.tokens k := by
  induction attributes generalizing s draft bare with
  | nil => exact ⟨s, bare, hs, fun _ => rfl⟩
  | cons a attributes ih =>
      obtain ⟨s₁, hs₁, h₁⟩ := hs.exists_attribute (hn a List.mem_cons_self) (hb a rfl)
      obtain ⟨s₂, bare₂, hs₂, h₂⟩ := ih hs₁ (fun b h => hn b (List.mem_cons_of_mem _ h))
        hsep.tail fun b h hnone => hsep.rel_head? h (Option.isNone_iff_eq_none.1 hnone)
      refine ⟨s₂, bare₂, hs₂, fun k => ?_⟩
      rw [List.flatMap_cons, List.append_assoc, h₁, h₂]

theorem State.Ready.tokens_attributes (hs : s.Ready draft bare) (hd : draft.isEnd = false)
    (hn : ∀ a ∈ attributes, IsAttributeName a.name) (hsep : Separate attributes)
    (hb : ∀ a ∈ attributes.head?, bare = true → a.name.head? ≠ some '=')
    (hnodup : (draft.attributes.map Attribute.name ++ attributes.map Attribute.name).Nodup)
    (k : Text) :
    s.tokens (attributes.flatMap renderAttribute ++ '>' :: k) =
      .startTag draft.name (draft.attributes ++ attributes) false ::
        (State.content (TagDraft.readingAfter draft.name)).tokens k := by
  obtain ⟨s', bare', hs', hk⟩ := hs.exists_attributes hn hsep hb
  rw [hk, State.tokens_cons, hs'.close, TagDraft.foldl_add hnodup, TagDraft.finish,
    if_neg (by simp [hd])]
  rfl

/-! ### Tags -/

/-- The name of a written start tag. -/
theorem tokens_open (hn : IsTagName name) (attributes : List Attribute) (k : Text) :
    (State.content .markup).tokens (renderStartTag ⟨name, ⟨attributes⟩⟩ ++ k) =
      (State.tagName ⟨false, name, []⟩).tokens (attributes.flatMap renderAttribute ++ '>' :: k) := by
  obtain ⟨ha, hc⟩ := hn
  rename_i c t
  have hsource : renderStartTag ⟨c :: t, ⟨attributes⟩⟩ ++ k =
      '<' :: c :: (t ++ (attributes.flatMap renderAttribute ++ '>' :: k)) := by
    simp [renderStartTag]
  have hopen : (State.content .markup).step '<'
      (c :: (t ++ (attributes.flatMap renderAttribute ++ '>' :: k))) =
        .goto .tagOpen (c :: (t ++ (attributes.flatMap renderAttribute ++ '>' :: k))) := rfl
  have hstart : State.tagOpen.step c (t ++ (attributes.flatMap renderAttribute ++ '>' :: k)) =
      .goto (.tagName ⟨false, [c], []⟩) (t ++ (attributes.flatMap renderAttribute ++ '>' :: k)) := by
    rw [State.step, if_neg (ne_of_isAlpha ha rfl), if_neg (ne_of_isAlpha ha rfl), if_pos ha,
      (hc c List.mem_cons_self).lower]
  rw [hsource, State.tokens_goto hopen, State.tokens_goto hstart,
    tokens_tagName fun d hd => hc d (List.mem_cons_of_mem _ hd)]
  rfl

/-- A written start tag is read as the tag it was written for, and its name says how the reader goes
on. -/
theorem tokens_renderStartTag (hn : IsTagName name) (ha : ∀ a ∈ attributes, IsAttributeName a.name)
    (hnodup : (attributes.map Attribute.name).Nodup) (hsep : Separate attributes) (k : Text) :
    (State.content .markup).tokens (renderStartTag ⟨name, ⟨attributes⟩⟩ ++ k) =
      .startTag name attributes false ::
        (State.content (TagDraft.readingAfter name)).tokens k := by
  rw [tokens_open hn]
  exact (ready_tagName ⟨false, name, []⟩).tokens_attributes rfl ha hsep (fun _ _ h => nomatch h)
    hnodup k

/-! ### Escaped texts -/

theorem read?_escapeTextChar (k : Text) :
    CharacterReference.read? false ('a' :: 'm' :: 'p' :: ';' :: k) = some ('&', k) ∧
      CharacterReference.read? false ('n' :: 'b' :: 's' :: 'p' :: ';' :: k) = some ('\u00a0', k) ∧
      CharacterReference.read? false ('l' :: 't' :: ';' :: k) = some ('<', k) ∧
      CharacterReference.read? false ('g' :: 't' :: ';' :: k) = some ('>', k) :=
  ⟨rfl, rfl, rfl, rfl⟩

/-- The written form of a character of a text is read as that character. -/
theorem tokens_escapeTextChar (c : Char) (k : Text) :
    (State.content .markup).tokens (escapeTextChar c ++ k) =
      .character c :: (State.content .markup).tokens k := by
  obtain ⟨hamp, hspace, hless, hgreater⟩ := read?_escapeTextChar k
  -- A reference is read in one step, as the character it denotes.
  have href : ∀ {u d}, CharacterReference.read? false (u ++ k) = some (d, k) →
      (State.content .markup).tokens ('&' :: (u ++ k)) =
        .character d :: (State.content .markup).tokens k := by
    intro u d hu
    have hstep : (State.content .markup).step '&' (u ++ k) =
        ⟨[.character d], .content .markup, k⟩ := by
      rw [State.step, Step.content, if_neg (by decide), if_pos rfl, hu]
    rw [State.tokens_cons, hstep]
    rfl
  unfold escapeTextChar
  split
  · next h => exact h ▸ href hamp
  · split
    · next h => exact h ▸ href hspace
    · split
      · next h => exact h ▸ href hless
      · split
        · next h => exact h ▸ href hgreater
        · next hc _ hlt _ =>
            have hstep : (State.content .markup).step c k =
                ⟨[.character c], .content .markup, k⟩ := by
              rw [State.step, Step.content, if_neg hlt, if_neg hc]
            rw [List.singleton_append, State.tokens_cons, hstep]
            rfl

theorem tokens_escapeText (t k : Text) :
    (State.content .markup).tokens (escapeText t ++ k) =
      t.map .character ++ (State.content .markup).tokens k := by
  induction t with
  | nil => rfl
  | cons c t ih =>
      rw [escapeText, List.flatMap_cons, List.append_assoc, tokens_escapeTextChar, ← escapeText, ih]
      rfl

/-- An escaped text is read as its characters, and an escaped value as the value of its attribute.
-/
theorem ofText_escapeText (t value : Text) :
    Token.ofText (escapeText t) = t.map .character ++ [.endOfFile] ∧
      Token.ofText ("<x a=\"" ++ escapeValue value ++ "\">") =
        [.startTag "x" [⟨"a", some value⟩] false, .endOfFile] := by
  have hend : (State.content .markup).tokens [] = [.endOfFile] := by
    rw [State.tokens]
    rfl
  constructor
  · have htext := tokens_escapeText t []
    rwa [List.append_nil, hend] at htext
  · have hx : IsTagName "x" := .mk rfl fun c hc =>
      List.mem_singleton.1 hc ▸ ⟨rfl, rfl, by decide, by decide⟩
    have ha : IsAttributeName "a" :=
      .mk ⟨rfl, rfl, by decide, by decide⟩ (List.forall_mem_nil _)
    have hnames : ∀ b ∈ ([⟨"a", some value⟩] : List Attribute), IsAttributeName b.name :=
      fun b hm => List.mem_singleton.1 hm ▸ ha
    have hread := tokens_renderStartTag hx hnames (List.pairwise_singleton _ _) (.singleton _) []
    have hsource : renderStartTag ⟨"x", ⟨[⟨"a", some value⟩]⟩⟩ ++ [] =
        ("<x a=\"" ++ escapeValue value ++ "\">" : Text) := by
      have hopen : "<x a=\"".toList = ['<', 'x', ' ', 'a', '=', '"'] := by decide
      have hclose : "\">".toList = ['"', '>'] := by decide
      rw [hopen, hclose]
      simp [renderStartTag, Dom.renderAttribute]
    rw [hsource] at hread
    exact hread.trans (congrArg _ hend)

end AmpMarkup.Html
