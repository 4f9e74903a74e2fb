import AmpMarkup.Proofs.Html.ReferenceReading
import AmpMarkup.Proofs.Html.TagNames
import AmpMarkup.Proofs.Source.TagEnd

/-! Start tags as the source has them. A second reader cuts a tag at the characters that end names
and values and keeps every attribute in the order of the source. It has neither states nor a draft,
and the tag that the reader delivers is the tag that is written, but for the attributes whose name
has been written before. -/

namespace AmpMarkup.Html

/-- Whether a character ends a value. -/
def Quoting.ends : Quoting → Char → Bool
  | .double, c => c == '"'
  | .single, c => c == '\''
  | .unquoted, c => isSpace c || c == '>'

/-- A value with its character references resolved. -/
def CharacterReference.resolve : Text → Text
  | [] => []
  | c :: t =>
    if c = '&' then
      match _h : read? true t with
      | some (d, rest) => d :: resolve rest
      | none => '&' :: resolve t
    else c :: resolve t
termination_by t => t.length
decreasing_by
  · exact Nat.lt_succ_of_le (read?_length_le _h)
  · simp
  · simp

/-- A start tag as it is written, with every attribute in the order of the source. -/
structure SourceTag where
  name : Text
  attributes : List Attribute
  selfClosing : Bool
deriving DecidableEq, Repr

namespace SourceTag

/-- The value behind an equals sign, and the text behind the value. In quotes it has to be closed.
-/
def readValue? (t : Text) : Option (Text × Text) :=
  match t.dropWhile isSpace with
  | [] => none
  | c :: t =>
    if c = '"' ∨ c = '\'' then
      (Text.splitOnce? c t).map fun (value, rest) => (CharacterReference.resolve value, rest)
    else
      some (CharacterReference.resolve ((c :: t).takeWhile (!Quoting.unquoted.ends ·)),
        (c :: t).dropWhile (!Quoting.unquoted.ends ·))

/-- The attribute whose name starts with `c`, and the text behind the attribute. -/
def readAttribute? (c : Char) (t : Text) : Option (Attribute × Text) :=
  let name := Text.lower (c :: t.takeWhile (!isAttributeNameEnd ·))
  let rest := t.dropWhile (!isAttributeNameEnd ·)
  match Text.after? "=" (rest.dropWhile isSpace) with
  | some u => (readValue? u).map fun (value, rest) => (⟨name, some value⟩, rest)
  | none => some (⟨name, none⟩, rest)

theorem suffix_of_readValue? {t value rest : Text} (h : readValue? t = some (value, rest)) :
    rest <:+ t := by
  unfold readValue? at h
  split at h
  · cases h
  · next c u hu =>
      have hsuffix : c :: u <:+ t := hu ▸ List.dropWhile_suffix isSpace
      split at h
      · obtain ⟨p, hp, he⟩ := Option.map_eq_some_iff.1 h
        cases he
        have hrest : p.2 <:+ u := ⟨p.1 ++ [c], by simp [(Text.splitOnce?_eq_some hp).1]⟩
        exact hrest.trans ((List.suffix_cons c u).trans hsuffix)
      · cases h
        exact (List.dropWhile_suffix _).trans hsuffix

theorem suffix_of_readAttribute? {c : Char} {t rest : Text} {a : Attribute}
    (h : readAttribute? c t = some (a, rest)) : rest <:+ t := by
  have hname : t.dropWhile (!isAttributeNameEnd ·) <:+ t := List.dropWhile_suffix _
  unfold readAttribute? at h
  dsimp only at h
  split at h
  · next u hu =>
      obtain ⟨p, hp, he⟩ := Option.map_eq_some_iff.1 h
      cases he
      have hequals : u <:+ (t.dropWhile (!isAttributeNameEnd ·)).dropWhile isSpace :=
        ⟨_, (Text.after?_eq_some_iff.1 hu).symm⟩
      exact (suffix_of_readValue? hp).trans (hequals.trans ((List.dropWhile_suffix _).trans hname))
  · cases h
    exact hname

/-- The attributes of a tag, whether a solidus stands before its `>`, and the text behind it. There
are none if the text ends first. -/
def readAttributes? : Text → Option (List Attribute × Bool × Text)
  | [] => none
  | c :: t =>
    if c = '>' then some ([], false, t)
    else if c = '/' ∧ t.head? = some '>' then some ([], true, t.tail)
    else if isNameEnd c then readAttributes? t
    else
      match _h : readAttribute? c t with
      | some (a, rest) =>
        (readAttributes? rest).map fun (attributes, selfClosing, rest) =>
          (a :: attributes, selfClosing, rest)
      | none => none
termination_by t => t.length
decreasing_by
  · simp
  · exact Nat.lt_succ_of_le (suffix_of_readAttribute? _h).length_le

theorem suffix_of_readAttributes? {t rest : Text} {attributes : List Attribute} {selfClosing : Bool}
    (h : readAttributes? t = some (attributes, selfClosing, rest)) : rest <:+ t := by
  fun_induction readAttributes? t generalizing attributes with
  | case1 => cases h
  | case2 t =>
      cases h
      exact List.suffix_cons ..
  | case3 c t =>
      cases h
      exact (List.tail_suffix t).trans (List.suffix_cons c t)
  | case4 c t _ _ _ ih => exact (ih h).trans (List.suffix_cons c t)
  | case5 c t _ _ _ a rest hr ih =>
      obtain ⟨p, hp, he⟩ := Option.map_eq_some_iff.1 h
      cases he
      exact (ih hp).trans ((suffix_of_readAttribute? hr).trans (List.suffix_cons c t))
  | case6 => cases h

/-- The start tag whose `<` stands right before this text, and the text behind the tag. -/
def read? (t : Text) : Option (SourceTag × Text) :=
  if t.head?.any Char.isAlpha then
    (readAttributes? (t.dropWhile (!isNameEnd ·))).map fun (attributes, selfClosing, rest) =>
      (⟨Text.lower (t.takeWhile (!isNameEnd ·)), attributes, selfClosing⟩, rest)
  else none

theorem suffix_of_read? {c : Char} {t rest : Text} {tag : SourceTag}
    (h : read? (c :: t) = some (tag, rest)) : rest <:+ t := by
  unfold read? at h
  split at h
  · next ha =>
      obtain ⟨p, hp, he⟩ := Option.map_eq_some_iff.1 h
      cases he
      have hrest := suffix_of_readAttributes? hp
      have hc : isNameEnd c = false := isNameEnd_of_isAlpha (by simpa using ha)
      rw [List.dropWhile_cons_of_pos (by simp [hc])] at hrest
      exact hrest.trans (List.dropWhile_suffix _)
  · cases h

end SourceTag

variable {s : State} {tag : TagDraft} {quoting : Quoting} {c quote : Char} {t u k raw : Text}
  {name value : Text}

/-! ### Values -/

open CharacterReference (EndsReference read? resolve read?_append)

theorem Quoting.step_inValue (h : quoting.ends c = false) (tag : TagDraft)
    (name value rest : Text) :
    (State.inValue quoting tag name value).step c rest =
      .valueCharacter quoting tag name value c rest := by
  cases quoting with
  | double | single => exact if_neg (beq_eq_false_iff_ne.1 h)
  | unquoted =>
      rw [Quoting.ends, Bool.or_eq_false_iff] at h
      rw [State.step, Step.unquotedValue, if_neg (Bool.eq_false_iff.1 h.1),
        if_neg (beq_eq_false_iff_ne.1 h.2)]

/-- Text that does not end a value is added to it with its references resolved. -/
theorem tokens_inValue (h : ∀ c ∈ raw, quoting.ends c = false) (hk : EndsReference k)
    (tag : TagDraft) (name value : Text) :
    (State.inValue quoting tag name value).tokens (raw ++ k) =
      (State.inValue quoting tag name (value ++ resolve raw)).tokens k := by
  fun_induction resolve raw generalizing value with
  | case1 => rw [List.nil_append, List.append_nil]
  | case2 t d rest hr ih =>
      have hread : read? true (t ++ k) = some (d, rest ++ k) := by rw [read?_append hk, hr]; rfl
      have hstep : (State.inValue quoting tag name value).step '&' (t ++ k) =
          .goto (.inValue quoting tag name (value ++ [d])) (rest ++ k) := by
        rw [Quoting.step_inValue (h _ List.mem_cons_self), Step.valueCharacter, if_pos rfl, hread]
      obtain ⟨u, rfl, -⟩ := CharacterReference.exists_read? hr
      rw [List.cons_append, State.tokens_cons, hstep]
      refine (ih (fun e he => h e ?_) _).trans ?_
      · exact List.mem_cons_of_mem _ (List.mem_append_right u he)
      · rw [List.append_assoc, List.singleton_append]
  | case3 t hr ih =>
      have hread : read? true (t ++ k) = none := by rw [read?_append hk, hr]; rfl
      have hstep : (State.inValue quoting tag name value).step '&' (t ++ k) =
          .goto (.inValue quoting tag name (value ++ ['&'])) (t ++ k) := by
        rw [Quoting.step_inValue (h _ List.mem_cons_self), Step.valueCharacter, if_pos rfl, hread]
      rw [List.cons_append, State.tokens_goto hstep, ih fun e he => h e (List.mem_cons_of_mem _ he),
        List.append_assoc, List.singleton_append]
  | case4 c t hc ih =>
      have hstep : (State.inValue quoting tag name value).step c (t ++ k) =
          .goto (.inValue quoting tag name (value ++ [c])) (t ++ k) := by
        rw [Quoting.step_inValue (h _ List.mem_cons_self), Step.valueCharacter, if_neg hc]
      rw [List.cons_append, State.tokens_goto hstep, ih fun e he => h e (List.mem_cons_of_mem _ he),
        List.append_assoc, List.singleton_append]

theorem Quoting.endsReference (h : ∀ c, k.head? = some c → quoting.ends c = true) :
    EndsReference k := by
  intro c hc
  have hends := h c hc
  cases quoting with
  | double => exact beq_iff_eq.1 hends ▸ rfl
  | single => exact beq_iff_eq.1 hends ▸ rfl
  | unquoted =>
      simp only [Quoting.ends, isSpace, Bool.or_eq_true, beq_iff_eq] at hends
      rcases hends with ((((rfl | rfl) | rfl) | rfl) | rfl) | rfl <;> rfl

/-- The tokens behind a value. A tag that the input cuts off is dropped. -/
def tokensAfterValue (tag : TagDraft) (name : Text) : Option (Text × Text) → List Token
  | some (value, rest) => (State.beforeAttribute (tag.add name (some value))).tokens rest
  | none => [.endOfFile]

theorem tokens_afterQuotedValue (tag : TagDraft) (t : Text) :
    (State.afterQuotedValue tag).tokens t = (State.beforeAttribute tag).tokens t := by
  cases t with
  | nil => rw [State.tokens, State.tokens]; rfl
  | cons c t => rw [State.tokens_cons, State.tokens_cons]; rfl

/-- A value in quotes. -/
theorem tokens_quoted (hq : ∀ c, quoting.ends c = (c == quote)) (hclose : ∀ value rest,
      (State.inValue quoting tag name value).step quote rest =
        .goto (.afterQuotedValue (tag.add name (some value))) rest) (t : Text) :
    (State.inValue quoting tag name []).tokens t =
      tokensAfterValue tag name ((Text.splitOnce? quote t).map fun p => (resolve p.1, p.2)) := by
  have hopen : ∀ {raw : Text}, quote ∉ raw → ∀ c ∈ raw, quoting.ends c = false := by
    rintro raw hraw c hc
    rw [hq, beq_eq_false_iff_ne]
    exact fun he => hraw (he ▸ hc)
  cases hs : Text.splitOnce? quote t with
  | some p =>
      obtain ⟨raw, rest⟩ := p
      obtain ⟨rfl, hraw⟩ := Text.splitOnce?_eq_some hs
      have hk : EndsReference (quote :: rest) := Quoting.endsReference fun c hc => by
        rw [hq, ← Option.some.inj hc, beq_self_eq_true]
      rw [tokens_inValue (hopen hraw) hk, State.tokens_goto (hclose _ _), tokens_afterQuotedValue]
      rfl
  | none =>
      have hend := tokens_inValue (hopen (Text.notMem_of_splitOnce?_eq_none hs))
        (fun _ h => nomatch h : EndsReference []) tag name []
      rw [List.append_nil] at hend
      rw [hend, State.tokens]
      rfl

/-- A value without quotes, which may be empty. -/
theorem tokens_unquoted (tag : TagDraft) (name t : Text) :
    (State.inValue .unquoted tag name []).tokens t =
      tokensAfterValue tag name (some (resolve (t.takeWhile (!Quoting.unquoted.ends ·)),
        t.dropWhile (!Quoting.unquoted.ends ·))) := by
  have hraw : ∀ c ∈ t.takeWhile (!Quoting.unquoted.ends ·), Quoting.unquoted.ends c = false :=
    fun c hc => by simpa using List.all_eq_true.1 List.all_takeWhile c hc
  have hk : ∀ c, (t.dropWhile (!Quoting.unquoted.ends ·)).head? = some c →
      Quoting.unquoted.ends c = true := fun c hc => by simpa using Text.of_head?_dropWhile hc
  have hsplit := List.takeWhile_append_dropWhile (p := (!Quoting.unquoted.ends ·)) (l := t)
  conv_lhs => rw [← hsplit]
  rw [tokens_inValue hraw (Quoting.endsReference hk)]
  generalize t.dropWhile (!Quoting.unquoted.ends ·) = k at hk
  cases k with
  | nil => rw [State.tokens, tokensAfterValue, State.tokens]; rfl
  | cons c k =>
      have hc : isSpace c = true ∨ c = '>' := by
        simpa only [Quoting.ends, Bool.or_eq_true, beq_iff_eq] using hk c rfl
      rw [tokensAfterValue, List.nil_append, State.tokens_cons, State.tokens_cons]
      have hstep : ∀ value, (State.inValue .unquoted tag name value).step c k =
          (State.beforeAttribute (tag.add name (some value))).step c k := fun value => by
        rcases hc with hc | rfl
        · exact (if_pos hc).trans (if_pos hc).symm
        · rfl
      rw [hstep]

/-- Spaces that the reader skips. -/
theorem tokens_dropWhile_isSpace (h : ∀ c rest, isSpace c = true → s.step c rest = .goto s rest)
    (t : Text) : s.tokens t = s.tokens (t.dropWhile isSpace) := by
  induction t with
  | nil => rfl
  | cons c t ih =>
      by_cases hc : isSpace c = true
      · rw [State.tokens_goto (h c t hc), List.dropWhile_cons_of_pos hc, ih]
      · rw [List.dropWhile_cons_of_neg hc]

/-- What stands behind the equals sign of an attribute. -/
theorem tokens_beforeValue (tag : TagDraft) (name t : Text) :
    (State.beforeValue tag name).tokens t = tokensAfterValue tag name (SourceTag.readValue? t) := by
  rw [tokens_dropWhile_isSpace (s := .beforeValue tag name) fun c rest hc => if_pos hc,
    SourceTag.readValue?]
  have hspace : ∀ c, (t.dropWhile isSpace).head? = some c → isSpace c = false := fun c =>
    Text.of_head?_dropWhile
  generalize t.dropWhile isSpace = u at hspace
  cases u with
  | nil => rw [State.tokens]; rfl
  | cons c u =>
      have hc : ¬ isSpace c = true := Bool.eq_false_iff.1 (hspace c rfl)
      dsimp only
      split
      · next hq =>
          rcases hq with rfl | rfl
          · exact (State.tokens_goto rfl).trans (tokens_quoted (fun _ => rfl) (fun _ _ => rfl) u)
          · exact (State.tokens_goto rfl).trans (tokens_quoted (fun _ => rfl) (fun _ _ => rfl) u)
      · next hq =>
          rw [not_or] at hq
          have hstep : (State.beforeValue tag name).step c u =
              (State.inValue .unquoted tag name []).step c u := by
            dsimp only [State.step]
            rw [if_neg hc, if_neg hq.1, if_neg hq.2]
            split
            · next hgt => rw [hgt]; rfl
            · rfl
          rw [← tokens_unquoted, State.tokens_cons, State.tokens_cons, hstep]

/-! ### Attributes -/

/-- What stands behind the name of an attribute. -/
theorem tokens_afterAttributeName (tag : TagDraft) (name t : Text) :
    (State.afterAttributeName tag name).tokens t =
      match Text.after? "=" (t.dropWhile isSpace) with
      | some u => (State.beforeValue tag name).tokens u
      | none => (State.beforeAttribute (tag.add name none)).tokens t := by
  have hspace : ∀ c, (t.dropWhile isSpace).head? = some c → isSpace c = false := fun c =>
    Text.of_head?_dropWhile
  rw [tokens_dropWhile_isSpace (s := .afterAttributeName tag name) fun c rest hc => if_pos hc,
    tokens_dropWhile_isSpace (s := .beforeAttribute (tag.add name none)) fun c rest hc => if_pos hc]
  generalize t.dropWhile isSpace = u at hspace
  cases u with
  | nil => rw [State.tokens, State.tokens]; rfl
  | cons c u =>
      have hc : ¬ isSpace c = true := Bool.eq_false_iff.1 (hspace c rfl)
      by_cases he : c = '='
      · subst he
        exact State.tokens_goto rfl
      · have hnone : Text.after? "=" (c :: u) = none := if_neg (Ne.symm he)
        have hstep : (State.afterAttributeName tag name).step c u =
            (State.beforeAttribute (tag.add name none)).step c u := by
          simp only [State.step, Step.beforeAttribute, if_neg hc, if_neg he]
        rw [hnone, State.tokens_cons, State.tokens_cons, hstep]

/-- The end of the name of an attribute is read like what stands behind it. -/
theorem tokens_attributeName_end (h : ∀ c, t.head? = some c → isAttributeNameEnd c = true)
    (tag : TagDraft) (name : Text) :
    (State.attributeName tag name).tokens t = (State.afterAttributeName tag name).tokens t := by
  cases t with
  | nil => rw [State.tokens, State.tokens]; rfl
  | cons c t =>
      have hc : ((isSpace c = true ∨ c = '/') ∨ c = '>') ∨ c = '=' := by
        simpa only [isAttributeNameEnd, Bool.or_eq_true, isNameEnd_iff, beq_iff_eq] using h c rfl
      have hstep : (State.attributeName tag name).step c t =
          (State.afterAttributeName tag name).step c t := by
        rcases hc with ((hc | rfl) | rfl) | rfl
        · exact (if_pos hc).trans (if_pos hc).symm
        · rfl
        · rfl
        · rfl
      rw [State.tokens_cons, State.tokens_cons, hstep]

/-- An attribute from its first character on. -/
theorem tokens_readAttribute? (h : isNameEnd c = false) (tag : TagDraft) (t : Text) :
    (State.beforeAttribute tag).tokens (c :: t) =
      match SourceTag.readAttribute? c t with
      | some (a, rest) => (State.beforeAttribute (tag.add a.name a.value)).tokens rest
      | none => [.endOfFile] := by
  have hstep : (State.beforeAttribute tag).step c t = .goto (.attributeName tag [c.toLower]) t := by
    simp only [isNameEnd, Bool.or_eq_false_iff, beq_eq_false_iff_ne] at h
    rw [State.step, Step.beforeAttribute, if_neg (Bool.eq_false_iff.1 h.1.1), if_neg h.1.2,
      if_neg h.2]
  have hend : ∀ d, (t.dropWhile (!isAttributeNameEnd ·)).head? = some d →
      isAttributeNameEnd d = true := fun d hd => by simpa using Text.of_head?_dropWhile hd
  have hword : ∀ d ∈ t.takeWhile (!isAttributeNameEnd ·), isAttributeNameEnd d = false :=
    fun d hd => by simpa using List.all_eq_true.1 List.all_takeWhile d hd
  have hsplit := List.takeWhile_append_dropWhile (p := (!isAttributeNameEnd ·)) (l := t)
  rw [State.tokens_goto hstep]
  conv_lhs => rw [← hsplit]
  rw [tokens_lower_attributeName hword, tokens_attributeName_end hend, tokens_afterAttributeName,
    SourceTag.readAttribute?]
  dsimp only
  split
  · next u _ =>
      rw [tokens_beforeValue]
      cases SourceTag.readValue? u <;> rfl
  · rfl

/-! ### Tags -/

/-- The draft with attributes added in the order of the source. -/
def TagDraft.addAll (tag : TagDraft) (attributes : List Attribute) : TagDraft :=
  attributes.foldl (fun d a => d.add a.name a.value) tag

theorem TagDraft.finish_of_isEnd (h : tag.isEnd = false) (selfClosing : Bool) (rest : Text) :
    tag.finish selfClosing rest = ⟨[.startTag tag.name tag.attributes selfClosing],
      .content (readingAfter tag.name), rest⟩ :=
  if_neg (by simp [h])

/-- The reader delivers a start tag with the attributes that the source has. -/
theorem tokens_readAttributes? (h : tag.isEnd = false) (t : Text) :
    (State.beforeAttribute tag).tokens t =
      match SourceTag.readAttributes? t with
      | some (attributes, selfClosing, rest) =>
        .startTag tag.name (tag.addAll attributes).attributes selfClosing ::
          (State.content (TagDraft.readingAfter tag.name)).tokens rest
      | none => [.endOfFile] := by
  fun_induction SourceTag.readAttributes? t generalizing tag with
  | case1 => rw [State.tokens]; rfl
  | case2 t =>
      have hstep : (State.beforeAttribute tag).step '>' t = tag.finish false t := rfl
      rw [State.tokens_cons, hstep, TagDraft.finish_of_isEnd h]
      rfl
  | case3 c t hc hsolidus =>
      obtain ⟨rfl, hclose⟩ := hsolidus
      obtain ⟨k, rfl⟩ := List.head?_eq_some_iff.1 hclose
      have hstep : (State.solidus tag).step '>' k = tag.finish true k := rfl
      have hopen : (State.beforeAttribute tag).step '/' ('>' :: k) =
          .goto (.solidus tag) ('>' :: k) := rfl
      rw [State.tokens_goto hopen, State.tokens_cons, hstep, TagDraft.finish_of_isEnd h]
      rfl
  | case4 c t hc hsolidus hend ih =>
      have hskip : isSpace c = true ∨ c = '/' := (isNameEnd_iff.1 hend).resolve_right hc
      rw [← ih h]
      rcases hskip with hspace | rfl
      · exact State.tokens_goto (if_pos hspace)
      · -- A solidus with no `>` behind it is skipped.
        have hopen : (State.beforeAttribute tag).step '/' t = .goto (.solidus tag) t := rfl
        rw [State.tokens_goto hopen]
        cases t with
        | nil => rw [State.tokens, State.tokens]; rfl
        | cons d t =>
            have hd : d ≠ '>' := fun he => hsolidus ⟨rfl, congrArg some he⟩
            have hstep : (State.solidus tag).step d t = (State.beforeAttribute tag).step d t :=
              if_neg hd
            rw [State.tokens_cons, State.tokens_cons, hstep]
  | case5 c t hc hsolidus hend a rest hr ih =>
      rw [tokens_readAttribute? (Bool.eq_false_iff.2 hend), hr]
      dsimp only
      rw [ih ((isEnd_add ..).trans h), TagDraft.name_add]
      cases SourceTag.readAttributes? rest <;> rfl
  | case6 c t hc hsolidus hend hr =>
      rw [tokens_readAttribute? (Bool.eq_false_iff.2 hend), hr]

/-- Behind the `<` of a start tag. -/
theorem tokens_read? (h : c.isAlpha = true) (t : Text) :
    State.tagOpen.tokens (c :: t) =
      match SourceTag.read? (c :: t) with
      | some (tag, rest) =>
        .startTag tag.name (TagDraft.addAll ⟨false, tag.name, []⟩ tag.attributes).attributes
            tag.selfClosing :: (State.content (TagDraft.readingAfter tag.name)).tokens rest
      | none => [.endOfFile] := by
  have hopen : State.tagOpen.step c t = .goto (.tagName ⟨false, [c.toLower], []⟩) t := by
    rw [State.step, if_neg (ne_of_isAlpha h rfl), if_neg (ne_of_isAlpha h rfl), if_pos h]
  have hc : isNameEnd c = false := isNameEnd_of_isAlpha h
  have hend : ∀ d, (t.dropWhile (!isNameEnd ·)).head? = some d → isNameEnd d = true :=
    fun d hd => by simpa using Text.of_head?_dropWhile hd
  have hword : ∀ d ∈ t.takeWhile (!isNameEnd ·), isNameEnd d = false :=
    fun d hd => by simpa using List.all_eq_true.1 List.all_takeWhile d hd
  have hsplit := List.takeWhile_append_dropWhile (p := (!isNameEnd ·)) (l := t)
  -- The end of the name is read as if an attribute might start there.
  have hname : ∀ (tag : TagDraft) (k : Text), (∀ d, k.head? = some d → isNameEnd d = true) →
      (State.tagName tag).tokens k = (State.beforeAttribute tag).tokens k := by
    intro tag k hk
    cases k with
    | nil => rw [State.tokens, State.tokens]; rfl
    | cons d k => rw [State.tokens_cons, State.tokens_cons, Source.step_tagName (hk d rfl)]
  have hlower : Text.lower ((c :: t).takeWhile (!isNameEnd ·)) =
      c.toLower :: Text.lower (t.takeWhile (!isNameEnd ·)) := by
    rw [List.takeWhile_cons_of_pos (by simp [hc])]
    rfl
  have hrest : (c :: t).dropWhile (!isNameEnd ·) = t.dropWhile (!isNameEnd ·) :=
    List.dropWhile_cons_of_pos (by simp [hc])
  have hread : SourceTag.read? (c :: t) =
      (SourceTag.readAttributes? (t.dropWhile (!isNameEnd ·))).map
        fun (attributes, selfClosing, rest) =>
          (⟨c.toLower :: Text.lower (t.takeWhile (!isNameEnd ·)), attributes, selfClosing⟩,
            rest) := by
    rw [SourceTag.read?, hlower, hrest]
    exact if_pos h
  rw [State.tokens_goto hopen]
  conv_lhs => rw [← hsplit]
  rw [tokens_lower_tagName hword, hname _ _ hend, tokens_readAttributes? rfl, hread]
  cases SourceTag.readAttributes? (t.dropWhile (!isNameEnd ·)) <;> rfl

/-- A value in quotes with a reference, a name that is written twice, spaces around an equals sign,
and a solidus that belongs to a value. -/
example : SourceTag.read? "A\tX=1 y='a&amp;b'x Z = &lt/>!" =
    some (⟨"a", [⟨"x", some "1"⟩, ⟨"y", some "a&b"⟩, ⟨"x", none⟩, ⟨"z", some "</"⟩], false⟩,
      "!".toList) := by
  decide +kernel

/-! ### What is kept -/

/-- The attributes of a start tag that are kept: those whose name has not been written before. -/
structure SourceTag.Keeps (s : SourceTag) (kept : List Attribute) : Prop where
  sublist : kept.Sublist s.attributes
  first : ∀ name, kept.find? (·.name == name) = s.attributes.find? (·.name == name)

theorem TagDraft.sublist_addAll (tag : TagDraft) (attributes : List Attribute) :
    (tag.addAll attributes).attributes.Sublist (tag.attributes ++ attributes) := by
  induction attributes generalizing tag with
  | nil => exact List.sublist_append_left ..
  | cons a attributes ih =>
      have hadd : (tag.add a.name a.value).attributes.Sublist (tag.attributes ++ [a]) := by
        unfold add
        split
        · exact List.sublist_append_left ..
        · exact List.Sublist.refl _
      rw [List.append_cons]
      exact (ih _).trans (hadd.append_right attributes)

/-- An attribute that is added is found behind the attributes that are there. -/
theorem TagDraft.find?_add (tag : TagDraft) (a : Attribute) (name : Text) :
    (tag.add a.name a.value).attributes.find? (·.name == name) =
      (tag.attributes ++ [a]).find? (·.name == name) := by
  unfold add
  split
  · next hany =>
      rw [List.find?_append]
      by_cases hn : a.name = name
      · obtain ⟨b, hb, he⟩ := List.any_eq_true.1 hany
        have hsome : (tag.attributes.find? (·.name == name)).isSome = true :=
          List.find?_isSome.2 ⟨b, hb, hn ▸ he⟩
        rw [Option.or_of_isSome hsome]
      · have hnone : [a].find? (·.name == name) = none :=
          List.find?_cons_of_neg (by simpa using hn)
        rw [hnone, Option.or_none]
  · rfl

theorem TagDraft.find?_addAll (tag : TagDraft) (attributes : List Attribute) (name : Text) :
    (tag.addAll attributes).attributes.find? (·.name == name) =
      (tag.attributes ++ attributes).find? (·.name == name) := by
  induction attributes generalizing tag with
  | nil => rw [List.append_nil]; rfl
  | cons a attributes ih =>
      refine (ih _).trans ?_
      rw [List.find?_append, tag.find?_add, ← List.find?_append, ← List.append_cons]

/-- What the reader keeps of the attributes that are written. -/
theorem SourceTag.keeps_addAll (s : SourceTag) (name : Text) :
    s.Keeps (TagDraft.addAll ⟨false, name, []⟩ s.attributes).attributes where
  sublist := TagDraft.sublist_addAll ⟨false, name, []⟩ s.attributes
  first := TagDraft.find?_addAll ⟨false, name, []⟩ s.attributes

end AmpMarkup.Html
