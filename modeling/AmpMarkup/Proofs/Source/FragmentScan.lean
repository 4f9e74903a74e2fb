import AmpMarkup.Proofs.Source.Bracketed
import AmpMarkup.Proofs.Source.Fragment
import AmpMarkup.Proofs.Source.Piece
import AmpMarkup.Proofs.Source.SpanGrammar

/-! Scanning a fragment. Its start tags are found as they were written, and each attribute is found
with its name and its value. -/

namespace AmpMarkup.Source

/-- A tag in lower case whose element holds markup. -/
structure IsTag (tag : Text) : Prop where
  start : tag.head?.any Char.isAlpha = true
  chars : ∀ c ∈ tag, isLowerNameChar c = true
  not_textOnly : Vocabulary.isTextOnly tag = false

/-- The fragment can be read again from its source. -/
def Fragment.Readable : Fragment → Prop
  | .nil => True
  | .text t rest => (∀ c ∈ t, IsTextChar c) ∧ rest.Readable
  | .element tag attributes content rest =>
    IsTag tag ∧ Vocabulary.isVoid tag = false ∧ CanonicalAttributes attributes ∧
      content.Readable ∧ rest.Readable
  | .void tag attributes rest =>
    IsTag tag ∧ Vocabulary.isVoid tag = true ∧ CanonicalAttributes attributes ∧ rest.Readable

variable {c : Char} {t u k tag name : Text} {a : Attribute} {attributes : List Attribute}
  {r : Registry} {f : Fragment}

/-! ### Characters of names -/

theorem isNameChar_of_isLowerNameChar (h : isLowerNameChar c = true) : isNameChar c = true := by
  unfold isLowerNameChar at h
  unfold isNameChar Char.isAlphanum Char.isAlpha
  simp only [Bool.or_eq_true] at h ⊢
  rcases h with ((h | h) | h) | h
  · exact .inl (.inl (.inl (.inr h)))
  · exact .inl (.inl (.inr h))
  · exact .inl (.inr h)
  · exact .inr h

theorem toLower_eq_or_isLower (c : Char) : c.toLower = c ∨ c.toLower.isLower = true := by
  unfold Char.toLower
  split
  · next h =>
      refine .inr ?_
      simp only [UInt32.le_iff_toNat_le, ge_iff_le] at h
      unfold Char.isLower
      simp only [Bool.and_eq_true, decide_eq_true_eq, UInt32.le_iff_toNat_le, ge_iff_le,
        UInt32.toNat_add]
      have hA : 'A'.val.toNat = 65 := rfl
      have hZ : 'Z'.val.toNat = 90 := rfl
      have ha : 'a'.val.toNat = 97 := rfl
      have hz : 'z'.val.toNat = 122 := rfl
      have hd : ('a'.val - 'A'.val).toNat = 32 := rfl
      omega
  · exact .inl rfl

/-- Only letters become letters in lower case. -/
theorem eq_of_toLower_eq {d : Char} (h : c.toLower = d) (hd : d.isLower = false) : c = d := by
  rcases toLower_eq_or_isLower c with hc | hc
  · exact hc ▸ h
  · rw [h, hd] at hc
    cases hc

theorem toLower_of_isLowerNameChar (h : isLowerNameChar c = true) : c.toLower = c := by
  unfold Char.toLower
  refine dif_neg fun hu => ?_
  unfold isLowerNameChar Char.isLower Char.isDigit at h
  simp only [Bool.or_eq_true, Bool.and_eq_true, decide_eq_true_eq, beq_iff_eq,
    UInt32.le_iff_toNat_le, ge_iff_le] at h hu
  rcases h with ((h | h) | rfl) | rfl
  · exact absurd (Nat.le_trans h.1 hu.2) (by decide)
  · exact absurd (Nat.le_trans hu.1 h.2) (by decide)
  · exact absurd hu.2 (by decide)
  · exact absurd hu.1 (by decide)

theorem toLower_of_isLower (h : c.isLower = true) : c.toLower = c :=
  toLower_of_isLowerNameChar (by simp [isLowerNameChar, h])

theorem toLower_toLower (c : Char) : c.toLower.toLower = c.toLower := by
  rcases toLower_eq_or_isLower c with h | h
  · rw [h, h]
  · exact toLower_of_isLower h

theorem lower_lower (t : Text) : t.lower.lower = t.lower := by
  rw [Text.lower, Text.lower, List.map_map]
  exact List.map_congr_left fun c _ => toLower_toLower c

theorem toLower_of_not_isUpper (h : ¬ c.isUpper = true) : c.toLower = c := by
  unfold Char.isUpper at h
  unfold Char.toLower
  exact dif_neg (by simpa using h)

theorem isUpper_of_toLower_eq (h : c.toLower = c) : c.isUpper = false := by
  refine Bool.eq_false_iff.2 fun hu => ?_
  unfold Char.isUpper at hu
  have hval : c.toLower.val = c.val + 32 := by
    unfold Char.toLower
    rw [dif_pos (by simpa using hu)]
    rfl
  rw [h] at hval
  simp at hval

theorem isAlpha_of_isLower (h : c.isLower = true) : c.isAlpha = true := by
  unfold Char.isAlpha
  rw [h, Bool.or_true]

theorem isAlpha_of_isUpper (h : c.isUpper = true) : c.isAlpha = true := by
  unfold Char.isAlpha
  rw [h, Bool.true_or]

theorem isAlpha_of_toLower (h : c.toLower.isAlpha = true) : c.isAlpha = true := by
  by_cases hu : c.isUpper = true
  · exact isAlpha_of_isUpper hu
  · rwa [toLower_of_not_isUpper hu] at h

theorem isSpace_of_isLowerNameChar (h : isLowerNameChar c = true) : isSpace c = false :=
  isSpace_of_isNameChar (isNameChar_of_isLowerNameChar h)

theorem IsTag.isNameChar (h : IsTag tag) : ∀ c ∈ tag, isNameChar c = true := fun c hc =>
  isNameChar_of_isLowerNameChar (h.chars c hc)

theorem IsTag.ne_nil (h : IsTag tag) : tag ≠ [] := by
  rintro rfl
  exact absurd h.start (by decide)

/-- No character of a name in brackets or without them is one that ends a name. -/
theorem IsWrittenName.ne {d : Char} (h : IsWrittenName name) (hd : isNameChar d = false)
    (hopen : d ≠ '[') (hclose : d ≠ ']') : ∀ c ∈ name, c ≠ d := by
  have hbare : ∀ bare, IsBareName bare → ∀ c ∈ bare, c ≠ d := fun bare hb c hc =>
    ne_of_isNameChar (isNameChar_of_isLowerNameChar (hb.2 c hc)) hd
  rcases h with h | ⟨bare, hb, rfl⟩
  · exact hbare name h
  · intro c hc
    rcases List.mem_cons.1 hc with rfl | hc
    · exact hopen.symm
    · rcases List.mem_append.1 hc with hc | hc
      · exact hbare bare hb c hc
      · exact List.mem_singleton.1 hc ▸ hclose.symm

theorem IsWrittenName.exists_eq_cons (h : IsWrittenName name) :
    ∃ c rest, name = c :: rest ∧ isSpace c = false := by
  rcases h with h | ⟨bare, hb, rfl⟩
  · obtain ⟨c, rest, rfl⟩ := List.exists_cons_of_ne_nil h.1
    exact ⟨c, rest, rfl, isSpace_of_isLowerNameChar (h.2 c List.mem_cons_self)⟩
  · exact ⟨'[', bare ++ [']'], rfl, by decide⟩

/-! ### Start tags -/

theorem spanTag?_ordinary (hu : ∀ c ∈ u, c ≠ '>' ∧ c ≠ '=') (t : Text) :
    spanTag? .ordinary (u ++ t) = (spanTag? .ordinary t).map fun p => (u ++ p.1, p.2) := by
  induction u with
  | nil => simp
  | cons c u ih =>
      obtain ⟨hgt, heq⟩ := hu c List.mem_cons_self
      rw [List.cons_append, spanTag?_cons fun h => absurd h hgt, QuoteState.next, if_neg heq,
        ih fun d hd => hu d (List.mem_cons_of_mem _ hd), Option.map_map]
      rfl

theorem spanTag?_inside {quote : Char} (hu : ∀ c ∈ u, c ≠ quote) (t : Text) :
    spanTag? (.inside quote) (u ++ quote :: t) =
      (spanTag? .ordinary t).map fun p => (u ++ quote :: p.1, p.2) := by
  rw [spanTag?_inside_append hu, spanTag?_cons fun _ => ⟨quote, rfl⟩, QuoteState.next, if_pos rfl,
    Option.map_map]
  rfl

theorem spanTag?_attribute (hn : IsWrittenName a.name)
    (hv : ∀ v, a.value = some v → ∀ c ∈ v, IsValueChar c) (t : Text) :
    spanTag? .ordinary (attributeSource a ++ t) =
      (spanTag? .ordinary t).map fun p => (attributeSource a ++ p.1, p.2) := by
  have hname : ∀ c ∈ ' ' :: a.name, c ≠ '>' ∧ c ≠ '=' := by
    intro c hc
    rcases List.mem_cons.1 hc with rfl | hc
    · decide
    · exact ⟨hn.ne (by decide) (by decide) (by decide) c hc,
        hn.ne (by decide) (by decide) (by decide) c hc⟩
  unfold attributeSource
  cases hval : a.value with
  | none =>
      simp only [List.append_nil]
      exact spanTag?_ordinary hname t
  | some v =>
      have hquote : ∀ c ∈ v, c ≠ '"' := fun c hc => (hv v hval c hc).1
      have hopen : spanTag? .ordinary ('=' :: '"' :: (v ++ '"' :: t)) =
          (spanTag? .ordinary t).map fun p => ('=' :: '"' :: (v ++ '"' :: p.1), p.2) := by
        rw [spanTag?, QuoteState.next, if_pos rfl, spanTag?, QuoteState.next, if_pos (.inl rfl),
          spanTag?_inside hquote, Option.map_map, Option.map_map]
        · rfl
        all_goals exact fun _ => by decide
      dsimp only
      rw [List.append_assoc, spanTag?_ordinary hname]
      simp only [List.cons_append, List.append_assoc, List.nil_append]
      rw [hopen, Option.map_map]
      rfl

theorem spanTag?_attributes (h : CanonicalAttributes attributes) (t : Text) :
    spanTag? .ordinary (attributes.flatMap attributeSource ++ '>' :: t) =
      some (attributes.flatMap attributeSource, t) := by
  obtain ⟨hn, hv, -⟩ := h
  induction attributes with
  | nil =>
      rw [List.flatMap_nil, List.nil_append, spanTag?]
  | cons a attributes ih =>
      have ih := ih (fun b hb => hn b (List.mem_cons_of_mem _ hb))
        fun b hb => hv b (List.mem_cons_of_mem _ hb)
      rw [List.flatMap_cons, List.append_assoc,
        spanTag?_attribute (hn a List.mem_cons_self) (hv a List.mem_cons_self), ih]
      rfl

/-- What follows the name of a tag or of an attribute does not go on with it. -/
theorem endsWord_attributes (attributes : List Attribute) (t : Text) :
    EndsWord (attributes.flatMap attributeSource ++ '>' :: t) := by
  cases attributes with
  | nil => exact endsWord_cons.2 (by decide)
  | cons a attributes => exact endsWord_cons.2 (by decide)

/-- A start tag is read as it was written. -/
theorem read?_startTag (hs : tag.head?.any Char.isAlpha = true)
    (hc : ∀ c ∈ tag, isLowerNameChar c = true) (ha : CanonicalAttributes attributes) (k : Text) :
    StartTag.read? (tag ++ attributes.flatMap attributeSource ++ '>' :: k) =
      some (⟨tag, attributes.flatMap attributeSource⟩, k) := by
  have hchars : ∀ c ∈ tag, isNameChar c = true := fun c hm =>
    isNameChar_of_isLowerNameChar (hc c hm)
  have hend := endsWord_attributes attributes k
  have hname : endsName (attributes.flatMap attributeSource ++ '>' :: k) = true := by
    cases attributes <;> rfl
  have hstart : (tag ++ (attributes.flatMap attributeSource ++ '>' :: k)).head?.any Char.isAlpha =
      true := by
    cases tag with
    | nil => cases hs
    | cons c tag => exact hs
  rw [StartTag.read?, List.append_assoc, takeWhile_word hchars hend, dropWhile_word hchars hend,
    hname, hstart, Bool.and_true, if_pos rfl, spanTag?_attributes ha]
  rfl

/-! ### Attributes -/

/-- The value of an attribute with the equals sign and the quotes. -/
def valueSource (value : Option Text) : Option Text :=
  value.map fun v => '=' :: '"' :: v ++ ['"']

/-- What is found of an attribute of a fragment. -/
def foundAttribute (a : Attribute) : SourceAttribute :=
  match a.name with
  | '[' :: name => ⟨[' '], true, name.dropLast, true, valueSource a.value⟩
  | name => ⟨[' '], false, name, false, valueSource a.value⟩

theorem attributeSource_eq (a : Attribute) :
    attributeSource a = ' ' :: (a.name ++ (valueSource a.value).getD []) := by
  cases h : a.value <;> simp [attributeSource, valueSource, h]

theorem IsBareName.ne_bracket (h : IsBareName name) : ∀ c ∈ name, c ≠ '[' := fun c hc =>
  ne_of_isNameChar (isNameChar_of_isLowerNameChar (h.2 c hc)) (by decide)

theorem IsBareName.foundAttribute_eq (h : IsBareName a.name) :
    foundAttribute a = ⟨[' '], false, a.name, false, valueSource a.value⟩ := by
  unfold foundAttribute
  split
  · next name hname => exact absurd rfl (h.ne_bracket '[' (hname ▸ List.mem_cons_self))
  · rfl

theorem valueSource_written (hv : ∀ v, a.value = some v → ∀ c ∈ v, IsValueChar c) :
    ∀ v, valueSource a.value = some v → IsWrittenValue v := by
  intro v h
  obtain ⟨w, hw, rfl⟩ := Option.map_eq_some_iff.1 h
  exact .quoted (.inl rfl) fun hm => (hv w hw '"' hm).1 rfl

/-- What is found of an attribute has the form of one, and is the attribute. -/
theorem foundAttribute_spec (hn : IsWrittenName a.name)
    (hv : ∀ v, a.value = some v → ∀ c ∈ v, IsValueChar c) :
    (foundAttribute a).Written ∧ (foundAttribute a).source = attributeSource a := by
  have hvalue := valueSource_written hv
  have hspace : ∀ c ∈ [' '], isSpace c = true := by simp [isSpace]
  rw [attributeSource_eq]
  rcases hn with hb | ⟨bare, hb, hname⟩
  · rw [hb.foundAttribute_eq]
    refine ⟨⟨by simp, hspace, hb.1, ?_, hvalue⟩, ?_⟩
    · exact fun c hc => isNameChar_of_isLowerNameChar (hb.2 c hc)
    · simp [SourceAttribute.source, SourceAttribute.writtenName]
  · have hfound : foundAttribute a = ⟨[' '], true, bare, true, valueSource a.value⟩ := by
      simp [foundAttribute, hname]
    rw [hfound]
    refine ⟨⟨by simp, hspace, hb.1, ?_, hvalue⟩, ?_⟩
    · exact fun c hc => isNameChar_of_isLowerNameChar (hb.2 c hc)
    · simp [SourceAttribute.source, SourceAttribute.writtenName, hname]

/-- The attributes of a start tag are found as they were written. -/
theorem splitAttributes?_attributes (h : CanonicalAttributes attributes) :
    splitAttributes? (attributes.flatMap attributeSource) =
      some (attributes.map foundAttribute) := by
  have hfound := fun a ha => foundAttribute_spec (h.names a ha) (h.values a ha)
  have hsource : (attributes.map foundAttribute).flatMap SourceAttribute.source =
      attributes.flatMap attributeSource := by
    rw [List.flatMap_map, List.flatMap_def, List.flatMap_def]
    exact congrArg List.flatten (List.map_congr_left fun a ha => (hfound a ha).2)
  have hwritten : ∀ b ∈ attributes.map foundAttribute, b.Written := by
    simpa using fun a ha => (hfound a ha).1
  have hsplit := splitAttributes?_flatMap (t := []) hwritten (by simp)
  rwa [hsource, List.append_nil] at hsplit

theorem attributeSource_getLast (hn : IsWrittenName a.name) :
    ∃ before c, attributeSource a = before ++ [c] ∧ isSpace c = false ∧ c ≠ '/' := by
  rw [attributeSource_eq]
  cases hval : a.value with
  | some v => exact ⟨' ' :: (a.name ++ '=' :: '"' :: v), '"', by simp [valueSource], by decide⟩
  | none =>
      rcases hn with hb | ⟨bare, -, hname⟩
      · obtain ⟨before, c, hname⟩ := (List.eq_nil_or_concat a.name).resolve_left hb.1
        rw [List.concat_eq_append] at hname
        have hc := hb.2 c (hname ▸ List.mem_append_right _ (List.mem_singleton.2 rfl))
        refine ⟨' ' :: before, c, by simp [hname, valueSource], isSpace_of_isLowerNameChar hc, ?_⟩
        exact ne_of_isNameChar (isNameChar_of_isLowerNameChar hc) (by decide)
      · exact ⟨' ' :: '[' :: bare, ']', by simp [hname, valueSource], by decide⟩

/-- A start tag ends neither in a space nor in a solidus. -/
theorem splitSolidus_attributes (h : CanonicalAttributes attributes) :
    splitSolidus (attributes.flatMap attributeSource) =
      (attributes.flatMap attributeSource, []) := by
  have hlast : ∀ c t, (attributes.flatMap attributeSource).reverse = c :: t →
      isSpace c = false ∧ c ≠ '/' := by
    intro c t hr
    rcases List.eq_nil_or_concat attributes with rfl | ⟨before, a, hlast⟩
    · cases hr
    · rw [List.concat_eq_append] at hlast
      subst hlast
      obtain ⟨u, d, hu, hd⟩ := attributeSource_getLast
        (h.names a (List.mem_append_right _ (List.mem_singleton.2 rfl)))
      rw [List.flatMap_append, List.flatMap_cons, List.flatMap_nil, List.append_nil, hu,
        ← List.append_assoc, List.reverse_append] at hr
      exact (List.cons.inj hr).1 ▸ hd
  generalize attributes.flatMap attributeSource = span at hlast
  have htrim : (span.reverse.dropWhile isSpace).reverse = span := by
    cases hs : span.reverse with
    | nil => rw [List.dropWhile_nil, ← hs, List.reverse_reverse]
    | cons c t =>
        rw [List.dropWhile_cons_of_neg (by simp [(hlast c t hs).1]), ← hs, List.reverse_reverse]
  unfold splitSolidus
  rw [htrim]
  dsimp only
  split
  · next t hs => exact absurd rfl (hlast _ t hs).2
  · rw [List.drop_length]

/-- Every binding attribute of a fragment has both brackets. -/
theorem closesBrackets_startTag (h : CanonicalAttributes attributes) :
    (StartTag.mk tag (attributes.flatMap attributeSource)).ClosesBrackets := by
  intro as has a ha ho
  rw [splitSolidus_attributes h, splitAttributes?_attributes h] at has
  obtain rfl := Option.some.inj has
  obtain ⟨b, -, rfl⟩ := List.mem_map.1 ha
  unfold foundAttribute at ho ⊢
  split at ho
  · rfl
  · cases ho

/-! ### Canonical fragments -/

theorem lower_eq (h : ∀ c ∈ name, isLowerNameChar c = true) : name.lower = name := by
  rw [Text.lower, List.map_congr_left fun c hc => toLower_of_isLowerNameChar (h c hc), List.map_id']

theorem isTag_of_mem_voidElements (h : tag ∈ Vocabulary.voidElements) :
    IsTag tag ∧ Vocabulary.isVoid tag = true := by
  have hall : ∀ v ∈ Vocabulary.voidElements, v.head?.any Char.isAlpha = true ∧
      v.all isLowerNameChar = true ∧ Vocabulary.isTextOnly v = false ∧
        Vocabulary.isVoid v = true := by
    decide
  obtain ⟨hs, hc, ht, hv⟩ := hall tag h
  exact ⟨⟨hs, List.all_eq_true.1 hc, ht⟩, hv⟩

theorem isTag_of_isContainer (h : IsContainer tag) :
    IsTag tag ∧ Vocabulary.isVoid tag = false := by
  rcases h with h | ⟨name, rfl, hname⟩
  · have hall : ∀ v ∈ (["div", "span", "section"].map String.toList : List Text),
        v.head?.any Char.isAlpha = true ∧ v.all isLowerNameChar = true ∧
          Vocabulary.isTextOnly v = false ∧ Vocabulary.isVoid v = false := by
      decide
    obtain ⟨hs, hc, ht, hv⟩ := hall tag h
    exact ⟨⟨hs, List.all_eq_true.1 hc, ht⟩, hv⟩
  · have hchars : ∀ c ∈ ("amp-" ++ name : Text), isLowerNameChar c = true := by
      intro c hc
      rcases List.mem_append.1 hc with hc | hc
      · exact List.all_eq_true.1 (by decide : "amp-".toList.all isLowerNameChar = true) c hc
      · simp only [isLowerNameChar, Bool.or_eq_true, beq_iff_eq]
        rcases hname c hc with h | h | h
        · exact .inl (.inl (.inl h))
        · exact .inl (.inl (.inr h))
        · exact .inr h
    -- No element with a meaning of its own has a hyphen in its name.
    have hnot : ∀ vs : List Text, (∀ v ∈ vs, '-' ∉ v) →
        vs.contains (Text.lower ("amp-" ++ name)) = false := by
      intro vs hvs
      rw [lower_eq hchars]
      refine Bool.eq_false_iff.2 fun hm => hvs _ (List.contains_iff_mem.1 hm) ?_
      exact List.mem_append_left _ (by decide)
    have hvoid := hnot Vocabulary.voidElements (by decide)
    have hraw := hnot Vocabulary.rawTextElements (by decide)
    have hescapable := hnot Vocabulary.escapableTextElements (by decide)
    refine ⟨⟨rfl, hchars, ?_⟩, hvoid⟩
    rw [Vocabulary.isTextOnly, Vocabulary.isRawText, Vocabulary.isEscapableText, hraw, hescapable,
      Bool.or_false]

theorem Fragment.Canonical.readable {inside : Bool} (h : f.Canonical inside) : f.Readable := by
  induction f generalizing inside with
  | nil => trivial
  | text t rest ih => exact ⟨h.1, ih h.2.2⟩
  | element tag attributes content rest ihc ihr =>
      obtain ⟨ht, ha, hc, hr⟩ := h
      exact ⟨(isTag_of_isContainer ht).1, (isTag_of_isContainer ht).2, ha, ihc hc, ihr hr⟩
  | void tag attributes rest ih =>
      obtain ⟨ht, ha, hr⟩ := h
      exact ⟨(isTag_of_mem_voidElements ht).1, (isTag_of_mem_voidElements ht).2, ha, ih hr⟩

end AmpMarkup.Source
