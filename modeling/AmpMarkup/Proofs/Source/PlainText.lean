import AmpMarkup.Proofs.Source.RoundTrip
import AmpMarkup.Proofs.Source.FragmentClosing

/-! Plain text between tags. Text that does not start the end tag of its element, in any case, is the
whole content of the element; substituting templates keeps that so. Taking end tags of void elements
out treats what stands before a `<` and what starts there apart. -/

namespace AmpMarkup

namespace Text

variable {w t old new : Text}

theorem exists_afterIgnoringCase?_iff :
    (∃ rest, afterIgnoringCase? w t = some rest) ↔ w.lower <+: t.lower := by
  induction w generalizing t with
  | nil => exact ⟨fun _ => List.nil_prefix, fun _ => ⟨t, rfl⟩⟩
  | cons c w ih =>
      cases t with
      | nil => simp [afterIgnoringCase?, lower]
      | cons d t =>
          rw [lower, lower, List.map_cons, List.map_cons, List.cons_prefix_cons, afterIgnoringCase?]
          split
          · next h => exact ih.trans (by simp [h, lower])
          · next h => simp [h]

theorem afterIgnoringCase?_append (w t : Text) : afterIgnoringCase? w (w ++ t) = some t :=
  afterIgnoringCase?_eq_some_iff.2 ⟨w, rfl, rfl⟩

/-- Text is not put together by replacing: what is put in starts with a letter of its own. -/
theorem prefix_lower_of_replace {c : Char} (hc : c.toLower ∉ w) (hold : old ≠ [])
    (h : w <+: (replace old (c :: new) t).lower) : w <+: t.lower := by
  induction t using occurrenceInduction hold generalizing w with
  | nil => rwa [replace_nil] at h
  | found rest ih =>
      rw [replace_append_self hold] at h
      cases w with
      | nil => exact List.nil_prefix
      | cons d w => exact absurd ((List.cons_prefix_cons.1 h).1 ▸ List.mem_cons_self) hc
  | cons d rest hnot ih =>
      rw [replace_cons hnot] at h
      cases w with
      | nil => exact List.nil_prefix
      | cons e w =>
          obtain ⟨he, hrest⟩ := List.cons_prefix_cons.1 h
          exact List.cons_prefix_cons.2
            ⟨he, ih (fun hm => hc (List.mem_cons_of_mem _ hm)) hrest⟩

theorem infix_lower_of_replace {c d : Char} (hc : c.toLower ∉ d :: w)
    (hd : d ∉ lower (c :: new)) (hold : old ≠ [])
    (h : d :: w <:+: (replace old (c :: new) t).lower) : d :: w <:+: t.lower := by
  induction t using occurrenceInduction hold with
  | nil => rwa [replace_nil] at h
  | found rest ih =>
      rw [replace_append_self hold, lower, List.map_append] at h
      rcases infix_append_iff.1 h with ⟨v, hv, hs, hp⟩ | h
      · obtain ⟨e, v, rfl⟩ := List.exists_cons_of_ne_nil hv
        obtain rfl := (List.cons_prefix_cons.1 hp).1
        exact absurd (hs.subset List.mem_cons_self) hd
      · rw [lower, List.map_append]
        exact List.infix_append_of_infix_right (ih h)
  | cons e rest hnot ih =>
      have hcons : lower (replace old (c :: new) (e :: rest)) =
          lower (e :: replace old (c :: new) rest) := congrArg lower (replace_cons hnot)
      rcases List.infix_cons_iff.1 (hcons ▸ h) with hp | hi
      · exact (prefix_lower_of_replace hc hold (by rwa [hcons])).isInfix
      · exact List.infix_cons_iff.2 (.inr (ih hi))

end Text

namespace Source

variable {name t u k : Text} {c : Char} {r : Registry} {attributes : List Attribute}

/-! ### The content of an element -/

/-- The start of the end tag of an element. -/
def closingStart (name : Text) : Text :=
  '<' :: '/' :: name

theorem endTag_append (name k : Text) : endTag name ++ k = closingStart name ++ '>' :: k := by
  simp [endTag, closingStart]

theorem closesElement_eq_false (hn : name.lower = name) (hlt : '<' ∉ name)
    (h : ¬ name <+: t.lower) (k : Text) : closesElement name (t ++ '<' :: k) = false := by
  rw [closesElement]
  split
  · next rest hrest =>
      refine absurd ?_ h
      have hp := Text.exists_afterIgnoringCase?_iff.1 ⟨rest, hrest⟩
      rw [hn, Text.lower, List.map_append] at hp
      exact (Text.prefix_append_cons hlt).1 hp
  · rfl

/-- The content of an element of plain text goes up to its end tag. -/
theorem spanContent_append (hn : name.lower = name) (hlt : '<' ∉ name)
    (h : ¬ closingStart name <:+: t.lower) (k : Text) :
    spanContent name (t ++ (endTag name ++ k)) = (t, endTag name ++ k) := by
  rw [endTag_append]
  induction ht : t.length using Nat.strongRecOn generalizing t with
  | ind n ih =>
      cases t with
      | nil =>
          have hcloses : closesElement name (name ++ '>' :: k) = true := by
            rw [closesElement, Text.afterIgnoringCase?_append]
            rfl
          rw [List.nil_append, closingStart, List.cons_append, List.cons_append, spanContent,
            if_pos hcloses]
      | cons c t =>
          have htail : ¬ closingStart name <:+: Text.lower t := fun hi =>
            h (List.infix_cons_iff.2 (.inr hi))
          have hrec := ih t.length (ht ▸ Nat.lt_succ_self _) htail rfl
          by_cases hopen : c = '<' ∧ t.head? = some '/'
          · -- An end tag of another name is text, and the name behind it is read after it.
            obtain ⟨rfl, hslash⟩ := hopen
            obtain ⟨d, t, rfl⟩ := List.exists_cons_of_ne_nil (l := t) (by rintro rfl; cases hslash)
            obtain rfl : d = '/' := Option.some.inj hslash
            have hother : ¬ name <+: Text.lower t := fun hp =>
              h ((List.cons_prefix_cons.2 ⟨rfl, List.cons_prefix_cons.2 ⟨rfl, hp⟩⟩).isInfix)
            have hrest := ih t.length (by rw [List.length_cons, List.length_cons] at ht; omega)
              (fun hi => htail (List.infix_cons_iff.2 (.inr hi))) rfl
            have hnot : closesElement name (t ++ (closingStart name ++ '>' :: k)) = false :=
              closesElement_eq_false hn hlt hother _
            rw [List.cons_append, List.cons_append, spanContent_solidus hnot, hrest]
          · have hnot : c ≠ '<' ∨ (t ++ (closingStart name ++ '>' :: k)).head? ≠ some '/' := by
              rcases Classical.not_and_iff_not_or_not.1 hopen with hc | hs
              · exact .inl hc
              · refine .inr ?_
                cases t with
                | nil => exact fun he => absurd (Option.some.inj he) (by decide)
                | cons d t => exact hs
            rw [List.cons_append, spanContent_cons hnot, hrec]

/-! ### Substituting templates -/

theorem closingStart_substituteTemplates (hr : r.WellFormed) (hn : '_' ∉ name)
    (h : ¬ closingStart name <:+: t.lower) :
    ¬ closingStart name <:+: (r.substituteTemplates t).lower := by
  rw [hr.substituteTemplates_eq]
  refine List.foldlRecOn (motive := fun t => ¬ closingStart name <:+: Text.lower t)
    delimiters _ h fun t h d hd hi => h ?_
  have hw := hr.isSubstitute_spelling hd
  obtain ⟨new, hnew⟩ := hw.eq_cons
  have hlow : ('_' : Char).toLower = '_' := rfl
  rw [hnew] at hi
  refine Text.infix_lower_of_replace (by simp [hlow, hn]) ?_ (delimiter_ne_nil d hd) hi
  rw [← hnew]
  intro hm
  obtain ⟨e, he, hlower⟩ := List.mem_map.1 hm
  exact hw.not_mem (c := '<') (by decide) (eq_of_toLower_eq hlower (by decide) ▸ he)

/-- No template starts in text without braces. -/
theorem substituteTemplates_noBrace_append (hr : r.WellFormed) (hu : ∀ c ∈ u, NoBrace c)
    (t : Text) : r.substituteTemplates (u ++ t) = u ++ r.substituteTemplates t := by
  rw [hr.substituteTemplates_eq, hr.substituteTemplates_eq]
  exact List.foldl_rel (r := fun s t => s = u ++ t) rfl fun d hd s t h => by
    rw [h, replace_noBrace hd hu]

/-- Templates are substituted between tags without braces. -/
theorem substituteTemplates_between (hr : r.WellFormed) (hu : ∀ c ∈ u, NoBrace c)
    (hk : ∀ c ∈ k, NoBrace c) (hlt : k.head?.all (· == '<') = true) (t : Text) :
    r.substituteTemplates (u ++ (t ++ k)) = u ++ (r.substituteTemplates t ++ k) := by
  rw [substituteTemplates_noBrace_append hr hu, hr.substituteTemplates_eq, hr.substituteTemplates_eq]
  refine congrArg (u ++ ·) (List.foldl_rel (r := fun s t => s = t ++ k) rfl fun d hd s t h => ?_)
  have hlast : Text.replace d (r.spelling.delimiter d) (k ++ []) = k ++ _ :=
    replace_noBrace hd hk []
  rw [List.append_nil, Text.replace_nil, List.append_nil] at hlast
  rw [h, replace_append_tag hd hlt, hlast]

/-! ### Encoding -/

/-- An element of plain text is cut into its start tag, its text and what starts with its end tag. -/
theorem pieces_plainText (hs : name.head?.any Char.isAlpha = true)
    (hc : ∀ c ∈ name, isLowerNameChar c = true) (htext : Vocabulary.isTextOnly name = true)
    (ha : CanonicalAttributes attributes) (h : ¬ closingStart name <:+: t.lower) (k : Text) :
    pieces (startTagSource name attributes ++ (t ++ (endTag name ++ k))) =
      .tag ⟨name, attributes.flatMap attributeSource⟩ :: .text t :: pieces (endTag name ++ k) := by
  have hread := read?_startTag hs hc ha (t ++ (endTag name ++ k))
  have hlt : '<' ∉ name := fun hm => absurd (hc '<' hm) (by decide)
  have hspan := spanContent_append (lower_eq hc) hlt h k
  rw [startTagSource, List.append_assoc, List.singleton_append, List.cons_append, List.cons_append,
    pieces_of_read_textOnly hread htext, hspan]

/-- Encoding leaves the start tag alone: no binding attribute is in it, and its element is not void. -/
structure StartTag.IsKept (r : Registry) (s : StartTag) : Prop where
  attributes : encodeSpan r s.attributes = s.attributes
  not_void : Vocabulary.isVoid s.name = false

theorem StartTag.isKept_of_bare (hv : Vocabulary.isVoid name = false)
    (ha : CanonicalAttributes attributes) (hb : ∀ a ∈ attributes, IsBareName a.name) :
    StartTag.IsKept r ⟨name, attributes.flatMap attributeSource⟩ where
  attributes := by
    have hkept : attributes.map r.keptAttribute = attributes := by
      refine (List.map_congr_left fun a hm => ?_).trans (List.map_id attributes)
      rw [Registry.keptAttribute, (hb a hm).keptName_eq]
      rfl
    rw [encodeSpan_attributes ha, hkept]
  not_void := hv

theorem StartTag.isKept_nil (hv : Vocabulary.isVoid name = false) :
    StartTag.IsKept r ⟨name, []⟩ := by
  have hnone : CanonicalAttributes [] := ⟨by simp, by simp, .nil⟩
  exact isKept_of_bare hv hnone (by simp)

theorem encodeBindings_eq_self (h : ∀ s, .tag s ∈ pieces t → s.IsKept r) : encodeBindings r t = t := by
  have hpiece : ∀ p ∈ pieces t, p.encodedSource r = p.source := by
    intro p hp
    cases p with
    | text t => rfl
    | tag s => rw [Piece.encodedSource, (h s hp).attributes, Piece.source]
  rw [encodeBindings, List.flatMap_def, List.map_congr_left hpiece, ← List.flatMap_def,
    flatMap_source_pieces]

theorem closeVoidElements_eq_self (h : ∀ s, .tag s ∈ pieces t → s.IsKept r) :
    closeVoidElements t = t := by
  have hclose : ∀ ps : List Piece, (∀ s, .tag s ∈ ps → s.IsKept r) →
      closePieces ps = ps.flatMap Piece.source := by
    intro ps hps
    induction ps with
    | nil => rfl
    | cons p ps ih =>
        have hrest := ih fun s hs => hps s (List.mem_cons_of_mem _ hs)
        rw [List.flatMap_cons, ← hrest]
        cases p with
        | text t => rfl
        | tag s =>
            rw [closePieces, (hps s List.mem_cons_self).not_void, Bool.false_and,
              if_neg Bool.false_ne_true, Piece.source]
  rw [closeVoidElements, hclose _ h, flatMap_source_pieces]

/-- Where it keeps all tags, encoding substitutes the templates of the text between them. -/
theorem encode_between (hr : r.WellFormed) (hu : ∀ c ∈ u, NoBrace c) (hk : ∀ c ∈ k, NoBrace c)
    (hlt : k.head?.all (· == '<') = true) (hn : '_' ∉ name)
    (hkept : ∀ t : Text, ¬ closingStart name <:+: t.lower →
      ∀ s, .tag s ∈ pieces (u ++ (t ++ k)) → s.IsKept r)
    (h : ¬ closingStart name <:+: t.lower) :
    encode r (u ++ (t ++ k)) = u ++ (r.substituteTemplates t ++ k) := by
  have hsub := closingStart_substituteTemplates hr hn h
  rw [encode, encodeBindings_eq_self (hkept t h), substituteTemplates_between hr hu hk hlt,
    closeVoidElements_eq_self (hkept _ hsub)]

end Source

end AmpMarkup
