import AmpMarkup.Proofs.Html.ContentEnd
import AmpMarkup.Proofs.Source.Piece

/-! How far the content of an element of plain text reaches in markup that has not been read as HTML
yet. The scan looks for the end tag pair by pair, the reader of HTML goes through its states, and
they find the same one. Where the markup ends with the name of the element behind `</` only the scan
takes it for an end tag, and behind it nothing is left to scan. -/

namespace AmpMarkup.Source

open Html (State TagDraft Token IsElementName splitAtEndTag? startsEndTag startsEndTag_iff visible)

/-- The scan and the reader end the content of an element with the same end tag, the first one, and
the reader delivers what stands before it as characters. -/
structure ContentEndsAt (name rest after : Text) : Prop where
  starts : startsEndTag name after = true
  extent : ∃ before : Text, spanContent name rest = (before, after) ∧
    (∀ u v, before = u ++ v → v ≠ [] → startsEndTag name (v ++ after) = false) ∧
    ∃ out : Text, (Vocabulary.isRawText name = true → out = before.map visible) ∧
      Token.ofText ('<' :: (name ++ '>' :: rest)) =
        .startTag name.lower [] false :: (out.map .character ++ Token.ofText after)

/-- The content of an element has no end tag. The reader delivers all of it as characters, and the
scan finds no start tag in it. -/
structure ContentRunsOn (name rest : Text) : Prop where
  endless : ∀ u, u <:+ rest → startsEndTag name u = false
  tokens : ∃ out : Text, (Vocabulary.isRawText name = true → out = rest.map visible) ∧
    Token.ofText ('<' :: (name ++ '>' :: rest)) =
      .startTag name.lower [] false :: (out.map .character ++ [.endOfFile])
  pieces : ∃ texts : List Text,
    pieces ('<' :: (name ++ '>' :: rest)) = .tag ⟨name, []⟩ :: texts.map .text

variable {c : Char} {name t u rest before after : Text} {references : Bool}

/-! ### The scan -/

theorem startsEndTag_cons (name t : Text) :
    startsEndTag name ('<' :: '/' :: t) = (Text.afterIgnoringCase? name t).any endsName := by
  have hopen : "</".toList = ['<', '/'] := by decide
  rw [startsEndTag, hopen]
  rfl

/-- For the scan the end of the markup ends the name of an end tag, too. -/
theorem closesElement_cases (h : closesElement name t = true) :
    startsEndTag name ('<' :: '/' :: t) = true ∨ t.lower = name.lower := by
  rw [closesElement] at h
  rw [startsEndTag_cons]
  split at h
  · next k hk =>
      cases k with
      | nil =>
          obtain ⟨w, hw, hlower⟩ := Text.afterIgnoringCase?_eq_some_iff.1 hk
          rw [List.append_nil] at hw
          exact .inr (hw ▸ hlower)
      | cons d k =>
          rw [hk]
          exact .inl h
  · cases h

theorem startsEndTag_of_not_closes (h : ¬ closesElement name t = true) :
    startsEndTag name ('<' :: '/' :: t) = false := by
  rw [startsEndTag_cons]
  rw [closesElement] at h
  cases hk : Text.afterIgnoringCase? name t with
  | none => rfl
  | some k =>
      rw [hk] at h
      simp only [Bool.or_eq_true, not_or, Bool.not_eq_true] at h
      exact h.2

theorem splitAtEndTag?_of_notMem (h : '<' ∉ t) : splitAtEndTag? name t = none := by
  have hsplit : splitAtEndTag? name (t ++ []) = none := Html.splitAtEndTag?_append h []
  rwa [List.append_nil] at hsplit

theorem pieces_of_notMem (h : '<' ∉ t) : pieces t = t.map (.text [·]) := by
  have hnil : pieces [] = [] := by rw [pieces]
  have ht := pieces_text (fun c hc he => h (he ▸ hc)) []
  rwa [List.append_nil, hnil, List.append_nil] at ht

/-- The scan spans the text in front of the first end tag. If there is none, no start tag is left
behind what it spans. -/
theorem spanContent_cases (hn : ∀ c ∈ name, c.isAlpha = true) (t : Text) :
    splitAtEndTag? name t = some (spanContent name t) ∨
      splitAtEndTag? name t = none ∧
        pieces (spanContent name t).2 = (spanContent name t).2.map (.text [·]) := by
  fun_induction spanContent name t with
  | case1 => exact .inr ⟨rfl, pieces_of_notMem List.not_mem_nil⟩
  | case2 t hc =>
      cases hs : startsEndTag name ('<' :: '/' :: t) with
      | true => exact .inl (Html.splitAtEndTag?_of_starts hs)
      | false =>
          -- The markup ends with the name, which holds no `<`.
          have hlower := (closesElement_cases hc).resolve_left (Bool.eq_false_iff.1 hs)
          have hlt : '<' ∉ '/' :: t := by
            intro hm
            have hm := List.mem_map_of_mem (f := Char.toLower)
              ((List.mem_cons.1 hm).resolve_left (by decide))
            obtain ⟨d, hd, he⟩ := List.mem_map.1 (hlower ▸ hm : '<'.toLower ∈ name.lower)
            rw [eq_of_toLower_eq he rfl] at hd
            exact absurd (hn _ hd) (by decide)
          refine .inr ⟨?_, ?_⟩
          · rw [Html.splitAtEndTag?_cons hs, splitAtEndTag?_of_notMem hlt]
            rfl
          · rw [pieces_of_not_read rfl, pieces_of_notMem hlt]
            rfl
  | case3 t hc content rest hr ih =>
      have hs := startsEndTag_of_not_closes hc
      rw [hr] at ih
      have hsolidus : startsEndTag name ('/' :: t) = false := Html.startsEndTag_of_ne (by decide)
      rw [Html.splitAtEndTag?_cons hs, Html.splitAtEndTag?_cons hsolidus, Option.map_map]
      rcases ih with h | ⟨h, hp⟩
      · exact .inl (by rw [h]; rfl)
      · exact .inr ⟨by rw [h]; rfl, hp⟩
  | case4 c t hne content rest hr ih =>
      have hs : startsEndTag name (c :: t) = false := by
        refine Bool.eq_false_iff.2 fun hs => ?_
        obtain ⟨w, d, k, he, -⟩ := startsEndTag_iff.1 hs
        obtain ⟨rfl, rfl⟩ := List.cons.inj he
        exact hne _ rfl rfl
      rw [hr] at ih
      rw [Html.splitAtEndTag?_cons hs]
      rcases ih with h | ⟨h, hp⟩
      · exact .inl (by rw [h]; rfl)
      · exact .inr ⟨by rw [h]; rfl, hp⟩

/-! ### The reader -/

theorem isElementName_lower (h : Vocabulary.isTextOnly name = true) : IsElementName name.lower := by
  have hmem := lower_mem_of_isTextOnly h
  refine ⟨fun c hc => ?_, lower_lower name, fun he => ?_⟩
  · exact isAlpha_of_isLower (isLower_of_mem_textOnly _ hmem c hc)
  · rw [he] at hmem
    exact absurd hmem (by decide)

theorem exists_readingAfter (h : Vocabulary.isTextOnly name = true) :
    ∃ references, TagDraft.readingAfter name.lower = .plain references name.lower ∧
      (Vocabulary.isRawText name = true → references = false) := by
  have hraw : Vocabulary.isRawText name.lower = Vocabulary.isRawText name := by
    rw [Vocabulary.isRawText, Vocabulary.isRawText, lower_lower]
  have hescapable : Vocabulary.isEscapableText name.lower = Vocabulary.isEscapableText name := by
    rw [Vocabulary.isEscapableText, Vocabulary.isEscapableText, lower_lower]
  have hdisjoint : ∀ n ∈ Vocabulary.rawTextElements, n ∉ Vocabulary.escapableTextElements := by
    decide
  rw [Vocabulary.isTextOnly, Bool.or_eq_true] at h
  rw [TagDraft.readingAfter, hraw, hescapable]
  cases he : Vocabulary.isEscapableText name with
  | true =>
      refine ⟨true, rfl, fun hr => ?_⟩
      exact absurd (List.contains_iff_mem.1 he) (hdisjoint _ (List.contains_iff_mem.1 hr))
  | false =>
      have hr := h.resolve_right (Bool.eq_false_iff.1 he)
      exact ⟨false, by rw [hr]; rfl, fun _ => rfl⟩

/-- A start tag without attributes, in any case. -/
theorem ofText_bareStartTag (hn : ∀ c ∈ name, c.isAlpha = true) (hne : name ≠ []) (rest : Text) :
    Token.ofText ('<' :: (name ++ '>' :: rest)) = .startTag name.lower [] false ::
      (State.content (TagDraft.readingAfter name.lower)).tokens rest := by
  have hplain : ∀ c ∈ name, (!Html.isNameEnd c) = true := fun c hc => by
    rw [Html.isNameEnd_of_isAlpha (hn c hc)]
    rfl
  have hstop : ∀ c, ('>' :: rest).head? = some c → (!Html.isNameEnd c) = false := fun c hc =>
    Option.some.inj hc ▸ rfl
  have hattributes : Html.SourceTag.readAttributes? ('>' :: rest) = some ([], false, rest) := by
    rw [Html.SourceTag.readAttributes?]
    rfl
  obtain ⟨c, u, rfl⟩ := List.exists_cons_of_ne_nil hne
  have hc := hn c List.mem_cons_self
  have hread : Html.SourceTag.read? (c :: (u ++ '>' :: rest)) =
      some (⟨Text.lower (c :: u), [], false⟩, rest) := by
    rw [← List.cons_append, Html.SourceTag.read?, Text.takeWhile_append_stop hplain hstop,
      Text.dropWhile_append_stop hplain hstop, hattributes]
    exact if_pos hc
  rw [Token.ofText, State.tokens_goto rfl, List.cons_append, Html.tokens_read? hc, hread]
  rfl

/-- The scan of the same tag. -/
theorem pieces_bareStartTag (h : Vocabulary.isTextOnly name = true)
    (hn : ∀ c ∈ name, c.isAlpha = true) (hne : name ≠ []) (rest : Text) :
    pieces ('<' :: (name ++ '>' :: rest)) = .tag ⟨name, []⟩ ::
      .text (spanContent name rest).1 :: pieces (spanContent name rest).2 := by
  have hword : ∀ c ∈ name, isNameChar c = true := fun c hc => by
    simp [isNameChar, Char.isAlphanum, hn c hc]
  have hstart : (name ++ '>' :: rest).head?.any Char.isAlpha = true := by
    obtain ⟨c, u, rfl⟩ := List.exists_cons_of_ne_nil hne
    exact hn c List.mem_cons_self
  have hread : StartTag.read? (name ++ '>' :: rest) = some (⟨name, []⟩, rest) :=
    read?_eq_some_iff.2 ⟨'>' :: rest, rfl, hword, rfl, hstart, rfl⟩
  exact pieces_of_read_textOnly hread h

/-- Scan and reader agree on how far the content of an element of plain text reaches. -/
theorem contentExtent (h : Vocabulary.isTextOnly name = true) (rest : Text) :
    match (State.content (TagDraft.readingAfter name.lower)).leave? rest with
    | some after => ContentEndsAt name rest after
    | none => ContentRunsOn name rest := by
  have hname := isElementName_lower h
  have hletters : ∀ c ∈ name, c.isAlpha = true := fun c hc =>
    isAlpha_of_toLower (hname.letters _ (List.mem_map_of_mem hc))
  have hne : name ≠ [] := fun he => hname.nonempty (by rw [he]; rfl)
  have htag := ofText_bareStartTag hletters hne rest
  obtain ⟨references, hreading, hraw⟩ := exists_readingAfter h
  have hin : (State.content (.plain references name.lower)).InContent references name.lower [] :=
    .content
  obtain ⟨⟨out, hout, htokens⟩, hleave⟩ := hin.readsContent hname rest
  rw [hreading, hleave]
  rw [hreading, htokens] at htag
  rw [List.nil_append, Html.splitAtEndTag?_lower] at hout htag ⊢
  have hspan := spanContent_cases hletters rest
  cases hs : splitAtEndTag? name rest with
  | some p =>
      obtain ⟨before, after⟩ := p
      obtain ⟨hsplit, hstart, hfirst⟩ := Html.splitAtEndTag?_eq_some hs
      rw [hs] at hout htag hspan
      have hscan : spanContent name rest = (before, after) :=
        (Option.some.inj (hspan.resolve_right fun hnone => nomatch hnone.1)).symm
      exact ⟨hstart, before, hscan, hfirst, out, fun hr => hout (hraw hr), htag⟩
  | none =>
      rw [hs] at hout htag hspan
      obtain ⟨-, hpieces⟩ := hspan.resolve_left nofun
      refine ⟨fun u => Html.splitAtEndTag?_eq_none hs, ⟨out, fun hr => hout (hraw hr), ?_⟩,
        (spanContent name rest).1 :: (spanContent name rest).2.map ([·]), ?_⟩
      · exact htag.trans (by rw [← Html.ofText_nil]; rfl)
      · rw [pieces_bareStartTag h hletters hne, hpieces, List.map_cons, List.map_map]
        rfl

/-- Letters, `</` and a longer name that look like the end tag, and then the end tag. -/
theorem contentExtent_script :
    Vocabulary.isTextOnly "Script" = true ∧
      (State.content (TagDraft.readingAfter "script")).leave? "a</s<</scripts></SCRIPT\nb>c" =
        some "</SCRIPT\nb>c" ∧
      ContentEndsAt "Script" "a</s<</scripts></SCRIPT\nb>c" "</SCRIPT\nb>c" := by
  have h : Vocabulary.isTextOnly "Script" = true := by decide
  have hleave : (State.content (TagDraft.readingAfter "script")).leave?
      "a</s<</scripts></SCRIPT\nb>c" = some "</SCRIPT\nb>c".toList := by
    decide +kernel
  have hextent := contentExtent h "a</s<</scripts></SCRIPT\nb>c"
  have hlower : Text.lower "Script" = "script".toList := by decide
  rw [hlower, hleave] at hextent
  exact ⟨h, hleave, hextent⟩

end AmpMarkup.Source
