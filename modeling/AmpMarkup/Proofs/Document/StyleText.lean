import AmpMarkup.Proofs.Document.FragmentRoundTrip
import AmpMarkup.Proofs.Document.HeadAndBody
import AmpMarkup.Proofs.Dom.Tidy
import AmpMarkup.Proofs.Html.ClosedElements
import AmpMarkup.Proofs.Html.PlainText
import AmpMarkup.Validation.Subject

/-! The author's stylesheet in the head of a page. What rules see as the text of the style is the source
text, whatever looks like markup, quotes or template delimiters in it. -/

namespace AmpMarkup

open Dom (Tree NodeId)
open Html (Builder InBody State Token)
open Source (Registry NoBrace closingStart startTagSource endTag)

variable {r : Registry} {t : Text} {b : Builder} {head html : NodeId}

namespace Document

/-- A page with a stylesheet and nothing else. -/
def stylePage (css : Text) : Text :=
  "<html><head><style amp-custom>" ++ css ++ "</style></head><body></body></html>"

/-- The attribute of the author's stylesheet. -/
def styleAttributes : List Attribute :=
  [⟨"amp-custom", none⟩]

/-- The page up to its stylesheet. -/
def styleOpening : Text :=
  startTagSource "html" [] ++ (startTagSource "head" [] ++ startTagSource "style" styleAttributes)

/-- What follows the end tag of the stylesheet. -/
def styleClosing : Text :=
  "</head><body></body></html>"

theorem stylePage_eq (css : Text) :
    stylePage css = styleOpening ++ (css ++ (endTag "style" ++ styleClosing)) := by
  have hopen : "<html><head><style amp-custom>".toList = styleOpening := by decide
  have hclose : "</style></head><body></body></html>".toList = endTag "style" ++ styleClosing := by
    decide
  unfold stylePage
  rw [hopen, hclose, List.append_assoc]

theorem isBareName_style : ∀ a ∈ styleAttributes, Source.IsBareName a.name := by
  have hall : ∀ a ∈ styleAttributes, a.name ≠ [] ∧ a.name.all Source.isLowerNameChar = true := by
    decide
  exact fun a ha => ⟨(hall a ha).1, List.all_eq_true.1 (hall a ha).2⟩

theorem canonicalAttributes_style : Source.CanonicalAttributes styleAttributes where
  names a ha := .inl (isBareName_style a ha)
  values a ha v hv := by
    rw [List.mem_singleton.1 ha] at hv
    cases hv
  nodup := by decide

/-! ### Encoding -/

theorem noBrace_styleOpening : ∀ c ∈ styleOpening, NoBrace c :=
  Source.noBrace_of_all (by decide)

theorem noBrace_styleClosing : ∀ c ∈ endTag "style" ++ styleClosing, NoBrace c :=
  Source.noBrace_of_all (by decide)

theorem isKept_style (h : ¬ closingStart "style" <:+: t.lower) :
    ∀ s, .tag s ∈ Source.pieces (styleOpening ++ (t ++ (endTag "style" ++ styleClosing))) →
      s.IsKept r := by
  obtain ⟨hhtml, -⟩ := isTag_of_mem "html" (by decide)
  obtain ⟨hhead, -⟩ := isTag_of_mem "head" (by decide)
  have hchars : ∀ c ∈ "style".toList, Source.isLowerNameChar c = true :=
    List.all_eq_true.1 (by decide : "style".toList.all Source.isLowerNameChar = true)
  have hclosing : ∀ s, .tag s ∈ Source.pieces (endTag "style" ++ styleClosing) →
      s = ⟨"body", []⟩ := by
    have hall : (Source.pieces (endTag "style" ++ styleClosing)).all (fun p =>
        match p with
        | .tag s => s == ⟨"body", []⟩
        | .text _ => true) = true := by
      decide +kernel
    exact fun s hs => beq_iff_eq.1 (List.all_eq_true.1 hall _ hs)
  rw [styleOpening, List.append_assoc, List.append_assoc,
    Source.pieces_startTag hhtml canonicalAttributes_nil,
    Source.pieces_startTag hhead canonicalAttributes_nil,
    Source.pieces_plainText (by decide) hchars (by decide) canonicalAttributes_style h]
  intro s hs
  simp only [List.mem_cons, List.flatMap_nil, Source.Piece.tag.injEq, reduceCtorEq, false_or] at hs
  rcases hs with rfl | rfl | rfl | hs
  · exact Source.StartTag.isKept_nil (by decide)
  · exact Source.StartTag.isKept_nil (by decide)
  · exact Source.StartTag.isKept_of_bare (by decide) canonicalAttributes_style isBareName_style
  · exact hclosing s hs ▸ Source.StartTag.isKept_nil (by decide)

/-- Encoding substitutes the templates of the stylesheet and nothing else. -/
theorem encode_stylePage (hr : r.WellFormed) (h : ¬ closingStart "style" <:+: t.lower) :
    Source.encode r (stylePage t) =
      styleOpening ++ (r.substituteTemplates t ++ (endTag "style" ++ styleClosing)) := by
  rw [stylePage_eq]
  exact Source.encode_between hr noBrace_styleOpening noBrace_styleClosing rfl (by decide)
    (fun _ => isKept_style) h

/-! ### Building -/

/-- The tokens up to the text of the stylesheet. -/
def styleTokens : List Token :=
  [.startTag "html" [] false, .startTag "head" [] false, .startTag "style" styleAttributes false]

/-- The tokens behind the stylesheet. -/
def styleClosingTokens : List Token :=
  [.endTag "head", .startTag "body" [] false, .endTag "body", .endTag "html", .endOfFile]

theorem tokens_stylePage (hnull : '\x00' ∉ t) (h : ¬ closingStart "style" <:+: t.lower) :
    Token.ofText (styleOpening ++ (t ++ (endTag "style" ++ styleClosing))) =
      styleTokens ++ ((t.map .character ++ [.endTag "style"]) ++ styleClosingTokens) := by
  obtain ⟨hhtml, -⟩ := isTag_of_mem "html" (by decide)
  obtain ⟨hhead, -⟩ := isTag_of_mem "head" (by decide)
  have hlower : ∀ c ∈ "style".toList, c.isLower = true :=
    List.all_eq_true.1 (by decide : "style".toList.all Char.isLower = true)
  have hend : (State.content .markup).tokens styleClosing = styleClosingTokens := by
    decide +kernel
  rw [Token.ofText, styleOpening, List.append_assoc, List.append_assoc,
    Html.tokens_startTag hhtml canonicalAttributes_nil,
    Html.tokens_startTag hhead canonicalAttributes_nil,
    Html.tokens_plainStartTag (by decide) hlower rfl canonicalAttributes_style,
    Html.tokens_plainText (by decide) hlower hnull h, hend]
  simp [styleTokens]

/-- The document up to the text of the stylesheet. -/
def openedStyle : Builder :=
  Builder.start.run styleTokens

/-- The body has just been opened. -/
theorem inBody_openBody (hr : b.stopped = false) (ho : b.openElements = [html])
    (hhtml : b.tree.tag? html = some "html".toList) :
    InBody ((b.insertElement "body" []).enter .inBody) b.tree.size [html] := by
  have hopened : (b.insertElement "body" []).openElements = [b.tree.size, html] :=
    congrArg (b.tree.size :: ·) ho
  have htag : ∀ i ∈ (b.insertElement "body" []).openElements, ∃ tag,
      (b.insertElement "body" []).tree.tag? i = some tag ∧ tag ≠ "p".toList := by
    intro i hi
    rw [hopened] at hi
    rw [InBody.tag?_insertElement]
    split
    · exact ⟨_, rfl, by decide⟩
    · next hne =>
        rw [List.mem_singleton.1 ((List.mem_cons.1 hi).resolve_left hne)]
        exact ⟨_, hhtml, by decide⟩
  refine ⟨rfl, hr, hopened, fun i hi => ?_, fun hp => ?_⟩
  · obtain ⟨tag, hi, -⟩ := htag i hi
    exact Tree.isSome_tag?.symm.trans (hi ▸ rfl)
  · obtain ⟨i, hi, hp⟩ := Builder.mem_openTags.1 hp
    obtain ⟨tag, htag, hne⟩ := htag i hi
    exact hne (Option.some.inj (htag.symm.trans hp))

/-- Behind the head nothing comes but an empty body. -/
theorem run_styleClosing (hm : b.mode = .phase .inHead) (hr : b.stopped = false)
    (ho : b.openElements = [head, html]) (hhead : b.tree.tag? head = some "head".toList)
    (hhtml : b.tree.tag? html = some "html".toList) :
    (b.run styleClosingTokens).tree = b.tree.withElement html ⟨"body", ⟨[]⟩⟩ := by
  have hclose : b.process (.endTag "head") = (b.popThrough ["head"]).enter .afterHead := by
    refine Builder.process_of_settled ?_
    rw [Builder.rules, hm]
    rfl
  have hstack : b.openElements = [] ++ head :: [html] := ho
  have hopened := Builder.openElements_popThrough hstack hhead fun _ hi =>
    absurd hi List.not_mem_nil
  rw [styleClosingTokens, Builder.run_cons hr, hclose]
  generalize hb : ({ (b.popThrough ["head"]).enter .afterHead with
    position := b.position + 1 } : Builder) = b'
  have hopened' : b'.openElements = [html] := hb ▸ hopened
  have htree' : b'.tree = b.tree := hb ▸ rfl
  have hmode' : b'.mode = .phase .afterHead := hb ▸ rfl
  have hrunning' : b'.stopped = false := hb ▸ hr
  have hbody : b'.process (.startTag "body" [] false) =
      (b'.insertElement "body" []).enter .inBody := by
    refine Builder.process_of_settled ?_
    rw [Builder.rules, hmode']
    rfl
  have hcurrent : b'.current = html := by
    rw [Builder.current, hopened']
    rfl
  have hinsert : (b'.insertElement "body" []).tree =
      b'.tree.withElement b'.current ⟨"body", ⟨[]⟩⟩ := rfl
  have hin := inBody_openBody hrunning' hopened' (htree' ▸ hhtml)
  have hlast : ((b'.insertElement "body" []).enter .inBody).tree.tag? b'.tree.size =
      some "body".toList := Tree.tag?_withElement_self _
  rw [Builder.run_cons hrunning', hbody]
  refine (run_closing (hin.moved (b'.position + 1)) hlast).trans ?_
  rw [← htree', ← hcurrent]
  exact hinsert

/-- The document with its stylesheet and no body yet. -/
def styleTree (css : Text) : Tree :=
  if css = [] then openedStyle.tree else openedStyle.tree.appendText 3 css

theorem tag?_styleTree (t : Text) (id : NodeId) :
    (styleTree t).tag? id = openedStyle.tree.tag? id := by
  unfold styleTree
  split
  · rfl
  · exact Tree.tag?_appendText ..

theorem tree_stylePage (t : Text) :
    (Builder.start.run (styleTokens ++
      ((t.map .character ++ [.endTag "style"]) ++ styleClosingTokens))).tree =
      (styleTree t).withElement 1 ⟨"body", ⟨[]⟩⟩ := by
  have hmode : openedStyle.mode = .plainText .inHead := by decide +kernel
  have hrunning : openedStyle.stopped = false := by decide +kernel
  have hopened : openedStyle.openElements = [3, 2, 1] := by decide +kernel
  have hcurrent : openedStyle.current = 3 := by
    rw [Builder.current, hopened]
    rfl
  obtain ⟨position, hrun⟩ := Html.run_plainText hmode hrunning t "style"
  rw [Builder.run_append, Builder.run_append]
  have hstart : Builder.start.run styleTokens = openedStyle := rfl
  rw [hstart, hrun]
  have htree : (openedStyle.insertPlain t).tree = styleTree t := by
    unfold styleTree Builder.insertPlain
    split
    · rfl
    · rw [Builder.insertText, hcurrent]
  have hopened' := (openedStyle.openElements_insertPlain t).trans hopened
  have hrunning' := (openedStyle.stopped_insertPlain t).trans hrunning
  generalize openedStyle.insertPlain t = b' at htree hopened' hrunning'
  have htag : ∀ i < 4, b'.tree.tag? i = openedStyle.tree.tag? i := fun i _ => by
    rw [htree, tag?_styleTree]
  have hhead : b'.tree.tag? 2 = some "head".toList := by
    rw [htag 2 (by decide)]
    decide +kernel
  have hhtml : b'.tree.tag? 1 = some "html".toList := by
    rw [htag 1 (by decide)]
    decide +kernel
  rw [← htree]
  exact run_styleClosing (b := { b'.pop.enter .inHead with position := position }) rfl hrunning'
    (congrArg List.tail hopened') hhead hhtml

/-! ### What rules see -/

theorem size_openedStyle : openedStyle.tree.size = 4 := by
  decide +kernel

theorem size_le_styleTree (t : Text) : 4 ≤ (styleTree t).size := by
  rw [← size_openedStyle]
  unfold styleTree
  split
  · exact Nat.le_refl _
  · exact (openedStyle.tree.steady_appendText 3 t).size_le

theorem bounded_styleTree (t : Text) : (styleTree t).Bounded := by
  have hb : openedStyle.tree.Bounded := by
    obtain ⟨late, -, h | h⟩ := Html.building_start.run styleTokens
    · exact h.sound.bounded
    · exact absurd h.stopped (by decide +kernel)
  unfold styleTree
  split
  · exact hb
  · exact (Tree.sameElements_appendText hb 3 t).bounded

theorem childText_stylePage (t : Text) :
    ((styleTree t).withElement 1 ⟨"body", ⟨[]⟩⟩).childText 3 = t := by
  have hlt : 1 < (styleTree t).size := Nat.lt_of_lt_of_le (by decide) (size_le_styleTree t)
  rw [Tree.withElement, Tree.childText_alloc_append (bounded_styleTree t) hlt (by decide)]
  unfold styleTree
  split
  · next ht =>
      subst ht
      decide +kernel
  · exact Tree.childText_appendText (by decide +kernel) (by decide +kernel) t

/-- There is one style. -/
theorem elementIs_stylePage (t : Text) (id : NodeId) :
    ((styleTree t).withElement 1 ⟨"body", ⟨[]⟩⟩).elementIs id "style" = true ↔ id = 3 := by
  have hold : ∀ i < 4, (openedStyle.tree.tag? i).any (·.sameIgnoringCase "style") = true ↔ i = 3 := by
    decide +kernel
  have hsize := size_le_styleTree t
  rw [Tree.elementIs_eq, Tree.tag?_withElement, tag?_styleTree]
  split
  · next hid =>
      have hne : id ≠ 3 := hid ▸ Nat.ne_of_gt hsize
      exact ⟨fun h => absurd h (by decide), fun h => absurd h hne⟩
  · by_cases hid : id < 4
    · exact hold id hid
    · have hnone : openedStyle.tree.element? id = none :=
        Tree.element?_eq_none (size_openedStyle ▸ Nat.le_of_not_lt hid)
      have hne : id ≠ 3 := fun h => hid (h ▸ by decide)
      rw [Tree.tag?, hnone]
      exact ⟨fun h => absurd h (by decide), fun h => absurd h hne⟩

theorem exists_parse_stylePage (hr : r.WellFormed) (hn : r.substitutes.Nodup)
    (hend : ¬ closingStart "style" <:+: t.lower) (hnull : '\x00' ∉ t)
    (hfree : ∀ w ∈ r.substitutes, ¬ w <:+: t) :
    ∃ d, parse (stylePage t) r = .ok d ∧
      ∃ id, d.tree.elementsByTag Tree.root "style" = [id] ∧ d.characterData id = t := by
  have hnull' : '\x00' ∉ r.substituteTemplates t := fun hm =>
    (Source.mem_substituteTemplates hr hm).elim hnull fun hc => absurd hc (by decide)
  have hend' := Source.closingStart_substituteTemplates hr (by decide) hend
  have hblank : (stylePage t).blank = false := rfl
  have htree : (Html.parse (Source.encode r (stylePage t))).1 =
      (styleTree (r.substituteTemplates t)).withElement 1 ⟨"body", ⟨[]⟩⟩ := by
    rw [Html.parse_eq_construct, encode_stylePage hr hend, Html.construct,
      tokens_stylePage hnull' hend', tree_stylePage]
  have hordered := (Html.branching_parse (Source.encode r (stylePage t))).ordered
  refine ⟨_, parse_eq_ok hblank r, 3, ?_, ?_⟩
  · rw [htree] at hordered ⊢
    refine hordered.elementsByTag_eq_singleton ?_ (elementIs_stylePage _)
    rw [Tree.size_withElement]
    exact Nat.lt_succ_of_le (Nat.le_of_succ_le (size_le_styleTree _))
  · rw [characterData]
    dsimp only
    rw [htree, childText_stylePage, Source.restoreTemplates_substituteTemplates hr hn hfree]

/-- What rules see of the author's stylesheet is its source text. -/
theorem characterData_stylePage {salt css : Text} (hn : (Registry.ofSalt salt).substitutes.Nodup)
    (hend : ¬ "</style".toList <:+: css.lower) (hnull : '\x00' ∉ css)
    (hsubstitutes : ∀ w ∈ (Registry.ofSalt salt).substitutes, ¬ w <:+: css) :
    ∃ d, parse (stylePage css) (Registry.ofSalt salt) = .ok d ∧
      ∃ id, d.tree.elementsByTag Tree.root "style" = [id] ∧ d.characterData id = css :=
  exists_parse_stylePage (Registry.ofSalt_wellFormed salt) hn hend hnull hsubstitutes

/-- Delimiters, a void element, a quote and a part of the end tag in a stylesheet. -/
theorem characterData_stylePage_delimiters :
    (Registry.ofSalt "a".toList).substitutes.Nodup ∧
      ∃ d, parse (stylePage "a\x7b\x7bb\x7d\x7d\x7d</Styl<br>'</") (Registry.ofSalt "a".toList) =
          .ok d ∧
        ∃ id, d.tree.elementsByTag Tree.root "style" = [id] ∧
          d.characterData id = "a\x7b\x7bb\x7d\x7d\x7d</Styl<br>'</" := by
  have hn := Source.nodup_substitutes_a
  have hsubstitutes : ∀ w ∈ (Registry.ofSalt "a".toList).substitutes,
      ¬ w <:+: "a\x7b\x7bb\x7d\x7d\x7d</Styl<br>'</".toList := by
    rw [Registry.ofSalt_eq Source.fingerprints_a]
    decide +kernel
  exact ⟨hn, characterData_stylePage hn (by decide +kernel) (by decide) hsubstitutes⟩

end Document

end AmpMarkup
