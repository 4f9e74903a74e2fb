import AmpMarkup.Proofs.Document.FragmentWrapper
import AmpMarkup.Proofs.Html.PlainText

/-! A script as the content of a body. Its text goes through encoding, reading, building and writing as
it stands, but decoding takes end tags of void elements out of it: a script comes back exactly if its
text has no such end tag. -/

namespace AmpMarkup

open Dom (Tree NodeId Subtree)
open Html (Builder Token State InBody plainTextSubtree)
open Source (Registry HasVoidEndTag NoBrace closingStart startTagSource endTag stripVoidEndTags)

variable {r : Registry} {t u w : Text}

namespace Document

/-- A script with its content. -/
def script (content : Text) : Text :=
  "<script>" ++ content ++ "</script>"

theorem script_eq (t : Text) : script t = startTagSource "script" [] ++ (t ++ endTag "script") := by
  have hopen : "<script>".toList = startTagSource "script" [] := by decide
  have hclose : "</script>".toList = endTag "script" := by decide
  unfold script
  rw [hopen, hclose, List.append_assoc]

/-- The content of a script stands behind a `>` and before a `<`. -/
theorem script_eq_append_cons (t : Text) :
    script t = '<' :: ("script".toList ++ '>' :: (t ++ '<' :: "/script>".toList)) := by
  have hopen : "<script>".toList = '<' :: ("script".toList ++ ['>']) := by decide
  have hclose : "</script>".toList = '<' :: "/script>".toList := by decide
  unfold script
  rw [hopen, hclose]
  simp only [List.append_assoc, List.cons_append, List.nil_append]

theorem script_inj : script t = script u ↔ t = u := by
  rw [script_eq, script_eq, List.append_cancel_left_eq, List.append_cancel_right_eq]

/-! ### Encoding -/

/-- What follows the content of the script. -/
def closingSource : Text :=
  endTag "script" ++ (endTag "body" ++ endTag "html")

theorem wrapFragment_script (t : Text) : wrapFragment (script t) "utf-8" =
    openingSource ++ (startTagSource "script" [] ++ (t ++ closingSource)) := by
  rw [wrapFragment_eq, script_eq, closingSource]
  simp only [List.append_assoc]

theorem isKept_script (h : ¬ closingStart "script" <:+: t.lower) :
    ∀ s, .tag s ∈ Source.pieces (startTagSource "script" [] ++ (t ++ closingSource)) →
      s.IsKept r := by
  have hchars : ∀ c ∈ "script".toList, Source.isLowerNameChar c = true :=
    List.all_eq_true.1 (by decide : "script".toList.all Source.isLowerNameChar = true)
  have hclosing : Source.pieces closingSource = closingSource.map (.text [·]) := by
    decide +kernel
  rw [closingSource, Source.pieces_plainText (by decide) hchars (by decide) canonicalAttributes_nil h,
    ← closingSource, hclosing]
  intro s hs
  rcases List.mem_cons.1 hs with hs | hs
  · cases hs
    exact Source.StartTag.isKept_nil (by decide)
  · simp at hs

theorem noBrace_script : ∀ c ∈ startTagSource "script" [], NoBrace c :=
  Source.noBrace_of_all (by decide)

theorem noBrace_closing : ∀ c ∈ closingSource, NoBrace c :=
  Source.noBrace_of_all (by decide)

/-- Encoding substitutes the templates of the script and closes the void element before it. -/
theorem encode_wrapped (hr : r.WellFormed) (h : ¬ closingStart "script" <:+: t.lower) :
    Source.encode r (wrapFragment (script t) "utf-8") =
      openingClosed ++ (startTagSource "script" [] ++ (r.substituteTemplates t ++ closingSource)) := by
  rw [wrapFragment_script, encode_opening hr,
    Source.encode_between hr noBrace_script noBrace_closing rfl (by decide) (fun _ => isKept_script) h]

/-! ### Building -/

theorem tokens_wrapped (hnull : '\x00' ∉ t) (h : ¬ closingStart "script" <:+: t.lower) :
    Token.ofText (openingClosed ++ (startTagSource "script" [] ++ (t ++ closingSource))) =
      openingTokens ++ (.startTag "script" [] false :: (t.map .character ++ [.endTag "script"])) ++
        [.endTag "body", .endTag "html", .endOfFile] := by
  have hlower : ∀ c ∈ "script".toList, c.isLower = true :=
    List.all_eq_true.1 (by decide : "script".toList.all Char.isLower = true)
  have hend : (State.content .markup).tokens (endTag "body" ++ endTag "html") =
      [.endTag "body", .endTag "html", .endOfFile] := by
    decide +kernel
  rw [tokens_opening, Html.tokens_plainStartTag (by decide) hlower rfl canonicalAttributes_nil,
    closingSource, Html.tokens_plainText (by decide) hlower hnull h, hend]
  simp

/-- The tree of a document around a script. -/
theorem extends_script (t : Text) :
    openedBody.tree.Extends (Builder.start.run (openingTokens ++
      (.startTag "script" [] false :: (t.map .character ++ [.endTag "script"])) ++
        [.endTag "body", .endTag "html", .endOfFile])).tree 4 [plainTextSubtree "script" t] := by
  have hmem : "script".toList ∈ Html.Category.headTexts := by decide
  obtain ⟨hin, hx⟩ := inBody_openedBody.run_plainText hmem t
  rw [Builder.run_append, Builder.run_append]
  generalize hb : openedBody.run _ = b at hin hx
  have htag : b.tree.tag? 4 = some "body".toList := by
    rw [Tree.tag?_congr (hx.content 4 inBody_openedBody.lt_size)]
    decide +kernel
  have hrun : (Builder.start.run openingTokens).run (.startTag "script" [] false ::
      (t.map .character ++ [.endTag "script"])) = b := hb
  rw [hrun, run_closing hin htag]
  exact hx

/-! ### Decoding -/

/-- A stand-in that is in a script is in its text. -/
theorem infix_of_infix_script {c : Char} (hw : ∀ d ∈ w, Source.isNameChar d = true) (hc : c ∈ w)
    (hout : c ∉ '<' :: "script".toList ∧ c ∉ "/script>".toList) (h : w <:+: script t) : w <:+: t := by
  have hnot : ∀ d, Source.isNameChar d = false → d ∉ w := fun d hd hm => by
    rw [hw d hm] at hd
    cases hd
  rw [script_eq_append_cons, ← List.cons_append, Text.infix_append_cons (hnot '>' (by decide)),
    Text.infix_append_cons (hnot '<' (by decide))] at h
  rcases h with h | h | h
  · exact absurd (h.subset hc) hout.1
  · exact h
  · exact absurd (h.subset hc) hout.2

theorem stripVoidEndTags_script (t : Text) :
    stripVoidEndTags (script t) = script (stripVoidEndTags t) := by
  have hopen : ∀ u : Text, Source.afterVoidEndTag? ('<' :: ("script".toList ++ u)) = none :=
    fun _ => rfl
  have hclose : stripVoidEndTags ('<' :: "/script>".toList) = '<' :: "/script>".toList := by
    decide +kernel
  have hgt : Source.afterVoidEndTag? ('>' :: (t ++ '<' :: "/script>".toList)) = none := rfl
  rw [script_eq_append_cons, script_eq_append_cons, Source.stripVoidEndTags_of_none (hopen _),
    Source.stripVoidEndTags_text (by decide), Source.stripVoidEndTags_of_none hgt,
    Source.stripVoidEndTags_append (by decide), hclose]

/-- A script without stand-ins decodes to itself but for the end tags of void elements in it. -/
theorem decode_script (hr : r.WellFormed) (hn : r.substitutes.Nodup)
    (hsubstitutes : ∀ w ∈ r.substitutes, ¬ w <:+: t) (hmark : ¬ r.bindingMark <:+: t) :
    Source.decode r (script (r.substituteTemplates t)) = script (stripVoidEndTags t) := by
  have hfree : ∀ w ∈ r.substitutes, ¬ w <:+: script t := by
    intro w hw hi
    obtain ⟨p, hp, rfl⟩ := List.mem_map.1 hw
    have hs := hr.isSubstitute p hp
    obtain ⟨v, hv⟩ := hs.eq_cons
    exact hsubstitutes _ hw (infix_of_infix_script (fun d hd => (hs.isNameChar_of_mem hd).1)
      (hv ▸ List.mem_cons_self) (by decide) hi)
  have hfree' : ¬ r.bindingMark <:+: script t := by
    obtain ⟨v, -, hv⟩ := hr.isBindingMark.eq_append_hyphen
    exact fun hi => hmark (infix_of_infix_script (fun d hd => hr.isBindingMark.isNameChar_of_mem hd)
      (hv ▸ List.mem_append_right v (List.mem_singleton.2 rfl)) (by decide) hi)
  have hsub : script (r.substituteTemplates t) = r.substituteTemplates (script t) := by
    have hclose : ∀ c ∈ endTag "script", NoBrace c := fun c hc =>
      noBrace_closing c (List.mem_append_left _ hc)
    rw [script_eq, script_eq, Source.substituteTemplates_between hr noBrace_script hclose rfl]
  have hbindings : Source.decodeBindings r (script t) = script t := by
    have hcopy : Source.Bracketed r.bindingMark false (script t ++ []) (script t ++ []) :=
      Source.Bracketed.copy (fun _ => .nil) false
    rw [List.append_nil] at hcopy
    exact hcopy.decodeBindingsAfter_eq hr.isBindingMark hfree'
  rw [Source.decode, hsub, Source.restoreTemplates_substituteTemplates hr hn hfree, hbindings,
    stripVoidEndTags_script]

/-! ### The round trip -/

theorem exists_parseFragment_script (hr : r.WellFormed) (hn : r.substitutes.Nodup)
    (hend : ¬ closingStart "script" <:+: t.lower) (hnull : '\x00' ∉ t)
    (hsubstitutes : ∀ w ∈ r.substitutes, ¬ w <:+: t) (hmark : ¬ r.bindingMark <:+: t) :
    ∃ d, parseFragment (script t) "utf-8" r = .ok d ∧
      d.bodyContent = script (stripVoidEndTags t) := by
  have hnull' : '\x00' ∉ r.substituteTemplates t := fun hm =>
    (Source.mem_substituteTemplates hr hm).elim hnull fun hc => absurd hc (by decide)
  have hend' := Source.closingStart_substituteTemplates hr (by decide) hend
  have hx := extends_script (r.substituteTemplates t)
  generalize hb : Builder.start.run _ = b at hx
  have hparse : Html.parse (Source.encode r (wrapFragment (script t) "utf-8")) =
      (b.tree, b.issues) := by
    rw [Html.parse_eq_construct, encode_wrapped hr hend, tokens_wrapped hnull' hend',
      Html.construct, hb]
  have hblank : (wrapFragment (script t) "utf-8").blank = false := rfl
  refine ⟨⟨b.tree, r, b.issues⟩, ?_, ?_⟩
  · rw [parseFragment, parse, hblank, if_neg Bool.false_ne_true, hparse]
    dsimp only
    rw [documentElement?_of_extends hx]
  · have hrender : (plainTextSubtree "script" (r.substituteTemplates t)).render =
        script (r.substituteTemplates t) := by
      rw [Html.render_plainTextSubtree (by decide) (by decide), script_eq]
    have hnot : (script (r.substituteTemplates t)).blank = false := rfl
    rw [bodyContent_of_extends hx, List.flatMap_cons, List.flatMap_nil, List.append_nil, serialized,
      hrender, hnot, if_neg Bool.false_ne_true, decode_script hr hn hsubstitutes hmark]

/-- A script without its own end tag, U+0000 and stand-ins comes back from the body of its document
without the end tags of void elements in its text, so as it was exactly if its text has none. -/
theorem bodyContent_parseFragment_script {salt content : Text}
    (hn : (Registry.ofSalt salt).substitutes.Nodup)
    (hend : ¬ "</script".toList <:+: content.lower) (hnull : '\x00' ∉ content)
    (hsubstitutes : ∀ w ∈ (Registry.ofSalt salt).substitutes, ¬ w <:+: content)
    (hmark : ¬ (Registry.ofSalt salt).bindingMark <:+: content) :
    ∃ d, parseFragment (script content) "utf-8" (Registry.ofSalt salt) = .ok d ∧
      d.bodyContent = script (stripVoidEndTags content) ∧
      (d.bodyContent = script content ↔ ¬ HasVoidEndTag content) := by
  obtain ⟨d, hd, hbody⟩ := exists_parseFragment_script (Registry.ofSalt_wellFormed salt) hn hend
    hnull hsubstitutes hmark
  refine ⟨d, hd, hbody, ?_⟩
  rw [hbody, script_inj, Source.stripVoidEndTags_eq_self_iff]

/-- Delimiters and parts of end tags in a script, with the end tag of a void element among them. -/
theorem bodyContent_parseFragment_script_break :
    (Registry.ofSalt "a".toList).substitutes.Nodup ∧
      ∃ d, parseFragment (script "\x7b\x7ba\x7d\x7d</scr</Br><a b='</") "utf-8"
          (Registry.ofSalt "a".toList) = .ok d ∧
        d.bodyContent = script "\x7b\x7ba\x7d\x7d</scr<a b='</" := by
  have hn := Source.nodup_substitutes_a
  have hsubstitutes : ∀ w ∈ (Registry.ofSalt "a".toList).substitutes,
      ¬ w <:+: "\x7b\x7ba\x7d\x7d</scr</Br><a b='</".toList := by
    rw [Registry.ofSalt_eq Source.fingerprints_a]
    decide +kernel
  have hmark : ¬ (Registry.ofSalt "a".toList).bindingMark <:+:
      "\x7b\x7ba\x7d\x7d</scr</Br><a b='</".toList := by
    rw [Registry.ofSalt_eq Source.fingerprints_a]
    decide +kernel
  obtain ⟨d, hd, hbody, -⟩ := @bodyContent_parseFragment_script "a".toList
    "\x7b\x7ba\x7d\x7d</scr</Br><a b='</".toList hn (by decide +kernel) (by decide)
    hsubstitutes hmark
  have hstrip : stripVoidEndTags "\x7b\x7ba\x7d\x7d</scr</Br><a b='</".toList =
      "\x7b\x7ba\x7d\x7d</scr<a b='</".toList := by
    decide +kernel
  exact ⟨hn, d, hd, hstrip ▸ hbody⟩

end Document

end AmpMarkup
