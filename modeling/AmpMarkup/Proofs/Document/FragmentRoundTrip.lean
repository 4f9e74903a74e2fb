import AmpMarkup.Document
import AmpMarkup.Proofs.Html.FragmentTree
import AmpMarkup.Proofs.Source.RoundTrip

/-! Fragments that come back from a document. A canonical fragment is wrapped, encoded, read and built;
its body then holds the subtrees of the encoded fragment, and what they are written as decodes to
the fragment. -/

namespace AmpMarkup

open Dom (Tree NodeId Subtree)
open Html (Builder Token State InBody)
open Source (Fragment Registry IsTag CanonicalAttributes StandInFree startTagSource endTag)

variable {r : Registry} {f : Fragment} {t : Text} {attributes : List Attribute}

/-! ### Written forms -/

theorem escapeText_eq (h : ∀ c ∈ t, Source.IsTextChar c) : Dom.escapeText t = t := by
  induction t with
  | nil => rfl
  | cons c t ih =>
      obtain ⟨hlt, hgt, hamp, hspace, -⟩ := h c List.mem_cons_self
      have hc : Dom.escapeTextChar c = [c] := by
        rw [Dom.escapeTextChar, if_neg hamp, if_neg hspace, if_neg hlt, if_neg hgt]
      rw [Dom.escapeText, List.flatMap_cons, hc, List.singleton_append]
      exact congrArg (c :: ·) (ih fun d hd => h d (List.mem_cons_of_mem _ hd))

/-- The subtrees of a fragment are written as the fragment. -/
theorem renderAll_subtrees (h : f.Readable) : Subtree.renderAll f.subtrees = f.source := by
  induction f with
  | nil => rfl
  | text t rest ih =>
      rw [Fragment.subtrees, Subtree.renderAll_cons, Subtree.render_text, escapeText_eq h.1, ih h.2,
        Fragment.source]
  | element tag attributes content rest ihc ihr =>
      obtain ⟨ht, hv, ha, hc, hr⟩ := h
      have hraw : Vocabulary.isRawText tag = false :=
        (Bool.or_eq_false_iff.1 ht.not_textOnly).1
      rw [Fragment.subtrees, Subtree.renderAll_cons, Subtree.render_element, hv,
        if_neg Bool.false_ne_true, hraw, if_neg Bool.false_ne_true, renderStartTag_eq tag ha, ihc hc,
        ihr hr, Fragment.source]
      rfl
  | void tag attributes rest ih =>
      obtain ⟨-, hv, ha, hr⟩ := h
      rw [Fragment.subtrees, Subtree.renderAll_cons, Subtree.render_element, hv, if_pos rfl,
        renderStartTag_eq tag ha, ih hr, Fragment.source]

/-! ### Decoding -/

theorem closesBrackets_of_mem_pieces (h : f.Readable) : ∀ p ∈ f.pieces, p.ClosesBrackets := by
  have htext : ∀ t : Text, ∀ p ∈ t.map fun c => Source.Piece.text [c], p.ClosesBrackets := by
    intro t p hp
    obtain ⟨c, -, rfl⟩ := List.mem_map.1 hp
    trivial
  induction f with
  | nil => exact fun p hp => by cases hp
  | text t rest ih =>
      intro p hp
      exact (List.mem_append.1 hp).elim (htext t p) (ih h.2 p)
  | element tag attributes content rest ihc ihr =>
      obtain ⟨-, -, ha, hc, hr⟩ := h
      intro p hp
      rcases List.mem_cons.1 hp with rfl | hp
      · exact Source.closesBrackets_startTag ha
      · rcases List.mem_append.1 hp with hp | hp
        · exact (List.mem_append.1 hp).elim (ihc hc p) (htext _ p)
        · exact ihr hr p hp
  | void tag attributes rest ih =>
      obtain ⟨-, -, ha, hr⟩ := h
      intro p hp
      rcases List.mem_cons.1 hp with rfl | hp
      · exact Source.closesBrackets_startTag ha
      · exact ih hr p hp

/-- The encoded fragment decodes to the fragment without any end tags of void elements. -/
theorem decode_encoded (hr : r.WellFormed) (hn : r.substitutes.Nodup) (h : f.Readable)
    (hnormal : f.Normal) (hfree : StandInFree r f.source) :
    Source.decode r (f.encoded r).source = f.source := by
  refine Source.decode_of_voidClosed hr hn hfree ?_ ?_
  · have hp := Fragment.pieces_source h []
    rw [List.append_nil, show Source.pieces [] = [] by rw [Source.pieces], List.append_nil] at hp
    exact hp ▸ closesBrackets_of_mem_pieces h
  · rw [Fragment.encodeBindings_source h, Fragment.substituteTemplates_source hr h hnormal]
    exact .refl _

/-- What a document writes for a subtree. -/
def serialized (r : Registry) (s : Subtree) : Text :=
  if s.render.blank then [] else Source.decode r s.render

theorem serialized_eq {s : Subtree} (hr : r.WellFormed) (hn : r.substitutes.Nodup)
    (h : f.Readable) (hnormal : f.Normal) (hfree : StandInFree r f.source)
    (he : (f.encoded r).Readable) (hs : (f.encoded r).subtrees = [s])
    (hb : (f.encoded r).source.blank = false) : serialized r s = f.source := by
  have hrender := renderAll_subtrees he
  rw [hs, Subtree.renderAll_cons] at hrender
  have hrender : s.render = (f.encoded r).source := (List.append_nil _).symm.trans hrender
  rw [serialized, hrender, hb, if_neg Bool.false_ne_true, decode_encoded hr hn h hnormal hfree]

/-- Every subtree of an encoded fragment stands for its part of the fragment. -/
theorem flatMap_serialized (hr : r.WellFormed) (hn : r.substitutes.Nodup) (h : f.Canonical false)
    (hnormal : f.Normal) (hfree : StandInFree r f.source) (he : (f.encoded r).Readable) :
    (f.encoded r).subtrees.flatMap (serialized r) = f.source := by
  induction f with
  | nil => rfl
  | text t rest ih =>
      have hsource : (Fragment.text t .nil).source = t := List.append_nil t
      have hblank : ((Fragment.text t .nil).encoded r).source.blank = false :=
        (congrArg Text.blank (List.append_nil _)).trans
          (Source.all_substituteTemplates hr (fun _ => Source.isBlank_of_isNameChar) (h.2.1 rfl))
      have hitem := serialized_eq (f := .text t .nil) hr hn ⟨h.1, trivial⟩ ⟨hnormal.1, rfl, trivial⟩
        (hsource.symm ▸ hfree.left) ⟨he.1, trivial⟩ rfl hblank
      rw [hsource] at hitem
      rw [Fragment.source, ← ih h.2.2 hnormal.2.2 hfree.right he.2]
      exact congrArg (· ++ _) hitem
  | element tag attributes content rest ihc ihr =>
      obtain ⟨htag, ha, hc, hrest⟩ := h
      obtain ⟨ht, hv⟩ := Source.isTag_of_isContainer htag
      have hsource : (Fragment.element tag attributes content .nil).source =
          startTagSource tag attributes ++ content.source ++ endTag tag := List.append_nil _
      have hitem := serialized_eq (f := .element tag attributes content .nil) hr hn
        ⟨ht, hv, ha, hc.readable, trivial⟩ ⟨hnormal.1, trivial⟩ (hsource.symm ▸ hfree.left)
        ⟨he.1, he.2.1, he.2.2.1, he.2.2.2.1, trivial⟩ rfl rfl
      rw [hsource] at hitem
      rw [Fragment.source, ← ihr hrest hnormal.2 hfree.right he.2.2.2.2]
      exact congrArg (· ++ _) hitem
  | void tag attributes rest ih =>
      obtain ⟨htag, ha, hrest⟩ := h
      obtain ⟨ht, hv⟩ := Source.isTag_of_mem_voidElements htag
      have hsource : (Fragment.void tag attributes .nil).source =
          startTagSource tag attributes := List.append_nil _
      have hitem := serialized_eq (f := .void tag attributes .nil) hr hn ⟨ht, hv, ha, trivial⟩ trivial
        (hsource.symm ▸ hfree.left) ⟨he.1, he.2.1, he.2.2.1, trivial⟩ rfl rfl
      rw [hsource] at hitem
      rw [Fragment.source, ← ih hrest hnormal hfree.right he.2.2.2]
      exact congrArg (· ++ _) hitem

/-! ### The document around a fragment -/

/-- The attributes that declare the character encoding. -/
def encodingAttributes : List Attribute :=
  [⟨"http-equiv", some "content-type".toList⟩,
    ⟨"content", some "text/html; charset=utf-8".toList⟩]

/-- The head of the document of a fragment. -/
def Document.headFragment : Fragment :=
  .element "head" [] (.void "meta" encodingAttributes .nil) .nil

/-- The source of the document up to the content of its body. -/
def Document.openingSource : Text :=
  startTagSource "html" [] ++ (headFragment.source ++ startTagSource "body" [])

/-- The document with a fragment as the content of its body. -/
def Source.Fragment.document (f : Fragment) : Fragment :=
  .element "html" []
    (.element "head" [] (.void "meta" encodingAttributes .nil) (.element "body" [] f .nil)) .nil

/-- The tokens up to the content of the body. -/
def openingTokens : List Token :=
  [.startTag "html" [] false, .startTag "head" [] false, .startTag "meta" encodingAttributes false,
    .endTag "meta", .endTag "head", .startTag "body" [] false]

theorem Document.wrapFragment_eq (content : Text) : wrapFragment content "utf-8" =
    openingSource ++ (content ++ (endTag "body" ++ endTag "html")) := by
  have hfront : "<html><head><meta http-equiv=\"content-type\" content=\"text/html; charset=".toList ++
      "utf-8".toList ++ "\"></head><body>".toList = openingSource := by
    decide
  have hback : "</body></html>".toList = endTag "body" ++ endTag "html" := by
    decide
  unfold wrapFragment
  rw [hfront, hback, List.append_assoc]

theorem source_document (f : Fragment) :
    f.document.source = Document.wrapFragment f.source "utf-8" := by
  rw [Document.wrapFragment_eq]
  simp only [Fragment.document, Document.openingSource, Document.headFragment, Fragment.source,
    List.append_assoc, List.append_nil]

theorem tokens_document (f : Fragment) :
    f.document.tokens = openingTokens ++ (f.tokens ++ [.endTag "body", .endTag "html"]) := by
  simp [Fragment.document, Fragment.tokens, openingTokens]

theorem isTag_of_mem : ∀ tag ∈ (["html", "head", "body"].map String.toList : List Text),
    IsTag tag ∧ Vocabulary.isVoid tag = false := by
  have hall : ∀ v ∈ (["html", "head", "body"].map String.toList : List Text),
      v.head?.any Char.isAlpha = true ∧ v.all Source.isLowerNameChar = true ∧
        Vocabulary.isTextOnly v = false ∧ Vocabulary.isVoid v = false := by
    decide
  intro tag h
  obtain ⟨hs, hc, ht, hv⟩ := hall tag h
  exact ⟨⟨hs, List.all_eq_true.1 hc, ht⟩, hv⟩

theorem canonicalAttributes_nil : CanonicalAttributes [] where
  names _ ha := by cases ha
  values _ ha := by cases ha
  nodup := .nil

theorem isBareName_of_mem : ∀ a ∈ encodingAttributes, Source.IsBareName a.name := by
  have hall : ∀ a ∈ encodingAttributes,
      a.name ≠ [] ∧ a.name.all Source.isLowerNameChar = true := by
    decide
  exact fun a ha => ⟨(hall a ha).1, List.all_eq_true.1 (hall a ha).2⟩

theorem canonicalAttributes_encoding : CanonicalAttributes encodingAttributes where
  names a ha := .inl (isBareName_of_mem a ha)
  values := by
    have hall : ∀ a ∈ encodingAttributes, (a.value.getD []).all (Source.IsValueChar ·) = true := by
      decide
    intro a ha v hv c hc
    have hplain := hall a ha
    rw [hv] at hplain
    exact of_decide_eq_true (List.all_eq_true.1 hplain c hc)
  nodup := by decide

theorem Document.readable_headFragment : headFragment.Readable := by
  obtain ⟨hhead, hhead'⟩ := isTag_of_mem "head" (by decide)
  have hmem : "meta".toList ∈ Vocabulary.voidElements := by decide
  obtain ⟨hmeta, hmeta'⟩ := Source.isTag_of_mem_voidElements hmem
  exact ⟨hhead, hhead', canonicalAttributes_nil,
    ⟨hmeta, hmeta', canonicalAttributes_encoding, trivial⟩, trivial⟩

theorem readable_document (h : f.Readable) : f.document.Readable := by
  obtain ⟨hhtml, hhtml'⟩ := isTag_of_mem "html" (by decide)
  obtain ⟨hbody, hbody'⟩ := isTag_of_mem "body" (by decide)
  obtain ⟨hhead, hhead', hempty, hmeta, -⟩ := Document.readable_headFragment
  exact ⟨hhtml, hhtml', canonicalAttributes_nil,
    ⟨hhead, hhead', hempty, hmeta, hbody, hbody', canonicalAttributes_nil, h, trivial⟩, trivial⟩

theorem normal_document (h : f.Normal) : f.document.Normal :=
  ⟨⟨trivial, h, trivial⟩, trivial⟩

/-- Text without braces stays as it is. -/
theorem substituteTemplates_of_noBrace (hr : r.WellFormed) (h : ∀ c ∈ t, Source.NoBrace c) :
    r.substituteTemplates t = t := by
  rw [hr.substituteTemplates_eq]
  refine List.foldlRecOn (motive := fun u => u = t) Source.delimiters _ rfl fun u hu d hd => ?_
  have hone : Text.replace d (r.spelling.delimiter d) (t ++ []) = t ++ _ :=
    Source.replace_noBrace hd h []
  rw [List.append_nil, Text.replace_nil, List.append_nil] at hone
  rw [hu, hone]

theorem encoded_document (hr : r.WellFormed) (f : Fragment) :
    f.document.encoded r = (f.encoded r).document := by
  have hbrace : ∀ a ∈ encodingAttributes,
      (a.value.getD []).all (fun c => c != '\x7b' && c != '\x7d') = true := by
    decide
  have hattributes : (encodingAttributes.map fun a =>
      (⟨r.keptName a.name, a.value.map r.substituteTemplates⟩ : Attribute)) =
        encodingAttributes.map id := by
    refine List.map_congr_left fun a ha => ?_
    have hvalue : a.value.map r.substituteTemplates = a.value := by
      cases hv : a.value with
      | none => rfl
      | some v =>
          have hb := hbrace a ha
          rw [hv] at hb
          exact congrArg some (substituteTemplates_of_noBrace hr (Source.noBrace_of_all hb))
    rw [(isBareName_of_mem a ha).keptName_eq, hvalue]
    rfl
  rw [List.map_id] at hattributes
  rw [Fragment.document, Fragment.encoded]
  simp only [Fragment.map, hattributes, List.map_nil]
  rfl

/-! ### Building -/

/-- The document up to the content of its body. -/
def openedBody : Builder :=
  Builder.start.run openingTokens

theorem inBody_openedBody : InBody openedBody 4 [1] where
  mode := by decide +kernel
  running := by decide +kernel
  opened := by decide +kernel
  isElement := by decide +kernel
  noParagraph := by decide +kernel

/-- The end tags of the body and of the document element add nothing. -/
theorem run_closing {b : Builder} {id : NodeId} {outer : List NodeId} (h : InBody b id outer)
    (ht : b.tree.tag? id = some "body".toList) :
    (b.run [.endTag "body", .endTag "html", .endOfFile]).tree = b.tree := by
  have hscope : b.hasInScope "body" [] = true := by
    rw [Builder.hasInScope, Builder.openTags, h.opened, List.filterMap_cons_some ht,
      Html.Category.inScope, beq_self_eq_true, Bool.true_or]
  have hbody : b.bodyEndTag "body" = .settled (b.enter .afterBody) := by
    rw [Builder.bodyEndTag, if_pos rfl, if_pos hscope]
  rw [h.run_cons (h.process_endTag hbody)]
  generalize hb : ({ b.enter .afterBody with position := b.position + 1 } : Builder) = b₁
  have hrunning : b₁.stopped = false := hb ▸ h.running
  have hhtml : b₁.process (.endTag "html") = b₁.enter .afterAfterBody :=
    Builder.process_of_settled (hb ▸ rfl)
  rw [Builder.run_cons hrunning, hhtml]
  generalize hb₂ : ({ b₁.enter .afterAfterBody with position := b₁.position + 1 } : Builder) = b₂
  have hrunning₂ : b₂.stopped = false := hb₂ ▸ hrunning
  have hmode₂ : b₂.mode = .phase .afterAfterBody := hb₂ ▸ rfl
  have hrules : b₂.rules .endOfFile = b₂.afterAfterBodyRules .endOfFile := by
    rw [Builder.rules, hmode₂]
  have hlast : b₂.process .endOfFile = { b₂ with stopped := true } :=
    Builder.process_of_settled hrules
  rw [Builder.run_cons hrunning₂, hlast, Builder.run, ← hb₂, ← hb]
  rfl

/-- The tree of a document around a fragment. -/
theorem extends_construct (hflow : f.Flow) (h : f.Readable) (hn : f.Normal) :
    openedBody.tree.Extends (Builder.start.run (f.document.tokens ++ [.endOfFile])).tree 4
      f.subtrees := by
  obtain ⟨hin, hx⟩ := inBody_openedBody.run_tokens hflow h hn fun _ => by decide +kernel
  have htag : (openedBody.run f.tokens).tree.tag? 4 = some "body".toList := by
    rw [Tree.tag?_congr (hx.content 4 inBody_openedBody.lt_size)]
    decide +kernel
  have hclosing := run_closing hin htag
  rw [tokens_document, List.append_assoc, Builder.run_append, List.append_assoc,
    Builder.run_append]
  exact hclosing.symm ▸ hx

theorem documentElement?_of_extends {t : Tree} {ss : List Subtree}
    (h : openedBody.tree.Extends t 4 ss) : t.documentElement? = some 1 := by
  have hchildren : t.children Tree.root = [1] := by
    rw [h.children_ne Tree.root (by decide +kernel) (by decide)]
    decide +kernel
  have helement : t.isElement 1 = true := by
    rw [Tree.isElement_congr (h.content 1 (by decide +kernel))]
    decide +kernel
  rw [Tree.documentElement?, hchildren, List.find?_cons_of_pos helement]

theorem body?_of_extends {t : Tree} {ss : List Subtree}
    (h : openedBody.tree.Extends t 4 ss) : t.body? = some 4 := by
  have hchildren : t.children 1 = [2, 4] := by
    rw [h.children_ne 1 (by decide +kernel) (by decide)]
    decide +kernel
  have hhead : (t.elementIs 2 "body" || t.elementIs 2 "frameset") = false := by
    rw [Tree.elementIs, Tree.elementIs, Tree.element?_congr (h.content 2 (by decide +kernel))]
    decide +kernel
  have hbody : (t.elementIs 4 "body" || t.elementIs 4 "frameset") = true := by
    rw [Tree.elementIs, Tree.elementIs, Tree.element?_congr (h.content 4 (by decide +kernel))]
    decide +kernel
  rw [Tree.body?, documentElement?_of_extends h, Option.bind_eq_bind, Option.bind_some, hchildren]
  simp only [List.find?_cons, hhead, hbody]

/-- The content of the body is what stands for the subtrees. -/
theorem bodyContent_of_extends {d : Document} {ss : List Subtree}
    (h : openedBody.tree.Extends d.tree 4 ss) : d.bodyContent = ss.flatMap (serialized d.registry) := by
  obtain ⟨ids, hchildren, hholds⟩ := h.children
  have hnone : openedBody.tree.children 4 = [] := by decide +kernel
  rw [hnone, List.nil_append] at hchildren
  have hmap := congrArg (List.flatMap fun html : Text =>
    if html.blank then [] else Source.decode d.registry html) hholds.map_outerHtml
  rw [List.flatMap_map, List.flatMap_map] at hmap
  rw [Document.bodyContent, body?_of_extends h]
  exact (congrArg (List.flatMap d.serialize) hchildren).trans hmap

theorem Source.Fragment.Canonical.flow {inside : Bool} (h : f.Canonical inside) : f.Flow := by
  induction f generalizing inside with
  | nil => trivial
  | text t rest ih => exact ih h.2.2
  | element tag attributes content rest ihc ihr => exact ⟨h.1, ihc h.2.2.1, ihr h.2.2.2⟩
  | void tag attributes rest ih => exact ⟨h.1, ih h.2.2⟩

theorem Source.Fragment.Flow.encoded (h : f.Flow) : (f.encoded r).Flow := by
  induction f with
  | nil => trivial
  | text t rest ih => exact ih h
  | element tag attributes content rest ihc ihr => exact ⟨h.1, ihc h.2.1, ihr h.2.2⟩
  | void tag attributes rest ih => exact ⟨h.1, ih h.2⟩

namespace Document

/-- A canonical fragment without stand-ins comes back as the content of the body. -/
theorem exists_parseFragment (hr : r.WellFormed) (hn : r.substitutes.Nodup)
    (h : f.Canonical false) (hnormal : f.Normal) (hfree : StandInFree r f.source) :
    ∃ d, parseFragment f.source "utf-8" r = .ok d ∧ d.bodyContent = f.source := by
  have he := h.readable.encoded hr hfree.mark
  have hencode : Source.encode r f.document.source = (f.encoded r).document.closedSource := by
    rw [Fragment.encode_source hr (readable_document h.readable) (normal_document hnormal),
      encoded_document hr]
    exact encoded_document hr f ▸ readable_document he
  have htokens : Token.ofText (Source.encode r f.document.source) =
      (f.encoded r).document.tokens ++ [.endOfFile] := by
    have ht := Html.tokens_closedSource (readable_document he) []
    rw [List.append_nil] at ht
    rw [hencode, Token.ofText, ht, State.tokens]
    rfl
  have hx := extends_construct h.flow.encoded he (hnormal.encoded hr)
  generalize hb : Builder.start.run _ = b at hx
  have hparse : Html.parse (Source.encode r f.document.source) = (b.tree, b.issues) := by
    rw [Html.parse_eq_construct, htokens, Html.construct, hb]
  have hblank : f.document.source.blank = false := rfl
  refine ⟨⟨b.tree, r, b.issues⟩, ?_, ?_⟩
  · rw [parseFragment, ← source_document, parse, hblank, if_neg Bool.false_ne_true, hparse]
    dsimp only
    rw [documentElement?_of_extends hx]
  · exact (bodyContent_of_extends hx).trans (flatMap_serialized hr hn h hnormal hfree he)

/-- A fragment in canonical form that holds none of the registry's stand-ins and no end tag of a void
element is the content of the body of its document. -/
theorem bodyContent_parseFragment {salt : Text} (hn : (Registry.ofSalt salt).substitutes.Nodup)
    (h : f.Canonical false)
    (hsubstitutes : ∀ w ∈ (Registry.ofSalt salt).substitutes, ¬ w <:+: f.source)
    (hmark : ¬ (Registry.ofSalt salt).bindingMark <:+: f.source)
    (hvoid : ¬ Source.HasVoidEndTag f.source) :
    ∃ d, parseFragment f.source "utf-8" (Registry.ofSalt salt) = .ok d ∧
      d.bodyContent = f.source := by
  have hfree : StandInFree (Registry.ofSalt salt) f.normalize.source :=
    f.source_normalize.symm ▸ ⟨hsubstitutes, hmark, hvoid⟩
  have hexists := exists_parseFragment (Registry.ofSalt_wellFormed salt) hn h.normalize
    f.normal_normalize hfree
  rwa [f.source_normalize] at hexists

/-- A binding and delimiters that touch each other, around a void element. -/
def nestedFragment : Fragment :=
  .element "amp-list" [⟨"[src]", some "\x7b\x7b\x7ba\x7d\x7d\x7d\x7d<b>".toList⟩, ⟨"hidden", none⟩]
    (.text "\x7b\x7b#b\x7d\x7d" (.void "br" [] (.text " " .nil))) (.text "\x7b\x7b\x7b\x7b" .nil)

theorem nestedFragment_canonical : nestedFragment.Canonical false := by
  have hvalue : "\x7b\x7b\x7ba\x7d\x7d\x7d\x7d<b>".toList.all (Source.IsValueChar ·) = true := by
    decide
  have htext : ∀ t ∈ ["\x7b\x7b#b\x7d\x7d".toList, " ".toList, "\x7b\x7b\x7b\x7b".toList],
      ∀ c ∈ t, Source.IsTextChar c := by
    have hall : ∀ t ∈ ["\x7b\x7b#b\x7d\x7d".toList, " ".toList, "\x7b\x7b\x7b\x7b".toList],
        t.all (Source.IsTextChar ·) = true := by
      decide
    exact fun t ht c hc => of_decide_eq_true (List.all_eq_true.1 (hall t ht) c hc)
  have hbare : ∀ t ∈ ["src".toList, "hidden".toList], Source.IsBareName t := by
    have hall : ∀ t ∈ ["src".toList, "hidden".toList],
        t ≠ [] ∧ t.all Source.isLowerNameChar = true := by
      decide
    exact fun t ht => ⟨(hall t ht).1, List.all_eq_true.1 (hall t ht).2⟩
  have hlist : ∀ c ∈ "list".toList, c.isLower = true ∨ c.isDigit = true ∨ c = '-' := fun c hc =>
    .inl (List.all_eq_true.1 (by decide : "list".toList.all Char.isLower = true) c hc)
  refine ⟨.inr ⟨"list", by decide, hlist⟩, ⟨?_, ?_, by decide⟩, ?_, htext _ (by decide), ?_, trivial⟩
  · intro a ha
    rcases List.mem_cons.1 ha with rfl | ha
    · exact .inr ⟨"src", hbare _ (by decide), by decide⟩
    · exact List.mem_singleton.1 ha ▸ .inl (hbare _ (by decide))
  · intro a ha v hv
    rcases List.mem_cons.1 ha with rfl | ha
    · exact Option.some.inj hv ▸ fun c hc => of_decide_eq_true (List.all_eq_true.1 hvalue c hc)
    · rw [List.mem_singleton.1 ha] at hv
      cases hv
  · exact ⟨htext _ (by decide), fun h => (by cases h), by decide, canonicalAttributes_nil,
      htext _ (by decide), fun h => (by cases h), trivial⟩
  · exact fun _ => by decide

set_option maxRecDepth 100000 in
theorem bodyContent_parseFragment_nested :
    (Registry.ofSalt "a".toList).substitutes.Nodup ∧
      ∃ d, parseFragment nestedFragment.source "utf-8" (Registry.ofSalt "a".toList) = .ok d ∧
        d.bodyContent = nestedFragment.source := by
  refine ⟨Source.nodup_substitutes_a,
    bodyContent_parseFragment Source.nodup_substitutes_a nestedFragment_canonical ?_ ?_ ?_⟩
  · rw [Source.Registry.ofSalt_eq Source.fingerprints_a]
    decide +kernel
  · rw [Source.Registry.ofSalt_eq Source.fingerprints_a]
    decide +kernel
  · decide

end Document

end AmpMarkup
