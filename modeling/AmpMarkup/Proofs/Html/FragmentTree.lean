import AmpMarkup.Html.TextRun
import AmpMarkup.Proofs.Dom.Extension
import AmpMarkup.Proofs.Html.FragmentTokens
import AmpMarkup.Proofs.Html.OpenElements

/-! The tree of a fragment. In a body without an open paragraph the tokens of a fragment put its subtrees
behind the children of the innermost open element, and everything that was open stays open. -/

namespace AmpMarkup

open Dom (Tree NodeId Subtree Element)
open Html (Builder Token)
open Source (Fragment IsContainer IsTag)

/-- The subtrees of the fragment. -/
def Source.Fragment.subtrees : Fragment → List Subtree
  | .nil => []
  | .text t rest => .node (.text t) [] :: rest.subtrees
  | .element tag attributes content rest =>
    .node (.element ⟨tag, ⟨attributes⟩⟩) content.subtrees :: rest.subtrees
  | .void tag attributes rest => .node (.element ⟨tag, ⟨attributes⟩⟩) [] :: rest.subtrees

/-- The elements of the fragment are containers and void elements. -/
def Source.Fragment.Flow : Fragment → Prop
  | .nil => True
  | .text _ rest => rest.Flow
  | .element tag _ content rest => IsContainer tag ∧ content.Flow ∧ rest.Flow
  | .void tag _ rest => tag ∈ Vocabulary.voidElements ∧ rest.Flow

theorem Attributes.addAll_eq {a : Attributes} {entries : List Attribute}
    (hn : (a.names ++ entries.map Attribute.name).Nodup) :
    a.addAll entries = ⟨a.entries ++ entries⟩ := by
  induction entries generalizing a with
  | nil => rw [List.append_nil]; rfl
  | cons e entries ih =>
      have hnot : e.name ∉ a.names := fun hm =>
        (List.pairwise_append.1 hn).2.2 _ hm _ List.mem_cons_self rfl
      have hstep : a.addAll (e :: entries) = (a.addIfAbsent e).addAll entries := rfl
      rw [hstep, Attributes.addIfAbsent_of_not_mem hnot, ih]
      · simp
      · simpa [Attributes.names] using hn

theorem Dom.Tree.Extends.trailingText?_eq_none {t t' : Tree} {id : NodeId} {e : Element}
    {ss : List Subtree} (h : t.Extends t' id [.node (.element e) ss]) :
    t'.trailingText? id = none := by
  obtain ⟨ids, hc, hs⟩ := h.children
  match ids, hs with
  | [i], hs =>
      have hi : t'.text? i = none := by
        rw [Tree.text?, hs.1.2.1]
      rw [Tree.trailingText?, Tree.lastChild?, hc, List.getLast?_append]
      simp [hi]

namespace Html

/-- Inside an element of the body, with no paragraph open. -/
structure InBody (b : Builder) (id : NodeId) (outer : List NodeId) : Prop where
  mode : b.mode = .phase .inBody
  running : b.stopped = false
  opened : b.openElements = id :: outer
  isElement : ∀ i ∈ b.openElements, b.tree.isElement i = true
  noParagraph : "p".toList ∉ b.openTags

namespace InBody

variable {b b' : Builder} {id : NodeId} {outer : List NodeId} {tag : Text}
  {attributes : List Attribute} {ss : List Subtree}

theorem lt_size (h : InBody b id outer) : id < b.tree.size :=
  Tree.lt_size_of_isElement (h.isElement id (h.opened ▸ List.mem_cons_self))

theorem current_eq (h : InBody b id outer) : b.current = id := by
  rw [Builder.current, h.opened]
  rfl

theorem hasParagraph_eq (h : InBody b id outer) : b.hasParagraph = false :=
  Bool.eq_false_iff.2 fun hp => h.noParagraph (Builder.mem_of_inScope hp)

/-- Nothing that is open changes where subtrees are put. -/
theorem extend (h : InBody b id outer) (hx : b.tree.Extends b'.tree id ss)
    (hm : b'.mode = b.mode) (hr : b'.stopped = b.stopped)
    (ho : b'.openElements = b.openElements) : InBody b' id outer := by
  have hcontent : ∀ i ∈ b.openElements, b'.tree.content? i = b.tree.content? i := fun i hi =>
    hx.content i (Tree.lt_size_of_isElement (h.isElement i hi))
  refine ⟨hm.trans h.mode, hr.trans h.running, ho.trans h.opened, fun i hi => ?_, fun hp => ?_⟩
  · rw [ho] at hi
    rw [Dom.Tree.isElement_congr (hcontent i hi), h.isElement i hi]
  · obtain ⟨i, hi, ht⟩ := Builder.mem_openTags.1 hp
    rw [ho] at hi
    rw [Tree.tag?_congr (hcontent i hi)] at ht
    exact h.noParagraph (Builder.mem_openTags.2 ⟨i, hi, ht⟩)

theorem moved (h : InBody b id outer) (position : Nat) :
    InBody { b with position := position } id outer :=
  ⟨h.mode, h.running, h.opened, h.isElement, h.noParagraph⟩

theorem tag?_insertElement (b : Builder) (tag : Text) (attributes : List Attribute)
    (i : NodeId) : (b.insertElement tag attributes).tree.tag? i =
      if i = b.tree.size then some tag else b.tree.tag? i :=
  Tree.tag?_withElement _ i

theorem insertElement (h : InBody b id outer) (htag : tag ≠ "p".toList)
    (attributes : List Attribute) :
    InBody (b.insertElement tag attributes) b.tree.size (id :: outer) where
  mode := h.mode
  running := h.running
  opened := congrArg (b.tree.size :: ·) h.opened
  isElement i hi := by
    rw [← Tree.isSome_tag?, tag?_insertElement]
    split
    · rfl
    · next hne =>
        rw [Tree.isSome_tag?]
        exact h.isElement i ((List.mem_cons.1 hi).resolve_left hne)
  noParagraph hp := by
    obtain ⟨i, hi, ht⟩ := Builder.mem_openTags.1 hp
    rw [tag?_insertElement] at ht
    split at ht
    · exact htag (Option.some.inj ht)
    · next hne =>
        exact h.noParagraph (Builder.mem_openTags.2
          ⟨i, (List.mem_cons.1 hi).resolve_left hne, ht⟩)

/-! ### Tags -/

end InBody

/-- The tags with rules of their own in the body. -/
def ownRules : List Text :=
  List.map String.toList
    ["html", "body", "p", "li", "dd", "dt", "button", "option", "hr", "image", "xmp",
      "plaintext"] ++ Category.headContent ++ Category.headings ++ Category.bodyTexts

section
variable {b : Builder} {tag : Text} {attributes : List Attribute}

theorem not_mem_ownRules (h : IsContainer tag) : tag ∉ ownRules := by
  rcases h with h | ⟨name, rfl, -⟩
  · exact (by decide : ∀ v ∈ (["div", "span", "section"].map String.toList : List Text),
      v ∉ ownRules) tag h
  · exact fun hm => (by decide : ∀ v ∈ ownRules, '-' ∉ v) _ hm
      (List.mem_append_left _ (by decide))

theorem contains_eq_false (h : tag ∉ ownRules) (tags : List Text) (hs : ∀ v ∈ tags, v ∈ ownRules) :
    tags.contains tag = false :=
  Bool.eq_false_iff.2 fun hc => h (hs tag (List.contains_iff_mem.1 hc))

theorem isVoid_of_isContainer (h : IsContainer tag) : Vocabulary.isVoid tag = false :=
  (Source.isTag_of_isContainer h).2

theorem bodyStartTag_container (h : IsContainer tag) :
    b.bodyStartTag tag attributes false =
      if Category.endsParagraph.contains tag then b.endParagraph.insertElement tag attributes
      else b.insertElement tag attributes := by
  have hown := not_mem_ownRules h
  have hne : ∀ v ∈ ownRules, tag ≠ v := fun v hv he => hown (he ▸ hv)
  have hcontent := contains_eq_false hown Category.headContent (by decide)
  have hheading := contains_eq_false hown Category.headings (by decide)
  have htexts := contains_eq_false hown Category.bodyTexts (by decide)
  have hvoid := isVoid_of_isContainer h
  unfold Builder.bodyStartTag
  rw [if_neg (hne _ (by decide)), hcontent, if_neg Bool.false_ne_true, if_neg (hne _ (by decide)),
    hheading, if_neg Bool.false_ne_true, if_neg (hne _ (by decide)),
    if_neg (not_or.2 ⟨hne _ (by decide), hne _ (by decide)⟩), if_neg (hne _ (by decide)),
    if_neg (hne _ (by decide)), if_neg (hne _ (by decide)), if_neg (hne _ (by decide)), hvoid,
    if_neg Bool.false_ne_true, htexts, if_neg Bool.false_ne_true, if_neg (hne _ (by decide))]
  by_cases hends : Category.endsParagraph.contains tag = true
  · rw [if_pos hends, if_pos hends]
    exact if_neg (hne _ (by decide))
  · rw [if_neg hends, if_neg hends]
    exact if_neg fun hf => Bool.false_ne_true hf.1

/-- A container is closed where it is the innermost open element. -/
theorem bodyEndTag_container {id : NodeId} {outer : List NodeId} (h : IsContainer tag)
    (ho : b.openElements = id :: outer) (ht : b.tree.tag? id = some tag) :
    b.bodyEndTag tag = .settled { b with openElements := outer } := by
  have hown := not_mem_ownRules h
  have hne : ∀ v ∈ ownRules, tag ≠ v := fun v hv he => hown (he ▸ hv)
  have hheading := contains_eq_false hown Category.headings (by decide)
  have hvoid := isVoid_of_isContainer h
  have hscope : b.hasInScope tag [] = true := by
    rw [Builder.hasInScope, Builder.openTags, ho, List.filterMap_cons_some ht, Category.inScope,
      beq_self_eq_true, Bool.true_or]
  have himplied : tag ∉ Category.implied := by
    rcases h with h | ⟨name, rfl, -⟩
    · exact (by decide : ∀ v ∈ (["div", "span", "section"].map String.toList : List Text),
        v ∉ Category.implied) tag h
    · exact fun hm => (by decide : ∀ v ∈ Category.implied, '-' ∉ v) _ hm
        (List.mem_append_left _ (by decide))
  have hblock : (b.closeImplied none).popThrough [tag] = { b with openElements := outer } := by
    have himp : b.closeImplied none = b := by
      rw [Builder.closeImplied, ho, List.dropWhile_cons_of_neg (by simp [ht, himplied]), ← ho]
    rw [himp, Builder.popThrough, ho, List.dropWhile_cons_of_neg (by simp [ht]), List.tail_cons]
  have hmatching : b.closeMatching tag b.openElements = { b with openElements := outer } := by
    rw [ho, Builder.closeMatching, ht]
    exact if_pos rfl
  unfold Builder.bodyEndTag
  rw [if_neg (hne _ (by decide)), if_neg (hne _ (by decide)), if_neg (hne _ (by decide)),
    if_neg (hne _ (by decide)), if_neg (not_or.2 ⟨hne _ (by decide), hne _ (by decide)⟩), hheading,
    if_neg Bool.false_ne_true, hscope, if_pos rfl, hblock, hvoid, if_neg Bool.false_ne_true,
    hmatching]
  split <;> rfl

/-- A void element is put in and not opened. One of them ends a paragraph. -/
theorem bodyStartTag_void (h : tag ∈ Vocabulary.voidElements) (selfClosing : Bool) :
    b.bodyStartTag tag attributes selfClosing =
      (if tag = "hr".toList then b.endParagraph else b).insertLeaf tag attributes := by
  have hfacts : ∀ v ∈ Vocabulary.voidElements, v ≠ "html".toList ∧
      (Category.headContent.contains v = true →
        Category.headLeaves.contains v = true ∧ v ≠ "hr".toList) ∧
      v ≠ "body".toList ∧ Category.headings.contains v = false ∧ v ≠ "li".toList ∧
      ¬ (v = "dd".toList ∨ v = "dt".toList) ∧ v ≠ "button".toList ∧ v ≠ "option".toList ∧
      v ≠ "image".toList ∧ Vocabulary.isVoid v = true := by
    decide
  obtain ⟨hhtml, hleaf, hbody, hheading, hli, hd, hbutton, hoption, himage, hvoid⟩ := hfacts tag h
  unfold Builder.bodyStartTag
  rw [if_neg hhtml, if_neg hbody, hheading, if_neg Bool.false_ne_true, if_neg hli, if_neg hd,
    if_neg hbutton, if_neg hoption, if_neg himage, hvoid, if_pos rfl]
  split
  · next hc => rw [Builder.insertHeadContent, if_pos (hleaf hc).1, if_neg (hleaf hc).2]
  · split <;> rfl

theorem bodyEndTag_void (h : tag ∈ Vocabulary.voidElements) :
    b.bodyEndTag tag = .settled b := by
  have hfacts : ∀ v ∈ Vocabulary.voidElements, v ≠ "body".toList ∧ v ≠ "html".toList ∧
      v ≠ "p".toList ∧ v ≠ "li".toList ∧ ¬ (v = "dd".toList ∨ v = "dt".toList) ∧
      Category.headings.contains v = false ∧ Category.blocks.contains v = false ∧
      Vocabulary.isVoid v = true := by
    decide
  obtain ⟨hbody, hhtml, hp, hli, hd, hheading, hblock, hvoid⟩ := hfacts tag h
  unfold Builder.bodyEndTag
  rw [if_neg hbody, if_neg hhtml, if_neg hp, if_neg hli, if_neg hd, hheading,
    if_neg Bool.false_ne_true, hblock, if_neg Bool.false_ne_true, hvoid, if_pos rfl]

end

/-! ### Runs -/

variable {b b' : Builder} {id : NodeId} {outer : List NodeId} {tag : Text}
  {attributes : List Attribute} {f : Fragment}

theorem InBody.process_startTag (h : InBody b id outer) (tag : Text) (attributes : List Attribute) :
    b.process (.startTag tag attributes false) = b.bodyStartTag tag attributes false := by
  refine Builder.process_of_settled ?_
  rw [Builder.rules, h.mode]
  rfl

theorem InBody.process_endTag (h : InBody b id outer) (he : b.bodyEndTag tag = .settled b') :
    b.process (.endTag tag) = b' := by
  refine Builder.process_of_settled ?_
  rw [Builder.rules, h.mode]
  exact he

theorem InBody.endParagraph_eq (h : InBody b id outer) : b.endParagraph = b := by
  rw [Builder.endParagraph, h.hasParagraph_eq]
  rfl

theorem InBody.run_cons (h : InBody b id outer) {t : Token} (ht : b.process t = b')
    (ts : List Token) : b.run (t :: ts) = { b' with position := b.position + 1 }.run ts := by
  rw [Builder.run_cons h.running, ht]

/-- Characters that are taken as they stand make one text. -/
theorem Builder.run_map_character {t : Text} (hr : b.stopped = false) (hne : t ≠ [])
    (ht : ∀ c ∈ t, b.mode.takesAsText (.character c) = true) :
    b.run (t.map .character) = { b.insertText t with position := b.position + t.length } := by
  obtain ⟨c, u, rfl⟩ := List.exists_cons_of_ne_nil hne
  have htakes : ∀ x ∈ Token.character c :: u.map .character, b.mode.takesAsText x = true := by
    intro x hx
    rw [← List.map_cons] at hx
    obtain ⟨d, hd, rfl⟩ := List.mem_map.1 hx
    exact ht d hd
  have hdata : (Token.character c :: u.map .character).filterMap Token.character? = c :: u := by
    rw [← List.map_cons, List.filterMap_map]
    exact List.filterMap_some
  rw [List.map_cons, Builder.run_eq_runText hr htakes, Builder.runText, hdata]
  simp

/-- A text becomes one node unless text stands before it. -/
theorem InBody.run_text {t : Text} (h : InBody b id outer) (hne : t ≠ [])
    (ht : ∀ c ∈ t, c ≠ '\x00') (hlast : b.tree.trailingText? id = none) :
    InBody (b.run (t.map .character)) id outer ∧
      b.tree.Extends (b.run (t.map .character)).tree id [.node (.text t) []] := by
  have hrun := Builder.run_map_character h.running hne fun c hc => by
    rw [h.mode]
    exact bne_iff_ne.2 (ht c hc)
  have hx : b.tree.Extends (b.run (t.map .character)).tree id [.node (.text t) []] := by
    rw [hrun, Builder.insertText, h.current_eq]
    exact Tree.extends_appendText (h.isElement id (h.opened ▸ List.mem_cons_self)) hlast t
  exact ⟨h.extend hx (by rw [hrun]; rfl) (by rw [hrun]; rfl) (by rw [hrun]; rfl), hx⟩

/-- A container with its content goes behind the children of the innermost open element. -/
theorem InBody.run_element {content : List Token} {ss : List Subtree} (h : InBody b id outer)
    (htag : IsContainer tag) (ha : Source.CanonicalAttributes attributes)
    (hcontent : ∀ b', InBody b' b.tree.size (id :: outer) →
      b'.tree.trailingText? b.tree.size = none →
      InBody (b'.run content) b.tree.size (id :: outer) ∧
        b'.tree.Extends (b'.run content).tree b.tree.size ss) (rest : List Token) :
    ∃ b', b.run (.startTag tag attributes false :: (content ++ .endTag tag :: rest)) = b'.run rest ∧
      InBody b' id outer ∧
      b.tree.Extends b'.tree id [.node (.element ⟨tag, ⟨attributes⟩⟩) ss] := by
  have hp : tag ≠ "p".toList := fun he => not_mem_ownRules htag (he ▸ by decide)
  have hstart : b.process (.startTag tag attributes false) = b.insertElement tag attributes := by
    rw [h.process_startTag, bodyStartTag_container htag, h.endParagraph_eq, ite_self]
  have htree : (b.insertElement tag attributes).tree =
      b.tree.withElement id ⟨tag, ⟨attributes⟩⟩ := by
    rw [Builder.insertElement, h.current_eq, Attributes.addAll_eq (a := .empty) ha.nodup]
    rfl
  have hempty : (b.insertElement tag attributes).tree.trailingText? b.tree.size = none := by
    rw [htree, Tree.trailingText?_withElement_self h.lt_size]
  have h₁ : InBody { b.insertElement tag attributes with position := b.position + 1 }
      b.tree.size (id :: outer) := (h.insertElement hp attributes).moved _
  obtain ⟨h₂, hx₂⟩ := hcontent _ h₁ hempty
  generalize hb₂ : Builder.run _ content = b₂ at h₂ hx₂
  have hself : b₂.tree.tag? b.tree.size = some tag := by
    rw [Tree.tag?_congr (hx₂.content _ h₁.lt_size)]
    exact (InBody.tag?_insertElement b tag attributes _).trans (if_pos rfl)
  have hend : b₂.process (.endTag tag) = { b₂ with openElements := id :: outer } :=
    h₂.process_endTag (bodyEndTag_container htag h₂.opened hself)
  have hx : b.tree.Extends b₂.tree id [.node (.element ⟨tag, ⟨attributes⟩⟩) ss] := by
    refine Tree.Extends.element ?_ h.lt_size
    exact htree ▸ hx₂
  refine ⟨{ b₂ with openElements := id :: outer, position := b₂.position + 1 }, ?_, ?_, hx⟩
  · rw [h.run_cons hstart, Builder.run_append, hb₂, h₂.run_cons hend]
  · refine h.extend hx (h₂.mode.trans h.mode.symm) (h₂.running.trans h.running.symm) ?_
    exact h.opened.symm

/-- A void element with an end tag goes behind the children of the innermost open element. -/
theorem InBody.run_void (h : InBody b id outer) (htag : tag ∈ Vocabulary.voidElements)
    (ha : Source.CanonicalAttributes attributes) (rest : List Token) :
    ∃ b', b.run (.startTag tag attributes false :: .endTag tag :: rest) = b'.run rest ∧
      InBody b' id outer ∧
      b.tree.Extends b'.tree id [.node (.element ⟨tag, ⟨attributes⟩⟩) []] := by
  have hstart : b.process (.startTag tag attributes false) = b.insertLeaf tag attributes := by
    rw [h.process_startTag, bodyStartTag_void htag, h.endParagraph_eq, ite_self]
  have htree : (b.insertLeaf tag attributes).tree =
      b.tree.withElement id ⟨tag, ⟨attributes⟩⟩ := by
    rw [Builder.insertLeaf, Builder.pop, Builder.insertElement, h.current_eq,
      Attributes.addAll_eq (a := .empty) ha.nodup]
    rfl
  have hx : b.tree.Extends (b.insertLeaf tag attributes).tree id
      [.node (.element ⟨tag, ⟨attributes⟩⟩) []] :=
    Tree.Extends.element (htree ▸ .refl _ _) h.lt_size
  have h₁ : InBody { b.insertLeaf tag attributes with position := b.position + 1 } id outer :=
    h.extend hx rfl rfl rfl
  have hend := h₁.process_endTag (bodyEndTag_void htag)
  refine ⟨{ b.insertLeaf tag attributes with position := b.position + 1 + 1 }, ?_,
    h.extend hx rfl rfl rfl, hx⟩
  rw [h.run_cons hstart, h₁.run_cons hend]

/-- The tokens of a fragment put its subtrees behind the children of the innermost open element. -/
theorem InBody.run_tokens (h : InBody b id outer) (hf : f.Flow) (hr : f.Readable) (hn : f.Normal)
    (hlast : f.startsWithText = true → b.tree.trailingText? id = none) :
    InBody (b.run f.tokens) id outer ∧
      b.tree.Extends (b.run f.tokens).tree id f.subtrees := by
  induction f generalizing b id outer with
  | nil => exact ⟨h, .refl _ _⟩
  | text t rest ih =>
      obtain ⟨hne, hrest, hn⟩ := hn
      have hchars : ∀ c ∈ t, c ≠ '\x00' := fun c hc => (hr.1 c hc).2.2.2.2
      obtain ⟨h₁, hx₁⟩ := h.run_text hne hchars (hlast rfl)
      obtain ⟨h₂, hx₂⟩ := ih h₁ hf hr.2 hn fun hs => by rw [hrest] at hs; cases hs
      rw [Fragment.tokens, Builder.run_append]
      exact ⟨h₂, hx₁.trans hx₂ h.lt_size⟩
  | element tag attributes content rest ihc ihr =>
      obtain ⟨htag, hfc, hfr⟩ := hf
      obtain ⟨-, -, ha, hrc, hrr⟩ := hr
      obtain ⟨b', hrun, h₁, hx₁⟩ := h.run_element htag ha
        (fun b' hb' hempty => ihc hb' hfc hrc hn.1 fun _ => hempty) rest.tokens
      obtain ⟨h₂, hx₂⟩ := ihr h₁ hfr hrr hn.2 fun _ => hx₁.trailingText?_eq_none
      rw [Fragment.tokens, hrun]
      exact ⟨h₂, hx₁.trans hx₂ h.lt_size⟩
  | void tag attributes rest ih =>
      obtain ⟨htag, hfr⟩ := hf
      obtain ⟨-, -, ha, hrr⟩ := hr
      obtain ⟨b', hrun, h₁, hx₁⟩ := h.run_void htag ha rest.tokens
      obtain ⟨h₂, hx₂⟩ := ih h₁ hfr hrr hn fun _ => hx₁.trailingText?_eq_none
      rw [Fragment.tokens, hrun]
      exact ⟨h₂, hx₁.trans hx₂ h.lt_size⟩

end Html

end AmpMarkup
