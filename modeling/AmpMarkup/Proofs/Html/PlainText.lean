import AmpMarkup.Proofs.Html.FragmentTree
import AmpMarkup.Proofs.Source.PlainText

/-! Elements of plain text without character references. The reader delivers their content character
by character up to the end tag of the element, and in a body it becomes one text in one element. -/

namespace AmpMarkup.Html

open Dom (Tree NodeId Subtree)
open Source (closingStart endTag)

variable {element t p k : Text} {s : State} {c : Char} {attributes : List Attribute}

/-! ### Tokens -/

/-- Inside an element of plain text, behind characters that may start its end tag and are not
delivered yet. -/
inductive State.Pending (element : Text) : State → Text → Prop
  | content : Pending element (.content (.plain false element)) []
  | lessThan : Pending element (.plainLessThan false element) ['<']
  | endTagOpen : Pending element (.plainEndTagOpen false element) ['<', '/']
  | endTagName (written : Text) :
    Pending element (.plainEndTagName false element written) ('<' :: '/' :: written)

namespace State.Pending

theorem content_step (hc : c ≠ '\x00') (rest : Text) : ∃ (out q : Text) (s' : State),
    Step.content (.plain false element) c rest = ⟨out.map .character, s', rest⟩ ∧
      s'.Pending element q ∧ out ++ q = [c] := by
  by_cases hlt : c = '<'
  · subst hlt
    exact ⟨[], ['<'], _, rfl, .lessThan, rfl⟩
  · refine ⟨[c], [], _, ?_, .content, rfl⟩
    rw [Step.content, if_neg hlt, if_neg (fun h => Bool.false_ne_true h.2), if_neg hc]
    rfl

/-- A character that does not go on with the end tag delivers what is pending. -/
theorem withText_step (hc : c ≠ '\x00') (p rest : Text) : ∃ (out q : Text) (s' : State),
    (Step.content (.plain false element) c rest).withText p = ⟨out.map .character, s', rest⟩ ∧
      s'.Pending element q ∧ out ++ q = p ++ [c] := by
  obtain ⟨out, q, s', hstep, hs, he⟩ := @content_step element c hc rest
  refine ⟨p ++ out, q, s', ?_, hs, by rw [List.append_assoc, he]⟩
  rw [hstep, Step.withText, List.map_append]

/-- No step loses, adds or moves a character as long as the end tag has not been read. -/
theorem step (h : s.Pending element p) (hc : c ≠ '\x00')
    (hend : ¬ closingStart element <:+: p.lower) (rest : Text) : ∃ (out q : Text) (s' : State),
    s.step c rest = ⟨out.map .character, s', rest⟩ ∧ s'.Pending element q ∧
      out ++ q = p ++ [c] := by
  cases h with
  | content => exact content_step hc rest
  | lessThan =>
      by_cases hslash : c = '/'
      · subst hslash
        exact ⟨[], _, _, rfl, .endTagOpen, rfl⟩
      · rw [State.step, if_neg hslash]
        exact withText_step hc ['<'] rest
  | endTagOpen =>
      by_cases halpha : c.isAlpha = true
      · exact ⟨[], _, _, by rw [State.step, if_pos halpha]; rfl, .endTagName [c], rfl⟩
      · rw [State.step, if_neg halpha]
        exact withText_step hc ['<', '/'] rest
  | endTagName written =>
      have hname : written.lower ≠ element := by
        rintro rfl
        exact hend (List.infix_refl _)
      dsimp only [State.step]
      rw [if_neg fun h => hname h.2, if_neg fun h => hname h.2, if_neg fun h => hname h.2]
      by_cases halpha : c.isAlpha = true
      · exact ⟨[], _, _, by rw [if_pos halpha]; rfl, .endTagName (written ++ [c]), rfl⟩
      · rw [if_neg halpha]
        exact withText_step hc ('<' :: '/' :: written) rest

/-- Text without the end tag is delivered but for what may start it. -/
theorem tokens_append (h : s.Pending element p) (hnull : '\x00' ∉ t)
    (hend : ¬ closingStart element <:+: (p ++ t : Text).lower) (k : Text) : ∃ (out q : Text) (s' : State),
    s.tokens (t ++ k) = out.map .character ++ s'.tokens k ∧ s'.Pending element q ∧
      out ++ q = p ++ t := by
  induction t generalizing s p with
  | nil => exact ⟨[], p, s, rfl, h, (List.append_nil p).symm⟩
  | cons c t ih =>
      have hc : c ≠ '\x00' := fun he => hnull (he ▸ List.mem_cons_self)
      have hp : ¬ closingStart element <:+: p.lower := fun hi => hend <| by
        rw [Text.lower, List.map_append]
        exact List.infix_append_of_infix_left hi
      obtain ⟨out₁, p₁, s₁, hstep, h₁, he₁⟩ := h.step hc hp (t ++ k)
      have hall : out₁ ++ (p₁ ++ t) = p ++ c :: t := by
        rw [← List.append_assoc, he₁, List.append_assoc, List.singleton_append]
      have hend₁ : ¬ closingStart element <:+: (p₁ ++ t : Text).lower := fun hi => hend <| by
        rw [← hall, Text.lower, List.map_append]
        exact List.infix_append_of_infix_right hi
      obtain ⟨out₂, p₂, s₂, htokens, h₂, he₂⟩ :=
        ih h₁ (fun hm => hnull (List.mem_cons_of_mem _ hm)) hend₁
      refine ⟨out₁ ++ out₂, p₂, s₂, ?_, h₂, by rw [List.append_assoc, he₂, hall]⟩
      rw [List.cons_append, State.tokens_cons, hstep, List.map_append, List.append_assoc]
      exact congrArg _ htokens

theorem step_open (h : s.Pending element p) (rest : Text) :
    s.step '<' rest = ⟨p.map .character, .plainLessThan false element, rest⟩ := by
  cases h with
  | endTagName written =>
      dsimp only [State.step]
      rw [if_neg fun h => absurd h.1 (by decide), if_neg fun h => absurd h.1 (by decide),
        if_neg fun h => absurd h.1 (by decide), if_neg (by decide)]
      exact congrArg (Step.mk · _ _) (List.append_nil _)
  | content | lessThan | endTagOpen => rfl

end State.Pending

theorem lower_of_isLower (h : ∀ c ∈ t, c.isLower = true) : t.lower = t := by
  rw [Text.lower, List.map_congr_left fun c hc => Source.toLower_of_isLower (h c hc), List.map_id']

/-- The rest of the name of an end tag. -/
theorem tokens_plainEndTagName {written u : Text} (hu : ∀ c ∈ u, c.isLower = true)
    (he : (written ++ u : Text).lower = element) (k : Text) :
    (State.plainEndTagName false element written).tokens (u ++ '>' :: k) =
      .endTag element :: (State.content .markup).tokens k := by
  induction u generalizing written with
  | nil =>
      rw [List.append_nil] at he
      have hstep : (State.plainEndTagName false element written).step '>' k =
          ⟨[.endTag element], .content .markup, k⟩ := by
        dsimp only [State.step]
        rw [if_neg fun h => absurd h.1 (by decide), if_neg fun h => absurd h.1 (by decide),
          if_pos ⟨rfl, he⟩]
        rfl
      rw [List.nil_append, State.tokens_cons, hstep]
      rfl
  | cons c u ih =>
      have hc := hu c List.mem_cons_self
      have hname : Source.isNameChar c = true :=
        Source.isNameChar_of_isLowerNameChar (by simp [Source.isLowerNameChar, hc])
      have hspace : isSpace c ≠ true := Bool.eq_false_iff.1 (Source.isSpace_of_isNameChar hname)
      have hsolidus : c ≠ '/' := Source.ne_of_isNameChar hname (by decide)
      have hclose : c ≠ '>' := Source.ne_of_isNameChar hname (by decide)
      have hstep : (State.plainEndTagName false element written).step c (u ++ '>' :: k) =
          .goto (.plainEndTagName false element (written ++ [c])) (u ++ '>' :: k) := by
        dsimp only [State.step]
        rw [if_neg (fun h => hspace h.1), if_neg (fun h => hsolidus h.1),
          if_neg (fun h => hclose h.1), if_pos (Source.isAlpha_of_isLower hc)]
      rw [List.cons_append, State.tokens_goto hstep]
      refine ih (fun d hd => hu d (List.mem_cons_of_mem _ hd)) ?_
      rwa [List.append_assoc, List.singleton_append]

theorem State.Pending.tokens_endTag (h : s.Pending element p) (hne : element ≠ [])
    (he : ∀ c ∈ element, c.isLower = true) (k : Text) :
    s.tokens (endTag element ++ k) =
      p.map .character ++ .endTag element :: (State.content .markup).tokens k := by
  obtain ⟨c, u, rfl⟩ := List.exists_cons_of_ne_nil hne
  have hc := Source.isAlpha_of_isLower (he c List.mem_cons_self)
  have hopen : (State.plainEndTagOpen false (c :: u)).step c (u ++ '>' :: k) =
      .goto (.plainEndTagName false (c :: u) [c]) (u ++ '>' :: k) := by
    rw [State.step, if_pos hc]
  rw [endTag]
  simp only [List.cons_append, List.append_assoc, List.nil_append]
  rw [State.tokens_cons, h.step_open, State.tokens_goto rfl, State.tokens_goto hopen]
  have hname : Text.lower ([c] ++ u) = c :: u := lower_of_isLower he
  exact congrArg _
    (tokens_plainEndTagName (fun d hd => he d (List.mem_cons_of_mem _ hd)) hname k)

/-- The content of an element of plain text is delivered as it stands, and then its end tag. -/
theorem tokens_plainText (hne : element ≠ []) (he : ∀ c ∈ element, c.isLower = true)
    (hnull : '\x00' ∉ t) (hend : ¬ closingStart element <:+: t.lower) (k : Text) :
    (State.content (.plain false element)).tokens (t ++ (endTag element ++ k)) =
      t.map .character ++ .endTag element :: (State.content .markup).tokens k := by
  obtain ⟨out, q, s, htokens, hs, hall⟩ :=
    State.Pending.content.tokens_append hnull hend (endTag element ++ k)
  rw [List.nil_append] at hall
  rw [htokens, hs.tokens_endTag hne he, ← hall, List.map_append, List.append_assoc]

/-- The start tag of an element of plain text. -/
theorem tokens_plainStartTag (hne : element ≠ []) (he : ∀ c ∈ element, c.isLower = true)
    (hreading : TagDraft.readingAfter element = .plain false element)
    (ha : Source.CanonicalAttributes attributes) (k : Text) :
    (State.content .markup).tokens (Source.startTagSource element attributes ++ k) =
      .startTag element attributes false :: (State.content (.plain false element)).tokens k := by
  have hchars : ∀ c ∈ element, Source.isLowerNameChar c = true := fun c hc => by
    simp [Source.isLowerNameChar, he c hc]
  have hstart : element.head?.any Char.isAlpha = true := by
    obtain ⟨c, u, rfl⟩ := List.exists_cons_of_ne_nil hne
    exact Source.isAlpha_of_isLower (he c List.mem_cons_self)
  rw [tokens_lowerStartTag hstart hchars ha, hreading]

/-! ### The tree -/

/-- An element of plain text without attributes. -/
def plainTextSubtree (tag t : Text) : Subtree :=
  .node (.element ⟨tag, ⟨[]⟩⟩) (if t = [] then [] else [.node (.text t) []])

theorem render_plainTextSubtree {tag : Text} (hraw : Vocabulary.isRawText tag = true)
    (hvoid : Vocabulary.isVoid tag = false) (t : Text) :
    (plainTextSubtree tag t).render = Source.startTagSource tag [] ++ (t ++ endTag tag) := by
  have hliteral : Subtree.renderLiterally (if t = [] then [] else [.node (.text t) []]) = t := by
    split
    · next ht => rw [ht]; rfl
    · exact List.append_nil t
  rw [plainTextSubtree, Subtree.render_element, hvoid, if_neg Bool.false_ne_true, if_pos hraw,
    hliteral, List.append_assoc]
  rfl

variable {b : Builder} {id : NodeId} {outer : List NodeId} {tag : Text}

theorem bodyStartTag_headText (h : tag ∈ Category.headTexts) :
    b.bodyStartTag tag attributes false = (b.insertElement tag attributes).enterText .inBody := by
  have hfacts : ∀ v ∈ Category.headTexts, v ≠ "html".toList ∧
      Category.headContent.contains v = true ∧ Category.headLeaves.contains v = false := by
    decide
  obtain ⟨hhtml, hcontent, hleaf⟩ := hfacts tag h
  rw [Builder.bodyStartTag, if_neg hhtml, if_pos hcontent, Builder.insertHeadContent, hleaf,
    if_neg Bool.false_ne_true, if_pos (List.contains_iff_mem.2 h)]

/-- Adds the characters of an element of plain text. Where there are none no node is made. -/
def Builder.insertPlain (b : Builder) (t : Text) : Builder :=
  if t = [] then b else b.insertText t

@[simp] theorem Builder.mode_insertPlain (b : Builder) (t : Text) :
    (b.insertPlain t).mode = b.mode := by
  unfold insertPlain
  split <;> rfl

@[simp] theorem Builder.stopped_insertPlain (b : Builder) (t : Text) :
    (b.insertPlain t).stopped = b.stopped := by
  unfold insertPlain
  split <;> rfl

@[simp] theorem Builder.openElements_insertPlain (b : Builder) (t : Text) :
    (b.insertPlain t).openElements = b.openElements := by
  unfold insertPlain
  split <;> rfl

/-- The characters of an element of plain text become one node, and an end tag closes it. -/
theorem run_plainText {resume : Phase} (hm : b.mode = .plainText resume) (hr : b.stopped = false)
    (t tag : Text) : ∃ position, b.run (t.map .character ++ [.endTag tag]) =
      { (b.insertPlain t).pop.enter resume with position := position } := by
  have hchars : ∃ position, b.run (t.map .character) =
      { b.insertPlain t with position := position } := by
    by_cases ht : t = []
    · subst ht
      exact ⟨b.position, rfl⟩
    · rw [Builder.insertPlain, if_neg ht]
      exact ⟨_, Builder.run_map_character hr ht fun _ _ => by rw [hm]; rfl⟩
  obtain ⟨position, hrun⟩ := hchars
  rw [Builder.run_append, hrun]
  generalize hb : ({ b.insertPlain t with position := position } : Builder) = b'
  have hm' : b'.mode = .plainText resume := hb ▸ (b.mode_insertPlain t).trans hm
  have hr' : b'.stopped = false := hb ▸ (b.stopped_insertPlain t).trans hr
  have hend : b'.process (.endTag tag) = b'.pop.enter resume := by
    refine Builder.process_of_settled ?_
    rw [Builder.rules, hm']
    rfl
  refine ⟨position + 1, ?_⟩
  rw [Builder.run_cons hr', hend, Builder.run, ← hb]
  rfl

/-- An element of plain text in the body goes behind the children of the innermost open element. -/
theorem InBody.run_plainText (h : InBody b id outer) (htag : tag ∈ Category.headTexts) (t : Text) :
    InBody (b.run (.startTag tag [] false :: (t.map .character ++ [.endTag tag]))) id outer ∧
      b.tree.Extends
        (b.run (.startTag tag [] false :: (t.map .character ++ [.endTag tag]))).tree id
        [plainTextSubtree tag t] := by
  have hp : tag ≠ "p".toList := by
    rintro rfl
    exact absurd htag (by decide)
  have hstart : b.process (.startTag tag [] false) =
      (b.insertElement tag []).enterText .inBody := by
    rw [h.process_startTag, bodyStartTag_headText htag]
  have htree : (b.insertElement tag []).tree = b.tree.withElement id ⟨tag, ⟨[]⟩⟩ := by
    rw [Builder.insertElement, h.current_eq]
    rfl
  have hopen := h.insertElement hp []
  have hself : (b.tree.withElement id ⟨tag, ⟨[]⟩⟩).isElement b.tree.size = true :=
    htree ▸ hopen.isElement _ (hopen.opened ▸ List.mem_cons_self)
  have hempty := Tree.trailingText?_withElement_self h.lt_size ⟨tag, ⟨[]⟩⟩
  rw [h.run_cons hstart]
  generalize hb : ({ (b.insertElement tag []).enterText .inBody with
    position := b.position + 1 } : Builder) = b'
  have htree' : b'.tree = b.tree.withElement id ⟨tag, ⟨[]⟩⟩ := hb ▸ htree
  have hopened : b'.openElements = b.tree.size :: id :: outer := hb ▸ hopen.opened
  have hmode : b'.mode = .plainText .inBody := hb ▸ rfl
  have hrunning : b'.stopped = false := hb ▸ h.running
  have hcurrent : b'.current = b.tree.size := by
    rw [Builder.current, hopened]
    rfl
  obtain ⟨position, hrun⟩ := Html.run_plainText hmode hrunning t tag
  have hcontent : b'.tree.Extends (b'.insertPlain t).tree b.tree.size
      (if t = [] then [] else [.node (.text t) []]) := by
    unfold Builder.insertPlain
    split
    · exact .refl _ _
    · rw [Builder.insertText, hcurrent]
      exact Tree.extends_appendText (htree' ▸ hself) (htree' ▸ hempty) t
  have hx : b.tree.Extends (b'.insertPlain t).tree id [plainTextSubtree tag t] :=
    Tree.Extends.element (htree' ▸ hcontent) h.lt_size
  have hstopped : (b'.insertPlain t).stopped = b.stopped :=
    (b'.stopped_insertPlain t).trans (hrunning.trans h.running.symm)
  rw [hrun]
  refine ⟨h.extend hx h.mode.symm hstopped ?_, hx⟩
  rw [h.opened]
  exact congrArg List.tail ((b'.openElements_insertPlain t).trans hopened)

end AmpMarkup.Html
