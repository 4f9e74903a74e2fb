import AmpMarkup.Proofs.Html.FragmentTree
import AmpMarkup.Proofs.Html.Repairs
import AmpMarkup.Proofs.Html.TextEnclosure

/-! End tags of void elements in the tokens of a document. Right after the start tag of a void element
the rules of few phases are in force, and in these the end tag does nothing to the document. So it does
not matter which void elements have one. -/

namespace AmpMarkup.Html

open Dom (Tree NodeId)

/-- The second tokens are the first ones with an end tag behind the start tags of some void elements. -/
inductive VoidsClosed : List Token → List Token → Prop where
  | nil : VoidsClosed [] []
  | keep {ts us : List Token} (t : Token) (h : VoidsClosed ts us) : VoidsClosed (t :: ts) (t :: us)
  | close {ts us : List Token} {tag : Text} (attributes : List Attribute) (selfClosing : Bool)
      (hv : Vocabulary.isVoid tag = true) (h : VoidsClosed ts us) :
      VoidsClosed (.startTag tag attributes selfClosing :: ts)
        (.startTag tag attributes selfClosing :: .endTag tag :: us)

/-- Whether the rules that are in force after the start tag of a void element may be these. Between
head and body and in the head they are so after content of the head alone. -/
def Builder.Passes (b : Builder) (tag : Text) : Prop :=
  b.mode = .phase .inBody ∨
    (b.mode = .phase .inHead ∨ b.mode = .phase .afterHead) ∧ tag ∈ Category.headLeaves

variable {late plain selfClosing : Bool} {b c : Builder} {tag : Text} {attributes : List Attribute}
  {ts us : List Token}

/-! ### One element -/

theorem mode_insertLateHeadContent (h : tag ∈ Category.headLeaves) :
    (b.insertLateHeadContent tag attributes).mode = b.mode := by
  have hleaf : ∀ b : Builder, b.insertHeadContent .afterHead tag attributes =
      b.insertLeaf tag attributes := fun b => if_pos (List.contains_iff_mem.2 h)
  unfold Builder.insertLateHeadContent
  split
  · rfl
  · exact (congrArg Builder.mode (hleaf _)).trans rfl

/-- Where the start tag of a void element leaves construction. -/
theorem Builder.passes_process (hv : tag ∈ Vocabulary.voidElements)
    (hm : ∀ p, b.mode ≠ .plainText p) :
    (b.process (.startTag tag attributes selfClosing)).Passes tag := by
  have hfacts : ∀ v ∈ Vocabulary.voidElements, v ≠ "html".toList ∧ v ≠ "head".toList ∧
      v ≠ "body".toList ∧ v ≠ "noscript".toList ∧
      (Category.headContent.contains v = true → v ∈ Category.headLeaves) := by
    decide
  obtain ⟨hhtml, hhead, hbody, hnoscript, hleaf⟩ := hfacts tag hv
  generalize ht : Token.startTag tag attributes selfClosing = t
  fun_induction Builder.process b t with
  | case1 b b' hr =>
      subst ht
      unfold rules at hr
      split at hr
      · cases hr
      · rw [beforeHtmlRules, if_neg hhtml] at hr
        cases hr
      · rw [beforeHeadRules, if_neg hhtml, if_neg hhead] at hr
        cases hr
      · next hmode =>
          rw [inHeadRules, if_neg hhtml, if_neg hhead] at hr
          by_cases hc : tag = "noscript".toList ∨ Category.headContent.contains tag = true
          · have hl := hleaf (hc.resolve_left hnoscript)
            rw [if_pos hc, insertHeadContent, if_pos (List.contains_iff_mem.2 hl)] at hr
            cases hr
            exact .inr ⟨.inl hmode, hl⟩
          · rw [if_neg hc] at hr
            cases hr
      · next hmode =>
          rw [afterHeadRules, if_neg hhtml, if_neg hbody, if_neg hhead] at hr
          by_cases hc : Category.headContent.contains tag = true
          · rw [if_pos hc] at hr
            cases hr
            exact .inr ⟨.inr ((mode_insertLateHeadContent (hleaf hc)).trans hmode), hleaf hc⟩
          · rw [if_neg hc] at hr
            cases hr
      · next hmode =>
          rw [inBodyRules, bodyStartTag_void hv] at hr
          cases hr
          left
          split
          · exact (Closes.endParagraph b).mode.trans hmode
          · exact hmode
      · rw [afterBodyRules, if_neg hhtml] at hr
        cases hr
      · rw [afterAfterBodyRules, if_neg hhtml] at hr
        cases hr
      · next hmode => exact absurd hmode (hm _)
  | case2 b next b' hr ih => exact ih fun p hp => by cases hp

/-- The end tag of a void element right after its start tag. -/
theorem Builder.Passes.process_endTag (h : b.Passes tag) (hv : tag ∈ Vocabulary.voidElements) :
    b.Covered (b.process (.endTag tag)) := by
  have hfacts : ∀ v ∈ Category.headLeaves, v ≠ "head".toList ∧
      ¬ (v = "noscript".toList ∨ v = "template".toList) ∧ Category.structural.contains v = false ∧
      Vocabulary.isVoid v = true := by
    decide
  rcases h with hm | ⟨hm | hm, hleaf⟩
  · have hr : b.rules (.endTag tag) = .settled b := by
      rw [rules, hm]
      exact bodyEndTag_void hv
    rw [process_of_settled hr]
    exact .refl b
  · obtain ⟨hhead, hopen, hstructural, hvoid⟩ := hfacts tag hleaf
    have hr : b.rules (.endTag tag) = .settled b := by
      rw [rules, hm]
      simp only [inHeadRules, if_neg hhead, hopen, false_and, hstructural, hvoid, if_true, if_false,
        Bool.false_eq_true]
    rw [process_of_settled hr]
    exact .refl b
  · obtain ⟨-, -, hstructural, -⟩ := hfacts tag hleaf
    have hr : b.rules (.endTag tag) = .settled (b.note (.strayEndTag tag)) := by
      rw [rules, hm]
      simp only [afterHeadRules, hstructural, Bool.false_eq_true, and_false, if_false]
    rw [process_of_settled hr]
    exact (Covered.refl b).noteMore _

/-! ### Runs -/

/-- The end tag takes effect nowhere in what follows either. -/
theorem Builder.Awaits.run_startTag
    (h : b.Awaits (.startTag tag attributes selfClosing :: ts)) (hv : Vocabulary.isVoid tag = true)
    (us : List Token) :
    (b.run (.startTag tag attributes selfClosing :: us)).Covered
      (b.run (.startTag tag attributes selfClosing :: .endTag tag :: us)) := by
  have hmem : tag ∈ Vocabulary.voidElements := by
    rw [← h.lower tag attributes selfClosing List.mem_cons_self]
    exact Source.lower_mem_of_isVoid hv
  have hp : (b.process (.startTag tag attributes selfClosing)).Passes tag :=
    passes_process hmem h.mode_ne
  rw [run, run]
  refine rel_ite .rfl (fun _ => .refl b) fun _ => ?_
  generalize hc : { b.process (.startTag tag attributes selfClosing) with
    position := b.position + 1 } = c
  have hpasses : c.Passes tag := hc ▸ hp
  rw [run]
  split
  · next hs =>
      rw [run_of_stopped hs]
      exact .refl c
  · exact Covered.run ((hpasses.process_endTag hmem).trans (simulation_covered.moveOn (.refl _) _ _)) us

/-- A token that both runs begin with. -/
theorem Builder.Awaits.run_keep (hb : b.Awaits (t :: ts))
    (ih : ∀ c : Builder, c.Awaits ts → (c.run ts).Covered (c.run us)) :
    (b.run (t :: ts)).Covered (b.run (t :: us)) := by
  rw [Builder.run, Builder.run]
  refine rel_ite .rfl (fun _ => .refl b) fun _ => ?_
  rcases hb.process (b.position + 1) with hs | hb'
  · rw [Builder.run_of_stopped hs, Builder.run_of_stopped hs]
    exact .refl _
  · exact ih _ hb'

/-- Construction goes the same way with the end tags and without them. -/
theorem VoidsClosed.run (h : VoidsClosed ts us) (hb : b.Awaits ts) :
    (b.run ts).Covered (b.run us) := by
  induction h generalizing b with
  | nil => exact .refl b
  | keep t _ ih => exact hb.run_keep fun _ => ih
  | close attributes selfClosing hv _ ih =>
      exact (hb.run_keep fun _ => ih).trans (hb.run_startTag hv _)

/-- The tree that construction builds does not depend on which void elements have an end tag right after
their start tag, and such end tags do away with no repair. -/
theorem construct_voidsClosed {u : Text} (h : VoidsClosed (Token.ofText u) ts) :
    (construct ts).1 = (construct (Token.ofText u)).1 ∧
      ((construct (Token.ofText u)).2.map Issue.cause).Sublist
        ((construct ts).2.map Issue.cause) :=
  have hrun := h.run (awaits_start u)
  ⟨hrun.tree, hrun.repairs⟩

/-- A stray end tag between head and body, and one of the kind that opens a body before it. -/
theorem construct_voidsClosed_afterHead :
    let ts : List Token := [.startTag "head" [] false, .endTag "head", .startTag "link" [] false,
      .endTag "link", .startTag "br" [] false, .endTag "br", .endOfFile]
    VoidsClosed (Token.ofText "<head></head><link><br>") ts ∧
      (construct ts).1 = (construct (Token.ofText "<head></head><link><br>")).1 ∧
      ((construct (Token.ofText "<head></head><link><br>")).2.map Issue.cause).Sublist
        ((construct ts).2.map Issue.cause) := by
  intro ts
  have htokens : Token.ofText "<head></head><link><br>" =
      [.startTag "head" [] false, .endTag "head", .startTag "link" [] false,
        .startTag "br" [] false, .endOfFile] := by
    decide +kernel
  have hclosed : VoidsClosed (Token.ofText "<head></head><link><br>") ts := by
    rw [htokens]
    exact .keep _ (.keep _ (.close _ _ rfl (.close _ _ rfl (.keep _ .nil))))
  exact ⟨hclosed, construct_voidsClosed hclosed⟩

end AmpMarkup.Html
