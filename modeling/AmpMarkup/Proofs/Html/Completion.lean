import AmpMarkup.Html.TextRun
import AmpMarkup.Proofs.Html.Preservation

/-! Construction from any tokens that end with the end of the input completes the structure of the
document, and which structure it is depends on one thing: whether a `template` start tag comes
between head and body. -/

namespace AmpMarkup.Html

open Dom (Tree NodeId)

variable {late : Bool} {b b' : Builder} {p next : Phase} {t : Token} {ts : List Token}

/-- Among the tokens to come there is a `template` start tag that comes between head and body. -/
def Builder.MeetsLateTemplate (b : Builder) (tokens : List Token) : Prop :=
  ∃ before t after, tokens = before ++ t :: after ∧ (b.run before).opensLateTemplate t = true

/-! ### One token -/

theorem Building.plainTextRules (h : Building late b) (hm : b.mode = .plainText p) :
    (b.plainTextRules p t).Keeps late := by
  have hstage := h.stage
  rw [hm] at hstage
  obtain ⟨id, stack, ho, hstage⟩ := hstage
  have hclosed : ∀ b' : Builder, b'.tree = b.tree → b'.head = b.head → b'.stopped = b.stopped →
      b'.openElements = stack → Building late (b'.enter p) := by
    intro b' ht hh hs ho'
    have hsame : Dom.Tree.SameElements b.tree b'.tree := by
      rw [ht]
      exact .refl h.sound.bounded
    have hsound : b'.Sound := h.sound.same hsame fun i hi => by
      rw [ho]
      exact List.mem_cons_of_mem _ (ho' ▸ hi)
    refine .enter hsound (hs.trans h.running) ?_
    rw [ht, hh, ho']
    exact hstage
  have htail : b.openElements.tail = stack := by rw [ho, List.tail_cons]
  cases t with
  | character c => exact .inl (h.insertText _)
  | endOfFile => exact hclosed (b.note .endInsideText).pop rfl rfl rfl htail
  | doctype | startTag | endTag | comment => exact .inl (hclosed b.pop rfl rfl rfl htail)

theorem Builder.opensLateTemplate_of_mode_ne (h : b.mode ≠ .phase .afterHead) :
    b.opensLateTemplate t = false := by
  rw [opensLateTemplate, beq_false_of_ne h, Bool.false_and]

theorem Building.rules (h : Building late b) (t : Token) :
    (b.rules t).Keeps (late || b.opensLateTemplate t) := by
  by_cases hafter : b.mode = .phase .afterHead
  · rw [Builder.rules, Builder.opensLateTemplate, hafter, beq_self_eq_true, Bool.true_and]
    exact h.afterHeadRules hafter
  · rw [Builder.opensLateTemplate_of_mode_ne hafter, Bool.or_false]
    unfold Builder.rules
    split
    · next hm => exact h.initialRules hm
    · next hm => exact h.beforeHtmlRules hm
    · next hm => exact h.beforeHeadRules hm
    · next hm => exact h.inHeadRules hm
    · next hm => exact absurd hm hafter
    · next hm => exact h.inBodyRules hm
    · next hm => exact h.afterBodyRules hm
    · next hm => exact h.afterAfterBodyRules hm
    · next hm => exact h.plainTextRules hm

/-- A `template` start tag is not passed on to the rules between head and body. -/
theorem Builder.opensLateTemplate_of_passed (h : b.rules t = .passed next b') :
    (b'.enter next).opensLateTemplate t = false := by
  by_cases ht : t.isTemplateStart = true
  · refine opensLateTemplate_of_mode_ne fun hm => ?_
    obtain rfl : next = .afterHead := Mode.phase.inj hm
    cases t with
    | startTag tag attributes selfClosing =>
        obtain rfl : tag = "template".toList := by simpa [Token.isTemplateStart] using ht
        have hmode : b.mode = .phase .inHead := by
          have hs := successor?_of_passed h
          generalize b.mode = m at hs ⊢
          cases m with
          | plainText resume => cases hs
          | phase p => cases p <;> first | rfl | cases hs
        rw [rules, hmode] at h
        cases h
    | doctype | endTag | comment | character | endOfFile => cases ht
  · rw [opensLateTemplate, Bool.eq_false_iff.2 ht, Bool.and_false]

theorem Building.process (h : Building late b) (t : Token) :
    Building (late || b.opensLateTemplate t) (b.process t) ∨
      Complete (late || b.opensLateTemplate t) (b.process t) := by
  fun_induction Builder.process b t generalizing late with
  | case1 b b' hr =>
      have := h.rules t
      rw [hr] at this
      exact this
  | case2 b next b' hr ih =>
      have hk := h.rules t
      rw [hr] at hk
      have := ih hk
      rwa [Builder.opensLateTemplate_of_passed hr, Bool.or_false] at this

/-! ### All tokens -/

/-- The end of the input stops construction. -/
theorem Builder.process_endOfFile (b : Builder) : (b.process .endOfFile).stopped = true := by
  generalize ht : Token.endOfFile = t
  fun_induction Builder.process b t with
  | case1 b b' hr =>
      subst ht
      unfold Builder.rules at hr
      split at hr <;> cases hr
      all_goals rfl
  | case2 b next b' hr ih => exact ih

theorem Builder.not_meetsLateTemplate_nil : ¬ b.MeetsLateTemplate [] := by
  rintro ⟨before, t, after, he, -⟩
  exact List.cons_ne_nil _ _ (List.append_eq_nil_iff.1 he.symm).2

theorem Builder.meetsLateTemplate_cons (hb : b.stopped = false) :
    b.MeetsLateTemplate (t :: ts) ↔ b.opensLateTemplate t = true ∨
      { b.process t with position := b.position + 1 }.MeetsLateTemplate ts := by
  constructor
  · rintro ⟨before, u, after, he, hu⟩
    cases before with
    | nil =>
        obtain ⟨rfl, rfl⟩ := List.cons.inj he
        exact .inl hu
    | cons v before =>
        obtain ⟨rfl, rfl⟩ := List.cons.inj he
        exact .inr ⟨before, u, after, rfl, Builder.run_cons hb t before ▸ hu⟩
  · rintro (ht | ⟨before, u, after, rfl, hu⟩)
    · exact ⟨[], t, ts, rfl, ht⟩
    · exact ⟨t :: before, u, after, rfl, (Builder.run_cons hb t before).symm ▸ hu⟩

/-- Once construction has ended nothing changes any more. -/
theorem Complete.not_meetsLateTemplate (h : Complete late b) (ts : List Token) :
    ¬ b.MeetsLateTemplate ts := by
  rintro ⟨before, t, after, -, ht⟩
  rw [Builder.run_of_stopped h.stopped, Builder.opensLateTemplate_of_mode_ne h.mode_ne] at ht
  cases ht

/-- All tokens keep the structure of the document. -/
theorem Building.run (h : Building late b) (ts : List Token) :
    ∃ late', (late' = true ↔ late = true ∨ b.MeetsLateTemplate ts) ∧
      (Building late' (b.run ts) ∨ Complete late' (b.run ts)) := by
  induction ts generalizing b late with
  | nil =>
      exact ⟨late, ⟨.inl, fun hl => hl.resolve_right Builder.not_meetsLateTemplate_nil⟩, .inl h⟩
  | cons t ts ih =>
      rw [Builder.meetsLateTemplate_cons h.running, ← or_assoc, ← Bool.or_eq_true, 
        Builder.run_cons h.running]
      rcases h.process t with hb | hc
      · exact ih (hb.same (.refl hb.sound.bounded) rfl rfl rfl rfl)
      · have hc' : Complete (late || b.opensLateTemplate t)
            { b.process t with position := b.position + 1 } := ⟨hc.stopped, hc.mode_ne, hc.spine⟩
        refine ⟨_, ⟨.inl, fun hl => hl.resolve_right (hc'.not_meetsLateTemplate ts)⟩, .inr ?_⟩
        rw [Builder.run_of_stopped hc'.stopped]
        exact hc'

theorem building_start : Building false Builder.start :=
  .of_stage Builder.start_sound rfl (p := .initial) rfl ⟨rfl, rfl, rfl⟩

/-- The tokens of a text end with the end of the input. -/
theorem State.exists_tokens_eq (state : State) (u : Text) :
    ∃ ts, state.tokens u = ts ++ [.endOfFile] := by
  fun_induction State.tokens state u with
  | case1 state => exact ⟨state.finish, rfl⟩
  | case2 state c rest ih =>
      obtain ⟨ts, hts⟩ := ih
      exact ⟨(state.step c rest).tokens ++ ts, by rw [hts, List.append_assoc]⟩

/-- The document of a text has its whole structure, with the body below the document element unless a
`template` start tag comes between head and body. -/
theorem exists_spine (u : Text) :
    ∃ s : Spine, s.In (parse u).1 ∧
      (s.templates ≠ [] ↔ Builder.start.MeetsLateTemplate (Token.ofText u)) := by
  obtain ⟨ts, hts⟩ := State.exists_tokens_eq (.content .markup) u
  obtain ⟨late, hlate, hrun⟩ := building_start.run (Token.ofText u)
  have hstopped : (Builder.start.run (Token.ofText u)).stopped = true := by
    rw [Token.ofText, hts, Builder.run_append, Builder.run]
    split
    · next hs => exact hs
    · exact Builder.process_endOfFile _
  rcases hrun with hb | hc
  · rw [hb.running] at hstopped
    cases hstopped
  · obtain ⟨s, hl, hin⟩ := hc.spine
    refine ⟨s, ?_, ?_⟩
    · rw [parse_eq_construct]
      exact hin
    · refine Iff.trans ?_ (hlate.trans (or_iff_right Bool.false_ne_true))
      rw [hl]
      simp

end AmpMarkup.Html
