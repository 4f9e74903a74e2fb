import Mathlib.Logic.Relation
import AmpMarkup.Proofs.Html.Growth

/-! Construction comes to an end with every token. The rules of a mode settle a token or pass it on to
those of a phase, which may pass it on again; no token is passed on more than six times, whatever
has been built. So any sequence of tokens is settled token by token, up to the first end of the input. -/

namespace AmpMarkup.Html

open Dom (Tree NodeId)

/-- `</html>` is the one token that the rules for the body pass on. -/
def Token.leavesBody (t : Token) : Nat :=
  if t = .endTag "html" then 1 else 0

/-- How often at most a token is still passed on by the rules of a phase and those after it. Up to the
body each phase passes it to the next one, and what the phases after the body do not take goes back to
the body. A closer bound than `Phase.rank`. -/
def Phase.passes (t : Token) : Phase → Nat
  | .initial => t.leavesBody + 5
  | .beforeHtml => t.leavesBody + 4
  | .beforeHead => t.leavesBody + 3
  | .inHead => t.leavesBody + 2
  | .afterHead => t.leavesBody + 1
  | .inBody => t.leavesBody
  | .afterBody => 1 - t.leavesBody
  | .afterAfterBody => t.leavesBody + 1

/-- Plain text passes on the end of the input alone. -/
def Mode.passes (t : Token) : Mode → Nat
  | .phase p => p.passes t
  | .plainText resume => if t = .endOfFile then resume.passes t + 1 else 0

namespace Builder

/-- A token is passed on from one state to another. -/
def PassesOn (t : Token) (b c : Builder) : Prop :=
  ∃ next d, b.rules t = .passed next d ∧ c = d.enter next

/-- A token is settled after it has been passed on `n` times. -/
inductive Settles (t : Token) : Builder → Nat → Builder → Prop where
  | settled {b c : Builder} : b.rules t = .settled c → Settles t b 0 c
  | passed {b c d : Builder} {n : Nat} : b.PassesOn t c → Settles t c n d → Settles t b (n + 1) d

/-- Tokens are settled one after the other, none of them after construction has stopped. -/
inductive Handles : Builder → List Token → Builder → Prop where
  | nil (b : Builder) : Handles b [] b
  | cons {b c d : Builder} {t : Token} {ts : List Token} {n : Nat} : b.stopped = false →
      b.Settles t n c → Handles { c with position := b.position + 1 } ts d → Handles b (t :: ts) d

/-- A state in which the rules meet one of some tokens, at first or after it has been passed on. -/
def ReachedOn (ts : List Token) (b : Builder) : Prop :=
  ∃ handled t rest c, ts = handled ++ t :: rest ∧ start.Handles handled c ∧ c.stopped = false ∧
    Relation.ReflTransGen (PassesOn t) c b

/-- The nodes that the rules go by are elements of the tree: the open elements and, between head and
body, the head. -/
def NamesElements (b : Builder) : Prop :=
  (∀ id ∈ b.openElements, b.tree.isElement id = true) ∧
    (b.mode = .phase .afterHead → ∃ id, b.head = some id ∧ b.tree.isElement id = true)

variable {late : Bool} {b c d : Builder} {t : Token} {ts : List Token} {next : Phase} {n : Nat}

/-! ### One token -/

theorem passes_le (t : Token) (m : Mode) : m.passes t ≤ 6 := by
  have hleaves : t.leavesBody ≤ 1 := by
    unfold Token.leavesBody
    split <;> decide
  cases m with
  | phase p => cases p <;> simp only [Mode.passes, Phase.passes] <;> omega
  | plainText p =>
      rw [Mode.passes]
      split
      · next ht =>
          subst ht
          cases p <;> decide
      · exact Nat.zero_le 6

/-- Passing a token on leaves fewer times to pass it on. -/
theorem passes_lt (h : b.rules t = .passed next c) : next.passes t < b.mode.passes t := by
  have hs := successor?_of_passed h
  generalize b.mode = m at hs ⊢
  cases m with
  | plainText resume =>
      obtain ⟨rfl, rfl⟩ : t = .endOfFile ∧ resume = next := by simpa [Mode.successor?] using hs
      exact Nat.lt_succ_self _
  | phase p =>
      cases p with
      | inBody =>
          obtain ⟨rfl, rfl⟩ : t = .endTag "html" ∧ .afterBody = next := by
            simpa [Mode.successor?] using hs
          decide
      | afterBody =>
          obtain ⟨ht, rfl⟩ : t ≠ .endTag "html" ∧ .inBody = next := by
            simpa [Mode.successor?] using hs
          have hleaves : t.leavesBody = 0 := if_neg ht
          rw [Mode.passes, Phase.passes, Phase.passes, hleaves]
          decide
      | initial | beforeHtml | beforeHead | inHead | afterHead | afterAfterBody =>
          cases hs
          exact Nat.lt_succ_self _

theorem Settles.process_eq (h : b.Settles t n c) : b.process t = c := by
  induction h with
  | settled hr => exact process_of_settled hr
  | passed hp _ ih =>
      obtain ⟨next, d, hr, rfl⟩ := hp
      exact (process_of_passed hr).trans ih

theorem exists_settles (b : Builder) (t : Token) :
    ∃ n ≤ b.mode.passes t, b.Settles t n (b.process t) := by
  fun_induction process b t with
  | case1 b c hr => exact ⟨0, Nat.zero_le _, .settled hr⟩
  | case2 b next c hr ih =>
      obtain ⟨n, hn, hs⟩ := ih
      exact ⟨n + 1, Nat.lt_of_le_of_lt hn (passes_lt hr), .passed ⟨next, c, hr, rfl⟩ hs⟩

/-! ### All tokens -/

/-- Tokens are handled up to the end of the input, which alone stops construction. -/
theorem exists_handles (b : Builder) (ts : List Token) :
    ∃ handled rest, ts = handled ++ rest ∧ b.Handles handled (b.run ts) ∧
      (rest = [] ∨ (b.run ts).stopped = true) ∧
      ((b.run ts).stopped = true ↔ b.stopped = true ∨ .endOfFile ∈ handled) := by
  induction ts generalizing b with
  | nil => exact ⟨[], [], rfl, .nil b, .inl rfl, by simp [run]⟩
  | cons t ts ih =>
      by_cases hb : b.stopped = true
      · rw [run_of_stopped hb]
        exact ⟨[], t :: ts, rfl, .nil b, .inr hb, by simp [hb]⟩
      · rw [Bool.not_eq_true] at hb
        obtain ⟨n, -, hs⟩ := b.exists_settles t
        obtain ⟨handled, rest, rfl, hh, hrest, hstop⟩ :=
          ih { b.process t with position := b.position + 1 }
        rw [run_cons hb]
        refine ⟨t :: handled, rest, rfl, .cons hb hs hh, hrest, hstop.trans ?_⟩
        simp only [stopped_process, hb, List.mem_cons, Bool.false_eq_true, false_or,
          eq_comm (a := t)]

/-! ### The elements that the rules go by -/

theorem Settles.building (h : Building late b) (hs : b.Settles t n c) (hc : c.stopped = false) :
    ∃ late, Building late c := by
  rw [← hs.process_eq] at hc ⊢
  rcases h.process t with hb | hb
  · exact ⟨_, hb⟩
  · rw [hb.stopped] at hc
    cases hc

theorem Handles.building (h : Building late b) (hh : b.Handles ts c) (hc : c.stopped = false) :
    ∃ late, Building late c := by
  induction hh generalizing late with
  | nil b => exact ⟨late, h⟩
  | @cons b c d t ts n hb hs hh ih =>
      -- The state behind the token is the last one, or another token is handled in it.
      have hrunning : c.stopped = false := by
        cases hh with
        | nil => exact hc
        | cons hrunning => exact hrunning
      obtain ⟨late, hbuilding⟩ := hs.building h hrunning
      exact ih (hbuilding.same (.refl hbuilding.sound.bounded) rfl rfl rfl rfl) hc

theorem PassesOn.building (h : Building late b) (hp : b.PassesOn t c) : ∃ late, Building late c := by
  obtain ⟨next, d, hr, rfl⟩ := hp
  have hk := h.rules t
  rw [hr] at hk
  exact ⟨_, hk⟩

theorem ReachedOn.building (h : b.ReachedOn ts) : ∃ late, Building late b := by
  obtain ⟨handled, t, rest, c, rfl, hh, hc, hp⟩ := h
  induction hp with
  | refl => exact hh.building building_start hc
  | tail _ hp ih =>
      obtain ⟨late, hb⟩ := ih
      exact hp.building hb

theorem NamesElements.of_building (h : Building late b) : b.NamesElements := by
  refine ⟨h.sound.opened, fun hm => ?_⟩
  obtain ⟨html, id, templates, -, -, -, hid, htag, -⟩ := h.stage_of_phase hm
  refine ⟨id, hid, ?_⟩
  rw [← Tree.isSome_tag?, htag]
  rfl

end Builder

/-- Construction from any tokens comes to an end. Each token is settled after it has been passed on
at most six times, and all tokens are handled up to the first end of the input. -/
theorem construct_settles (ts : List Token) :
    (∀ (b : Builder) (t : Token), ∃ n ≤ 6, b.Settles t n (b.process t)) ∧
      (∀ b : Builder, b.ReachedOn ts → b.NamesElements) ∧
      ∃ handled rest c, ts = handled ++ rest ∧ Builder.start.Handles handled c ∧
        construct ts = (c.tree, c.issues) ∧ (rest = [] ∨ c.stopped = true) ∧
        (c.stopped = true ↔ .endOfFile ∈ handled) := by
  refine ⟨fun b t => ?_, fun b hb => ?_, ?_⟩
  · obtain ⟨n, hn, hs⟩ := b.exists_settles t
    exact ⟨n, hn.trans (Builder.passes_le t b.mode), hs⟩
  · obtain ⟨late, hbuilding⟩ := hb.building
    exact .of_building hbuilding
  · obtain ⟨handled, rest, hts, hh, hrest, hstop⟩ := Builder.start.exists_handles ts
    exact ⟨handled, rest, _, hts, hh, rfl, hrest, hstop.trans (or_iff_right Bool.false_ne_true)⟩

/-- Six times is how often `</html>` is passed on before anything of the document: through all
phases up to the one after the body. -/
theorem construct_settles_htmlEnd :
    Builder.start.Settles (.endTag "html") 6 (Builder.start.process (.endTag "html")) ∧
      ∃ b : Builder, b.mode = .phase .afterHead ∧ b.ReachedOn [.endTag "html"] ∧
        b.NamesElements := by
  constructor
  · have hsettles := Builder.Settles.passed (t := .endTag "html") (b := .start) ⟨_, _, rfl, rfl⟩
      (.passed ⟨_, _, rfl, rfl⟩ (.passed ⟨_, _, rfl, rfl⟩ (.passed ⟨_, _, rfl, rfl⟩
        (.passed ⟨_, _, rfl, rfl⟩ (.passed ⟨_, _, rfl, rfl⟩ (.settled rfl))))))
    rw [hsettles.process_eq]
    exact hsettles
  · have hreached : Builder.ReachedOn [.endTag "html"] _ := ⟨[], _, [], .start, rfl, .nil _, rfl,
      .tail (.tail (.tail (.tail .refl ⟨_, _, rfl, rfl⟩) ⟨_, _, rfl, rfl⟩) ⟨_, _, rfl, rfl⟩)
        ⟨_, _, rfl, rfl⟩⟩
    exact ⟨_, rfl, hreached, (construct_settles _).2.1 _ hreached⟩

end AmpMarkup.Html
