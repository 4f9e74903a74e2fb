import AmpMarkup.Html.Construction

/-! Reading a document with consecutive characters of a text taken together. The main statement is
that the document is the one that construction builds token by token. -/

namespace AmpMarkup.Html

open Dom (Tree)

/-- The character of a character token. -/
def Token.character? : Token → Option Char
  | .character c => some c
  | _ => none

/-- Whether the rules of a mode add a token to the text and do nothing else with it. -/
def Mode.takesAsText : Mode → Token → Bool
  | .phase .inBody, .character c => c != '\x00'
  | .plainText _, .character _ => true
  | _, _ => false

namespace Builder

/-- Settles the tokens of a text at once. -/
def runText (b : Builder) (tokens : List Token) : Builder :=
  { b.insertText (tokens.filterMap Token.character?) with
    position := b.position + tokens.length }

/-- Settles tokens in order, those of a text at once. -/
def runByText (b : Builder) : List Token → Builder
  | [] => b
  | t :: ts =>
    if b.stopped then b
    else if b.mode.takesAsText t then
      (b.runText (t :: ts.takeWhile b.mode.takesAsText)).runByText
        (ts.dropWhile b.mode.takesAsText)
    else { b.process t with position := b.position + 1 }.runByText ts
termination_by ts => ts.length
decreasing_by
  · exact Nat.lt_succ_of_le (List.dropWhile_sublist _).length_le
  · simp

theorem run_of_stopped {b : Builder} (h : b.stopped = true) (ts : List Token) : b.run ts = b := by
  cases ts <;> simp [run, h]

theorem run_cons {b : Builder} (h : b.stopped = false) (t : Token) (ts : List Token) :
    b.run (t :: ts) = { b.process t with position := b.position + 1 }.run ts := by
  rw [run, h, if_neg Bool.false_ne_true]

theorem run_append (b : Builder) (s t : List Token) : b.run (s ++ t) = (b.run s).run t := by
  induction s generalizing b with
  | nil => rfl
  | cons x s ih =>
      by_cases h : b.stopped = true
      · simp [run, h, run_of_stopped h]
      · simp [run, h, ih]

theorem process_of_settled {b b' : Builder} {t : Token} (h : b.rules t = .settled b') :
    b.process t = b' := by
  rw [process]
  split <;> simp_all

theorem process_of_passed {b b' : Builder} {t : Token} {next : Phase}
    (h : b.rules t = .passed next b') : b.process t = (b'.enter next).process t := by
  rw [process]
  split <;> simp_all

theorem process_of_takesAsText {b : Builder} {t : Token} (h : b.mode.takesAsText t = true) :
    ∃ c, t.character? = some c ∧ b.process t = b.insertText [c] := by
  unfold Mode.takesAsText at h
  split at h
  · next c hm =>
      refine ⟨c, rfl, process_of_settled ?_⟩
      have hc : c ≠ '\x00' := by simpa using h
      have hr : b.rules (.character c) = b.inBodyRules (.character c) := by rw [rules, hm]
      rw [hr]
      exact if_neg hc
  · next c hm =>
      refine ⟨c, rfl, process_of_settled ?_⟩
      rw [rules, hm]
      rfl
  · simp at h

theorem insertText_insertText (b : Builder) (position : Nat) (first second : Text) :
    { b.insertText first with position := position }.insertText second =
      { b.insertText (first ++ second) with position := position } := by
  simp only [insertText, current, Tree.appendText_appendText]

/-- The tokens of a text may be settled at once. -/
theorem run_eq_runText {b : Builder} (hb : b.stopped = false) {t : Token} {ts : List Token}
    (h : ∀ x ∈ t :: ts, b.mode.takesAsText x = true) : b.run (t :: ts) = b.runText (t :: ts) := by
  induction ts generalizing b t with
  | nil =>
      obtain ⟨c, hc, hp⟩ := process_of_takesAsText (h t List.mem_cons_self)
      simp [run, runText, hb, hp, hc]
  | cons t' ts ih =>
      obtain ⟨c, hc, hp⟩ := process_of_takesAsText (h t List.mem_cons_self)
      rw [run_cons hb, hp, ih (by exact hb)
        (by exact fun x hx => h x (List.mem_cons_of_mem _ hx)), runText, runText,
        insertText_insertText, List.filterMap_cons_some hc, List.singleton_append]
      simp only [List.length_cons, Nat.add_assoc, Nat.add_comm 1]

theorem runByText_eq_run (b : Builder) (ts : List Token) : b.runByText ts = b.run ts := by
  fun_induction runByText b ts with
  | case1 => rfl
  | case2 b t ts h => rw [run_of_stopped h]
  | case3 b t ts h ht ih =>
      rw [ih, ← run_eq_runText (by simpa using h), ← run_append, List.cons_append,
        List.takeWhile_append_dropWhile]
      intro x hx
      rcases List.mem_cons.1 hx with rfl | hx
      · exact ht
      · exact List.all_eq_true.1 List.all_takeWhile x hx
  | case4 b t ts h ht ih => rw [ih, run, if_neg h]

end Builder

/-- The document that a text describes, with the repairs that it took. -/
def parse (t : Text) : Tree × List Issue :=
  let b := Builder.start.runByText (Token.ofText t)
  (b.tree, b.issues)

/-- Reading a text is construction from its tokens. -/
theorem parse_eq_construct (t : Text) : parse t = construct (Token.ofText t) := by
  rw [parse, construct, Builder.runByText_eq_run]

end AmpMarkup.Html
