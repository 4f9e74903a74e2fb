import AmpMarkup.Proofs.Pattern.Parts

/-! One step of the reader in a pattern by itself, and the same step where `)$` stands behind the pattern and
further groups are open around it. Both lead on in the same way, or by itself the pattern cannot be read any
more and nothing comes out of the other reader either. -/

namespace AmpMarkup.Pattern

namespace Reader

/-- The flags that hold again once all levels are closed, the innermost level first. -/
def baseFlags (l : Level) : List Level → Flags
  | [] => l.outer
  | m :: around => baseFlags m around

/-- The flags that held before the reader began. -/
def base (r : Reader) : Flags :=
  baseFlags r.level r.around

/-- A reader with something else left to read and with further levels around all others. -/
def enclosed (r : Reader) (rest : Text) (outer : List Level) : Reader :=
  { r with rest := rest, around := r.around ++ outer }

/-- No pattern comes out of a reader. -/
def Dead (r : Reader) : Prop :=
  ∀ bound, r.run? bound = none

/-- A step by itself and the same step with `)$` behind the pattern and further levels around. They lead to
the same reader, or neither of them leads to a pattern. -/
inductive Steps (w : Text) (base : Flags) : Option Reader → (List Level → Option Reader) → Prop where
  | some {s : Reader} {rest' : Text} {step : List Level → Option Reader} (h : Continued w s.rest rest')
      (hbase : s.base = base) (hstep : ∀ outer, step outer = some (s.enclosed rest' outer)) :
      Steps w base (some s) step
  | none {step : List Level → Option Reader}
      (h : ∀ outer, outer ≠ [] → ∀ s', step outer = Option.some s' → s'.Dead) : Steps w base none step

variable {α : Type} {w t t' u : Text} {r : Reader} {c : Char} {set : OpenSet} {sets : List OpenSet}

/-! ### Readers without an end -/

theorem run?_of_nil {bound : Nat} (h : r.flags.skip r.rest = []) : r.run? bound = r.finish? := by
  rw [run?.eq_def]
  simp only [h]

theorem run?_zero_of_cons (h : r.flags.skip r.rest = c :: t) : r.run? 0 = none := by
  rw [run?.eq_def]
  simp only [h]

theorem run?_succ_of_cons {bound : Nat} (h : r.flags.skip r.rest = c :: t) :
    r.run? (bound + 1) = (r.step? c t).bind (run? bound) := by
  rw [run?.eq_def]
  simp only [h]

theorem dead_of_cons (h : r.flags.skip r.rest = c :: t) (hstep : ∀ s, r.step? c t = some s → s.Dead) :
    r.Dead := by
  intro bound
  cases bound with
  | zero => exact run?_zero_of_cons h
  | succ bound =>
      rw [run?_succ_of_cons h]
      cases hs : r.step? c t with
      | none => rfl
      | some s => exact hstep s hs bound

theorem finish?_eq_none (h : r.around ≠ [] ∨ r.sets ≠ []) : r.finish? = none := by
  rw [finish?]
  split
  · next haround hsets => exact (h.elim (· haround) (· hsets)).elim
  · rfl

theorem dead_of_nil (hskip : r.flags.skip r.rest = []) (h : r.around ≠ [] ∨ r.sets ≠ []) : r.Dead :=
  fun _ => (run?_of_nil hskip).trans (finish?_eq_none h)

theorem skip_nil (fs : Flags) : fs.skip [] = [] := by
  rw [Flags.skip]
  split <;> rfl

/-- A dollar sign at the end closes neither a group nor a set. -/
theorem dead_of_dollar (h : r.around ≠ [] ∨ r.sets ≠ []) (hrest : r.rest = ['$']) : r.Dead := by
  have hskip : r.flags.skip r.rest = ['$'] := by rw [hrest, Flags.skip_cons _ (by decide) (by decide)]
  refine dead_of_cons hskip fun s hs => ?_
  cases hsets : r.sets with
  | nil =>
      rw [step?, hsets] at hs
      cases hs
      exact dead_of_nil (skip_nil _) (h.imp_right fun hne => absurd hsets hne)
  | cons set sets =>
      have hnone : readSetRange? r.flags ['$'] = none := by
        rw [readSetRange?, readSetItem?]
        simp only [skip_nil, Option.bind_eq_bind, Option.bind_some]
        decide
      rw [step?, hsets] at hs
      obtain ⟨x, hx, -⟩ := Option.map_eq_some_iff.mp hs
      rw [hnone] at hx
      cases hx

/-- Neither does `)$` close a set. -/
theorem dead_of_closing (h : r.sets ≠ []) (hskip : r.flags.skip r.rest = [')', '$']) : r.Dead := by
  refine dead_of_cons hskip fun s hs => ?_
  obtain ⟨set, sets, hsets⟩ := List.exists_cons_of_ne_nil h
  have hrange : readSetRange? r.flags [')', '$'] = (setClass? r.flags (.char ')' false)).map (·, ['$']) := by
    rw [readSetRange?, readSetItem?]
    simp only [Flags.skip_cons (c := '$') _ (by decide) (by decide), Option.bind_eq_bind, Option.bind_some]
    cases setClass? r.flags (.char ')' false) <;> rfl
    decide
  rw [step?, hsets] at hs
  obtain ⟨x, hx, rfl⟩ := Option.map_eq_some_iff.mp hs
  rw [hrange] at hx
  obtain ⟨part, -, rfl⟩ := Option.map_eq_some_iff.mp hx
  exact dead_of_dollar (.inr (List.cons_ne_nil _ _)) rfl

/-- A brace before `)$` is no count. -/
theorem dead_of_brace {inner : Text} (hsets : r.sets = []) (hrest : r.rest = '\x7b' :: inner)
    (hinner : r.flags.skip inner = [')', '$']) : r.Dead := by
  have hskip : r.flags.skip r.rest = '\x7b' :: inner := by
    rw [hrest, Flags.skip_cons _ (by decide) (by decide)]
  refine dead_of_cons hskip fun s hs => ?_
  rw [step?, hsets] at hs
  change r.repeatCounted? inner = some s at hs
  rw [repeatCounted?] at hs
  simp only [hinner] at hs
  cases hs

/-! ### Steps outside of sets -/

namespace Steps

variable {base : Flags}

/-- A part that is read in both cases, and what is done with it. -/
theorem of_agree {same : α → α → Prop} {useless : α → Prop} {a a' : Option α} {f : α → Option Reader}
    {g : List Level → α → Option Reader} (h : Agree same useless a a')
    (hsame : ∀ x x', same x x' → Steps w base (f x) fun outer => g outer x')
    (huseless : ∀ x', useless x' → ∀ outer, outer ≠ [] → ∀ s', g outer x' = Option.some s' → s'.Dead) :
    Steps w base (a.bind f) fun outer => a'.bind (g outer) := by
  cases h with
  | none => exact .none nofun
  | some h => exact hsame _ _ h
  | useless h => exact .none (huseless _ h)

theorem map_left {o : Option α} {f : α → Reader} {g : List Level → α → Reader}
    (h : ∀ x, Steps w base (Option.some (f x)) fun outer => Option.some (g outer x)) :
    Steps w base (o.map f) fun outer => o.map (g outer) := by
  cases o with
  | none => exact .none nofun
  | some x => exact h x

/-- What is done with the same value in both cases. -/
theorem bind_left {o : Option α} {f : α → Option Reader} {g : List Level → α → Option Reader}
    (h : ∀ x, Steps w base (f x) fun outer => g outer x) :
    Steps w base (o.bind f) fun outer => o.bind (g outer) := by
  cases o with
  | none => exact .none nofun
  | some x => exact h x

end Steps

theorem baseFlags_congr {l m : Level} (h : l.outer = m.outer) (around : List Level) :
    baseFlags l around = baseFlags m around := by
  cases around with
  | nil => exact h
  | cons l around => rfl

theorem baseFlags_push (l : Level) (i : Item) (around : List Level) :
    baseFlags (l.push i) around = baseFlags l around :=
  baseFlags_congr (l := l.push i) (m := l) rfl around

theorem steps_push (h : Continued w t t') (p : Nested Pattern) :
    Steps w r.base (some (r.push p t)) fun outer => some ((r.enclosed u outer).push p t') :=
  .some h (baseFlags_push r.level _ r.around) fun _ => rfl

theorem steps_openGroup (h : Continued w t t') (inner : Flags) :
    Steps w r.base (some (r.openGroup inner t)) fun outer => some ((r.enclosed u outer).openGroup inner t') :=
  .some h rfl fun _ => rfl

theorem steps_openNamed? (h : Continued w t t') :
    Steps w r.base (r.openNamed? t) fun outer => (r.enclosed u outer).openNamed? t' := by
  refine .of_agree h.readGroupName? (fun x x' hx => ?_) fun x' hx => hx.elim
  obtain ⟨name, hrest⟩ := hx
  dsimp only
  split
  · next hknown =>
      refine .none fun outer _ s hs => ?_
      cases (if_pos hknown).symm.trans hs
  · next hnew => exact .some hrest rfl fun outer => if_neg hnew

theorem steps_setFlags? (h : Continued w t t') :
    Steps w r.base (r.setFlags? t) fun outer => (r.enclosed u outer).setFlags? t' := by
  refine .of_agree h.readFlags? (fun x x' hx => ?_) fun x' hx outer houter s hs => ?_
  · obtain ⟨named, fs, mark, hrest⟩ := hx
    dsimp only
    split
    · exact steps_openGroup hrest fs
    · split
      · exact .none nofun
      · exact .some hrest (baseFlags_push r.level _ r.around) fun _ => rfl
  · obtain ⟨named, fs, mark, rest⟩ := x'
    obtain rfl : rest = ['$'] := hx
    have hopen : r.around ++ outer ≠ [] := List.append_ne_nil_of_right_ne_nil _ houter
    dsimp only at hs
    split at hs
    · cases hs
      exact dead_of_dollar (.inl (List.cons_ne_nil _ _)) rfl
    · split at hs
      · cases hs
      · cases hs
        exact dead_of_dollar (.inl hopen) rfl

theorem steps_openAny? (h : Continued w t t') :
    Steps w r.base (r.openAny? t) fun outer => (r.enclosed u outer).openAny? t' := by
  have hskip := h.skip r.flags
  have hflags (outer : List Level) : (r.enclosed u outer).flags = r.flags := rfl
  simp only [openAny?, hflags]
  generalize r.flags.skip t = x at hskip ⊢
  generalize r.flags.skip t' = x' at hskip ⊢
  rcases hskip.uncons '?' (by decide) with ⟨s, s', rfl, rfl, hs⟩ | ⟨hne, hne'⟩
  · rcases hs.uncons '=' (by decide) with ⟨s, s', rfl, rfl, -⟩ | ⟨heq, heq'⟩
    · exact .none nofun
    · rcases hs.uncons '!' (by decide) with ⟨s, s', rfl, rfl, -⟩ | ⟨hnot, hnot'⟩
      · exact .none nofun
      · rcases hs.uncons '<' (by decide) with ⟨s, s', rfl, rfl, hname⟩ | ⟨hangle, hangle'⟩
        · rcases hname.uncons '=' (by decide) with ⟨s, s', rfl, rfl, -⟩ | ⟨heq, heq'⟩
          · exact .none nofun
          · rcases hname.uncons '!' (by decide) with ⟨s, s', rfl, rfl, -⟩ | ⟨hnot, hnot'⟩
            · exact .none nofun
            · simp only
              exact steps_openNamed? hname
        · rcases hs.uncons 'P' (by decide) with ⟨s, s', rfl, rfl, hname⟩ | ⟨hp, hp'⟩
          · rcases hname.uncons '<' (by decide) with ⟨s, s', rfl, rfl, hlong⟩ | ⟨hangle, hangle'⟩
            · exact steps_openNamed? hlong
            · simp only [List.cons.injEq, Char.reduceEq, false_and, imp_self, implies_true, hangle, and_false,
                hangle']
              exact steps_setFlags? hs
          · simp only [hangle, hangle', hp, hp', imp_self, implies_true]
            exact steps_setFlags? hs
  · simp only [hne, hne', imp_self, implies_true]
    exact steps_openGroup hskip r.flags

theorem steps_repeat? (h : Continued w t t') (least : Nat) (most : Option Nat) :
    Steps w r.base (r.repeat? least most t) fun outer => (r.enclosed u outer).repeat? least most t' := by
  rw [repeat?]
  cases hl : r.level.repeat? least most with
  | none =>
      refine .none fun outer _ s hs => ?_
      obtain ⟨l, hl', -⟩ := Option.map_eq_some_iff.mp hs
      cases hl.symm.trans hl'
  | some l =>
      have houter : l.outer = r.level.outer := by
        rw [Level.repeat?] at hl
        split at hl
        · cases hl
          rfl
        · cases hl
      exact .some h (baseFlags_congr houter r.around) fun outer => congrArg (Option.map _) hl

theorem steps_repeatCounted? (h : Continued w t t') :
    Steps w r.base (r.repeatCounted? t) fun outer => (r.enclosed u outer).repeatCounted? t' := by
  have hcount := (h.skip r.flags).readCount r.flags
  simp only [repeatCounted?, enclosed]
  generalize readCount r.flags (r.flags.skip t) = x at hcount ⊢
  generalize readCount r.flags (r.flags.skip t') = x' at hcount ⊢
  obtain ⟨least, hrest⟩ := hcount
  refine .bind_left fun least => ?_
  have hend {s s' : Text} (most : Option Nat) (hs : Continued w s s') : Steps w r.base
      (if UInt32.size ≤ max least (most.getD 0) ∨ most.any (· < least) then none
        else r.repeat? least most (afterGreed (r.flags.skip s)))
      fun outer => if UInt32.size ≤ max least (most.getD 0) ∨ most.any (· < least) then none
        else (r.enclosed u outer).repeat? least most (afterGreed (r.flags.skip s')) := by
    split
    · exact .none nofun
    · exact steps_repeat? (hs.skip r.flags).afterGreed least most
  rcases hrest.uncons ',' (by decide) with ⟨s, s', rfl, rfl, hs⟩ | ⟨hcomma, hcomma'⟩
  · have hskip := hs.skip r.flags
    simp only
    generalize r.flags.skip s = x at hskip ⊢
    generalize r.flags.skip s' = x' at hskip ⊢
    rcases hskip.uncons '\x7d' (by decide) with ⟨s, s', rfl, rfl, hs⟩ | ⟨hne, hne'⟩
    · exact hend none hs
    · have hmost := hskip.readCount r.flags
      simp only
      generalize readCount r.flags x = y at hmost ⊢
      generalize readCount r.flags x' = y' at hmost ⊢
      obtain ⟨most, hrest⟩ := hmost
      cases most with
      | none => exact .none nofun
      | some most =>
          rcases hrest.uncons '\x7d' (by decide) with ⟨s, s', rfl, rfl, hs⟩ | ⟨hne, hne'⟩
          · exact hend (some most) hs
          · simp only [Prod.mk.injEq, Option.some.injEq, hne, hne', and_false, imp_self, implies_true,
              Option.bind_eq_bind, Option.bind_none]
            exact .none nofun
  · rcases hrest.uncons '\x7d' (by decide) with ⟨s, s', rfl, rfl, hs⟩ | ⟨hne, hne'⟩
    · exact hend (some least) hs
    · simp only
      exact .none nofun

theorem steps_pushEscape? (hsets : r.sets = []) (h : Continued w t t') :
    Steps w r.base (r.pushEscape? t) fun outer => (r.enclosed u outer).pushEscape? t' := by
  refine .of_agree h.readEscape? (fun x x' hx => ?_) fun x' hx outer houter s hs => ?_
  · obtain ⟨e, hrest⟩ := hx
    cases e with
    | char c byte => exact .bind_left fun c => steps_push hrest _
    | cls c => exact steps_push hrest _
    | look l => exact steps_push hrest _
  · have hopen : r.around ++ outer ≠ [] := List.append_ne_nil_of_right_ne_nil _ houter
    rcases hx with hx | ⟨l, inner, rfl, hinner⟩
    · obtain ⟨e, rest⟩ := x'
      obtain rfl : rest = ['$'] := hx
      cases e with
      | char c byte =>
          obtain ⟨d, -, hs⟩ := Option.bind_eq_some_iff.mp hs
          cases hs
          exact dead_of_dollar (.inl hopen) rfl
      | cls c =>
          cases hs
          exact dead_of_dollar (.inl hopen) rfl
      | look l =>
          cases hs
          exact dead_of_dollar (.inl hopen) rfl
    · cases hs
      exact dead_of_brace hsets rfl hinner

theorem steps_closeGroup? (hopen : r.around ≠ []) (h : Continued w t t') :
    Steps w r.base (r.closeGroup? t) fun outer => (r.enclosed u outer).closeGroup? t' := by
  obtain ⟨level, around, haround⟩ := List.exists_cons_of_ne_nil hopen
  obtain ⟨rest, fs, l, a, ss, names⟩ := r
  subst haround
  exact .some h (baseFlags_push level _ around) fun _ => rfl

theorem steps_openSet (h : Continued w t t') :
    Steps w r.base (some (r.openSet t)) fun outer => some ((r.enclosed u outer).openSet t') := by
  have hstart := h.readSetStart r.flags
  simp only [openSet, enclosed]
  generalize readSetStart r.flags t = x at hstart ⊢
  generalize readSetStart r.flags t' = x' at hstart ⊢
  obtain ⟨set, hrest⟩ := hstart
  exact .some hrest rfl fun _ => rfl

theorem steps_stepPattern? (hsets : r.sets = []) (hopen : c = ')' → r.around ≠ []) (h : Continued w t t') :
    Steps w r.base (r.stepPattern? c t) fun outer => (r.enclosed u outer).stepPattern? c t' := by
  rw [stepPattern?.eq_def]
  split
  · exact steps_openAny? h
  · exact steps_closeGroup? (hopen rfl) h
  · exact .some h (baseFlags_congr (l := r.level.nextBranch) (m := r.level) rfl r.around) fun _ => rfl
  · exact steps_openSet h
  · exact steps_repeat? h.afterGreed 0 (some 1)
  · exact steps_repeat? h.afterGreed 0 none
  · exact steps_repeat? h.afterGreed 1 none
  · exact steps_repeatCounted? h
  · exact steps_pushEscape? hsets h
  · refine .map_left fun dot => steps_push h _
  · exact steps_push h _
  · exact steps_push h _
  · simp only [stepPattern?]
    exact steps_push h _

/-! ### Steps in sets -/

/-- What opens or closes no set and is no sign that is doubled begins a range. -/
theorem stepSet?_of_range (hopen : c ≠ '[') (hclose : c ≠ ']')
    (hdouble : c = '&' ∨ c = '-' ∨ c = '~' → ∀ s, t ≠ c :: s) :
    r.stepSet? set sets c t = (readSetRange? r.flags (c :: t)).map fun (part, rest) =>
      { r with rest := rest, sets := set.push ⟨part, 0⟩ :: sets } := by
  rw [stepSet?.eq_def]
  dsimp only
  split
  · exact absurd rfl hopen
  · exact absurd rfl hclose
  · exact absurd rfl (hdouble (.inl rfl) _)
  · exact absurd rfl (hdouble (.inr (.inl rfl)) _)
  · exact absurd rfl (hdouble (.inr (.inr rfl)) _)
  · rfl

theorem steps_closeSet? (h : Continued w t t') :
    Steps w r.base (r.closeSet? set sets t) fun outer => (r.enclosed u outer).closeSet? set sets t' := by
  refine .bind_left fun part => ?_
  cases sets with
  | nil => exact steps_push (r := { r with sets := [] }) (u := u) h _
  | cons outer sets => exact .some h rfl fun _ => rfl

theorem steps_openInner? (h : Continued w t t') :
    Steps w r.base (r.openInner? set sets c t) fun outer => (r.enclosed u outer).openInner? set sets c t' := by
  have hclass := h.readAsciiClass?_cons c
  simp only [openInner?]
  generalize readAsciiClass? (c :: t) = x at hclass ⊢
  generalize readAsciiClass? (c :: t') = x' at hclass ⊢
  cases hclass with
  | none => exact steps_openSet h
  | @some a a' hclass =>
      obtain ⟨ranges, negated, rest⟩ := a
      obtain ⟨ranges', negated', rest'⟩ := a'
      obtain ⟨rfl, rfl, hrest⟩ := hclass
      exact .bind_left fun part => .some hrest rfl fun _ => rfl
  | useless h => exact h.elim

theorem steps_stepSet? (h : Continued w t t') :
    Steps w r.base (r.stepSet? set sets c t) fun outer => (r.enclosed u outer).stepSet? set sets c t' := by
  have hrange : Steps w r.base
      ((readSetRange? r.flags (c :: t)).map fun (part, rest) =>
        { r with rest := rest, sets := set.push ⟨part, 0⟩ :: sets })
      fun outer => (readSetRange? r.flags (c :: t')).map fun (part, rest) =>
        { r.enclosed u outer with rest := rest, sets := set.push ⟨part, 0⟩ :: sets } := by
    have hpart := h.readSetRange?_cons r.flags c
    generalize readSetRange? r.flags (c :: t) = x at hpart ⊢
    generalize readSetRange? r.flags (c :: t') = x' at hpart ⊢
    cases hpart with
    | none => exact .none nofun
    | some hpart =>
        obtain ⟨part, hrest⟩ := hpart
        exact .some hrest rfl fun _ => rfl
    | @useless x' hpart =>
        obtain ⟨part, rest⟩ := x'
        refine .none fun outer _ s hs => ?_
        cases hs
        rcases hpart with hdollar | hclosing
        · exact dead_of_dollar (.inr (List.cons_ne_nil _ _)) hdollar
        · obtain rfl : rest = [')', '$'] := hclosing
          exact dead_of_closing (List.cons_ne_nil _ _) (Flags.skip_cons _ (by decide) (by decide) _)
  have hoperate (op : SetOp) {s s' : Text} (hs : Continued w s s') : Steps w r.base
      (some { r with rest := s, sets := set.operate r.flags op :: sets })
      fun outer => some { r.enclosed u outer with rest := s', sets := set.operate r.flags op :: sets } :=
    .some hs rfl fun _ => rfl
  -- A doubled sign is an operation on sets only if the second one is there, so the step depends on
  -- one more character than the one it reads.
  by_cases hopen : c = '['
  · subst hopen
    exact steps_openInner? h
  · by_cases hclose : c = ']'
    · subst hclose
      exact steps_closeSet? h
    · by_cases hdouble : c = '&' ∨ c = '-' ∨ c = '~'
      · have hc : c ≠ ')' := by
          rintro rfl
          exact absurd hdouble (by decide)
        rcases h.uncons c hc with ⟨s, s', rfl, rfl, hs⟩ | ⟨hne, hne'⟩
        · rcases hdouble with rfl | rfl | rfl
          · exact hoperate .inter hs
          · exact hoperate .diff hs
          · exact hoperate .symmDiff hs
        · simp only [stepSet?_of_range hopen hclose fun _ => hne, stepSet?_of_range hopen hclose fun _ => hne']
          exact hrange
      · simp only [stepSet?_of_range hopen hclose (absurd · hdouble)]
        exact hrange

theorem steps_step? (hopen : c = ')' → r.sets = [] → r.around ≠ []) (h : Continued w t t') :
    Steps w r.base (r.step? c t) fun outer => (r.enclosed u outer).step? c t' := by
  cases hsets : r.sets with
  | nil =>
      have henclosed (outer : List Level) : (r.enclosed u outer).sets = [] := hsets
      simp only [step?, hsets, henclosed]
      exact steps_stepPattern? hsets (hopen · hsets) h
  | cons set sets =>
      have henclosed (outer : List Level) : (r.enclosed u outer).sets = set :: sets := hsets
      simp only [step?, hsets, henclosed]
      exact steps_stepSet? h

end Reader

end AmpMarkup.Pattern
