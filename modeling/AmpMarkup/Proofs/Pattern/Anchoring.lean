import AmpMarkup.Proofs.Pattern.Matches
import AmpMarkup.Proofs.Pattern.Steps

/-! A pattern that is put between the ends of a text. Its reader goes the same way as by itself, until either
only `)$` is left or a comment has swallowed it. Where the pattern by itself cannot be read, nothing comes out
between the ends either, unless the pattern closes a group that it did not open. -/

namespace AmpMarkup.Pattern

namespace Reader

variable {w t : Text} {r : Reader}

/-! ### Runs -/

/-- A reader comes to a closing parenthesis where no group and no set is open. -/
inductive Strays : Reader → Prop where
  | here {r : Reader} {t : Text} (hskip : r.flags.skip r.rest = ')' :: t) (hsets : r.sets = [])
      (haround : r.around = []) : Strays r
  | later {r s : Reader} {c : Char} {t : Text} (hskip : r.flags.skip r.rest = c :: t)
      (hstep : r.step? c t = some s) (h : Strays s) : Strays r

theorem around_ne_nil_of_step? {s : Reader} (hsets : r.sets = []) (hstep : r.step? ')' t = some s) :
    r.around ≠ [] := by
  intro haround
  rw [step?, hsets] at hstep
  change r.closeGroup? t = some s at hstep
  rw [closeGroup?, haround] at hstep
  cases hstep

theorem Strays.dead (h : r.Strays) : r.Dead := by
  induction h with
  | here hskip hsets haround =>
      exact dead_of_cons hskip fun s hs => absurd haround (around_ne_nil_of_step? hsets hs)
  | later hskip hstep _ ih =>
      refine dead_of_cons hskip fun s' hs' => ?_
      cases hstep.symm.trans hs'
      exact ih

theorem finish?_eq_some_iff {p : Nested Pattern} :
    r.finish? = some p ↔ r.around = [] ∧ r.sets = [] ∧ r.level.close = p := by
  rw [finish?]
  split
  · next haround hsets => simp [haround, hsets]
  · next hne =>
      refine iff_of_false (Option.some_ne_none p).symm ?_
      rintro ⟨haround, hsets, -⟩
      exact hne haround hsets

theorem skip_enclosed (r : Reader) (rest : Text) (outer : List Level) :
    (r.enclosed rest outer).flags.skip (r.enclosed rest outer).rest = r.flags.skip rest :=
  rfl

/-- With at least `bound` further steps, further levels around the reader change nothing before it has come to
the end of its text. There it has only `)$` left to read or nothing. -/
def EndsAs (w : Text) (r : Reader) (rest' : Text) (bound : Nat) (p : Nested Pattern) : Prop :=
  ∃ s : Reader, s.base = r.base ∧ s.around = [] ∧ s.sets = [] ∧ s.level.close = p ∧
    ∃ rest, Continued w [] (s.flags.skip rest) ∧ ∀ bound' ≥ bound, ∀ outer, ∃ left ≥ 2,
      (r.enclosed rest' outer).run? bound' = (s.enclosed rest outer).run? left

theorem endsAs_of_nil {bound : Nat} {rest' : Text} {p : Nested Pattern} (h : Continued w r.rest rest')
    (hx : r.flags.skip r.rest = []) (hb : 2 ≤ bound) (hfinish : r.finish? = some p) :
    EndsAs w r rest' bound p := by
  obtain ⟨haround, hsets, hclose⟩ := finish?_eq_some_iff.1 hfinish
  exact ⟨r, rfl, haround, hsets, hclose, rest', hx ▸ h.skip r.flags,
    fun bound' hb' outer => ⟨bound', Nat.le_trans hb hb', rfl⟩⟩

/-- A step that further levels around do not change comes before the end. -/
theorem EndsAs.of_step {bound : Nat} {rest' rest'' t' : Text} {r' : Reader} {c : Char} {p : Nested Pattern}
    (h : EndsAs w r' rest'' bound p) (hbase : r'.base = r.base) (hskip : r.flags.skip rest' = c :: t')
    (hstep : ∀ outer, (r.enclosed rest' outer).step? c t' = some (r'.enclosed rest'' outer)) :
    EndsAs w r rest' (bound + 1) p := by
  obtain ⟨s, hs, haround, hsets, hclose, rest, hend, hruns⟩ := h
  refine ⟨s, hs.trans hbase, haround, hsets, hclose, rest, hend, fun bound' hb' outer => ?_⟩
  obtain ⟨left, rfl⟩ := Nat.exists_eq_add_of_le' (Nat.le_trans (Nat.le_add_left 1 _) hb')
  obtain ⟨last, hlast, hrun⟩ := hruns left (Nat.le_of_succ_le_succ hb') outer
  refine ⟨last, hlast, ?_⟩
  rw [run?_succ_of_cons ((skip_enclosed r rest' outer).trans hskip), hstep, Option.bind_some, hrun]

/-- A pattern that is read to its end is read to the same end where `)$` follows. -/
theorem endsAs_of_run? {bound : Nat} {rest' : Text} {p : Nested Pattern} (h : Continued w r.rest rest')
    (hrun : r.run? bound = some p) : EndsAs w r rest' (bound + 2) p := by
  induction bound generalizing r rest' with
  | zero =>
      cases hx : r.flags.skip r.rest with
      | nil =>
          rw [run?_of_nil hx] at hrun
          exact endsAs_of_nil h hx (Nat.le_refl 2) hrun
      | cons c t =>
          rw [run?_zero_of_cons hx] at hrun
          cases hrun
  | succ bound ih =>
      cases hx : r.flags.skip r.rest with
      | nil =>
          rw [run?_of_nil hx] at hrun
          exact endsAs_of_nil h hx (Nat.le_add_left 2 _) hrun
      | cons c t =>
          rw [run?_succ_of_cons hx] at hrun
          obtain ⟨r', hstep, hrun⟩ := Option.bind_eq_some_iff.mp hrun
          obtain ⟨t', ht', hcont⟩ := (hx ▸ h.skip r.flags).of_cons
          -- This reader can close what it closes, so the levels around it stay out of reach.
          have hopen : c = ')' → r.sets = [] → r.around ≠ [] := by
            rintro rfl hsets
            exact around_ne_nil_of_step? hsets hstep
          have hsteps := steps_step? (u := rest') hopen hcont
          rw [hstep] at hsteps
          cases hsteps with
          | some hrest hbase henclosed =>
              exact (ih hrest hrun).of_step hbase ht' henclosed

/-- A reader that cannot finish is of no use with `)$` left to read in a group. -/
theorem dead_enclosed_of_nil {rest' : Text} {outer : List Level} (h : Continued w r.rest rest')
    (hx : r.flags.skip r.rest = []) (houter : outer ≠ []) (hfinish : r.finish? = none) :
    (r.enclosed rest' outer).Dead := by
  have hopen : (r.enclosed rest' outer).around ≠ [] := List.append_ne_nil_of_right_ne_nil _ houter
  rcases (hx ▸ h.skip r.flags).of_nil with hclosing | hnil
  · by_cases hsets : r.sets = []
    · obtain ⟨level, around, haround⟩ : ∃ level around, r.around = level :: around := by
        refine List.exists_cons_of_ne_nil fun haround => ?_
        rw [finish?, haround, hsets] at hfinish
        cases hfinish
      have henclosed : (r.enclosed rest' outer).around = level :: (around ++ outer) :=
        congrArg (· ++ outer) haround
      have henclosed' : (r.enclosed rest' outer).sets = [] := hsets
      refine dead_of_cons (r := r.enclosed rest' outer) hclosing fun s hs => ?_
      rw [step?, henclosed'] at hs
      change (r.enclosed rest' outer).closeGroup? ['$'] = some s at hs
      rw [closeGroup?, henclosed] at hs
      cases hs
      exact dead_of_dollar (.inl (List.append_ne_nil_of_right_ne_nil _ houter)) rfl
    · exact dead_of_closing hsets hclosing
  · exact dead_of_nil hnil (.inl hopen)

/-- Where a pattern cannot be read, it cannot be read within a group with `)$` behind it either, unless it
closes a group that it did not open. -/
theorem dead_enclosed {bound : Nat} {rest' : Text} {outer : List Level} (h : Continued w r.rest rest')
    (hb : w.length ≤ bound) (hstrays : ¬ r.Strays) (houter : outer ≠ []) (hrun : r.run? bound = none) :
    (r.enclosed rest' outer).Dead := by
  -- Each step takes a character away from `w`, so a reader with no more steps left has nothing left to read.
  induction bound generalizing w r rest' with
  | zero =>
      have hnil : r.flags.skip r.rest = [] :=
        List.length_eq_zero_iff.mp (Nat.eq_zero_of_le_zero (Nat.le_trans (h.skip r.flags).suffix.length_le hb))
      rw [run?_of_nil hnil] at hrun
      exact dead_enclosed_of_nil h hnil houter hrun
  | succ bound ih =>
      cases hx : r.flags.skip r.rest with
      | nil =>
          rw [run?_of_nil hx] at hrun
          exact dead_enclosed_of_nil h hx houter hrun
      | cons c t =>
          have hskip := h.skip r.flags
          rw [hx] at hskip
          have hlength := hskip.suffix.length_le
          obtain ⟨t', ht', hcont⟩ := hskip.tail
          have hopen : c = ')' → r.sets = [] → r.around ≠ [] := by
            rintro rfl hsets haround
            exact hstrays (.here hx hsets haround)
          have hsteps := steps_step? (u := rest') hopen hcont
          have hskip' : (r.enclosed rest' outer).flags.skip (r.enclosed rest' outer).rest = c :: t' := ht'
          rw [run?_succ_of_cons hx] at hrun
          cases hstep : r.step? c t with
          | none =>
              rw [hstep] at hsteps
              cases hsteps with
              | none hdead => exact dead_of_cons hskip' (hdead outer houter)
          | some s =>
              rw [hstep] at hsteps hrun
              cases hsteps with
              | some hrest _ henclosed =>
                  refine dead_of_cons hskip' fun s' hs' => ?_
                  cases (henclosed outer).symm.trans hs'
                  rw [List.length_cons] at hlength
                  exact ih hrest (by omega) (fun hs => hstrays (.later hx hstep hs)) hrun

/-! ### The whole pattern -/

/-- The level around a pattern that is put between the ends of a text. -/
def outerLevel : Level :=
  ⟨[], [.pattern ⟨.part (.look .textStart), 0⟩], .initial⟩

/-- Before the pattern stand the start of the text and an opened group. -/
theorem run?_opening (t u : Text) (bound : Nat) :
    (start ('^' :: '(' :: '?' :: ':' :: u)).run? (bound + 2) = ((start t).enclosed u [outerLevel]).run? bound :=
  rfl

/-- Behind the group only the end of the text is left, so three parts stand in a row. -/
theorem run?_dollar (p : Nested Pattern) (names : List Text) (left : Nat) :
    run? (left + 1) ⟨['$'], .initial, outerLevel.push (.pattern (p.wrap id)), [], [], names⟩ =
      some ⟨p.value.betweenEnds, p.depth + 2⟩ := by
  have hdepth : max (max (max 0 0) (p.depth + 1)) 0 + 1 = p.depth + 2 := by omega
  rw [run?_succ_of_cons (c := '$') (t := []) rfl]
  change run? left ⟨[], .initial, (outerLevel.push (.pattern (p.wrap id))).push
    (.pattern ⟨.part (.look .textEnd), 0⟩), [], [], names⟩ = _
  rw [run?_of_nil rfl]
  exact congrArg (fun depth => some (Nested.mk p.value.betweenEnds depth)) hdepth

/-- With nothing open but the group around it, `)$` closes the pattern and puts the end of the text behind. -/
theorem run?_closing {left : Nat} {rest : Text} (hbase : r.base = .initial) (haround : r.around = [])
    (hsets : r.sets = []) (hskip : r.flags.skip rest = [')', '$']) (hleft : 2 ≤ left) :
    (r.enclosed rest [outerLevel]).run? left =
      some ⟨r.level.close.value.betweenEnds, r.level.close.depth + 2⟩ := by
  obtain ⟨left, rfl⟩ := Nat.exists_eq_add_of_le' hleft
  rw [run?_succ_of_cons ((skip_enclosed r rest _).trans hskip)]
  obtain ⟨before, fs, level, around, sets, names⟩ := r
  subst haround hsets
  obtain ⟨branches, items, outer⟩ := level
  obtain rfl : outer = .initial := hbase
  exact run?_dollar (Level.close ⟨branches, items, .initial⟩) names left

/-- A closing parenthesis where nothing is open is an error. -/
theorem run?_stray {left : Nat} {rest : Text} (haround : r.around = []) (hsets : r.sets = [])
    (hskip : r.flags.skip rest = [')', '$']) : (r.enclosed rest []).run? left = none := by
  refine dead_of_cons ((skip_enclosed r rest []).trans hskip) (fun s hs => ?_) left
  obtain ⟨_, fs, level, around, sets, names⟩ := r
  subst haround hsets
  cases hs

end Reader

/-- The pattern of a text with its levels, whatever its size. -/
def read? (t : Text) : Option (Nested Pattern) :=
  (Reader.start t).run? t.length

/-- A text closes a group that it does not open. -/
def ClosesOutside (t : Text) : Prop :=
  (Reader.start t).Strays

/-- A pattern ends in a comment: `)$` behind it is not read. -/
def EndsInComment (t : Text) : Prop :=
  parse? (t ++ [')', '$']) = parse? t

/-- There is room for two more levels and two assertions in what limits patterns. -/
def HasRoom (t : Text) : Prop :=
  ∃ p ∈ read? t, p.depth + 2 ≤ depthLimit ∧ p.value.weight + 64 ≤ weightLimit

/-- The text of a pattern between the ends of a text. -/
def anchor (t : Text) : Text :=
  '^' :: '(' :: '?' :: ':' :: (t ++ [')', '$'])

variable {t : Text} {p : Nested Pattern} {q : Pattern}

theorem parse?_eq (t : Text) : parse? t = (read? t).bind fun p =>
    if p.depth ≤ depthLimit ∧ p.value.weight ≤ weightLimit then some p.value else none :=
  rfl

theorem parse?_eq_some_iff : parse? t = some q ↔
    ∃ p, read? t = some p ∧ (p.depth ≤ depthLimit ∧ p.value.weight ≤ weightLimit) ∧ p.value = q := by
  rw [parse?_eq, Option.bind_eq_some_iff]
  refine exists_congr fun p => and_congr_right fun _ => ?_
  rw [Option.ite_none_right_eq_some, Option.some_inj]

theorem parse?_congr {t t' : Text} (h : read? t = read? t') : parse? t = parse? t' := by
  rw [parse?_eq, h, ← parse?_eq]

/-- What is made of a text that can be read by itself when `)$` follows and when it is put between the ends. -/
theorem read?_anchor_of_read? (h : read? t = some p) :
    read? (t ++ [')', '$']) = none ∧ read? (anchor t) = some ⟨p.value.betweenEnds, p.depth + 2⟩ ∨
      MarkedLast t ∧ read? (t ++ [')', '$']) = some p ∧ read? (anchor t) = none := by
  obtain ⟨s, hbase, haround, hsets, rfl, rest, hend, hruns⟩ :=
    Reader.endsAs_of_run? (.more (List.suffix_refl t)) h
  have hlength : (t ++ [')', '$']).length = t.length + 2 := List.length_append
  obtain ⟨left, hleft, hplain⟩ := hruns (t.length + 2) (Nat.le_refl _) []
  obtain ⟨left', hleft', hanchor⟩ := hruns (t.length + 4) (Nat.le_add_right _ 2) [Reader.outerLevel]
  have hread : read? (t ++ [')', '$']) = (s.enclosed rest []).run? left := by
    rw [read?, hlength]
    exact hplain
  have hread' : read? (anchor t) = (s.enclosed rest [Reader.outerLevel]).run? left' := by
    rw [read?, show (anchor t).length = t.length + 4 + 2 by simp [anchor], ← hanchor]
    exact Reader.run?_opening t _ _
  rcases hend.of_nil with hclosing | hnil
  · exact .inl ⟨hread.trans (Reader.run?_stray haround hsets hclosing),
      hread'.trans (Reader.run?_closing hbase haround hsets hclosing hleft')⟩
  · refine .inr ⟨hend.markedLast hnil, hread.trans ?_, hread'.trans ?_⟩
    · rw [Reader.run?_of_nil ((Reader.skip_enclosed s rest _).trans hnil), Reader.finish?_eq_some_iff]
      exact ⟨congrArg (· ++ []) haround, hsets, rfl⟩
    · exact Reader.dead_of_nil ((Reader.skip_enclosed s rest _).trans hnil)
        (.inl (List.append_ne_nil_of_right_ne_nil _ (List.cons_ne_nil _ _))) _

/-- A text that cannot be read by itself cannot be read between the ends either, unless it closes a group that
it does not open. -/
theorem read?_anchor_eq_none (hstrays : ¬ ClosesOutside t) (h : read? t = none) : read? (anchor t) = none := by
  have hdead := Reader.dead_enclosed (.more (List.suffix_refl t)) (Nat.le_refl _) hstrays
    (List.cons_ne_nil Reader.outerLevel []) h
  rw [read?, show (anchor t).length = t.length + 4 + 2 by simp [anchor]]
  exact (Reader.run?_opening t _ _).trans (hdead _)

/-- Either a valid pattern stands between the ends, or it ends in a comment and nothing can be read there. -/
theorem read?_anchor_of_parse? (h : parse? t = some q) : ∃ p, read? t = some p ∧ p.value = q ∧
    (¬ EndsInComment t ∧ read? (anchor t) = some ⟨q.betweenEnds, p.depth + 2⟩ ∨
      EndsInComment t ∧ MarkedLast t ∧ read? (anchor t) = none) := by
  obtain ⟨p, hp, -, rfl⟩ := parse?_eq_some_iff.1 h
  refine ⟨p, hp, rfl, ?_⟩
  rcases read?_anchor_of_read? hp with ⟨hnone, hanchor⟩ | ⟨hmarked, hsame, hanchor⟩
  · refine .inl ⟨fun hcomment => ?_, hanchor⟩
    obtain ⟨p', hp', -⟩ := parse?_eq_some_iff.1 (hcomment.trans h)
    cases hnone.symm.trans hp'
  · exact .inr ⟨parse?_congr (hsame.trans hp.symm), hmarked, hanchor⟩

/-- A pattern that is valid by itself can be put between the ends unless it ends in a comment or uses up what
limits patterns. -/
theorem isSome_parse?_anchor_iff (h : (parse? t).isSome = true) :
    (parse? (anchor t)).isSome = true ↔ ¬ EndsInComment t ∧ HasRoom t := by
  obtain ⟨q, hq⟩ := Option.isSome_iff_exists.mp h
  obtain ⟨p, hp, rfl, ⟨hcomment, hanchor⟩ | ⟨hcomment, -, hanchor⟩⟩ := read?_anchor_of_parse? hq
  · have hweight : p.value.betweenEnds.weight = p.value.weight + 64 := by
      simp only [Expr.betweenEnds, Expr.weight]
      omega
    rw [and_iff_right hcomment, HasRoom, hp, Option.isSome_iff_exists]
    simp only [parse?_eq_some_iff, hanchor, Option.some_inj, exists_eq_left', Option.mem_some_iff, hweight]
    exact ⟨fun ⟨_, h, _⟩ => h, fun h => ⟨_, h, rfl⟩⟩
  · refine iff_of_false (fun h => ?_) fun h => h.1 hcomment
    obtain ⟨q, hq⟩ := Option.isSome_iff_exists.mp h
    obtain ⟨p', hp', -⟩ := parse?_eq_some_iff.1 hq
    cases hanchor.symm.trans hp'

/-- Between the ends stands a pattern that is valid by itself, unless it closes a group that it does not
open. -/
theorem parse?_of_parse?_anchor (hstrays : ¬ ClosesOutside t) (h : parse? (anchor t) = some q) :
    ∃ p, parse? t = some p ∧ q = p.betweenEnds := by
  obtain ⟨a, ha, ⟨hdepth, hweight⟩, rfl⟩ := parse?_eq_some_iff.1 h
  cases hp : read? t with
  | none => cases (read?_anchor_eq_none hstrays hp).symm.trans ha
  | some p =>
      rcases read?_anchor_of_read? hp with ⟨-, hanchor⟩ | ⟨-, -, hnone⟩
      · cases hanchor.symm.trans ha
        have hle : p.value.weight ≤ p.value.betweenEnds.weight := by
          simp only [Expr.betweenEnds, Expr.weight]
          omega
        have hlimits : p.depth ≤ depthLimit ∧ p.value.weight ≤ weightLimit :=
          ⟨Nat.le_of_add_right_le hdepth, hle.trans hweight⟩
        exact ⟨p.value, parse?_eq_some_iff.2 ⟨p, hp, hlimits, rfl⟩, rfl⟩
      · cases hnone.symm.trans ha

/-- A pattern without the mark of a comment in its last line does not end in one. -/
theorem markedLast_of_endsInComment (h : (parse? t).isSome = true) (hcomment : EndsInComment t) :
    MarkedLast t := by
  obtain ⟨q, hq⟩ := Option.isSome_iff_exists.mp h
  obtain ⟨p, -, -, ⟨hno, -⟩ | ⟨-, hmarked, -⟩⟩ := read?_anchor_of_parse? hq
  · exact absurd hcomment hno
  · exact hmarked

/-- A valid pattern closes no group that it does not open. -/
theorem not_closesOutside (h : (parse? t).isSome = true) : ¬ ClosesOutside t := by
  intro hstrays
  obtain ⟨q, hq⟩ := Option.isSome_iff_exists.mp h
  obtain ⟨p, hp, -⟩ := parse?_eq_some_iff.1 hq
  rw [read?, hstrays.dead] at hp
  cases hp

end AmpMarkup.Pattern
