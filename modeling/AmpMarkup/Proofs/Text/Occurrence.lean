import AmpMarkup.Text.Basic

/-! Occurrences of one text in another. The relations `<+:` (at the front) and `<:+:` (anywhere) are
those of lists; the statements here tie the readers of the library to them and say where a
replacement leaves text alone. -/

namespace AmpMarkup.Text

variable {old new s t u v w : Text} {c : Char}

/-! ### Occurrences and a character that cannot be in them -/

/-- An occurrence at the front ends before a character that it does not contain. -/
theorem prefix_append_cons (hc : c ∉ w) : w <+: u ++ c :: v ↔ w <+: u := by
  refine ⟨fun h => ?_, fun h => h.trans (List.prefix_append ..)⟩
  induction u generalizing w with
  | nil =>
      cases w with
      | nil => exact List.nil_prefix
      | cons d w =>
          obtain ⟨rfl, -⟩ := List.cons_prefix_cons.1 h
          exact absurd List.mem_cons_self hc
  | cons d u ih =>
      cases w with
      | nil => exact List.nil_prefix
      | cons e w =>
          obtain ⟨rfl, hp⟩ := List.cons_prefix_cons.1 h
          exact List.cons_prefix_cons.2 ⟨rfl, ih (fun hm => hc (List.mem_cons_of_mem _ hm)) hp⟩

/-- An occurrence stands on one side of a character that it does not contain. -/
theorem infix_append_cons (hc : c ∉ w) : w <:+: u ++ c :: v ↔ w <:+: u ∨ w <:+: v := by
  constructor
  · intro h
    induction u with
    | nil =>
        rcases List.infix_cons_iff.1 h with h | h
        · exact .inl ((prefix_append_cons (u := []) hc).1 h).isInfix
        · exact .inr h
    | cons d u ih =>
        rcases List.infix_cons_iff.1 h with h | h
        · exact .inl ((prefix_append_cons (u := d :: u) hc).1 h).isInfix
        · exact (ih h).imp_left fun h => List.infix_cons_iff.2 (.inr h)
  · rintro (h | h)
    · exact List.infix_append_of_infix_left h
    · exact List.infix_append_of_infix_right (List.infix_cons_iff.2 (.inr h))

/-- The first occurrence of a character splits a text in one way. -/
theorem append_cons_inj {u' v' : Text} (hu : c ∉ u) (hu' : c ∉ u')
    (h : u ++ c :: v = u' ++ c :: v') : u = u' ∧ v = v' := by
  have h1 : u <+: u' := (prefix_append_cons hu).1 ⟨c :: v, h⟩
  have h2 : u' <+: u := (prefix_append_cons hu').1 ⟨c :: v', h.symm⟩
  obtain rfl := h1.eq_of_length (Nat.le_antisymm h1.length_le h2.length_le)
  exact ⟨rfl, (List.cons.inj (List.append_cancel_left h)).2⟩

/-- An occurrence in two texts one after the other starts in the first or stands in the second. -/
theorem infix_append_iff : w <:+: u ++ t ↔
    (∃ v, v ≠ [] ∧ v <:+ u ∧ w <+: v ++ t) ∨ w <:+: t := by
  constructor
  · intro h
    induction u with
    | nil => exact .inr h
    | cons c u ih =>
        rcases List.infix_cons_iff.1 h with h | h
        · exact .inl ⟨c :: u, List.cons_ne_nil _ _, List.suffix_rfl, h⟩
        · refine (ih h).imp_left ?_
          rintro ⟨v, hv, hs, hp⟩
          exact ⟨v, hv, hs.trans (List.suffix_cons ..), hp⟩
  · rintro (⟨v, -, ⟨x, rfl⟩, hp⟩ | h)
    · rw [List.append_assoc]
      exact List.infix_append_of_infix_right hp.isInfix
    · exact List.infix_append_of_infix_right h

theorem prefix_of_prefix_append (h : w <+: u ++ t) (hl : w.length ≤ u.length) : w <+: u :=
  List.prefix_of_prefix_length_le h (List.prefix_append ..) hl

theorem prefix_of_append_prefix (h : u <+: w ++ t) (hl : w.length ≤ u.length) : w <+: u :=
  List.prefix_of_prefix_length_le (List.prefix_append ..) h hl

/-- Texts without a common character have no common start. -/
theorem not_prefix_append_of_disjoint (hu : u ≠ []) (hv : v ≠ []) (h : ∀ c ∈ u, c ∉ v)
    (t : Text) : ¬ u <+: v ++ t := by
  intro hp
  obtain ⟨c, u, rfl⟩ := List.exists_cons_of_ne_nil hu
  obtain ⟨d, v, rfl⟩ := List.exists_cons_of_ne_nil hv
  obtain ⟨rfl, -⟩ := List.cons_prefix_cons.1 hp
  exact h c List.mem_cons_self List.mem_cons_self

/-! ### Reading from the front -/

@[simp]
theorem after?_append (s t : Text) : after? s (s ++ t) = some t :=
  after?_eq_some_iff.2 rfl

theorem startsWith_iff : startsWith t s = true ↔ s <+: t := by
  rw [startsWith, Option.isSome_iff_exists]
  exact exists_congr fun rest => after?_eq_some_iff.trans eq_comm

theorem after?_eq_none_iff : after? s t = none ↔ ¬ s <+: t := by
  rw [← startsWith_iff, startsWith, Option.not_isSome_iff_eq_none]

theorem contains_iff : contains s t = true ↔ s <:+: t := by
  induction t with
  | nil => simp [contains, List.infix_nil]
  | cons c t ih =>
      rw [contains, Bool.or_eq_true, startsWith_iff, ih, List.infix_cons_iff]

/-- A text in any case at the front, and what follows it. -/
theorem afterIgnoringCase?_eq_some_iff {rest : Text} :
    afterIgnoringCase? s t = some rest ↔ ∃ w : Text, t = w ++ rest ∧ w.lower = s.lower := by
  induction s generalizing t with
  | nil => simp [afterIgnoringCase?, lower]
  | cons d s ih =>
      constructor
      · intro h
        cases t with
        | nil => cases h
        | cons c t =>
            rw [afterIgnoringCase?] at h
            split at h
            · next hc =>
                obtain ⟨w, rfl, hw⟩ := ih.1 h
                exact ⟨c :: w, rfl, List.cons_eq_cons.2 ⟨hc.symm, hw⟩⟩
            · cases h
      · rintro ⟨w, rfl, hw⟩
        obtain ⟨c, w, rfl, hc, hw⟩ := List.map_eq_cons_iff.1 hw
        rw [List.cons_append, afterIgnoringCase?, if_pos hc.symm]
        exact ih.2 ⟨w, rfl, hw⟩

/-- A run of one class of characters is read up to a character that is not of the class. -/
theorem takeWhile_append_stop {p : Char → Bool} (hu : ∀ c ∈ u, p c = true)
    (ht : ∀ c, t.head? = some c → p c = false) : (u ++ t).takeWhile p = u := by
  rw [List.takeWhile_append_of_pos hu]
  cases t with
  | nil => simp
  | cons c t => simp [ht c rfl]

theorem dropWhile_append_stop {p : Char → Bool} (hu : ∀ c ∈ u, p c = true)
    (ht : ∀ c, t.head? = some c → p c = false) : (u ++ t).dropWhile p = t := by
  rw [List.dropWhile_append_of_pos hu]
  cases t with
  | nil => simp
  | cons c t => simp [ht c rfl]

/-- What a run of one class of characters stops at is not of the class. -/
theorem of_head?_dropWhile {p : Char → Bool} (h : (t.dropWhile p).head? = some c) :
    p c = false := by
  have hstop := List.head?_dropWhile_not p t
  rw [h] at hstop
  simpa using hstop

/-- The first separator, with what stands before and behind it. -/
theorem splitOnce?_eq_some (h : splitOnce? c t = some (u, v)) : t = u ++ c :: v ∧ c ∉ u := by
  induction t generalizing u with
  | nil => cases h
  | cons d t ih =>
      rw [splitOnce?] at h
      split at h
      · next hd =>
          cases h
          exact ⟨hd ▸ rfl, List.not_mem_nil⟩
      · next hd =>
          obtain ⟨⟨u', v'⟩, hs, he⟩ := Option.map_eq_some_iff.1 h
          cases he
          obtain ⟨rfl, hc⟩ := ih hs
          exact ⟨rfl, fun hm => (List.mem_cons.1 hm).elim (fun he => hd he.symm) hc⟩

theorem notMem_of_splitOnce?_eq_none (h : splitOnce? c t = none) : c ∉ t := by
  induction t with
  | nil => exact List.not_mem_nil
  | cons d t ih =>
      rw [splitOnce?] at h
      split at h
      · cases h
      · next hd =>
          have hc := ih (Option.map_eq_none_iff.1 h)
          exact fun hm => (List.mem_cons.1 hm).elim (fun he => hd he.symm) hc

/-! ### Replacement -/

@[simp]
theorem replace_nil (old new : Text) : replace old new [] = [] := by
  cases old with
  | nil => rfl
  | cons o os => rw [replace, replaceAll]

theorem replace_append_self (h : old ≠ []) :
    replace old new (old ++ t) = new ++ replace old new t := by
  cases old with
  | nil => exact absurd rfl h
  | cons o os =>
      have ha : after? (o :: os) (o :: (os ++ t)) = some t := after?_append (o :: os) t
      rw [replace, replace, List.cons_append, replaceAll]
      split
      · next hr => rw [ha] at hr; rw [Option.some.inj hr]
      · next hr => rw [ha] at hr; cases hr

theorem replace_self (h : old ≠ []) : replace old new old = new := by
  have hself : replace old new (old ++ []) = new ++ replace old new [] := replace_append_self h
  simpa using hself

theorem replace_cons (h : ¬ old <+: c :: t) :
    replace old new (c :: t) = c :: replace old new t := by
  cases old with
  | nil => exact absurd List.nil_prefix h
  | cons o os =>
      rw [replace, replace, replaceAll]
      split
      · next hr => exact absurd ⟨_, (after?_eq_some_iff.1 hr).symm⟩ h
      · rfl

/-- Text in front is left alone if no occurrence starts in it. -/
theorem replace_append_of_not_prefix (h : ∀ v, v ≠ [] → v <:+ u → ¬ old <+: v ++ t) :
    replace old new (u ++ t) = u ++ replace old new t := by
  induction u with
  | nil => rfl
  | cons c u ih =>
      have hc : ¬ old <+: c :: (u ++ t) := h (c :: u) (List.cons_ne_nil _ _) List.suffix_rfl
      rw [List.cons_append, replace_cons hc,
        ih fun v hv hs => h v hv (hs.trans (List.suffix_cons ..)), List.cons_append]

/-- Text without an occurrence is left alone. -/
theorem replace_of_not_infix (h : ¬ old <:+: t) : replace old new t = t := by
  have hv : ∀ v, v ≠ [] → v <:+ t → ¬ old <+: v ++ [] := fun v _ hs hp =>
    h ((List.append_nil v ▸ hp).isInfix.trans hs.isInfix)
  rw [← List.append_nil t, replace_append_of_not_prefix hv, replace_nil]

theorem foldl_replace_of_not_infix {α : Type} {old new : α → Text} {ps : List α}
    (h : ∀ p ∈ ps, ¬ old p <:+: t) : ps.foldl (fun t p => replace (old p) (new p) t) t = t := by
  induction ps with
  | nil => rfl
  | cons p ps ih =>
      rw [List.foldl_cons, replace_of_not_infix (h p List.mem_cons_self)]
      exact ih fun q hq => h q (List.mem_cons_of_mem _ hq)

/-- A text is read as a replacement reads it: an occurrence at the front is taken at once. -/
theorem occurrenceInduction {motive : Text → Prop} (h : old ≠ []) (nil : motive [])
    (found : ∀ rest, motive rest → motive (old ++ rest))
    (cons : ∀ c rest, ¬ old <+: c :: rest → motive rest → motive (c :: rest)) (t : Text) :
    motive t := by
  induction hn : t.length using Nat.strongRecOn generalizing t with
  | ind n ih =>
      cases t with
      | nil => exact nil
      | cons c t =>
          by_cases hp : old <+: c :: t
          · obtain ⟨rest, hr⟩ := hp
            have hl : rest.length < n := by
              have hlen := congrArg List.length hr
              have hpos := List.length_pos_iff.2 h
              simp only [List.length_append] at hlen
              omega
            rw [← hr]
            exact found rest (ih rest.length hl rest rfl)
          · have hl : t.length < n := by simp only [List.length_cons] at hn; omega
            exact cons c t hp (ih t.length hl t rfl)

/-- A replacement goes on afresh behind a character that no occurrence contains. -/
theorem replace_append_cons (hc : c ∉ old) :
    replace old new (u ++ c :: v) = replace old new u ++ c :: replace old new v := by
  by_cases hne : old = []
  · subst hne
    simp [replace]
  · have hcons : ∀ x, replace old new (c :: x) = c :: replace old new x := fun x =>
      replace_cons fun h => by
        cases old with
        | nil => exact hne rfl
        | cons o os => exact hc ((List.cons_prefix_cons.1 h).1 ▸ List.mem_cons_self)
    induction u using occurrenceInduction hne with
    | nil => rw [replace_nil, List.nil_append, List.nil_append, hcons]
    | found rest ih =>
        rw [List.append_assoc, replace_append_self hne, replace_append_self hne, ih,
          List.append_assoc]
    | cons d rest hp ih =>
        rw [List.cons_append, replace_cons hp, replace_cons, ih, List.cons_append]
        exact fun h => hp ((prefix_append_cons (u := d :: rest) hc).1 h)

/-- Every character of the result was there or came in. -/
theorem mem_replace (h : c ∈ replace old new t) : c ∈ t ∨ c ∈ new := by
  by_cases hne : old = []
  · subst hne
    exact .inl h
  · induction t using occurrenceInduction hne with
    | nil =>
        rw [replace_nil] at h
        exact .inl h
    | found rest ih =>
        rw [replace_append_self hne] at h
        rcases List.mem_append.1 h with h | h
        · exact .inr h
        · exact (ih h).imp_left fun h => List.mem_append_right _ h
    | cons d rest hp ih =>
        rw [replace_cons hp] at h
        rcases List.mem_cons.1 h with rfl | h
        · exact .inl List.mem_cons_self
        · exact (ih h).imp_left fun h => List.mem_cons_of_mem _ h

/-- A text that is not of one class of characters does not become so. -/
theorem all_replace_eq_false {p : Char → Bool} (hnew : new.all p = false) (h : t.all p = false) :
    (replace old new t).all p = false := by
  by_cases hne : old = []
  · subst hne
    exact h
  · induction t using occurrenceInduction hne with
    | nil => cases h
    | found rest ih => rw [replace_append_self hne, List.all_append, hnew, Bool.false_and]
    | cons d rest hp ih =>
        rw [List.all_cons, Bool.and_eq_false_iff] at h
        rw [replace_cons hp, List.all_cons, Bool.and_eq_false_iff]
        exact h.imp_right ih

end AmpMarkup.Text
