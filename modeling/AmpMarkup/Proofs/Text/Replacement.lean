import AmpMarkup.Proofs.Text.Occurrence

/-! Replacements one after the other. What a replacement puts in brings no occurrence of a text with
other characters, and two replacements that leave each other's texts alone may change places. -/

namespace AmpMarkup.Text

variable {old new old' new' t u w : Text} {c : Char}

/-! ### Text that is skipped -/

/-- Text in front with which no occurrence has a character in common is skipped. -/
theorem replace_free_append (hu : ∀ c ∈ u, c ∉ old) (t : Text) :
    replace old new (u ++ t) = u ++ replace old new t := by
  induction u with
  | nil => rfl
  | cons c u ih =>
      have hfirst : replace old new (c :: (u ++ t)) =
          replace old new [] ++ c :: replace old new (u ++ t) :=
        replace_append_cons (u := []) (hu c List.mem_cons_self)
      rw [replace_nil, List.nil_append] at hfirst
      rw [List.cons_append, hfirst, ih fun d hd => hu d (List.mem_cons_of_mem _ hd), List.cons_append]

theorem replace_append_free (hu : ∀ c ∈ u, c ∉ old) (t : Text) :
    replace old new (t ++ u) = replace old new t ++ u := by
  cases u with
  | nil => simp
  | cons c u =>
      have hrest : replace old new (u ++ []) = u ++ replace old new [] :=
        replace_free_append (fun d hd => hu d (List.mem_cons_of_mem c hd)) []
      rw [List.append_nil, replace_nil, List.append_nil] at hrest
      rw [replace_append_cons (hu c List.mem_cons_self), hrest]

/-! ### Occurrences in the result -/

theorem infix_of_infix_append (hd : ∀ c ∈ w, c ∉ u) (h : w <:+: u ++ t) : w <:+: t := by
  cases w with
  | nil => exact List.nil_infix
  | cons c w =>
      rcases infix_append_iff.1 h with ⟨v, hv, hs, hp⟩ | h
      · have hdv : ∀ d ∈ c :: w, d ∉ v := fun d hdw hdv => hd d hdw (hs.subset hdv)
        exact absurd hp (not_prefix_append_of_disjoint (List.cons_ne_nil c w) hv hdv t)
      · exact h

/-- Where a text with other characters than the new one starts in the result, it started before. -/
theorem prefix_of_prefix_replace (hold : old ≠ []) (hnew : new ≠ []) (hd : ∀ c ∈ w, c ∉ new)
    (h : w <+: replace old new t) : w <+: t := by
  induction t using occurrenceInduction hold generalizing w with
  | nil => rwa [replace_nil] at h
  | found rest ih =>
      rw [replace_append_self hold] at h
      by_cases hw : w = []
      · rw [hw]
        exact List.nil_prefix
      · exact absurd h (not_prefix_append_of_disjoint hw hnew hd _)
  | cons c rest hp ih =>
      rw [replace_cons hp] at h
      cases w with
      | nil => exact List.nil_prefix
      | cons d w =>
          obtain ⟨rfl, hrest⟩ := List.cons_prefix_cons.1 h
          have hdw : ∀ c ∈ w, c ∉ new := fun c hc => hd c (List.mem_cons_of_mem _ hc)
          exact List.cons_prefix_cons.2 ⟨rfl, ih hdw hrest⟩

/-- In front of a result that keeps its first character, such a text stands where it stood before. -/
theorem infix_replace_cons (hold : old ≠ []) (hnew : new ≠ []) (hd : ∀ c ∈ w, c ∉ new)
    (hp : ¬ old <+: c :: t) (h : w <:+: replace old new (c :: t)) :
    w <+: c :: t ∨ w <:+: replace old new t := by
  have hcons : replace old new (c :: t) = c :: replace old new t := replace_cons hp
  rcases List.infix_cons_iff.1 (hcons ▸ h) with hfront | hrest
  · exact .inl (prefix_of_prefix_replace hold hnew hd (hcons ▸ hfront))
  · exact .inr hrest

/-- A text with other characters than the new one stands in the result only where it stood before. -/
theorem infix_of_infix_replace (hold : old ≠ []) (hnew : new ≠ []) (hd : ∀ c ∈ w, c ∉ new)
    (h : w <:+: replace old new t) : w <:+: t := by
  induction t using occurrenceInduction hold with
  | nil => rwa [replace_nil] at h
  | found rest ih =>
      rw [replace_append_self hold] at h
      exact List.infix_append_of_infix_right (ih (infix_of_infix_append hd h))
  | cons c rest hp ih =>
      rcases infix_replace_cons hold hnew hd hp h with hfront | hrest
      · exact hfront.isInfix
      · exact List.infix_cons_iff.2 (.inr (ih hrest))

/-- Nothing is left of what was replaced. -/
theorem not_infix_replace (hold : old ≠ []) (hnew : new ≠ []) (hd : ∀ c ∈ old, c ∉ new) (t : Text) :
    ¬ old <:+: replace old new t := by
  intro h
  induction t using occurrenceInduction hold with
  | nil =>
      rw [replace_nil] at h
      exact hold (List.infix_nil.1 h)
  | found rest ih =>
      rw [replace_append_self hold] at h
      exact ih (infix_of_infix_append hd h)
  | cons c rest hp ih =>
      rcases infix_replace_cons hold hnew hd hp h with hfront | hrest
      · exact hp hfront
      · exact ih hrest

/-! ### Replacements one after the other -/

section Fold

variable {α : Type} {old new : α → Text} {ps : List α} {p : α}

/-- A text with other characters than all the new ones stands in the result only where it stood before. -/
theorem infix_of_infix_foldl_replace
    (hp : ∀ p ∈ ps, old p ≠ [] ∧ new p ≠ [] ∧ ∀ c ∈ w, c ∉ new p)
    (h : w <:+: ps.foldl (fun t p => replace (old p) (new p) t) t) : w <:+: t := by
  induction ps generalizing t with
  | nil => exact h
  | cons p ps ih =>
      obtain ⟨hold, hnew, hd⟩ := hp p List.mem_cons_self
      have hrest := ih (fun q hq => hp q (List.mem_cons_of_mem _ hq)) h
      exact infix_of_infix_replace hold hnew hd hrest

/-- Every text has its turn, and none of the later replacements brings it back. -/
theorem not_infix_foldl_replace
    (hp : ∀ q ∈ ps, old q ≠ [] ∧ new q ≠ [] ∧ ∀ c ∈ old p, c ∉ new q) (hm : p ∈ ps) (t : Text) :
    ¬ old p <:+: ps.foldl (fun t p => replace (old p) (new p) t) t := by
  intro h
  obtain ⟨before, later, rfl⟩ := List.append_of_mem hm
  rw [List.foldl_append, List.foldl_cons] at h
  obtain ⟨hold, hnew, hd⟩ := hp p hm
  have hlater : ∀ q ∈ later, old q ≠ [] ∧ new q ≠ [] ∧ ∀ c ∈ old p, c ∉ new q :=
    fun q hq => hp q (List.mem_append_right _ (List.mem_cons_of_mem _ hq))
  exact not_infix_replace hold hnew hd _ (infix_of_infix_foldl_replace hlater h)

end Fold

/-! ### Two replacements -/

/-- Replacing `old` by `new` leaves occurrences of `w` alone: none of them starts in an occurrence of
`old`, and what is put in has other characters. -/
structure Spares (old new w : Text) : Prop where
  old_ne : old ≠ []
  new_ne : new ≠ []
  apart : ∀ v, v ≠ [] → v <:+ old → ∀ t, ¬ w <+: v ++ t
  disjoint : ∀ c ∈ w, c ∉ new

/-- What is replaced, and what replaces it, can be skipped by another replacement. -/
theorem Spares.replace_append (h : Spares old new w) (hw : w ≠ []) (t : Text) :
    replace w new' (old ++ t) = old ++ replace w new' t ∧
      replace w new' (new ++ t) = new ++ replace w new' t := by
  constructor
  · exact replace_append_of_not_prefix fun v hv hs => h.apart v hv hs t
  · refine replace_append_of_not_prefix fun v hv hs => ?_
    exact not_prefix_append_of_disjoint hw hv (fun c hc hcv => h.disjoint c hc (hs.subset hcv)) t

/-- An occurrence in front is replaced in either order. -/
theorem Spares.replace_replace_append (h : Spares old new old') (hne : old' ≠ [])
    (ih : replace old' new' (replace old new t) = replace old new (replace old' new' t)) :
    replace old' new' (replace old new (old ++ t)) =
      replace old new (replace old' new' (old ++ t)) := by
  rw [replace_append_self h.old_ne, (h.replace_append hne _).2, (h.replace_append hne _).1,
    replace_append_self h.old_ne, ih]

/-- Two replacements that leave each other's texts alone may change places. -/
theorem replace_comm (h : Spares old new old') (h' : Spares old' new' old) (t : Text) :
    replace old' new' (replace old new t) = replace old new (replace old' new' t) := by
  induction hn : t.length using Nat.strongRecOn generalizing t with
  | ind n ih =>
      by_cases hp : old <+: t
      · obtain ⟨rest, rfl⟩ := hp
        have hpos := List.length_pos_iff.2 h.old_ne
        rw [List.length_append] at hn
        exact h.replace_replace_append h'.old_ne (ih rest.length (by omega) rest rfl)
      · by_cases hp' : old' <+: t
        · obtain ⟨rest, rfl⟩ := hp'
          have hpos := List.length_pos_iff.2 h'.old_ne
          rw [List.length_append] at hn
          exact (h'.replace_replace_append h.old_ne (ih rest.length (by omega) rest rfl).symm).symm
        · cases t with
          | nil => simp
          | cons c t =>
              -- Neither text starts here, and the other replacement does not make it start here.
              have hcons : replace old new (c :: t) = c :: replace old new t := replace_cons hp
              have hcons' : replace old' new' (c :: t) = c :: replace old' new' t := replace_cons hp'
              have hq : ¬ old <+: c :: replace old' new' t := fun hq =>
                hp (prefix_of_prefix_replace h'.old_ne h'.new_ne h'.disjoint (hcons' ▸ hq))
              have hq' : ¬ old' <+: c :: replace old new t := fun hq =>
                hp' (prefix_of_prefix_replace h.old_ne h.new_ne h.disjoint (hcons ▸ hq))
              rw [List.length_cons] at hn
              rw [hcons, hcons', replace_cons hq, replace_cons hq', ih t.length (by omega) t rfl]

end AmpMarkup.Text
