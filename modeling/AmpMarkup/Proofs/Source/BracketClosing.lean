import AmpMarkup.Proofs.Source.AttributeSpan

/-! Names with an opening bracket and no closing one. Renaming takes such an attribute for a binding,
and `closeBrackets` is the markup in which each of them has its closing bracket: the markup itself
exactly if none lacks it. -/

namespace AmpMarkup.Source

variable {c : Char} {s t u w x y : Text} {a : SourceAttribute} {as : List SourceAttribute}

/-- Every binding attribute of a tag that can be split has its closing bracket too. -/
def StartTag.ClosesBrackets (tag : StartTag) : Prop :=
  ∀ as, splitAttributes? (splitSolidus tag.attributes).1 = some as →
    ∀ a ∈ as, a.opened = true → a.closed = true

instance (tag : StartTag) : Decidable tag.ClosesBrackets :=
  inferInstanceAs (Decidable (∀ as ∈ splitAttributes? (splitSolidus tag.attributes).1,
    ∀ a ∈ as, a.opened = true → a.closed = true))

/-- A piece closes its brackets if it is text or a start tag that does. -/
def Piece.ClosesBrackets : Piece → Prop
  | .text _ => True
  | .tag s => s.ClosesBrackets

instance : (p : Piece) → Decidable p.ClosesBrackets
  | .text _ => .isTrue trivial
  | .tag s => inferInstanceAs (Decidable s.ClosesBrackets)

/-- The attribute with a closing bracket if its name has an opening one. -/
def SourceAttribute.closeBracket (a : SourceAttribute) : SourceAttribute :=
  { a with closed := a.opened || a.closed }

/-- The attributes of a start tag with the closing brackets that lack. A span that cannot be split stays
as it is. -/
def closeSpan (span : Text) : Text :=
  let (body, solidus) := splitSolidus span
  match splitAttributes? body with
  | some attributes => attributes.flatMap (·.closeBracket.source) ++ solidus
  | none => span

/-- A piece in the source, with the closing brackets that lack. -/
def Piece.closeBrackets : Piece → Text
  | .text t => t
  | .tag s => { s with attributes := closeSpan s.attributes }.source

/-- Markup with a closing bracket behind every name that only has the opening one. -/
def closeBrackets (t : Text) : Text :=
  (pieces t).flatMap Piece.closeBrackets

/-! ### Text with characters put in -/

/-- The second text is the first one with `c` put in at some places. -/
inductive Inserted (c : Char) : Text → Text → Prop where
  | nil : Inserted c [] []
  | keep {s t : Text} (d : Char) (h : Inserted c s t) : Inserted c (d :: s) (d :: t)
  | insert {s t : Text} (h : Inserted c s t) : Inserted c s (c :: t)

namespace Inserted

theorem refl (t : Text) : Inserted c t t := by
  induction t with
  | nil => exact .nil
  | cons d t ih => exact .keep d ih

theorem append (h : Inserted c s t) (h' : Inserted c x y) : Inserted c (s ++ x) (t ++ y) := by
  induction h with
  | nil => exact h'
  | keep d _ ih => exact .keep d ih
  | insert _ ih => exact .insert ih

theorem flatMap {α : Type} {f g : α → Text} {l : List α} (h : ∀ a ∈ l, Inserted c (f a) (g a)) :
    Inserted c (l.flatMap f) (l.flatMap g) := by
  induction l with
  | nil => exact .nil
  | cons a l ih =>
      rw [List.flatMap_cons, List.flatMap_cons]
      apply append
      · exact h a List.mem_cons_self
      · exact ih fun b hb => h b (List.mem_cons_of_mem _ hb)

theorem length_le (h : Inserted c s t) : s.length ≤ t.length := by
  induction h with
  | nil => exact Nat.le_refl _
  | keep d _ ih => exact Nat.succ_le_succ ih
  | insert _ ih => exact Nat.le_succ_of_le ih

theorem prefix_source (h : Inserted c s t) (hc : c ∉ w) (hp : w <+: t) : w <+: s := by
  induction h generalizing w with
  | nil => exact hp
  | keep d _ ih =>
      cases w with
      | nil => exact List.nil_prefix
      | cons e w =>
          obtain ⟨rfl, hrest⟩ := List.cons_prefix_cons.1 hp
          exact List.cons_prefix_cons.2 ⟨rfl, ih (fun hm => hc (List.mem_cons_of_mem _ hm)) hrest⟩
  | insert _ _ =>
      cases w with
      | nil => exact List.nil_prefix
      | cons e w => exact absurd ((List.cons_prefix_cons.1 hp).1 ▸ List.mem_cons_self) hc

/-- A text without the character stands in the second text only where it stands in the first. -/
theorem infix_source (h : Inserted c s t) (hc : c ∉ w) (hi : w <:+: t) : w <:+: s := by
  induction h with
  | nil => exact hi
  | keep d h ih =>
      rcases List.infix_cons_iff.1 hi with hp | hi
      · exact ((Inserted.keep d h).prefix_source hc hp).isInfix
      · exact List.infix_cons_iff.2 (.inr (ih hi))
  | insert h ih =>
      rcases List.infix_cons_iff.1 hi with hp | hi
      · exact ((Inserted.insert h).prefix_source hc hp).isInfix
      · exact ih hi

/-- Texts put together are equal only if their parts are. -/
theorem flatMap_eq_iff {α : Type} {f g : α → Text} {l : List α}
    (h : ∀ a ∈ l, Inserted c (f a) (g a)) : l.flatMap g = l.flatMap f ↔ ∀ a ∈ l, g a = f a := by
  induction l with
  | nil => simp
  | cons a l ih =>
      have hrest : ∀ b ∈ l, Inserted c (f b) (g b) := fun b hb => h b (List.mem_cons_of_mem _ hb)
      have hhead := (h a List.mem_cons_self).length_le
      have htail := (flatMap hrest).length_le
      rw [List.flatMap_cons, List.flatMap_cons, List.forall_mem_cons, ← ih hrest]
      constructor
      · intro he
        have hlength := congrArg List.length he
        simp only [List.length_append] at hlength
        exact List.append_inj he (by omega)
      · rintro ⟨ha, hl⟩
        rw [ha, hl]

end Inserted

/-! ### Closing brackets -/

theorem SourceAttribute.closeBracket_of_closed (h : a.opened = true → a.closed = true) :
    a.closeBracket = a := by
  obtain ⟨leading, opened, name, closed, value⟩ := a
  cases opened with
  | false => rfl
  | true => rw [show closed = true from h rfl]; rfl

theorem SourceAttribute.source_closeBracket_of_not_closed (ho : a.opened = true)
    (hc : a.closed = false) :
    a.source = a.leading ++ '[' :: a.name ++ a.value.getD [] ∧
      a.closeBracket.source = a.leading ++ '[' :: a.name ++ ']' :: a.value.getD [] := by
  simp [source, closeBracket, writtenName, ho, hc]

theorem SourceAttribute.inserted_closeBracket (a : SourceAttribute) :
    Inserted ']' a.source a.closeBracket.source := by
  by_cases h : a.opened = true → a.closed = true
  · rw [closeBracket_of_closed h]
    exact .refl _
  · obtain ⟨ho, hc⟩ := Classical.not_imp.1 h
    obtain ⟨hs, he⟩ := source_closeBracket_of_not_closed ho (Bool.eq_false_iff.2 hc)
    rw [hs, he]
    exact (Inserted.refl _).append (.insert (.refl _))

theorem SourceAttribute.source_closeBracket_eq_iff :
    a.closeBracket.source = a.source ↔ (a.opened = true → a.closed = true) := by
  constructor
  · intro h ho
    refine Bool.of_not_eq_false fun hc => ?_
    obtain ⟨hs, he⟩ := source_closeBracket_of_not_closed ho hc
    have hlength := congrArg List.length (he.symm.trans (h.trans hs))
    simp only [List.length_append, List.length_cons] at hlength
    omega
  · intro h
    rw [closeBracket_of_closed h]

theorem SourceAttribute.closed_of_mem_map_closeBracket (h : a ∈ as.map closeBracket)
    (ho : a.opened = true) : a.closed = true := by
  obtain ⟨b, -, rfl⟩ := List.mem_map.1 h
  have hb : b.opened = true := ho
  simp [closeBracket, hb]

theorem SourceAttribute.Written.closeBracket (h : a.Written) : a.closeBracket.Written :=
  ⟨h.leading_ne, h.leading_space, h.name_ne, h.name_chars, h.value⟩

/-- Renaming takes both brackets away. -/
theorem SourceAttribute.encodedSource_closeBracket (r : Registry) (a : SourceAttribute) :
    a.closeBracket.encodedSource r = a.encodedSource r := by
  obtain ⟨leading, opened, name, closed, value⟩ := a
  cases opened <;> rfl

/-- A span that can be split is its attributes and what stands after them. -/
theorem source_append_splitSolidus {span : Text}
    (h : splitAttributes? (splitSolidus span).1 = some as) :
    as.flatMap SourceAttribute.source ++ (splitSolidus span).2 = span := by
  obtain ⟨hspan, hlast, -⟩ := splitSolidus_spec span
  rw [← eq_of_splitAttributes? h hlast, ← hspan]

theorem closeSpan_of_some {span : Text} (h : splitAttributes? (splitSolidus span).1 = some as) :
    closeSpan span = as.flatMap (·.closeBracket.source) ++ (splitSolidus span).2 := by
  simp only [closeSpan, h]

theorem closeSpan_of_none {span : Text} (h : splitAttributes? (splitSolidus span).1 = none) :
    closeSpan span = span := by
  simp only [closeSpan, h]

theorem inserted_closeSpan (span : Text) : Inserted ']' span (closeSpan span) := by
  cases h : splitAttributes? (splitSolidus span).1 with
  | none =>
      rw [closeSpan_of_none h]
      exact .refl _
  | some as =>
      rw [closeSpan_of_some h]
      conv => arg 2; rw [← source_append_splitSolidus h]
      exact (Inserted.flatMap fun a _ => a.inserted_closeBracket).append (.refl _)

theorem closeSpan_eq_self_iff {tag : StartTag} :
    closeSpan tag.attributes = tag.attributes ↔ tag.ClosesBrackets := by
  unfold StartTag.ClosesBrackets
  cases h : splitAttributes? (splitSolidus tag.attributes).1 with
  | none => simp [closeSpan_of_none h]
  | some as =>
      have hspan := source_append_splitSolidus h
      rw [closeSpan_of_some h]
      conv => lhs; rhs; rw [← hspan]
      rw [List.append_cancel_right_eq,
        Inserted.flatMap_eq_iff fun a _ => a.inserted_closeBracket]
      simp only [SourceAttribute.source_closeBracket_eq_iff, Option.some.injEq, forall_eq']

theorem Piece.inserted_closeBrackets (p : Piece) : Inserted ']' p.source p.closeBrackets := by
  cases p with
  | text t => exact .refl t
  | tag s =>
      have h := (Inserted.refl ('<' :: s.name)).append
        ((inserted_closeSpan s.attributes).append (.refl ['>']))
      simpa [source, closeBrackets, StartTag.source] using h

theorem Piece.closeBrackets_eq_iff {p : Piece} : p.closeBrackets = p.source ↔ p.ClosesBrackets := by
  cases p with
  | text t => simp [closeBrackets, source, ClosesBrackets]
  | tag s => simp [closeBrackets, source, ClosesBrackets, StartTag.source, closeSpan_eq_self_iff]

theorem inserted_closeBrackets (t : Text) : Inserted ']' t (closeBrackets t) := by
  conv => arg 2; rw [← flatMap_source_pieces t]
  exact Inserted.flatMap fun p _ => p.inserted_closeBrackets

/-- Nothing lacks exactly if every piece closes its brackets. -/
theorem closeBrackets_eq_self_iff : closeBrackets t = t ↔ ∀ p ∈ pieces t, p.ClosesBrackets := by
  conv => lhs; rhs; rw [← flatMap_source_pieces t]
  rw [closeBrackets, Inserted.flatMap_eq_iff fun p _ => p.inserted_closeBrackets]
  simp only [Piece.closeBrackets_eq_iff]

end AmpMarkup.Source
