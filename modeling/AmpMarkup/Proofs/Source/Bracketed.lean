import AmpMarkup.Proofs.Source.BracketClosing
import AmpMarkup.Proofs.Source.StandIn

/-! Binding attributes with their names in brackets and with their names behind a mark. The relation
`Bracketed` holds between the two forms of markup: renaming leads from one to the other, and as long
as the mark does not stand in the source, naming again leads back. -/

namespace AmpMarkup.Source

/-! ### Reading marked names -/

section
variable {mark t name rest : Text} {b : Bool} {c : Char}

/-- A marked name is the longest one behind the mark. -/
theorem readMarked?_eq_some_iff : readMarked? mark t = some (name, rest) ↔
    t = mark ++ name ++ rest ∧ name ≠ [] ∧ (∀ c ∈ name, isNameChar c = true) ∧ EndsWord rest := by
  constructor
  · intro h
    obtain ⟨ht, hne⟩ := readMarked?_source h
    rw [readMarked?, ht, List.append_assoc, Text.after?_append] at h
    dsimp only at h
    split at h
    · cases h
    · obtain ⟨hname, hrest⟩ := Prod.mk.inj (Option.some.inj h)
      refine ⟨ht, hne, ?_, hrest ▸ endsWord_dropWhile _⟩
      exact hname ▸ fun c hc => List.all_eq_true.1 List.all_takeWhile c hc
  · rintro ⟨rfl, hne, hn, he⟩
    rw [readMarked?, List.append_assoc, Text.after?_append]
    dsimp only
    rw [takeWhile_word hn he, dropWhile_word hn he]
    simpa using hne

theorem decodeBindingsAfter_of_some (h : readMarked? mark t = some (name, rest)) :
    decodeBindingsAfter mark true t = '[' :: name ++ ']' :: decodeBindingsAfter mark false rest := by
  cases t with
  | nil =>
      obtain ⟨ht, hne⟩ := readMarked?_source h
      simp_all
  | cons c t =>
      rw [decodeBindingsAfter]
      split
      · next hr =>
          obtain ⟨rfl, rfl⟩ := Prod.mk.inj (Option.some.inj (hr.symm.trans h))
          rw [if_pos rfl]
      · next hr => rw [hr] at h; cases h

theorem decodeBindingsAfter_of_none (h : b = false ∨ readMarked? mark (c :: t) = none) :
    decodeBindingsAfter mark b (c :: t) = c :: decodeBindingsAfter mark (isSpace c) t := by
  rw [decodeBindingsAfter]
  split
  · next hr =>
      rcases h with rfl | h
      · rw [if_neg Bool.false_ne_true]
      · rw [hr] at h; cases h
  · rfl

/-- Text without spaces is kept where no space stands before it. -/
theorem decodeBindingsAfter_append (ht : ∀ c ∈ t, isSpace c = false) (k : Text) :
    decodeBindingsAfter mark false (t ++ k) = t ++ decodeBindingsAfter mark false k := by
  induction t with
  | nil => rfl
  | cons c t ih =>
      rw [List.cons_append, decodeBindingsAfter_of_none (.inl rfl), ht c List.mem_cons_self,
        ih fun d hd => ht d (List.mem_cons_of_mem _ hd), List.cons_append]

end

/-- The second text is the first one with some names that stand in brackets after a space put behind
the mark. The Boolean says whether a space stands before both texts. -/
inductive Bracketed (mark : Text) : Bool → Text → Text → Prop where
  | nil {afterSpace : Bool} : Bracketed mark afterSpace [] []
  | char {afterSpace : Bool} {s e : Text} (c : Char) (h : Bracketed mark (isSpace c) s e) :
      Bracketed mark afterSpace (c :: s) (c :: e)
  | binding {name s e : Text} (hne : name ≠ []) (hn : ∀ c ∈ name, isNameChar c = true)
      (hs : EndsWord s) (h : Bracketed mark false s e) :
      Bracketed mark true ('[' :: name ++ ']' :: s) (mark ++ name ++ e)

namespace Bracketed

variable {mark s e t u w : Text} {b : Bool}

/-- Text that is the same in both forms. -/
theorem copy (h : ∀ b, Bracketed mark b s e) : ∀ b, Bracketed mark b (t ++ s) (t ++ e) := by
  induction t with
  | nil => exact h
  | cons c t ih => exact fun b => .char c (ih (isSpace c))

theorem copy_spaces (hne : t ≠ []) (ht : ∀ c ∈ t, isSpace c = true) (h : Bracketed mark true s e) :
    ∀ b, Bracketed mark b (t ++ s) (t ++ e) := by
  induction t with
  | nil => exact absurd rfl hne
  | cons c t ih =>
      intro b
      refine .char c ?_
      rw [ht c List.mem_cons_self]
      cases t with
      | nil => exact h
      | cons d t => exact ih (by simp) (fun d hd => ht d (List.mem_cons_of_mem _ hd)) true

theorem endsWord (h : Bracketed mark false s e) (hs : EndsWord s) : EndsWord e := by
  cases h with
  | nil => exact .nil
  | char c h => exact endsWord_cons.2 (endsWord_cons.1 hs)

/-! ### What the renamed form starts with -/

/-- Without a space in front a text without spaces starts both forms or neither. -/
theorem prefix_source (h : Bracketed mark false s e) (hw : ∀ c ∈ w, isSpace c = false)
    (hp : w <+: e) : w <+: s := by
  induction w generalizing s e with
  | nil => exact List.nil_prefix
  | cons c w ih =>
      cases h with
      | nil => exact absurd (List.prefix_nil.1 hp) (by simp)
      | char d h =>
          obtain ⟨rfl, hp'⟩ := List.cons_prefix_cons.1 hp
          rw [hw c List.mem_cons_self] at h
          exact List.cons_prefix_cons.2
            ⟨rfl, ih h (fun d hd => hw d (List.mem_cons_of_mem _ hd)) hp'⟩

theorem cons_prefix_source {c : Char} (h : Bracketed mark (isSpace c) s e)
    (hw : ∀ c ∈ w, isSpace c = false) (hp : w <+: c :: e) : w <+: c :: s := by
  cases w with
  | nil => exact List.nil_prefix
  | cons d w =>
      obtain ⟨rfl, hp'⟩ := List.cons_prefix_cons.1 hp
      rw [hw d List.mem_cons_self] at h
      exact List.cons_prefix_cons.2
        ⟨rfl, h.prefix_source (fun d hd => hw d (List.mem_cons_of_mem _ hd)) hp'⟩

/-! ### Naming again -/

/-- Naming again restores the source. -/
theorem decodeBindingsAfter_eq (h : Bracketed mark b s e) (hm : IsBindingMark mark)
    (hfree : ¬ mark <:+: s) : decodeBindingsAfter mark b e = s := by
  induction h with
  | nil => rw [decodeBindingsAfter]
  | @char b s e c h ih =>
      have ih := ih fun hi => hfree (List.infix_cons_iff.2 (.inr hi))
      have hnone : readMarked? mark (c :: e) = none := by
        cases hr : readMarked? mark (c :: e) with
        | none => rfl
        | some p =>
            obtain ⟨name, rest⟩ := p
            obtain ⟨he, -⟩ := readMarked?_source hr
            have hp : mark <+: c :: e := ⟨name ++ rest, by rw [he, List.append_assoc]⟩
            have hns : ∀ d ∈ mark, isSpace d = false := fun d hd =>
              isSpace_of_isNameChar (hm.isNameChar_of_mem hd)
            exact absurd (h.cons_prefix_source hns hp).isInfix hfree
      rw [decodeBindingsAfter_of_none (.inr hnone), ih]
  | @binding name s e hne hn hs h ih =>
      have hsuf : s <:+ '[' :: name ++ ']' :: s := ⟨'[' :: name ++ [']'], by simp⟩
      have ih := ih fun hi => hfree (hi.trans hsuf.isInfix)
      rw [decodeBindingsAfter_of_some (readMarked?_eq_some_iff.2 ⟨rfl, hne, hn, h.endsWord hs⟩), ih]

/-! ### Substitutes in the renamed form -/

/-- A substitute that stands in the renamed form stands in the source. -/
theorem infix_source (h : Bracketed mark b s e) (hm : IsBindingMark mark) (hw : IsSubstitute w)
    (hi : w <:+: e) : w <:+: s := by
  have hns : ∀ d ∈ w, isSpace d = false := fun d hd =>
    isSpace_of_isNameChar (hw.isNameChar_of_mem hd).1
  induction h with
  | nil => exact hi
  | char c h ih =>
      rcases List.infix_cons_iff.1 hi with hp | hi
      · exact (h.cons_prefix_source hns hp).isInfix
      · exact List.infix_cons_iff.2 (.inr (ih hi))
  | @binding name s e hne hn hs h ih =>
      obtain ⟨u, hu, rfl⟩ := hm.eq_append_hyphen
      rw [List.append_assoc, List.append_assoc, List.singleton_append,
        Text.infix_append_cons hw.not_mem_hyphen] at hi
      rcases hi with hi | hi
      · have := hi.length_le
        rw [hw.length_eq, hu] at this
        omega
      · have hsrc : w <:+: name ∨ w <:+: e := by
          have hend := h.endsWord hs
          cases e with
          | nil => exact .inl (by simpa using hi)
          | cons c e =>
              refine ((Text.infix_append_cons (hw.not_mem (endsWord_cons.1 hend))).1 hi).imp_right
                fun hi => List.infix_cons_iff.2 (.inr hi)
        rcases hsrc with hi | hi
        · exact List.infix_append_of_infix_left (List.infix_cons_iff.2 (.inr hi))
        · exact List.infix_append_of_infix_right (List.infix_cons_iff.2 (.inr (ih hi)))

end Bracketed

/-! ### Renaming -/

variable {r : Registry} {m t : Text}

theorem SourceAttribute.Written.endsWord_flatMap {as : List SourceAttribute}
    (h : ∀ a ∈ as, a.Written) (ht : EndsWord t) :
    EndsWord (as.flatMap SourceAttribute.source ++ t) := by
  cases as with
  | nil => exact ht
  | cons a as =>
      have ha := h a List.mem_cons_self
      rw [List.flatMap_cons, SourceAttribute.source]
      cases hl : a.leading with
      | nil => exact absurd hl ha.leading_ne
      | cons c l =>
          have hc : isSpace c = true := ha.leading_space c (hl ▸ List.mem_cons_self)
          exact endsWord_cons.2 (isNameChar_of_isSpace hc)

/-- The attributes of a tag are renamed one by one. -/
theorem bracketed_flatMap {s e : Text} {as : List SourceAttribute} (h : ∀ a ∈ as, a.Written)
    (hc : ∀ a ∈ as, a.opened = true → a.closed = true) (hs : EndsWord s)
    (ht : ∀ b, Bracketed r.bindingMark b s e) :
    ∀ b, Bracketed r.bindingMark b (as.flatMap SourceAttribute.source ++ s)
      (as.flatMap (·.encodedSource r) ++ e) := by
  induction as with
  | nil => exact ht
  | cons a as ih =>
      have ha := h a List.mem_cons_self
      have hrest := ih (fun b hb => h b (List.mem_cons_of_mem _ hb))
        fun b hb => hc b (List.mem_cons_of_mem _ hb)
      have hend := SourceAttribute.Written.endsWord_flatMap
        (fun b hb => h b (List.mem_cons_of_mem _ hb)) hs
      rw [List.flatMap_cons, List.flatMap_cons, SourceAttribute.source,
        SourceAttribute.encodedSource, SourceAttribute.isBinding]
      simp only [List.append_assoc]
      cases ho : a.opened with
      | false =>
          simp only [Bool.false_eq_true, if_false]
          exact Bracketed.copy (Bracketed.copy (Bracketed.copy hrest))
      | true =>
          have hclosed := hc a List.mem_cons_self ho
          refine Bracketed.copy_spaces ha.leading_ne ha.leading_space ?_
          have hvalue : EndsWord (a.value.getD [] ++ (as.flatMap SourceAttribute.source ++ s)) := by
            cases hv : a.value with
            | none => exact hend
            | some v =>
                obtain ⟨w, rfl⟩ := (ha.value v hv).exists_eq_cons
                exact endsWord_cons.2 (by decide)
          have := Bracketed.binding ha.name_ne ha.name_chars hvalue (Bracketed.copy hrest false)
          simpa [SourceAttribute.writtenName, ho, hclosed, Registry.bindingName] using this

theorem bracketed_encodeSpan {s e : Text} (span : Text) (hs : EndsWord s)
    (ht : ∀ b, Bracketed r.bindingMark b s e) :
    ∀ b, Bracketed r.bindingMark b (closeSpan span ++ s) (encodeSpan r span ++ e) := by
  obtain ⟨-, -, hsol⟩ := splitSolidus_spec span
  have hspan : encodeSpan r span = span → closeSpan span = span →
      ∀ b, Bracketed r.bindingMark b (closeSpan span ++ s) (encodeSpan r span ++ e) := by
    intro he hc
    rw [he, hc]
    exact Bracketed.copy ht
  cases has : splitAttributes? (splitSolidus span).1 with
  | none => exact hspan (by simp only [encodeSpan, has]) (closeSpan_of_none has)
  | some as =>
      by_cases hany : as.any SourceAttribute.isBinding = true
      · have he : encodeSpan r span = (as.map SourceAttribute.closeBracket).flatMap
            (·.encodedSource r) ++ (splitSolidus span).2 := by
          simp only [encodeSpan, has, hany, if_true, List.flatMap_map,
            SourceAttribute.encodedSource_closeBracket]
        rw [he, closeSpan_of_some has, ← List.flatMap_map SourceAttribute.closeBracket,
          List.append_assoc, List.append_assoc]
        apply bracketed_flatMap
        · intro a ha
          obtain ⟨b, hb, rfl⟩ := List.mem_map.1 ha
          exact ((splitAttributes?_spec has).1 b hb).closeBracket
        · exact fun a => SourceAttribute.closed_of_mem_map_closeBracket
        · cases hsolidus : (splitSolidus span).2 with
          | nil => exact hs
          | cons c solidus => exact endsWord_cons.2 (endsWord_cons.1 (hsolidus ▸ hsol))
        · exact Bracketed.copy ht
      · -- Without a binding no name has an opening bracket, so that no closing one lacks.
        have hclosed : StartTag.ClosesBrackets ⟨[], span⟩ := by
          intro bs hbs a ha ho
          obtain rfl := Option.some.inj (has.symm.trans hbs)
          exact absurd (List.any_eq_true.2 ⟨a, ha, ho⟩) hany
        exact hspan (by simp only [encodeSpan, has, if_neg hany]) (closeSpan_eq_self_iff.2 hclosed)

/-- Renaming the binding attributes of markup drops their brackets, whether or not the closing ones
stand there. -/
theorem bracketed_encodeBindings (m : Text) :
    Bracketed r.bindingMark false (closeBrackets m) (encodeBindings r m) := by
  have hgen : ∀ ps : List Piece, ∀ b, Bracketed r.bindingMark b (ps.flatMap Piece.closeBrackets)
      (ps.flatMap (·.encodedSource r)) := by
    intro ps
    induction ps with
    | nil => exact fun _ => .nil
    | cons p ps ih =>
        rw [List.flatMap_cons, List.flatMap_cons]
        cases p with
        | text t => exact Bracketed.copy ih
        | tag tag =>
            have hclose : ∀ b, Bracketed r.bindingMark b ('>' :: ps.flatMap Piece.closeBrackets)
                ('>' :: ps.flatMap (·.encodedSource r)) := fun b => .char '>' (ih _)
            have := Bracketed.copy (t := '<' :: tag.name)
              (bracketed_encodeSpan tag.attributes (endsWord_cons.2 (by decide)) hclose)
            simpa [Piece.closeBrackets, Piece.encodedSource, StartTag.source] using this
  exact hgen (pieces m) false

/-- Naming again undoes renaming in markup that does not hold the mark, but for closing brackets that
lacked. -/
theorem decodeBindings_encodeBindings (hm : IsBindingMark r.bindingMark)
    (hfree : ¬ r.bindingMark <:+: m) : decodeBindings r (encodeBindings r m) = closeBrackets m := by
  have hbracket : ']' ∉ r.bindingMark := hm.not_mem (by decide)
  exact (bracketed_encodeBindings m).decodeBindingsAfter_eq hm fun hi =>
    hfree ((inserted_closeBrackets m).infix_source hbracket hi)

/-- Renaming brings no substitute into markup. -/
theorem infix_of_infix_encodeBindings {w : Text} (hm : IsBindingMark r.bindingMark)
    (hw : IsSubstitute w) (hi : w <:+: encodeBindings r m) : w <:+: m :=
  (inserted_closeBrackets m).infix_source (hw.not_mem (by decide))
    ((bracketed_encodeBindings m).infix_source hm hw hi)

/-- Naming again undoes renaming in markup that does not hold the mark, except that a name with an
opening bracket only gets the closing one. So the markup comes back exactly if no name lacks it. -/
theorem decodeBindings_encodeBindings_eq_self_iff {salt m : Text}
    (hfree : ¬ (Registry.ofSalt salt).bindingMark <:+: m) :
    decodeBindings (Registry.ofSalt salt) (encodeBindings (Registry.ofSalt salt) m) =
        closeBrackets m ∧
      (decodeBindings (Registry.ofSalt salt) (encodeBindings (Registry.ofSalt salt) m) = m ↔
        ∀ p ∈ pieces m, p.ClosesBrackets) := by
  have hdecoded := decodeBindings_encodeBindings (Registry.ofSalt_wellFormed salt).isBindingMark hfree
  refine ⟨hdecoded, ?_⟩
  rw [hdecoded, closeBrackets_eq_self_iff]

/-- The second name lacks its bracket. -/
theorem decodeBindings_encodeBindings_eq_self_iff_lacking :
    ¬ (Registry.ofSalt "a".toList).bindingMark <:+: "<p [a]='x' [b y>".toList ∧
      decodeBindings (Registry.ofSalt "a".toList)
          (encodeBindings (Registry.ofSalt "a".toList) "<p [a]='x' [b y>") =
        ("<p [a]='x' [b] y>" : Text) := by
  have hfree : ¬ (Registry.ofSalt "a".toList).bindingMark <:+: "<p [a]='x' [b y>".toList := by
    decide +kernel
  have hclosed : closeBrackets "<p [a]='x' [b y>" = ("<p [a]='x' [b] y>" : Text) := by
    decide +kernel
  refine ⟨hfree, ?_⟩
  rw [(decodeBindings_encodeBindings_eq_self_iff hfree).1, hclosed]

end AmpMarkup.Source
