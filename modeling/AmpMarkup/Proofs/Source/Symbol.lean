import AmpMarkup.Proofs.Source.StandIn

/-! Markup in which some places can be written in different ways: the delimiters of templates, and
the marks of bindings. A spelling writes it out. Substituting templates and restoring them are a
change of the spelling, so that one sequence of symbols stands for the markup under every
registry. -/

namespace AmpMarkup.Source

open Text (replace)

/-- A character, or a place for a delimiter or for a mark of a binding. -/
inductive Symbol where
  | char (c : Char)
  | delimiter (d : Text)
  | mark
deriving DecidableEq, Repr

/-- How delimiters and marks are written. -/
structure Spelling where
  delimiter : Text → Text
  mark : Text

/-- A symbol written out. -/
def Symbol.spell (s : Spelling) : Symbol → Text
  | .char c => [c]
  | .delimiter d => s.delimiter d
  | .mark => s.mark

/-- Symbols written out. -/
def spell (s : Spelling) (z : List Symbol) : Text :=
  z.flatMap (Symbol.spell s)

/-- The spelling of the source, in which every delimiter is itself. -/
def Spelling.source : Spelling :=
  ⟨id, []⟩

/-- The spelling with another text for one delimiter. -/
def Spelling.set (s : Spelling) (d new : Text) : Spelling :=
  { s with delimiter := fun e => if e = d then new else s.delimiter e }

/-- The spelling of a registry. -/
def Registry.spelling (r : Registry) : Spelling where
  delimiter d := ((r.placeholders.find? (·.delimiter == d)).map Placeholder.substitute).getD d
  mark := r.bindingMark

/-- The delimiters among the symbols are those of templates. -/
def Delimited (z : List Symbol) : Prop :=
  ∀ d, .delimiter d ∈ z → d ∈ delimiters

/-- A mark stands only behind a space. The Boolean says whether a space stands before the symbols. -/
def Spaced : Bool → List Symbol → Prop
  | _, [] => True
  | _, .char c :: z => Spaced (isSpace c) z
  | _, .delimiter _ :: z => Spaced false z
  | afterSpace, .mark :: z => afterSpace = true ∧ Spaced false z

/-- Delimiters and marks are written as words. -/
structure Spelling.Wordy (s : Spelling) : Prop where
  delimiter_ne : ∀ d ∈ delimiters, s.delimiter d ≠ []
  delimiter_chars : ∀ d ∈ delimiters, ∀ c ∈ s.delimiter d, isNameChar c = true
  mark_ne : s.mark ≠ []
  mark_chars : ∀ c ∈ s.mark, isNameChar c = true

variable {s : Spelling} {x y z : List Symbol} {d t u w : Text} {c : Char} {b : Bool}

@[simp]
theorem spell_nil (s : Spelling) : spell s [] = [] :=
  rfl

@[simp]
theorem spell_cons (s : Spelling) (a : Symbol) (z : List Symbol) :
    spell s (a :: z) = a.spell s ++ spell s z :=
  rfl

@[simp]
theorem spell_append (s : Spelling) (y z : List Symbol) :
    spell s (y ++ z) = spell s y ++ spell s z := by
  rw [spell, spell, spell, List.flatMap_append]

@[simp]
theorem spell_map_char (s : Spelling) (t : Text) : spell s (t.map .char) = t := by
  induction t with
  | nil => rfl
  | cons c t ih => rw [List.map_cons, spell_cons, ih]; rfl

theorem delimited_map_char (t : Text) : Delimited (t.map .char) := by
  simp [Delimited]

theorem Delimited.tail {a : Symbol} (h : Delimited (a :: z)) : Delimited z :=
  fun d hd => h d (List.mem_cons_of_mem _ hd)

/-! ### Marks behind spaces -/

theorem Spaced.of_false (h : Spaced false z) (b : Bool) : Spaced b z := by
  cases z with
  | nil => trivial
  | cons a z =>
      cases a with
      | char c => exact h
      | delimiter d => exact h
      | mark => cases h.1

theorem Spaced.append (hy : Spaced b y) (hz : Spaced false z) : Spaced b (y ++ z) := by
  induction y generalizing b with
  | nil => exact hz.of_false b
  | cons a y ih =>
      cases a with
      | char c => exact ih (b := isSpace c) hy
      | delimiter d => exact ih (b := false) hy
      | mark => exact ⟨hy.1, ih hy.2⟩

theorem spaced_map_char (b : Bool) (t : Text) : Spaced b (t.map .char) := by
  induction t generalizing b with
  | nil => trivial
  | cons c t ih => exact ih (isSpace c)

/-- What follows a character that is no space does not start with a mark. -/
theorem spaced_append_char (hc : isSpace c = false) :
    Spaced b (y ++ .char c :: z) ↔ Spaced b y ∧ Spaced false z := by
  induction y generalizing b with
  | nil => simp [Spaced, hc]
  | cons a y ih =>
      cases a with
      | char e => exact ih (b := isSpace e)
      | delimiter d => exact ih (b := false)
      | mark => simp only [List.cons_append, Spaced, ih, and_assoc]

theorem delimiter_ne_nil : ∀ d ∈ delimiters, d ≠ [] := by
  decide

theorem not_isNameChar_of_mem_delimiter :
    ∀ d ∈ delimiters, ∀ c ∈ d, isNameChar c = false := by
  have hall : ∀ d ∈ delimiters, d.all (!isNameChar ·) = true := by decide
  intro d hd c hc
  simpa using List.all_eq_true.1 (hall d hd) c hc

theorem not_mem_delimiter {c : Char} (hd : d ∈ delimiters) (hc : isNameChar c = true) : c ∉ d :=
  fun hm => Bool.false_ne_true ((not_isNameChar_of_mem_delimiter d hd c hm).symm.trans hc)

theorem isSpace_of_mem_delimiter : ∀ d ∈ delimiters, ∀ c ∈ d, isSpace c = false := by
  have hall : ∀ d ∈ delimiters, d.all (!isSpace ·) = true := by decide
  intro d hd c hc
  simpa using List.all_eq_true.1 (hall d hd) c hc

theorem delimiters_nodup : delimiters.Nodup := by
  decide

theorem Spaced.of_word_append (hne : t ≠ []) (ht : ∀ c ∈ t, isSpace c = false)
    (h : Spaced b (t.map .char ++ z)) : Spaced false z := by
  induction t generalizing b with
  | nil => exact absurd rfl hne
  | cons c t ih =>
      have hc := ht c List.mem_cons_self
      cases t with
      | nil =>
          rw [← hc]
          exact h
      | cons e t =>
          exact ih (b := isSpace c) (by simp) (fun e he => ht e (List.mem_cons_of_mem _ he)) h

/-! ### Substitution -/

/-- A delimiter starts in symbols only where its characters do. -/
theorem prefix_of_prefix_spell (hs : s.Wordy) (hz : Delimited z)
    (hw : ∀ c ∈ w, isNameChar c = false) (h : w <+: spell s z) : w.map .char <+: z := by
  induction z generalizing w with
  | nil =>
      rw [List.prefix_nil.1 h]
      exact List.nil_prefix
  | cons a z ih =>
      cases w with
      | nil => exact List.nil_prefix
      | cons c w =>
          -- A delimiter or a mark in the way starts with a letter or an underscore.
          have hword : ∀ u : Text, u ≠ [] → (∀ c ∈ u, isNameChar c = true) →
              ¬ c :: w <+: u ++ spell s z := by
            intro u hu hn
            refine Text.not_prefix_append_of_disjoint (List.cons_ne_nil c w) hu ?_ _
            intro e hew heu
            exact Bool.false_ne_true ((hw e hew).symm.trans (hn e heu))
          cases a with
          | char e =>
              obtain ⟨rfl, hp⟩ := List.cons_prefix_cons.1 h
              exact List.cons_prefix_cons.2
                ⟨rfl, ih hz.tail (fun c hm => hw c (List.mem_cons_of_mem _ hm)) hp⟩
          | delimiter e =>
              have he := hz e List.mem_cons_self
              exact absurd h (hword _ (hs.delimiter_ne e he) (hs.delimiter_chars e he))
          | mark => exact absurd h (hword _ hs.mark_ne hs.mark_chars)

/-- No delimiter starts in a word. -/
theorem replace_word_append {new : Text} (hd : d ∈ delimiters) (hu : ∀ c ∈ u, isNameChar c = true)
    (t : Text) : replace d new (u ++ t) = u ++ replace d new t := by
  refine Text.replace_append_of_not_prefix fun v hv hs => ?_
  exact Text.not_prefix_append_of_disjoint (delimiter_ne_nil d hd) hv
    (fun c hc hcv => not_mem_delimiter hd (hu c (hs.subset hcv)) hc) t

/-- The second symbols are the first ones with places for occurrences of delimiters, one delimiter
after the other. Their spelling is the replacement in the spelling of the first ones, whatever stands
for the delimiters. -/
structure Placed (ds : List Text) (z z' : List Symbol) : Prop where
  delimited : Delimited z'
  replaced : ∀ s : Spelling, s.Wordy →
    spell s z' = ds.foldl (fun t d => replace d (s.delimiter d) t) (spell s z)
  source : ∀ s : Spelling, (∀ d ∈ ds, s.delimiter d = d) → spell s z' = spell s z
  mark : .mark ∈ z' → .mark ∈ z
  spaced : ∀ b, Spaced b z → Spaced b z'

namespace Placed

variable {y z' : List Symbol} {a : Symbol} {ds es : List Text}

theorem nil (d : Text) : Placed [d] [] [] where
  delimited e he := by cases he
  replaced _ _ := (Text.replace_nil ..).symm
  source _ _ := rfl
  mark := id
  spaced _ := id

theorem refl (hz : Delimited z) : Placed [] z z :=
  ⟨hz, fun _ _ => rfl, fun _ _ => rfl, id, fun _ => id⟩

theorem trans (h : Placed ds z y) (h' : Placed es y z') : Placed (ds ++ es) z z' where
  delimited := h'.delimited
  replaced s hs := by rw [h'.replaced s hs, h.replaced s hs, List.foldl_append]
  source s hs := by
    rw [h'.source s fun d hd => hs d (List.mem_append_right _ hd),
      h.source s fun d hd => hs d (List.mem_append_left _ hd)]
  mark hm := h.mark (h'.mark hm)
  spaced b hb := h'.spaced b (h.spaced b hb)

/-- An occurrence in front gets a place. -/
theorem found (hd : d ∈ delimiters) (h : Placed [d] z z') :
    Placed [d] (d.map .char ++ z) (.delimiter d :: z') where
  delimited e he := by
    rcases List.mem_cons.1 he with he | he
    · exact Symbol.delimiter.inj he ▸ hd
    · exact h.delimited e he
  replaced s hs := by
    have hrest : spell s z' = replace d (s.delimiter d) (spell s z) := h.replaced s hs
    rw [spell_cons, hrest, spell_append, spell_map_char, List.foldl_cons,
      Text.replace_append_self (delimiter_ne_nil d hd)]
    rfl
  source s hs := by
    rw [spell_cons, h.source s hs, spell_append, spell_map_char]
    exact congrArg (· ++ spell s z) (hs d List.mem_cons_self)
  mark hm := List.mem_append_right _ (h.mark (by simpa using hm))
  spaced b hb :=
    h.spaced false (hb.of_word_append (delimiter_ne_nil d hd) (isSpace_of_mem_delimiter d hd))

/-- A symbol with which no occurrence starts stays. -/
theorem cons (hd : d ∈ delimiters) (hz : Delimited (a :: z)) (hp : ¬ d.map .char <+: a :: z)
    (h : Placed [d] z z') : Placed [d] (a :: z) (a :: z') where
  delimited e he := by
    rcases List.mem_cons.1 he with he | he
    · exact hz e (he ▸ List.mem_cons_self)
    · exact h.delimited e he
  replaced s hs := by
    have hrest : spell s z' = replace d (s.delimiter d) (spell s z) := h.replaced s hs
    rw [spell_cons, spell_cons, hrest, List.foldl_cons, List.foldl_nil]
    cases a with
    | char c =>
        exact (Text.replace_cons fun h =>
          hp (prefix_of_prefix_spell hs hz (not_isNameChar_of_mem_delimiter d hd) h)).symm
    | delimiter e =>
        exact (replace_word_append hd (hs.delimiter_chars e (hz e List.mem_cons_self)) _).symm
    | mark => exact (replace_word_append hd hs.mark_chars _).symm
  source s hs := by rw [spell_cons, spell_cons, h.source s hs]
  mark hm := by
    rcases List.mem_cons.1 hm with hm | hm
    · exact hm ▸ List.mem_cons_self
    · exact List.mem_cons_of_mem _ (h.mark hm)
  spaced b hb := by
    cases a with
    | char c => exact h.spaced (isSpace c) hb
    | delimiter e => exact h.spaced false hb
    | mark => exact ⟨hb.1, h.spaced false hb.2⟩

end Placed

/-- Each occurrence of a delimiter can be given a place. -/
theorem exists_placed_delimiter (hd : d ∈ delimiters) (hz : Delimited z) :
    ∃ z', Placed [d] z z' := by
  induction hn : z.length using Nat.strongRecOn generalizing z with
  | ind n ih =>
      by_cases hp : d.map .char <+: z
      · obtain ⟨y, rfl⟩ := hp
        have hl : y.length < n := by
          have := List.length_pos_iff.2 (delimiter_ne_nil d hd)
          simp only [List.length_append, List.length_map] at hn
          omega
        obtain ⟨y', hy⟩ := ih y.length hl (fun e he => hz e (List.mem_append_right _ he)) rfl
        exact ⟨.delimiter d :: y', hy.found hd⟩
      · cases z with
        | nil => exact ⟨[], .nil d⟩
        | cons a z =>
            have hl : z.length < n := hn ▸ Nat.lt_succ_self _
            obtain ⟨z', h⟩ := ih z.length hl hz.tail rfl
            exact ⟨a :: z', h.cons hd hz hp⟩

theorem exists_placed {ds : List Text} (hd : ∀ d ∈ ds, d ∈ delimiters) (hz : Delimited z) :
    ∃ z', Placed ds z z' := by
  induction ds generalizing z with
  | nil => exact ⟨z, .refl hz⟩
  | cons d ds ih =>
      obtain ⟨y, hy⟩ := exists_placed_delimiter (hd d List.mem_cons_self) hz
      obtain ⟨z', h⟩ := ih (fun e he => hd e (List.mem_cons_of_mem _ he)) hy.delimited
      exact ⟨z', hy.trans h⟩

end AmpMarkup.Source
