import AmpMarkup.Proofs.Source.FragmentClosing
import AmpMarkup.Proofs.Source.SymbolScan

/-! The encoded form of markup as symbols. The registry shows only in how the symbols are spelled:
every step of the encoding takes the same symbols to the same symbols, whatever the registry. -/

namespace AmpMarkup.Source

variable {z : List Symbol} {b : Bool} {t : Text}

/-! ### Bindings -/

/-- The attribute with the registry's mark in place of the brackets, as symbols. -/
def SourceAttribute.encodedSymbols (a : SourceAttribute) : List Symbol :=
  a.leading.map .char ++
    ((if a.isBinding then .mark :: a.name.map .char else a.writtenName.map .char) ++
      (a.value.getD []).map .char)

theorem SourceAttribute.spell_encodedSymbols (r : Registry) (a : SourceAttribute) :
    spell r.spelling a.encodedSymbols = a.encodedSource r := by
  rw [encodedSymbols, encodedSource, spell_append, spell_append, spell_map_char, spell_map_char,
    List.append_assoc]
  split
  · rw [spell_cons, spell_map_char]
    rfl
  · rw [spell_map_char]

theorem delimited_append {y : List Symbol} (hy : Delimited y) (hz : Delimited z) :
    Delimited (y ++ z) := fun d hd => (List.mem_append.1 hd).elim (hy d) (hz d)

theorem delimited_flatMap {α : Type} {xs : List α} {f : α → List Symbol}
    (h : ∀ x ∈ xs, Delimited (f x)) : Delimited (xs.flatMap f) := by
  intro d hd
  obtain ⟨x, hx, hm⟩ := List.mem_flatMap.1 hd
  exact h x hx d hm

theorem spaced_flatMap {α : Type} {xs : List α} {f : α → List Symbol}
    (h : ∀ x ∈ xs, Spaced false (f x)) : Spaced false (xs.flatMap f) := by
  induction xs with
  | nil => trivial
  | cons x xs ih =>
      rw [List.flatMap_cons]
      exact (h x List.mem_cons_self).append (ih fun y hy => h y (List.mem_cons_of_mem _ hy))

theorem SourceAttribute.delimited_encodedSymbols (a : SourceAttribute) :
    Delimited a.encodedSymbols := by
  refine delimited_append (delimited_map_char _) (delimited_append ?_ (delimited_map_char _))
  split
  · intro d hd
    rcases List.mem_cons.1 hd with hd | hd
    · cases hd
    · exact delimited_map_char _ d hd
  · exact delimited_map_char _

theorem spaced_spaces_append (hne : t ≠ []) (ht : ∀ c ∈ t, isSpace c = true) (hz : Spaced true z) :
    Spaced b (t.map .char ++ z) := by
  induction t generalizing b with
  | nil => exact absurd rfl hne
  | cons c t ih =>
      change Spaced (isSpace c) (t.map .char ++ z)
      cases t with
      | nil =>
          rw [ht c List.mem_cons_self]
          exact hz
      | cons d t => exact ih (by simp) fun d hd => ht d (List.mem_cons_of_mem _ hd)

theorem SourceAttribute.Written.spaced {a : SourceAttribute} (h : a.Written) :
    Spaced false a.encodedSymbols := by
  refine spaced_spaces_append h.leading_ne h.leading_space ?_
  refine Spaced.append ?_ (spaced_map_char _ _)
  split
  · exact ⟨rfl, spaced_map_char _ _⟩
  · exact spaced_map_char _ _

/-- The attributes of a start tag with binding attributes renamed, as symbols. -/
def encodedSpanSymbols (span : Text) : List Symbol :=
  match splitAttributes? (splitSolidus span).1 with
  | some attributes =>
    if attributes.any SourceAttribute.isBinding then
      attributes.flatMap SourceAttribute.encodedSymbols ++ (splitSolidus span).2.map .char
    else span.map .char
  | none => span.map .char

theorem spell_flatMap (s : Spelling) {α : Type} (xs : List α) (f : α → List Symbol) :
    spell s (xs.flatMap f) = xs.flatMap fun x => spell s (f x) := by
  induction xs with
  | nil => rfl
  | cons x xs ih => rw [List.flatMap_cons, spell_append, ih, List.flatMap_cons]

theorem spell_encodedSpanSymbols (r : Registry) (span : Text) :
    spell r.spelling (encodedSpanSymbols span) = encodeSpan r span := by
  unfold encodedSpanSymbols encodeSpan
  dsimp only
  generalize splitAttributes? (splitSolidus span).1 = found
  cases found with
  | none => exact spell_map_char _ _
  | some attributes =>
      dsimp only
      split
      · rw [spell_append, spell_map_char, spell_flatMap]
        simp only [SourceAttribute.spell_encodedSymbols]
      · exact spell_map_char _ _

theorem encodedSpanSymbols_spec (span : Text) :
    Delimited (encodedSpanSymbols span) ∧ Spaced false (encodedSpanSymbols span) := by
  unfold encodedSpanSymbols
  split
  · next as has =>
      split
      · refine ⟨delimited_append (delimited_flatMap fun a _ => a.delimited_encodedSymbols)
          (delimited_map_char _), Spaced.append (spaced_flatMap fun a ha => ?_)
          (spaced_map_char _ _)⟩
        exact ((splitAttributes?_spec has).1 a ha).spaced
      · exact ⟨delimited_map_char _, spaced_map_char _ _⟩
  · exact ⟨delimited_map_char _, spaced_map_char _ _⟩

/-- A piece of markup with binding attributes renamed, as symbols. -/
def Piece.encodedSymbols : Piece → List Symbol
  | .text t => t.map .char
  | .tag s => ('<' :: s.name).map .char ++ (encodedSpanSymbols s.attributes ++ [.char '>'])

theorem Piece.spell_encodedSymbols (r : Registry) (p : Piece) :
    spell r.spelling p.encodedSymbols = p.encodedSource r := by
  cases p with
  | text t => exact spell_map_char _ _
  | tag s =>
      rw [encodedSymbols, spell_append, spell_map_char, spell_append, spell_encodedSpanSymbols,
        encodedSource, StartTag.source]
      exact (List.append_assoc ..).symm

theorem Piece.encodedSymbols_spec (p : Piece) :
    Delimited p.encodedSymbols ∧ Spaced false p.encodedSymbols := by
  cases p with
  | text t => exact ⟨delimited_map_char _, spaced_map_char _ _⟩
  | tag s =>
      obtain ⟨hd, hs⟩ := encodedSpanSymbols_spec s.attributes
      exact ⟨delimited_append (delimited_map_char _) (delimited_append hd (delimited_map_char ['>'])),
        Spaced.append (spaced_map_char _ _) (hs.append (spaced_map_char _ ['>']))⟩

theorem exists_spell_eq_encodeBindings (t : Text) :
    ∃ z, Delimited z ∧ Spaced false z ∧
      ∀ r : Registry, spell r.spelling z = encodeBindings r t := by
  refine ⟨(pieces t).flatMap Piece.encodedSymbols,
    delimited_flatMap fun p _ => p.encodedSymbols_spec.1,
    spaced_flatMap fun p _ => p.encodedSymbols_spec.2, fun r => ?_⟩
  rw [spell_flatMap, encodeBindings]
  simp only [Piece.spell_encodedSymbols]

/-! ### End tags of void elements -/

theorem isSolid_of_isLower {c : Char} (h : c.toLower.isLower = true) : isSolid c = true := by
  have hs : isSpace c.toLower = false := by
    refine Bool.eq_false_iff.2 fun hs => ?_
    simp only [isSpace, Bool.or_eq_true, beq_iff_eq] at hs
    rcases hs with (((hs | hs) | hs) | hs) | hs <;> rw [hs] at h <;> cases h
  have hu : c.toLower ≠ '_' := fun hu => by
    rw [hu] at h
    cases h
  simp [isSolid, hs, hu]

/-- A name made of letters has no part that depends on the registry. -/
theorem exists_eq_map_char {n : List Symbol} (hn : Delimited n)
    (h : ∃ r : Registry, r.WellFormed ∧ ∀ c ∈ spell r.spelling n, c.toLower.isLower = true) :
    ∃ t : Text, n = t.map .char := by
  obtain ⟨r, hr, h⟩ := h
  induction n with
  | nil => exact ⟨[], rfl⟩
  | cons a n ih =>
      obtain ⟨t, rfl⟩ := ih hn.tail fun c hc => h c (List.mem_append_right _ hc)
      cases a with
      | char c => exact ⟨c :: t, rfl⟩
      | delimiter d =>
          obtain ⟨u, hu⟩ := (hr.isSubstitute_spelling (hn d List.mem_cons_self)).eq_cons
          have := h '_' (List.mem_append_left _ (by rw [Symbol.spell, hu]; exact List.mem_cons_self))
          cases this
      | mark =>
          obtain ⟨u, -, hu⟩ := hr.isBindingMark.eq_append_hyphen
          have hm : r.spelling.mark = u ++ ['-'] := hu
          have := h '-' (List.mem_append_left _ (by rw [Symbol.spell, hm]; simp))
          cases this

/-- Whether a name is one of those is the same under every registry. -/
theorem exists_eq_of_letters {p : Text → Bool} {n : List Symbol} (hn : Delimited n)
    (hp : ∀ name, p name = true → ∀ c ∈ name, c.toLower.isLower = true) :
    (∀ r : Registry, r.WellFormed → p (spell r.spelling n) = false) ∨
      ∃ t : Text, n = t.map .char ∧ p t = true := by
  by_cases h : ∃ r : Registry, r.WellFormed ∧ p (spell r.spelling n) = true
  · obtain ⟨r, hr, hpr⟩ := h
    obtain ⟨t, rfl⟩ := exists_eq_map_char hn ⟨r, hr, hp _ hpr⟩
    exact .inr ⟨t, rfl, by rwa [spell_map_char] at hpr⟩
  · exact .inl fun r hr => Bool.eq_false_iff.2 fun hpr => h ⟨r, hr, hpr⟩

theorem Spaced.exists_split {x y : List Symbol} (h : Spaced b (x ++ y)) :
    ∃ b', Spaced b' y ∧ ∀ y', Spaced b' y' → Spaced b (x ++ y') := by
  induction x generalizing b with
  | nil => exact ⟨b, h, fun _ h => h⟩
  | cons a x ih =>
      cases a with
      | char c => exact ih (b := isSpace c) h
      | delimiter d => exact ih (b := false) h
      | mark =>
          obtain ⟨b', hy, hx⟩ := ih h.2
          exact ⟨b', hy, fun y' hy' => ⟨h.1, hx y' hy'⟩⟩

/-- The end tag that a start tag gets is the same under every registry. -/
theorem exists_closing {n : List Symbol} (hn : Delimited n) (hz : Delimited z)
    (hs : Spaced false z) : ∃ e : Text, ∀ r : Registry, r.WellFormed →
      (if Vocabulary.isVoid (spell r.spelling n) &&
          !startsWithEndTag (spell r.spelling n) (spell r.spelling z) then
        endTag (spell r.spelling n) else []) = e := by
  rcases exists_eq_of_letters hn fun name h c hc => toLower_mem_of_isVoid h hc with h | ⟨t, rfl, h⟩
  · exact ⟨[], fun r hr => by rw [h r hr]; rfl⟩
  · have hsolid : ∀ c ∈ t, isSolid c = true := fun c hc =>
      isSolid_of_isLower (toLower_mem_of_isVoid h hc)
    obtain ⟨follows, hf⟩ := exists_startsWithEndTag hsolid hz hs
    refine ⟨if Vocabulary.isVoid t && !follows then endTag t else [], fun r hr => ?_⟩
    rw [spell_map_char, hf r hr]

/-- What follows a `<` with end tags put in, if that is known of every shorter text. -/
theorem exists_spell_eq_closeTag (hz : Delimited z) (hs : Spaced false z)
    (ih : ∀ y b, y.length ≤ z.length → Delimited y → Spaced b y →
      ∃ y', Delimited y' ∧ Spaced b y' ∧ ∀ r : Registry, r.WellFormed →
        spell r.spelling y' = closePieces (pieces (spell r.spelling y))) :
    ∃ z', Delimited z' ∧ Spaced false z' ∧ ∀ r : Registry, r.WellFormed →
      '<' :: spell r.spelling z' = closePieces (pieces ('<' :: spell r.spelling z)) := by
  rcases exists_read? hz hs with hnone | ⟨n, a, y, rfl, hread⟩
  · obtain ⟨z', hz', hsz, h⟩ := ih z false (Nat.le_refl _) hz hs
    refine ⟨z', hz', hsz, fun r hr => ?_⟩
    rw [pieces_of_not_read (hnone r hr), closePieces, h r hr]
    rfl
  · have hn : Delimited n := fun d hd => hz d (List.mem_append_left _ hd)
    have ha : Delimited a := fun d hd =>
      hz d (List.mem_append_right _ (List.mem_append_left _ hd))
    have hy : Delimited y := fun d hd =>
      hz d (List.mem_append_right _ (List.mem_append_right _ (List.mem_cons_of_mem _ hd)))
    rw [← List.append_assoc, spaced_append_char (by decide)] at hs
    obtain ⟨hna, hsy⟩ := hs
    -- Behind the tag comes markup, or the content of an element of plain text and then markup.
    have htail : ∃ y', Delimited y' ∧ Spaced false y' ∧ ∀ r : Registry, r.WellFormed → ∃ ps,
        pieces ('<' :: spell r.spelling (n ++ (a ++ .char '>' :: y))) =
          .tag ⟨spell r.spelling n, spell r.spelling a⟩ :: ps ∧
        ps.flatMap Piece.source = spell r.spelling y ∧
        closePieces ps = spell r.spelling y' := by
      rcases exists_eq_of_letters hn fun name h c hc => toLower_mem_of_isTextOnly h hc with
        h | ⟨t, rfl, h⟩
      · obtain ⟨y', hy', hsy', hc⟩ := ih y false (by simp; omega) hy hsy
        exact ⟨y', hy', hsy', fun r hr => ⟨_, pieces_of_read (hread r hr) (h r hr),
          flatMap_source_pieces _, (hc r hr).symm⟩⟩
      · -- The content goes up to an end tag of this name, which no registry puts in or takes out.
        have hsolid : ∀ c ∈ t, isSolid c = true := fun c hc =>
          isSolid_of_isLower (toLower_mem_of_isTextOnly h hc)
        obtain ⟨x, y, rfl, hspan⟩ := spansAlike hsolid hy hsy
        obtain ⟨b', hb, hback⟩ := hsy.exists_split
        obtain ⟨y', hy', hsy', hc⟩ := ih y b' (by simp; omega)
          (fun d hd => hy d (List.mem_append_right _ hd)) hb
        refine ⟨x ++ y', delimited_append (fun d hd => hy d (List.mem_append_left _ hd)) hy',
          hback y' hsy', fun r hr => ⟨_, pieces_of_read_textOnly (hread r hr) ?_, ?_, ?_⟩⟩
        · rwa [spell_map_char]
        · rw [List.flatMap_cons, flatMap_source_pieces, spell_map_char]
          exact spanContent_source ..
        · rw [closePieces, spell_map_char, hspan r hr, ← hc r hr, spell_append]
    obtain ⟨y', hy', hsy', htail⟩ := htail
    obtain ⟨e, he⟩ := exists_closing hn hy hsy
    refine ⟨n ++ a ++ .char '>' :: (e.map .char ++ y'), ?_, ?_, fun r hr => ?_⟩
    · exact delimited_append (delimited_append hn ha) (delimited_append (delimited_map_char ('>' :: e)) hy')
    · exact (spaced_append_char (by decide)).2 ⟨hna, (spaced_map_char false e).append hsy'⟩
    · obtain ⟨ps, hp, hsource, hclose⟩ := htail r hr
      rw [hp, closePieces_tag, hsource, he r hr, hclose]
      simp [StartTag.source, Symbol.spell]

/-- End tags are put behind the same symbols under every registry. -/
theorem exists_spell_eq_closePieces (hz : Delimited z) (hs : Spaced b z) :
    ∃ z', Delimited z' ∧ Spaced b z' ∧ ∀ r : Registry, r.WellFormed →
      spell r.spelling z' = closePieces (pieces (spell r.spelling z)) := by
  induction hl : z.length using Nat.strongRecOn generalizing z b with
  | ind k ih =>
      cases z with
      | nil => exact ⟨[], hz, trivial, fun r _ => by rw [spell_nil, pieces, closePieces]⟩
      | cons a z =>
          rw [List.length_cons] at hl
          -- A symbol that no tag starts with stays as it is.
          have hcons : (∀ r : Registry, r.WellFormed → ∀ c ∈ a.spell r.spelling, c ≠ '<') →
              ∀ b', Spaced b' z → (∀ y, Spaced b' y → Spaced b (a :: y)) →
              ∃ z', Delimited z' ∧ Spaced b z' ∧ ∀ r : Registry, r.WellFormed →
                spell r.spelling z' = closePieces (pieces (spell r.spelling (a :: z))) := by
            intro hc b' hs' hback
            obtain ⟨z', hz', hsz, h⟩ := ih z.length (by omega) hz.tail hs' rfl
            refine ⟨a :: z', ?_, hback z' hsz, fun r hr => ?_⟩
            · intro d hd
              rcases List.mem_cons.1 hd with hd | hd
              · exact hz.head d hd.symm
              · exact hz' d hd
            · rw [spell_cons, spell_cons, h r hr, pieces_text (hc r hr), Fragment.closePieces_text]
          have hword : a.isWord = true → ∀ r : Registry, r.WellFormed →
              ∀ c ∈ a.spell r.spelling, c ≠ '<' := fun ha r hr c hc =>
            ne_of_isNameChar (hr.isNameChar_spell hz.head ha c hc) (by decide)
          cases a with
          | delimiter d => exact hcons (hword rfl) false hs fun _ h => h
          | mark => exact hcons (hword rfl) false hs.2 fun _ h => ⟨hs.1, h⟩
          | char c =>
              by_cases hc : c = '<'
              · subst hc
                obtain ⟨z', hz', hsz, h⟩ := exists_spell_eq_closeTag hz.tail hs
                  fun y b' hy hdy hsy => ih y.length (by omega) hdy hsy rfl
                exact ⟨.char '<' :: z', delimited_append (delimited_map_char ['<']) hz', hsz, h⟩
              · exact hcons (fun r _ d hd => List.mem_singleton.1 hd ▸ hc) (isSpace c) hs fun _ h => h

/-- The encoded forms of markup under two registries differ in the spelling only. -/
theorem exists_spell_eq_encode (t : Text) :
    ∃ z, Delimited z ∧ Spaced false z ∧
      ∀ r : Registry, r.WellFormed → spell r.spelling z = encode r t := by
  obtain ⟨x, hx, hsx, hbindings⟩ := exists_spell_eq_encodeBindings t
  obtain ⟨y, hy, htemplates, -, -, hsy⟩ := exists_spell_eq_substituteTemplates hx
  obtain ⟨z, hz, hsz, hclose⟩ := exists_spell_eq_closePieces hy (hsy false hsx)
  refine ⟨z, hz, hsz, fun r hr => ?_⟩
  rw [hclose r hr, htemplates r hr, hbindings r]
  rfl

end AmpMarkup.Source
