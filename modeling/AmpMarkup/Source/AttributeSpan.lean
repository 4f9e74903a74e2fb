import AmpMarkup.Source.StartTag

/-! The attributes of a start tag in the source, each with the spaces before it and its value as
written, so that writing them out again restores the source. A span that does not follow the
grammar has no attributes. -/

namespace AmpMarkup.Source

/-- An attribute in the source. The name may have an opening bracket before it and a closing one
after it; the value includes the equals sign and the quotes. -/
structure SourceAttribute where
  leading : Text
  opened : Bool
  name : Text
  closed : Bool
  value : Option Text
deriving DecidableEq, Repr, Inhabited

namespace SourceAttribute

/-- The name with its brackets. -/
def writtenName (a : SourceAttribute) : Text :=
  (if a.opened then ['['] else []) ++ a.name ++ (if a.closed then [']'] else [])

/-- The attribute in the source. -/
def source (a : SourceAttribute) : Text :=
  a.leading ++ a.writtenName ++ a.value.getD []

/-- Whether the value of the attribute is an expression: its name starts with a bracket. -/
def isBinding (a : SourceAttribute) : Bool :=
  a.opened

end SourceAttribute

/-- The text up to a character and with it, and the text after it. -/
def spanThrough? (stop : Char) : Text → Option (Text × Text)
  | [] => none
  | c :: t =>
    if c = stop then some ([c], t)
    else (spanThrough? stop t).map fun (inside, rest) => (c :: inside, rest)

/-- Whether a character may stand in a value without quotes. -/
def isUnquoted (c : Char) : Bool :=
  !(c == '"' || c == '\'' || isSpace c)

/-- The value after an equals sign, with the text after it. -/
def readValue? : Text → Option (Text × Text)
  | [] => none
  | c :: t =>
    if c = '"' ∨ c = '\'' then
      (spanThrough? c t).map fun (inside, rest) => ('=' :: c :: inside, rest)
    else if isSpace c then none
    else some ('=' :: c :: t.takeWhile isUnquoted, t.dropWhile isUnquoted)

/-- A bracket, if it comes first, and the text after it. -/
def readBracket (bracket : Char) : Text → Bool × Text
  | [] => (false, [])
  | c :: t => if c = bracket then (true, t) else (false, c :: t)

/-- The attribute after spaces, with the text after it. -/
def SourceAttribute.read? (leading t : Text) : Option (SourceAttribute × Text) :=
  let (opened, t) := readBracket '[' t
  let name := t.takeWhile isNameChar
  if name.isEmpty then none
  else
    let (closed, t) := readBracket ']' (t.dropWhile isNameChar)
    match t with
    | '=' :: t =>
      (readValue? t).map fun (value, rest) => (⟨leading, opened, name, closed, some value⟩, rest)
    | t => some (⟨leading, opened, name, closed, none⟩, t)

theorem spanThrough?_source {stop : Char} {t inside rest : Text}
    (h : spanThrough? stop t = some (inside, rest)) : t = inside ++ rest := by
  induction t generalizing inside with
  | nil => simp [spanThrough?] at h
  | cons c t ih =>
      unfold spanThrough? at h
      split at h
      · obtain ⟨rfl, rfl⟩ := Prod.mk.inj (Option.some.inj h)
        rfl
      · obtain ⟨⟨inside', rest'⟩, hr, he⟩ := Option.map_eq_some_iff.1 h
        obtain ⟨rfl, rfl⟩ := Prod.mk.inj he
        rw [ih hr, List.cons_append]

theorem readValue?_source {t value rest : Text} (h : readValue? t = some (value, rest)) :
    '=' :: t = value ++ rest := by
  unfold readValue? at h
  split at h
  · simp at h
  · split at h
    · obtain ⟨⟨inside, rest'⟩, hr, he⟩ := Option.map_eq_some_iff.1 h
      obtain ⟨rfl, rfl⟩ := Prod.mk.inj he
      rw [spanThrough?_source hr, List.cons_append, List.cons_append]
    · split at h
      · simp at h
      · obtain ⟨rfl, rfl⟩ := Prod.mk.inj (Option.some.inj h)
        rw [List.cons_append, List.cons_append, List.takeWhile_append_dropWhile]

theorem readBracket_source (bracket : Char) (t : Text) :
    (if (readBracket bracket t).1 then [bracket] else []) ++ (readBracket bracket t).2 = t := by
  cases t with
  | nil => rfl
  | cons c t => by_cases h : c = bracket <;> simp [readBracket, h]

/-- An attribute and the text after it make up what was read. -/
theorem SourceAttribute.read?_source {leading t rest : Text} {a : SourceAttribute}
    (h : SourceAttribute.read? leading t = some (a, rest)) : leading ++ t = a.source ++ rest := by
  have hb := readBracket_source '[' t
  unfold SourceAttribute.read? at h
  generalize readBracket '[' t = p at h hb
  obtain ⟨opened, u⟩ := p
  dsimp only at h hb
  split at h
  · simp at h
  · have hc := readBracket_source ']' (u.dropWhile isNameChar)
    generalize readBracket ']' (u.dropWhile isNameChar) = q at h hc
    obtain ⟨closed, v⟩ := q
    dsimp only at h hc
    have hu : u = u.takeWhile isNameChar ++ ((if closed then [']'] else []) ++ v) := by
      rw [hc, List.takeWhile_append_dropWhile]
    split at h
    · next w =>
        obtain ⟨⟨value, rest'⟩, hr, he⟩ := Option.map_eq_some_iff.1 h
        obtain ⟨rfl, rfl⟩ := Prod.mk.inj he
        rw [readValue?_source hr] at hu
        conv => lhs; rw [← hb, hu]
        simp [SourceAttribute.source, SourceAttribute.writtenName]
    · obtain ⟨rfl, rfl⟩ := Prod.mk.inj (Option.some.inj h)
      conv => lhs; rw [← hb, hu]
      simp [SourceAttribute.source, SourceAttribute.writtenName]

theorem SourceAttribute.read?_name_ne_nil {leading t rest : Text} {a : SourceAttribute}
    (h : SourceAttribute.read? leading t = some (a, rest)) :
    a.name ≠ [] ∧ a.leading = leading := by
  unfold SourceAttribute.read? at h
  generalize readBracket '[' t = p at h
  obtain ⟨opened, u⟩ := p
  dsimp only at h
  split at h
  · simp at h
  · next hn =>
      generalize readBracket ']' (u.dropWhile isNameChar) = q at h
      obtain ⟨closed, v⟩ := q
      dsimp only at h
      split at h
      · obtain ⟨⟨value, rest'⟩, hr, he⟩ := Option.map_eq_some_iff.1 h
        obtain ⟨rfl, rfl⟩ := Prod.mk.inj he
        exact ⟨by simpa using hn, rfl⟩
      · obtain ⟨rfl, rfl⟩ := Prod.mk.inj (Option.some.inj h)
        exact ⟨by simpa using hn, rfl⟩

theorem SourceAttribute.read?_length_lt {leading t rest : Text} {a : SourceAttribute}
    (h : SourceAttribute.read? leading t = some (a, rest)) : rest.length < t.length := by
  have hs := congrArg List.length (read?_source h)
  obtain ⟨hn, hl⟩ := read?_name_ne_nil h
  have := List.length_pos_iff.2 hn
  simp only [SourceAttribute.source, SourceAttribute.writtenName, List.length_append, hl] at hs
  omega

/-- The attributes of a span, each after at least one space, with spaces allowed after the last.
`none` if the span does not have this form. -/
def splitAttributes? (t : Text) : Option (List SourceAttribute) :=
  match _h : t.dropWhile isSpace with
  | [] => some []
  | c :: rest =>
    if (t.takeWhile isSpace).isEmpty then none
    else
      match _hr : SourceAttribute.read? (t.takeWhile isSpace) (c :: rest) with
      | none => none
      | some (a, rest) => (splitAttributes? rest).map (a :: ·)
termination_by t.length
decreasing_by
  have hd := (List.dropWhile_sublist isSpace (l := t)).length_le
  rw [_h] at hd
  exact Nat.lt_of_lt_of_le (SourceAttribute.read?_length_lt _hr) hd

end AmpMarkup.Source
