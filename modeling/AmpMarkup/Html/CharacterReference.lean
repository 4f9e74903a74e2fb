import AmpMarkup.Text.Numeral

/-! Character references: what may follow an ampersand and the character it stands for. The reader
consumes letters, digits, a number sign and a semicolon only, so it never runs over a quote, a
space or the end of a tag. -/

namespace AmpMarkup.Html.CharacterReference

/-- A named reference. Those of the first generation may be written without the semicolon. -/
structure Name where
  name : Text
  character : Char
  bare : Bool

/-- The named references that are resolved. -/
def names : List Name :=
  [⟨"amp", '&', true⟩, ⟨"lt", '<', true⟩, ⟨"gt", '>', true⟩, ⟨"quot", '"', true⟩,
    ⟨"apos", '\'', false⟩, ⟨"nbsp", '\u00a0', true⟩, ⟨"copy", '\u00a9', true⟩,
    ⟨"reg", '\u00ae', true⟩, ⟨"deg", '\u00b0', true⟩, ⟨"middot", '\u00b7', true⟩,
    ⟨"laquo", '\u00ab', true⟩, ⟨"raquo", '\u00bb', true⟩, ⟨"times", '\u00d7', true⟩,
    ⟨"ndash", '\u2013', false⟩, ⟨"mdash", '\u2014', false⟩, ⟨"lsquo", '\u2018', false⟩,
    ⟨"rsquo", '\u2019', false⟩, ⟨"ldquo", '\u201c', false⟩, ⟨"rdquo", '\u201d', false⟩,
    ⟨"bull", '\u2022', false⟩, ⟨"hellip", '\u2026', false⟩, ⟨"euro", '\u20ac', false⟩,
    ⟨"trade", '\u2122', false⟩]

/-- The reference of a name. -/
def lookup? (name : Text) : Option Name :=
  names.find? (·.name == name)

/-- The text after an optional semicolon. -/
def dropSemicolon : Text → Text
  | ';' :: rest => rest
  | rest => rest

/-- A numeric reference: its digits in a base, and an optional semicolon. -/
def readDigits? (base : Nat) (isDigit : Char → Bool) (t : Text) : Option (Char × Text) :=
  match t.takeWhile isDigit with
  | [] => none
  | digits =>
    some (scalarOrReplacement (Text.numeral base digits), dropSemicolon (t.dropWhile isDigit))

/-- Tries the first `length` characters as a name, then ever fewer. Without a semicolon only a bare
name counts, and in an attribute value it must not run on into a letter, a digit or an equals
sign. -/
def readName? (inValue : Bool) (t : Text) : (length : Nat) → Option (Char × Text)
  | 0 => none
  | length + 1 =>
    match lookup? (t.take (length + 1)), t.drop (length + 1) with
    | some n, ';' :: rest => some (n.character, rest)
    | some n, rest =>
      if n.bare then
        if inValue && rest.head?.any (fun c => c == '=' || c.isAlphanum) then none
        else some (n.character, rest)
      else readName? inValue t length
    | none, _ => readName? inValue t length

/-- The character that the text after an ampersand denotes, with the text after the reference.
`none` if there is no reference and the ampersand stands for itself. -/
def read? (inValue : Bool) : Text → Option (Char × Text)
  | '#' :: 'x' :: t => readDigits? 16 isHexDigit t
  | '#' :: 'X' :: t => readDigits? 16 isHexDigit t
  | '#' :: t => readDigits? 10 Char.isDigit t
  | t => readName? inValue t (t.takeWhile Char.isAlphanum).length

theorem dropSemicolon_length_le (t : Text) : (dropSemicolon t).length ≤ t.length := by
  unfold dropSemicolon
  split <;> simp

theorem readDigits?_length_le {base : Nat} {isDigit : Char → Bool} {t rest : Text} {c : Char}
    (h : readDigits? base isDigit t = some (c, rest)) : rest.length ≤ t.length := by
  unfold readDigits? at h
  split at h
  · simp at h
  · obtain ⟨-, rfl⟩ := Prod.mk.inj (Option.some.inj h)
    exact Nat.le_trans (dropSemicolon_length_le _) (List.dropWhile_sublist _).length_le

theorem readName?_length_le {inValue : Bool} {t rest : Text} {c : Char} {length : Nat}
    (h : readName? inValue t length = some (c, rest)) : rest.length ≤ t.length := by
  induction length with
  | zero => simp [readName?] at h
  | succ length ih =>
      have hd : (t.drop (length + 1)).length ≤ t.length := by simp
      unfold readName? at h
      split at h
      · next hr =>
          obtain ⟨-, rfl⟩ := Prod.mk.inj (Option.some.inj h)
          rw [hr, List.length_cons] at hd
          omega
      · next hr =>
          split at h
          · split at h
            · simp at h
            · obtain ⟨-, rfl⟩ := Prod.mk.inj (Option.some.inj h)
              exact hd
          · exact ih h
      · exact ih h

theorem read?_length_le {inValue : Bool} {t rest : Text} {c : Char}
    (h : read? inValue t = some (c, rest)) : rest.length ≤ t.length := by
  unfold read? at h
  split at h
  · exact Nat.le_trans (readDigits?_length_le h) (by simp only [List.length_cons]; omega)
  · exact Nat.le_trans (readDigits?_length_le h) (by simp only [List.length_cons]; omega)
  · exact Nat.le_trans (readDigits?_length_le h) (by simp)
  · exact readName?_length_le h

end AmpMarkup.Html.CharacterReference
