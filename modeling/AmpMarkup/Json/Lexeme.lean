import AmpMarkup.Json.Basic

/-! The lexical units of JSON text. Between them there may be spaces, tabs, line feeds and carriage
returns. -/

namespace AmpMarkup.Json

/-- A lexical unit. A string without a text is broken; a number has a value if it is a natural
number below `2 ^ 64`. -/
inductive Lexeme where
  | openBrace
  | closeBrace
  | openBracket
  | closeBracket
  | colon
  | comma
  | null
  | bool (b : Bool)
  | number (value : Option Nat)
  | string (text : Option Text)
deriving DecidableEq, Repr, Inhabited

/-- Blank characters between lexical units. -/
def isBlank (c : Char) : Bool :=
  c == ' ' || c == '\t' || c == '\n' || c == '\r'

/-- The number of four hexadecimal digits, and the text after them. -/
def readUnit? : Text → Option (Nat × Text)
  | a :: b :: c :: d :: t =>
    if [a, b, c, d].all isHexDigit then some (Text.numeral 16 [a, b, c, d], t) else none
  | _ => none

/-- Whether a number is the first half of a surrogate pair. -/
def isHigh (n : Nat) : Bool :=
  0xD800 ≤ n && n < 0xDC00

/-- Whether a number is the second half of a surrogate pair. -/
def isLow (n : Nat) : Bool :=
  0xDC00 ≤ n && n < 0xE000

/-- What an escape makes of a string: one character more, or a break. -/
abbrev Escaped := Option Char

/-- The character of an escape with four digits, which may need a second such escape, and the text
after it. Half a pair breaks the string. -/
def readUnicode? (t : Text) : Option (Escaped × Text) :=
  match readUnit? t with
  | none => none
  | some (high, rest) =>
    if isHigh high then
      match rest with
      | '\\' :: 'u' :: second =>
        match readUnit? second with
        | some (low, after) =>
          if isLow low then
            some (some (Char.ofNat (0x10000 + (high - 0xD800) * 0x400 + (low - 0xDC00))), after)
          else some (none, rest)
        | none => none
      | _ => some (none, rest)
    else if isLow high then some (none, rest)
    else some (some (Char.ofNat high), rest)

/-- What an escape after a backslash denotes, and the text after it. -/
def readEscape? : Text → Option (Escaped × Text)
  | '"' :: t => some (some '"', t)
  | '\\' :: t => some (some '\\', t)
  | '/' :: t => some (some '/', t)
  | 'b' :: t => some (some '\x08', t)
  | 'f' :: t => some (some '\x0c', t)
  | 'n' :: t => some (some '\n', t)
  | 'r' :: t => some (some '\r', t)
  | 't' :: t => some (some '\t', t)
  | 'u' :: t => readUnicode? t
  | _ => none

theorem readUnit?_length {t rest : Text} {n : Nat} (h : readUnit? t = some (n, rest)) :
    rest.length < t.length := by
  unfold readUnit? at h
  split at h
  · split at h
    · obtain ⟨-, rfl⟩ := Prod.mk.inj (Option.some.inj h)
      simp only [List.length_cons]
      omega
    · simp at h
  · simp at h

theorem readUnicode?_length {t rest : Text} {e : Escaped} (h : readUnicode? t = some (e, rest)) :
    rest.length < t.length := by
  unfold readUnicode? at h
  split at h
  · simp at h
  · next high u hu =>
      have hl := readUnit?_length hu
      split at h
      · split at h
        · next second =>
            split at h
            · next low after ha =>
                have := readUnit?_length ha
                simp only [List.length_cons] at hl
                split at h <;> obtain ⟨-, rfl⟩ := Prod.mk.inj (Option.some.inj h)
                · omega
                · simp only [List.length_cons]
                  omega
            · simp at h
        · obtain ⟨-, rfl⟩ := Prod.mk.inj (Option.some.inj h)
          exact hl
      · split at h <;> obtain ⟨-, rfl⟩ := Prod.mk.inj (Option.some.inj h) <;> exact hl

theorem readEscape?_length {t rest : Text} {e : Escaped} (h : readEscape? t = some (e, rest)) :
    rest.length < t.length := by
  unfold readEscape? at h
  split at h
  case h_9 => exact Nat.lt_succ_of_lt (readUnicode?_length h)
  case h_10 => simp at h
  all_goals
    obtain ⟨-, rfl⟩ := Prod.mk.inj (Option.some.inj h)
    exact Nat.lt_succ_self _

/-- The rest of a string up to its closing quote. Control characters have to be escaped. -/
def readString? : Text → Option (Option Text × Text)
  | [] => none
  | c :: t =>
    if c = '"' then some (some [], t)
    else if c = '\\' then
      match _h : readEscape? t with
      | none => none
      | some (d, rest) =>
        (readString? rest).map fun (text, rest) => (d.bind fun d => text.map (d :: ·), rest)
    else if c.toNat < 0x20 then none
    else (readString? t).map fun (text, rest) => (text.map (c :: ·), rest)
termination_by t => t.length
decreasing_by
  · exact Nat.lt_succ_of_lt (readEscape?_length _h)
  · simp

theorem readString?_length {t rest : Text} {text : Option Text}
    (h : readString? t = some (text, rest)) : rest.length < t.length := by
  fun_induction readString? t generalizing text with
  | case1 => simp at h
  | case2 t =>
      obtain ⟨-, rfl⟩ := Prod.mk.inj (Option.some.inj h)
      simp
  | case3 => simp at h
  | case4 t d u hu _ ih =>
      obtain ⟨⟨text', rest'⟩, hr, he⟩ := Option.map_eq_some_iff.1 h
      obtain ⟨-, rfl⟩ := Prod.mk.inj he
      exact Nat.lt_succ_of_lt (Nat.lt_trans (ih hr) (readEscape?_length hu))
  | case5 => simp at h
  | case6 c t hq hb hc ih =>
      obtain ⟨⟨text', rest'⟩, hr, he⟩ := Option.map_eq_some_iff.1 h
      obtain ⟨-, rfl⟩ := Prod.mk.inj he
      exact Nat.lt_succ_of_lt (ih hr)

/-- Digits without a needless zero before them, and the text after them. -/
def readWhole? (t : Text) : Option (Text × Text) :=
  match t.takeWhile Char.isDigit with
  | [] => none
  | '0' :: _ :: _ => none
  | digits => some (digits, t.dropWhile Char.isDigit)

/-- The text after at least one digit. -/
def dropDigits? (t : Text) : Option Text :=
  if t.head?.any Char.isDigit then some (t.dropWhile Char.isDigit) else none

/-- The text after an optional fraction. -/
def dropFraction? : Text → Option Text
  | '.' :: t => dropDigits? t
  | t => some t

/-- The text after an optional exponent. -/
def dropExponent? : Text → Option Text
  | 'e' :: '+' :: t | 'e' :: '-' :: t | 'E' :: '+' :: t | 'E' :: '-' :: t => dropDigits? t
  | 'e' :: t | 'E' :: t => dropDigits? t
  | t => some t

/-- A number without a sign. It has a value if nothing follows its digits. -/
def readUnsigned? (t : Text) : Option (Option Nat × Text) := do
  let (digits, afterWhole) ← readWhole? t
  let rest ← dropExponent? (← dropFraction? afterWhole)
  let n := Text.numeral 10 digits
  return (if rest.length = afterWhole.length ∧ n < UInt64.size then some n else none, rest)

/-- A number. One with a minus sign has no value. -/
def readNumber? : Text → Option (Option Nat × Text)
  | '-' :: t => (readUnsigned? t).map fun (_, rest) => (none, rest)
  | t => readUnsigned? t

/-- The lexical unit at the front of a text, and the text after it. -/
def readLexeme? : Text → Option (Lexeme × Text)
  | '\x7b' :: t => some (.openBrace, t)
  | '\x7d' :: t => some (.closeBrace, t)
  | '[' :: t => some (.openBracket, t)
  | ']' :: t => some (.closeBracket, t)
  | ':' :: t => some (.colon, t)
  | ',' :: t => some (.comma, t)
  | '"' :: t => (readString? t).map fun (text, rest) => (.string text, rest)
  | 'n' :: 'u' :: 'l' :: 'l' :: t => some (.null, t)
  | 't' :: 'r' :: 'u' :: 'e' :: t => some (.bool true, t)
  | 'f' :: 'a' :: 'l' :: 's' :: 'e' :: t => some (.bool false, t)
  | t => (readNumber? t).map fun (value, rest) => (.number value, rest)

section Length

variable {t rest : Text}

theorem dropDigits?_length (h : dropDigits? t = some rest) : rest.length ≤ t.length := by
  unfold dropDigits? at h
  split at h
  · exact Option.some.inj h ▸ (List.dropWhile_sublist _).length_le
  · simp at h

theorem dropFraction?_length (h : dropFraction? t = some rest) : rest.length ≤ t.length := by
  unfold dropFraction? at h
  split at h
  · exact Nat.le_succ_of_le (dropDigits?_length h)
  · exact Option.some.inj h ▸ Nat.le_refl _

theorem dropExponent?_length (h : dropExponent? t = some rest) : rest.length ≤ t.length := by
  unfold dropExponent? at h
  split at h
  case h_7 => exact Option.some.inj h ▸ Nat.le_refl _
  all_goals
    have := dropDigits?_length h
    simp only [List.length_cons]
    omega

theorem readWhole?_length {digits : Text} (h : readWhole? t = some (digits, rest)) :
    rest.length < t.length := by
  have hl := congrArg List.length (List.takeWhile_append_dropWhile (p := Char.isDigit) (l := t))
  rw [List.length_append] at hl
  unfold readWhole? at h
  split at h
  · simp at h
  · simp at h
  · next hne _ =>
      obtain ⟨-, rfl⟩ := Prod.mk.inj (Option.some.inj h)
      have := List.length_pos_iff.2 hne
      omega

theorem readUnsigned?_length {value : Option Nat} (h : readUnsigned? t = some (value, rest)) :
    rest.length < t.length := by
  unfold readUnsigned? at h
  simp only [Option.bind_eq_bind, Option.bind_eq_some_iff, Option.pure_def, Option.some.injEq,
    Prod.mk.injEq] at h
  obtain ⟨⟨digits, u⟩, hw, v, hf, w, he, -, rfl⟩ := h
  exact Nat.lt_of_le_of_lt (Nat.le_trans (dropExponent?_length he) (dropFraction?_length hf))
    (readWhole?_length hw)

theorem readNumber?_length {value : Option Nat} (h : readNumber? t = some (value, rest)) :
    rest.length < t.length := by
  unfold readNumber? at h
  split at h
  · obtain ⟨⟨v, u⟩, hr, he⟩ := Option.map_eq_some_iff.1 h
    obtain ⟨-, rfl⟩ := Prod.mk.inj he
    exact Nat.lt_succ_of_lt (readUnsigned?_length hr)
  · exact readUnsigned?_length h

theorem readLexeme?_length {l : Lexeme} (h : readLexeme? t = some (l, rest)) :
    rest.length < t.length := by
  unfold readLexeme? at h
  split at h
  case h_7 =>
    obtain ⟨⟨v, u⟩, hr, he⟩ := Option.map_eq_some_iff.1 h
    obtain ⟨-, rfl⟩ := Prod.mk.inj he
    exact Nat.lt_succ_of_lt (readString?_length hr)
  case h_11 =>
    obtain ⟨⟨v, u⟩, hr, he⟩ := Option.map_eq_some_iff.1 h
    obtain ⟨-, rfl⟩ := Prod.mk.inj he
    exact readNumber?_length hr
  all_goals
    obtain ⟨-, rfl⟩ := Prod.mk.inj (Option.some.inj h)
    simp only [List.length_cons]
    omega

end Length

/-- The lexical units of a text, if it consists of such. -/
def lexemes? (t : Text) : Option (List Lexeme) :=
  match _h : t.dropWhile isBlank with
  | [] => some []
  | c :: rest =>
    match _hl : readLexeme? (c :: rest) with
    | none => none
    | some (l, rest) => (lexemes? rest).map (l :: ·)
termination_by t.length
decreasing_by
  have hd := (List.dropWhile_sublist isBlank (l := t)).length_le
  rw [_h] at hd
  exact Nat.lt_of_lt_of_le (readLexeme?_length _hl) hd

end AmpMarkup.Json
