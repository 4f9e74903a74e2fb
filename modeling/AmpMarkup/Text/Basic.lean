/-! Text as a sequence of characters, so that every reader in the library recurses on what is
left to read. The statements here say when an affix is present and that reading one leaves
less text behind. -/

namespace AmpMarkup

/-- A text is the list of its characters. -/
abbrev Text := List Char

/-- String literals stand for their characters. -/
instance : Coe String Text := ⟨String.toList⟩

namespace Text

/-- ASCII letters in lower case, every other character unchanged. -/
def lower (t : Text) : Text :=
  t.map Char.toLower

/-- ASCII letters in upper case, every other character unchanged. -/
def upper (t : Text) : Text :=
  t.map Char.toUpper

/-- Equality up to the case of ASCII letters. -/
def sameIgnoringCase (s t : Text) : Bool :=
  s.lower == t.lower

/-- What follows `start` in a text that begins with it. -/
def after? : (start text : Text) → Option Text
  | [], t => some t
  | _ :: _, [] => none
  | s :: start, c :: t => if s = c then after? start t else none

/-- What follows `start` in a text that begins with it up to the case of ASCII letters. -/
def afterIgnoringCase? : (start text : Text) → Option Text
  | [], t => some t
  | _ :: _, [] => none
  | s :: start, c :: t => if s.toLower = c.toLower then afterIgnoringCase? start t else none

/-- Whether the text begins with `start`. -/
def startsWith (t start : Text) : Bool :=
  (after? start t).isSome

/-- Whether `part` occurs in the text. -/
def contains (part : Text) : Text → Bool
  | [] => part.isEmpty
  | c :: t => startsWith (c :: t) part || contains part t

theorem after?_eq_some_iff {start t rest : Text} :
    after? start t = some rest ↔ t = start ++ rest := by
  induction start generalizing t with
  | nil => simp [after?, eq_comm]
  | cons s start ih =>
      cases t with
      | nil => simp [after?]
      | cons c t =>
          by_cases h : s = c
          · simp [after?, h, ih]
          · simp [after?, h, eq_comm (a := c)]

theorem after?_length {start t rest : Text} (h : after? start t = some rest) :
    rest.length + start.length = t.length := by
  rw [after?_eq_some_iff.1 h, List.length_append, Nat.add_comm]

theorem afterIgnoringCase?_length {start t rest : Text}
    (h : afterIgnoringCase? start t = some rest) : rest.length + start.length = t.length := by
  induction start generalizing t with
  | nil => simp_all [afterIgnoringCase?]
  | cons s start ih =>
      cases t with
      | nil => simp [afterIgnoringCase?] at h
      | cons c t =>
          by_cases hc : s.toLower = c.toLower
          · have := ih (t := t) (by simpa [afterIgnoringCase?, hc] using h)
            simp only [List.length_cons]
            omega
          · simp [afterIgnoringCase?, hc] at h

/-- Whether a text begins with another one shows in as many characters as that has. -/
theorem isSome_afterIgnoringCase?_take (start t : Text) :
    (afterIgnoringCase? start (t.take start.length)).isSome =
      (afterIgnoringCase? start t).isSome := by
  induction start generalizing t with
  | nil => simp [afterIgnoringCase?]
  | cons s start ih =>
      cases t with
      | nil => rfl
      | cons c t =>
          by_cases h : s.toLower = c.toLower
          · simp [afterIgnoringCase?, h, ih]
          · simp [afterIgnoringCase?, h]

/-- Every occurrence of the text `o :: os`, from the left and without overlap, becomes `new`. -/
def replaceAll (o : Char) (os new : Text) : Text → Text
  | [] => []
  | c :: t =>
    match _h : after? (o :: os) (c :: t) with
    | some rest => new ++ replaceAll o os new rest
    | none => c :: replaceAll o os new t
termination_by t => t.length
decreasing_by
  · have := after?_length _h
    simp only [List.length_cons] at this ⊢
    omega
  · simp

/-- Every occurrence of `old`, from the left and without overlap, becomes `new`. The empty text
counts as occurring nowhere. -/
def replace : (old new text : Text) → Text
  | [], _, t => t
  | o :: os, new, t => replaceAll o os new t

/-- What stands before and what stands after the first `separator`. -/
def splitOnce? (separator : Char) : Text → Option (Text × Text)
  | [] => none
  | c :: t =>
    if c = separator then some ([], t)
    else (splitOnce? separator t).map fun (before, rest) => (c :: before, rest)

/-- The parts of a text between separators. There is always one. -/
def splitOn (separator : Char) (t : Text) : List Text :=
  t.foldr
    (fun c parts =>
      match parts with
      | part :: rest => if c = separator then [] :: parts else (c :: part) :: rest
      | [] => [[c]])
    [[]]

/-- The texts in order with `separator` between neighbours. -/
def join (separator : Text) : List Text → Text
  | [] => []
  | [t] => t
  | t :: ts => t ++ separator ++ join separator ts

/-- The text without the leading and trailing characters of class `p`. -/
def trim (p : Char → Bool) (t : Text) : Text :=
  ((t.dropWhile p).reverse.dropWhile p).reverse

/-- Left-aligned in a field of `width` characters. -/
def padRight (width : Nat) (t : Text) : Text :=
  t ++ List.replicate (width - t.length) ' '

/-- Number of bytes of the UTF-8 form. -/
def utf8Length : Text → Nat
  | [] => 0
  | c :: t => c.utf8Size + utf8Length t

/-- Decimal digits of a count. -/
def ofNat (n : Nat) : Text :=
  (toString n).toList

theorem lower_length (t : Text) : t.lower.length = t.length := by
  simp [lower]

end Text

end AmpMarkup
