import AmpMarkup.Css.Token
import AmpMarkup.Text.Space

/-! Reading a stylesheet as tokens. Every reader takes what is left of the stylesheet and returns
what it made of the front with what is left after it. A token takes at least one character, so
reading ends. -/

namespace AmpMarkup.Css

open Decimal (Numeral Binary64)

/-- Whether a character may start an identifier. -/
def isNameStart (c : Char) : Bool :=
  c.isAlpha || c == '_' || 0x80 ≤ c.toNat

/-- Whether a character may stand in an identifier. -/
def isNameChar (c : Char) : Bool :=
  isNameStart c || c.isDigit || c == '-'

/-- Whether a backslash before this text is an escape. Only before a line feed it is not; at the end
of the stylesheet it is. -/
def escapes (afterBackslash : Text) : Bool :=
  afterBackslash.head? != some '\n'

/-- Whether an identifier starts here. -/
def startsName : Text → Bool
  | '-' :: '-' :: _ => true
  | '-' :: '\\' :: t => escapes t
  | '-' :: c :: _ => isNameStart c
  | '\\' :: t => escapes t
  | c :: _ => isNameStart c
  | [] => false

/-- Whether a digit comes next. -/
def startsDigit (t : Text) : Bool :=
  t.head?.any Char.isDigit

/-- Whether a number without a sign starts here. -/
def startsUnsigned : Text → Bool
  | '.' :: t => startsDigit t
  | t => startsDigit t

/-- Whether a number starts here. -/
def startsNumber : Text → Bool
  | '+' :: t => startsUnsigned t
  | '-' :: t => startsUnsigned t
  | t => startsUnsigned t

/-- At most `limit` hexadecimal digits, and the text after them. -/
def spanHex : (limit : Nat) → Text → Text × Text
  | limit + 1, c :: t =>
    if isHexDigit c then ((c :: (spanHex limit t).1), (spanHex limit t).2) else ([], c :: t)
  | _, t => ([], t)

/-- The text after one optional space. -/
def dropSpace : Text → Text
  | c :: t => if isSpace c then t else c :: t
  | [] => []

/-- What follows a backslash: up to six hexadecimal digits with an optional space after them denote
a code point, any other character denotes itself, and the end of the stylesheet the replacement
character. -/
def readEscape (t : Text) : Char × Text :=
  match spanHex 6 t with
  | ([], _) =>
    match t with
    | c :: t => (c, t)
    | [] => (replacement, [])
  | (digits, rest) => (scalarOrReplacement (Text.numeral 16 digits), dropSpace rest)

theorem suffix_cons_of_suffix {t u : Text} (c : Char) (h : u <:+ t) : u <:+ c :: t :=
  h.trans (List.suffix_cons c t)

theorem spanHex_suffix (limit : Nat) (t : Text) : (spanHex limit t).2 <:+ t := by
  induction limit generalizing t with
  | zero => cases t <;> exact List.suffix_rfl
  | succ limit ih =>
      cases t with
      | nil => exact List.suffix_rfl
      | cons c t =>
          rw [spanHex]
          split
          · exact suffix_cons_of_suffix c (ih t)
          · exact List.suffix_rfl

theorem dropSpace_suffix (t : Text) : dropSpace t <:+ t := by
  cases t with
  | nil => exact List.suffix_rfl
  | cons c t =>
      rw [dropSpace]
      split
      · exact List.suffix_cons c t
      · exact List.suffix_rfl

theorem readEscape_suffix (t : Text) : (readEscape t).2 <:+ t := by
  have hs := spanHex_suffix 6 t
  unfold readEscape
  split
  · split
    · exact List.suffix_cons _ _
    · exact List.suffix_rfl
  · next hr =>
      rw [hr] at hs
      exact (dropSpace_suffix _).trans hs

theorem readEscape_length_le (t : Text) : (readEscape t).2.length ≤ t.length :=
  (readEscape_suffix t).length_le

/-- An identifier with its escapes resolved. -/
def readName : Text → Text × Text
  | [] => ([], [])
  | c :: t =>
    if isNameChar c then
      let (name, rest) := readName t
      (c :: name, rest)
    else if c = '\\' ∧ escapes t then
      let (name, rest) := readName (readEscape t).2
      ((readEscape t).1 :: name, rest)
    else ([], c :: t)
termination_by t => t.length
decreasing_by
  · simp
  · exact Nat.lt_succ_of_le (readEscape_length_le t)

theorem readName_suffix (t : Text) : (readName t).2 <:+ t := by
  fun_induction readName t with
  | case1 => exact List.suffix_rfl
  | case2 c t hc name rest hr ih =>
      rw [hr] at ih
      exact suffix_cons_of_suffix c ih
  | case3 c t hc he name rest hr ih =>
      rw [hr] at ih
      exact suffix_cons_of_suffix c (ih.trans (readEscape_suffix t))
  | case4 => exact List.suffix_rfl

theorem readName_length_le (t : Text) : (readName t).2.length ≤ t.length :=
  (readName_suffix t).length_le

/-- A name that starts takes at least one character. -/
theorem readName_length_lt {t : Text} (h : startsName t = true) :
    (readName t).2.length < t.length := by
  cases t with
  | nil => simp [startsName] at h
  | cons c t =>
      rw [readName]
      by_cases hc : isNameChar c
      · simpa [hc] using Nat.lt_succ_of_le (readName_length_le t)
      · have hb : c = '\\' ∧ escapes t = true := by
          unfold startsName at h
          split at h <;> simp_all [isNameChar]
        rw [if_neg hc, if_pos hb]
        exact Nat.lt_succ_of_le (Nat.le_trans (readName_length_le _) (readEscape_length_le t))

/-- The text after the end of a comment that is open. An unfinished one takes all. -/
def dropComment : Text → Text
  | '*' :: '/' :: t => t
  | _ :: t => dropComment t
  | [] => []

theorem dropComment_suffix (t : Text) : dropComment t <:+ t := by
  fun_induction dropComment t with
  | case1 t => exact suffix_cons_of_suffix '*' (List.suffix_cons '/' t)
  | case2 c t h ih => exact suffix_cons_of_suffix c ih
  | case3 => exact List.suffix_rfl

theorem dropComment_length_le (t : Text) : (dropComment t).length ≤ t.length :=
  (dropComment_suffix t).length_le

/-- The text after the comments at its front. -/
def dropComments : Text → Text
  | '/' :: '*' :: t => dropComments (dropComment t)
  | t => t
termination_by t => t.length
decreasing_by exact Nat.lt_succ_of_le (Nat.le_succ_of_le (dropComment_length_le t))

theorem dropComments_suffix (t : Text) : dropComments t <:+ t := by
  fun_induction dropComments t with
  | case1 t ih =>
      exact suffix_cons_of_suffix '/' (suffix_cons_of_suffix '*' (ih.trans (dropComment_suffix t)))
  | case2 => exact List.suffix_rfl

theorem dropComments_length_le (t : Text) : (dropComments t).length ≤ t.length :=
  (dropComments_suffix t).length_le

/-- The rest of a string up to its closing quote. A line feed spoils the string and is left in
place. -/
def readString (quote : Char) : Text → Option Text × Text
  | [] => (some [], [])
  | c :: t =>
    if c = quote then (some [], t)
    else if c = '\n' then (none, c :: t)
    else if c = '\\' then
      match t with
      | [] => (some [], [])
      | '\n' :: t => readString quote t
      | d :: t =>
        let (value, rest) := readString quote (readEscape (d :: t)).2
        (value.map ((readEscape (d :: t)).1 :: ·), rest)
    else
      let (value, rest) := readString quote t
      (value.map (c :: ·), rest)
termination_by t => t.length
decreasing_by
  · simp only [List.length_cons]; omega
  · exact Nat.lt_succ_of_le (readEscape_length_le (d :: t))
  · simp

theorem readString_suffix (quote : Char) (t : Text) : (readString quote t).2 <:+ t := by
  fun_induction readString quote t with
  | case1 => exact List.suffix_rfl
  | case2 => exact List.suffix_cons _ _
  | case3 => exact List.suffix_rfl
  | case4 => exact List.nil_suffix
  | case5 t _ _ ih => exact suffix_cons_of_suffix '\\' (suffix_cons_of_suffix '\n' ih)
  | case6 d t _ value rest hr _ _ ih =>
      rw [hr] at ih
      exact suffix_cons_of_suffix '\\' (ih.trans (readEscape_suffix (d :: t)))
  | case7 c t hc hn he value rest hr ih =>
      rw [hr] at ih
      exact suffix_cons_of_suffix c ih

/-- The text after the closing parenthesis of a spoiled address; escaped parentheses do not
close. -/
def dropBadUrl : Text → Text
  | [] => []
  | c :: t =>
    if c = ')' then t
    else if c = '\\' ∧ escapes t then dropBadUrl (readEscape t).2
    else dropBadUrl t
termination_by t => t.length
decreasing_by
  · exact Nat.lt_succ_of_le (readEscape_length_le t)
  · simp

theorem dropBadUrl_suffix (t : Text) : dropBadUrl t <:+ t := by
  fun_induction dropBadUrl t with
  | case1 => exact List.suffix_rfl
  | case2 => exact List.suffix_cons _ _
  | case3 c t hc he ih => exact suffix_cons_of_suffix c (ih.trans (readEscape_suffix t))
  | case4 c t hc he ih => exact suffix_cons_of_suffix c ih

/-- The end of an address after a space inside it: spaces and the closing parenthesis. -/
def endUrl (t : Text) : Option Text × Text :=
  match t.dropWhile isSpace with
  | [] => (some [], [])
  | ')' :: rest => (some [], rest)
  | rest => (none, dropBadUrl rest)

/-- The rest of an unquoted address up to its closing parenthesis. -/
def readUrl : Text → Option Text × Text
  | [] => (some [], [])
  | c :: t =>
    if c = ')' then (some [], t)
    else if isSpace c then endUrl t
    else if c = '"' ∨ c = '\'' ∨ c = '(' then (none, dropBadUrl t)
    else if c = '\\' then
      if escapes t then
        let (value, rest) := readUrl (readEscape t).2
        (value.map ((readEscape t).1 :: ·), rest)
      else (none, dropBadUrl t)
    else
      let (value, rest) := readUrl t
      (value.map (c :: ·), rest)
termination_by t => t.length
decreasing_by
  · exact Nat.lt_succ_of_le (readEscape_length_le t)
  · simp

theorem dropWhile_length_le (p : Char → Bool) (t : Text) : (t.dropWhile p).length ≤ t.length :=
  (List.dropWhile_sublist p).length_le

theorem endUrl_suffix (t : Text) : (endUrl t).2 <:+ t := by
  have hd : t.dropWhile isSpace <:+ t := List.dropWhile_suffix isSpace
  unfold endUrl
  split
  · exact List.nil_suffix
  · next hr =>
      rw [hr] at hd
      exact (List.suffix_cons _ _).trans hd
  · exact (dropBadUrl_suffix _).trans hd

theorem readUrl_suffix (t : Text) : (readUrl t).2 <:+ t := by
  fun_induction readUrl t with
  | case1 => exact List.suffix_rfl
  | case2 => exact List.suffix_cons _ _
  | case3 c t hc hs => exact suffix_cons_of_suffix c (endUrl_suffix t)
  | case4 c t hc hs hq => exact suffix_cons_of_suffix c (dropBadUrl_suffix t)
  | case5 t _ value rest hr _ _ _ ih =>
      rw [hr] at ih
      exact suffix_cons_of_suffix '\\' (ih.trans (readEscape_suffix t))
  | case6 t => exact suffix_cons_of_suffix '\\' (dropBadUrl_suffix t)
  | case7 c t hc hs hq hb value rest hr ih =>
      rw [hr] at ih
      exact suffix_cons_of_suffix c ih

/-- A sign, and the text after it. -/
def readSign : Text → Bool × Text
  | '+' :: t => (false, t)
  | '-' :: t => (true, t)
  | t => (false, t)

/-- The digits after a point, and the text after them. A point without a digit after it does not
belong to the number. -/
def readFraction : Text → Text × Text
  | '.' :: t =>
    if startsDigit t then (t.takeWhile Char.isDigit, t.dropWhile Char.isDigit) else ([], '.' :: t)
  | t => ([], t)

/-- The exponent, and the text after it. An exponent mark without a digit after it does not belong
to the number. -/
def readExponent : Text → Int × Text
  | c :: t =>
    if c = 'e' ∨ c = 'E' then
      let (negative, digits) := readSign t
      if startsDigit digits then
        let n : Int := Text.numeral 10 (digits.takeWhile Char.isDigit)
        (if negative then -n else n, digits.dropWhile Char.isDigit)
      else (0, c :: t)
    else (0, c :: t)
  | [] => (0, [])

/-- A number. -/
def readNumber (t : Text) : Binary64 × Text :=
  let (negative, unsigned) := readSign t
  let whole := unsigned.takeWhile Char.isDigit
  let (fraction, afterFraction) := readFraction (unsigned.dropWhile Char.isDigit)
  let (exponent, rest) := readExponent afterFraction
  (.nearest ⟨negative, Text.numeral 10 (whole ++ fraction), exponent - fraction.length⟩, rest)

/-- A number with the unit or percent sign after it. -/
def readNumeric (t : Text) : Token × Text :=
  let (value, rest) := readNumber t
  if startsName rest then
    let (unit, rest) := readName rest
    (.dimension value unit, rest)
  else
    match rest with
    | '%' :: rest => (.percentage value, rest)
    | _ => (.number value, rest)

/-- An identifier, a function, or an address without quotes. -/
def readIdentLike (t : Text) : Token × Text :=
  match readName t with
  | (name, '(' :: rest) =>
    if name.sameIgnoringCase "url" then
      match rest.dropWhile isSpace with
      | '"' :: rest => (.function name, '"' :: rest)
      | '\'' :: rest => (.function name, '\'' :: rest)
      | rest =>
        match readUrl rest with
        | (some value, rest) => (.url value, rest)
        | (none, rest) => (.badUrl, rest)
    else (.function name, rest)
  | (name, rest) => (.ident name, rest)

/-- The token of a character that stands for itself. -/
def punctuation (c : Char) : Token :=
  match c with
  | '(' => .leftParen
  | ')' => .rightParen
  | ',' => .comma
  | ':' => .colon
  | ';' => .semicolon
  | '[' => .leftBracket
  | ']' => .rightBracket
  | '\x7b' => .leftBrace
  | '\x7d' => .rightBrace
  | c => .delim c

/-- A token that starts with the character `c`, with `t` after it. -/
def readToken (c : Char) (t : Text) : Token × Text :=
  if isSpace c then (.whitespace, t.dropWhile isSpace)
  else if c = '"' ∨ c = '\'' then
    match readString c t with
    | (some value, rest) => (.string value, rest)
    | (none, rest) => (.badString, rest)
  else if startsNumber (c :: t) then readNumeric (c :: t)
  else if c = '-' ∧ t.startsWith "->" then (.commentClose, t.drop 2)
  else if startsName (c :: t) then readIdentLike (c :: t)
  else if c = '#' ∧ (t.head?.any isNameChar ∨ (t.head? = some '\\' ∧ escapes t.tail)) then
    (.hash (readName t).1, (readName t).2)
  else if c = '@' ∧ startsName t then (.atKeyword (readName t).1, (readName t).2)
  else if c = '<' ∧ t.startsWith "!--" then (.commentOpen, t.drop 3)
  else (punctuation c, t)

section Length

variable {c : Char} {t : Text}

theorem readSign_suffix (t : Text) : (readSign t).2 <:+ t := by
  unfold readSign
  split
  · exact List.suffix_cons _ _
  · exact List.suffix_cons _ _
  · exact List.suffix_rfl

theorem readFraction_suffix (t : Text) : (readFraction t).2 <:+ t := by
  unfold readFraction
  split
  · split
    · exact suffix_cons_of_suffix '.' (List.dropWhile_suffix _)
    · exact List.suffix_rfl
  · exact List.suffix_rfl

theorem readExponent_suffix (t : Text) : (readExponent t).2 <:+ t := by
  unfold readExponent
  split
  · next c u =>
      split
      · dsimp only
        split
        · exact suffix_cons_of_suffix c ((List.dropWhile_suffix _).trans (readSign_suffix u))
        · exact List.suffix_rfl
      · exact List.suffix_rfl
  · exact List.suffix_rfl

theorem readNumber_suffix (t : Text) : (readNumber t).2 <:+ t :=
  (((readExponent_suffix _).trans (readFraction_suffix _)).trans (List.dropWhile_suffix _)).trans
    (readSign_suffix t)

theorem readNumeric_suffix (t : Text) : (readNumeric t).2 <:+ t := by
  have hn := readNumber_suffix t
  unfold readNumeric
  dsimp only
  split
  · exact (readName_suffix _).trans hn
  · split
    · next hr =>
        rw [hr] at hn
        exact (List.suffix_cons _ _).trans hn
    · exact hn

theorem readIdentLike_suffix (t : Text) : (readIdentLike t).2 <:+ t := by
  have hn := readName_suffix t
  unfold readIdentLike
  split
  · next name rest hr =>
      rw [hr] at hn
      have hrest : rest <:+ t := (List.suffix_cons _ _).trans hn
      have hd : rest.dropWhile isSpace <:+ rest := List.dropWhile_suffix isSpace
      split
      · split
        · next hq => exact (hq ▸ hd).trans hrest
        · next hq => exact (hq ▸ hd).trans hrest
        · have hu := (readUrl_suffix (rest.dropWhile isSpace)).trans (hd.trans hrest)
          split <;> next he => rw [he] at hu; exact hu
      · exact hrest
  · next hr =>
      rw [hr] at hn
      exact hn

theorem dropWhile_length_lt {p : Char → Bool} (h : t.head?.any p = true) :
    (t.dropWhile p).length < t.length := by
  cases t with
  | nil => simp at h
  | cons c t =>
      have hc : p c = true := by simpa using h
      rw [List.dropWhile_cons_of_pos hc]
      exact Nat.lt_succ_of_le (dropWhile_length_le p t)

/-- A number that starts takes at least one character. -/
theorem readNumber_length_lt (h : startsNumber t = true) :
    (readNumber t).2.length < t.length := by
  have hr : (readNumber t).2 =
      (readExponent (readFraction ((readSign t).2.dropWhile Char.isDigit)).2).2 := rfl
  have hu : startsUnsigned (readSign t).2 = true := by
    unfold startsNumber at h
    unfold readSign
    split at h <;> simp_all
  rw [hr]
  refine Nat.lt_of_le_of_lt (readExponent_suffix _).length_le
    (Nat.lt_of_lt_of_le ?_ (readSign_suffix t).length_le)
  revert hu
  generalize (readSign t).2 = u
  intro hu
  unfold startsUnsigned at hu
  split at hu
  · next v =>
      rw [List.dropWhile_cons_of_neg (by decide), readFraction, if_pos hu]
      exact Nat.lt_succ_of_le (dropWhile_length_le _ v)
  · exact Nat.lt_of_le_of_lt (readFraction_suffix _).length_le (dropWhile_length_lt hu)

theorem readNumeric_length_lt (h : startsNumber t = true) :
    (readNumeric t).2.length < t.length := by
  have hn := readNumber_length_lt h
  unfold readNumeric
  dsimp only
  split
  · exact Nat.lt_of_le_of_lt (readName_length_le _) hn
  · split
    · next hr =>
        rw [hr, List.length_cons] at hn
        exact Nat.lt_of_succ_lt hn
    · exact hn

theorem readIdentLike_length_lt (h : startsName t = true) :
    (readIdentLike t).2.length < t.length := by
  have hn := readName_length_lt h
  unfold readIdentLike
  split
  · next name rest hr =>
      rw [hr, List.length_cons] at hn
      have hd := dropWhile_length_le isSpace rest
      split
      · split
        · next hq => rw [hq] at hd; simp only at hd ⊢; omega
        · next hq => rw [hq] at hd; simp only at hd ⊢; omega
        · split
          · next hu =>
              have := hu ▸ (readUrl_suffix (rest.dropWhile isSpace)).length_le
              simp only at this ⊢
              omega
          · next hu =>
              have := hu ▸ (readUrl_suffix (rest.dropWhile isSpace)).length_le
              simp only at this ⊢
              omega
      · simp only at hn ⊢
        omega
  · next hr =>
      rw [hr] at hn
      exact hn

/-- A token takes at least its first character. -/
theorem readToken_suffix (c : Char) (t : Text) : (readToken c t).2 <:+ t := by
  -- What is read with its first character in front takes that character.
  have hshort : ∀ {u : Text}, u <:+ c :: t → u.length < (c :: t).length → u <:+ t := by
    intro u hu hlt
    rcases List.suffix_cons_iff.1 hu with rfl | hu
    · exact absurd hlt (Nat.lt_irrefl _)
    · exact hu
  unfold readToken
  split
  · exact List.dropWhile_suffix isSpace
  split
  · have hs := readString_suffix c t
    split <;> next hr => rw [hr] at hs; exact hs
  split
  · next h => exact hshort (readNumeric_suffix _) (readNumeric_length_lt h)
  split
  · exact List.drop_suffix 2 t
  split
  · next h => exact hshort (readIdentLike_suffix _) (readIdentLike_length_lt h)
  split
  · exact readName_suffix t
  split
  · exact readName_suffix t
  split
  · exact List.drop_suffix 3 t
  exact List.suffix_rfl

theorem readToken_length_le (c : Char) (t : Text) : (readToken c t).2.length ≤ t.length :=
  (readToken_suffix c t).length_le

end Length

/-- The tokens of a stylesheet, with its end as the last one. -/
def Token.ofText (t : Text) : List Token :=
  match _h : dropComments t with
  | [] => [.endOfFile]
  | c :: rest => (readToken c rest).1 :: Token.ofText (readToken c rest).2
termination_by t.length
decreasing_by
  have hd := dropComments_length_le t
  have ht := readToken_length_le c rest
  rw [_h, List.length_cons] at hd
  omega

theorem Token.ofText_of_dropComments_nil {t : Text} (h : dropComments t = []) :
    Token.ofText t = [.endOfFile] := by
  rw [Token.ofText]
  split
  · rfl
  · next hc => rw [h] at hc; cases hc

theorem Token.ofText_of_dropComments {c : Char} {t u : Text} (h : dropComments t = c :: u) :
    Token.ofText t = (readToken c u).1 :: Token.ofText (readToken c u).2 := by
  rw [Token.ofText]
  split
  · next hn => rw [h] at hn; cases hn
  · next hc =>
      rw [h] at hc
      obtain ⟨rfl, rfl⟩ := List.cons.inj hc
      rfl

end AmpMarkup.Css
