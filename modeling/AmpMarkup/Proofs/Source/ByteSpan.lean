import AmpMarkup.Proofs.Source.ByteScan
import AmpMarkup.Proofs.Source.SpanGrammar

/-! Attributes by the offsets of their bytes. A scan of the bytes of a span notes where each attribute,
its name and its value begin and end. It notes them where reading the characters ends them, since the
characters that it looks for are ASCII. -/

namespace AmpMarkup.Source

/-- An attribute by offsets in its span: the spaces before it, its name with the brackets, and its
value with the equals sign. -/
structure AttributeExtent where
  leading : Extent
  name : Extent
  value : Option Extent
deriving DecidableEq, Repr

/-- Where the scan of a span stands. -/
inductive SpanState where
  | beforeAttribute
  | attributeName
  | afterName
  | beforeValue
  | quotedValue (quote : UInt8)
  | unquotedValue
deriving DecidableEq, Repr

/-- The scan of a span: where it stands, what it has noted of the attribute that it is in, and the
attributes behind it. -/
structure SpanScan where
  state : SpanState
  leadingStart : Nat
  name : Extent
  valueStart : Nat
  found : List AttributeExtent
deriving DecidableEq, Repr

/-- How many states come before the next byte has to be taken. -/
def SpanState.rank : SpanState → Nat
  | beforeValue => 3
  | afterName | unquotedValue => 2
  | beforeAttribute => 1
  | attributeName | quotedValue _ => 0

/-- The scan after an attribute that ends at an offset. -/
def SpanScan.finish (s : SpanScan) (value : Option Extent) (pos : Nat) : SpanScan :=
  { s with
    state := .beforeAttribute
    leadingStart := pos
    found := s.found ++ [⟨⟨s.leadingStart, s.name.start⟩, s.name, value⟩] }

/-- The bytes behind an ASCII character, if it comes first. -/
def skipByte (c : Char) (bs : List UInt8) : List UInt8 :=
  if bs.head?.any (Char.ofUInt8 · == c) then bs.tail else bs

theorem length_skipByte_le (c : Char) (bs : List UInt8) : (skipByte c bs).length ≤ bs.length := by
  unfold skipByte
  split
  · rw [List.length_tail]
    exact Nat.sub_le ..
  · exact Nat.le_refl _

/-- The attributes that a scan finds in the bytes from the offset `pos` on, and whether they are all of
the span: none of it is left over, and it does not end inside an attribute. -/
def scanSpan (s : SpanScan) (pos : Nat) : List UInt8 → List AttributeExtent × Bool
  | [] =>
    match s.state with
    | .afterName => ((s.finish none pos).found, true)
    | .beforeAttribute => (s.found, true)
    | _ => (s.found, false)
  | b :: bs =>
    let c := Char.ofUInt8 b
    match _h : s.state with
    | .beforeAttribute =>
      if isSpace c then scanSpan s (pos + 1) bs
      else if pos = s.leadingStart then (s.found, false)
      else scanSpan { s with state := .attributeName, name := ⟨pos, pos⟩ } pos (b :: bs)
    | .attributeName =>
      let inner := skipByte '[' (b :: bs)
      let rest := inner.dropWhile (isNameChar <| Char.ofUInt8 ·)
      if _hw : rest.length = inner.length then (s.found, false)
      else
        let behind := skipByte ']' rest
        let stop := pos + ((b :: bs).length - behind.length)
        scanSpan { s with state := .afterName, name := ⟨s.name.start, stop⟩ } stop behind
    | .afterName =>
      if c = '=' then scanSpan { s with state := .beforeValue, valueStart := pos } (pos + 1) bs
      else scanSpan (s.finish none pos) pos (b :: bs)
    | .beforeValue =>
      if c = '"' ∨ c = '\'' then scanSpan { s with state := .quotedValue b } (pos + 1) bs
      else if isSpace c then (s.found, false)
      else scanSpan { s with state := .unquotedValue } pos (b :: bs)
    | .quotedValue quote =>
      match (b :: bs).idxOf? quote with
      | some i =>
        let stop := pos + (i + 1)
        scanSpan (s.finish (some ⟨s.valueStart, stop⟩) stop) stop ((b :: bs).drop (i + 1))
      | none => (s.found, false)
    | .unquotedValue =>
      let word := (b :: bs).takeWhile (isUnquoted <| Char.ofUInt8 ·)
      let stop := pos + word.length
      scanSpan (s.finish (some ⟨s.valueStart, stop⟩) stop) stop
        ((b :: bs).dropWhile (isUnquoted <| Char.ofUInt8 ·))
termination_by bs => (bs.length, s.state.rank)
decreasing_by
  · exact .left _ _ (Nat.lt_succ_self _)
  · rw [_h]
    exact .right _ (by decide)
  · refine .left _ _ ?_
    have hinner := length_skipByte_le '[' (b :: bs)
    have hrest := (List.dropWhile_sublist (fun b => isNameChar (Char.ofUInt8 b))
      (l := skipByte '[' (b :: bs))).length_le
    have hbehind := length_skipByte_le ']'
      ((skipByte '[' (b :: bs)).dropWhile fun b => isNameChar (Char.ofUInt8 b))
    exact Nat.lt_of_le_of_lt hbehind (Nat.lt_of_lt_of_le (Nat.lt_of_le_of_ne hrest _hw) hinner)
  · exact .left _ _ (Nat.lt_succ_self _)
  · rw [_h]
    exact .right _ (Nat.lt_succ_self 1)
  · exact .left _ _ (Nat.lt_succ_self _)
  · rw [_h]
    exact .right _ (Nat.lt_succ_self 2)
  · rw [List.drop_succ_cons, List.length_drop]
    exact .left _ _ (Nat.lt_succ_of_le (Nat.sub_le ..))
  · rw [_h]
    exact .right' _ (List.dropWhile_sublist _).length_le (Nat.lt_succ_self 1)

/-! ### The same by characters -/

/-- The parts of an attribute in a span in which it starts at `pos`. -/
def SourceAttribute.extent (pos : Nat) (a : SourceAttribute) : AttributeExtent :=
  let nameStart := pos + Text.utf8Length a.leading
  let nameStop := nameStart + Text.utf8Length a.writtenName
  ⟨⟨pos, nameStart⟩, ⟨nameStart, nameStop⟩,
    a.value.map fun v => ⟨nameStop, nameStop + Text.utf8Length v⟩⟩

/-- The attributes of a span, the first of which starts at `pos`. -/
def attributeExtents (pos : Nat) : List SourceAttribute → List AttributeExtent
  | [] => []
  | a :: as => a.extent pos :: attributeExtents (pos + Text.utf8Length a.source) as

/-- The attributes of a span up to where it no longer follows the grammar, and whether it follows it to
the end. -/
def readAttributes (t : Text) : List SourceAttribute × Bool :=
  match _h : t.dropWhile isSpace with
  | [] => ([], true)
  | c :: rest =>
    if (t.takeWhile isSpace).isEmpty then ([], false)
    else
      match _hr : SourceAttribute.read? (t.takeWhile isSpace) (c :: rest) with
      | none => ([], false)
      | some (a, rest) => (a :: (readAttributes rest).1, (readAttributes rest).2)
termination_by t.length
decreasing_by
  all_goals
    have hd := (List.dropWhile_sublist isSpace (l := t)).length_le
    rw [_h] at hd
    exact Nat.lt_of_lt_of_le (SourceAttribute.read?_length_lt _hr) hd

variable {c : Char} {t u k leading rest : Text} {pos : Nat} {s : SpanScan} {a : SourceAttribute}

theorem splitAttributes?_eq (t : Text) :
    splitAttributes? t = if (readAttributes t).2 then some (readAttributes t).1 else none := by
  fun_induction readAttributes t with
  | case1 t hd =>
      rw [splitAttributes?]
      split
      · rfl
      · next h => rw [hd] at h; cases h
  | case2 t c rest hd hl =>
      rw [splitAttributes?]
      split
      · next h => rw [hd] at h; cases h
      · rw [if_pos hl]
        rfl
  | case3 t c rest hd hl hr =>
      rw [splitAttributes?]
      split
      · next h => rw [hd] at h; cases h
      · next h =>
          obtain ⟨rfl, rfl⟩ := List.cons.inj (hd.symm.trans h)
          rw [if_neg hl, hr]
          rfl
  | case4 t c rest hd hl a rest' hr ih =>
      rw [splitAttributes?]
      split
      · next h => rw [hd] at h; cases h
      · next h =>
          obtain ⟨rfl, rfl⟩ := List.cons.inj (hd.symm.trans h)
          rw [if_neg hl, hr]
          dsimp only
          rw [ih]
          split <;> rfl

theorem skipByte_utf8 (hc : c.toNat < 128) (t : Text) :
    skipByte c (Text.utf8 t) = Text.utf8 (readBracket c t).2 := by
  rw [skipByte, Text.head?_any_utf8 (seesAscii_beq hc)]
  cases t with
  | nil => rfl
  | cons d t =>
      by_cases hd : d = c
      · subst hd
        rw [Text.utf8_cons, Text.utf8EncodeChar_ascii hc]
        simp [readBracket]
      · simp [readBracket, hd]

/-! ### Spaces and names -/

theorem scanSpan_spaces (hs : s.state = .beforeAttribute) (hu : ∀ c ∈ u, isSpace c = true)
    (pos : Nat) (t : Text) :
    scanSpan s pos (Text.utf8 (u ++ t)) = scanSpan s (pos + Text.utf8Length u) (Text.utf8 t) := by
  have hpass : ∀ (b : UInt8) (pos : Nat) (rest : List UInt8), isSpace (Char.ofUInt8 b) = true →
      scanSpan s pos (b :: rest) = scanSpan s (pos + 1) rest := by
    intro b pos rest hb
    obtain ⟨state, leadingStart, name, valueStart, found⟩ := s
    obtain rfl : state = .beforeAttribute := hs
    rw [scanSpan]
    dsimp only
    rw [if_pos hb]
  have hbytes : ∀ b ∈ Text.utf8 u, isSpace (Char.ofUInt8 b) = true := by
    intro b hb
    obtain ⟨c, hc, hb⟩ := List.mem_flatMap.1 hb
    rw [seesAscii_isSpace.eq_of_mem hb]
    exact hu c hc
  rw [Text.utf8_append, pass_append hpass hbytes, Text.length_utf8]

/-- An attribute needs a space before it. -/
theorem scanSpan_beforeAttribute (hs : s.state = .beforeAttribute) (hc : isSpace c = false)
    (pos : Nat) (t : Text) :
    scanSpan s pos (Text.utf8 (c :: t)) =
      if pos = s.leadingStart then (s.found, false)
      else scanSpan { s with state := .attributeName, name := ⟨pos, pos⟩ } pos
        (Text.utf8 (c :: t)) := by
  obtain ⟨state, leadingStart, name, valueStart, found⟩ := s
  obtain rfl : state = .beforeAttribute := hs
  obtain ⟨b, bs, hbs, hb⟩ := Text.exists_utf8_cons c t
  rw [hbs, scanSpan]
  dsimp only
  rw [seesAscii_isSpace.eq_of_mem hb, hc, if_neg Bool.false_ne_true]

/-- What is read of an attribute before its value, and what follows that. -/
def readName (leading t : Text) : SourceAttribute × Text :=
  let inner := (readBracket '[' t).2
  let closing := readBracket ']' (inner.dropWhile isNameChar)
  (⟨leading, (readBracket '[' t).1, inner.takeWhile isNameChar, closing.1, none⟩, closing.2)

theorem read?_eq (leading t : Text) :
    SourceAttribute.read? leading t =
      let p := readName leading t
      if p.1.name = [] then none
      else if p.2.head? = some '=' then
        (readValue? p.2.tail).map fun q => ({ p.1 with value := some q.1 }, q.2)
      else some p := by
  rw [SourceAttribute.read?, readName]
  dsimp only
  generalize readBracket ']' ((readBracket '[' t).2.dropWhile isNameChar) = closing
  obtain ⟨closed, behind⟩ := closing
  cases behind with
  | nil => simp
  | cons c behind =>
      by_cases hc : c = '='
      · subst hc
        simp
      · simp [hc]

theorem readName_source (leading t : Text) :
    t = (readName leading t).1.writtenName ++ (readName leading t).2 := by
  have hopen := readBracket_source '[' t
  have hclose := readBracket_source ']' ((readBracket '[' t).2.dropWhile isNameChar)
  have hname := List.takeWhile_append_dropWhile (p := isNameChar) (l := (readBracket '[' t).2)
  rw [SourceAttribute.writtenName, readName, List.append_assoc, hclose, List.append_assoc, hname,
    hopen]

theorem scanSpan_attributeName (hs : s.state = .attributeName) (ht : t ≠ []) (pos : Nat)
    (leading : Text) :
    scanSpan s pos (Text.utf8 t) =
      let p := readName leading t
      let stop := pos + Text.utf8Length p.1.writtenName
      if p.1.name = [] then (s.found, false)
      else scanSpan { s with state := .afterName, name := ⟨s.name.start, stop⟩ } stop
        (Text.utf8 p.2) := by
  obtain ⟨state, leadingStart, name, valueStart, found⟩ := s
  obtain rfl : state = .attributeName := hs
  obtain ⟨b, bs, hbs⟩ := List.exists_cons_of_ne_nil (Text.utf8_ne_nil ht)
  have hempty : ∀ u : Text, Text.utf8Length (u.dropWhile isNameChar) = Text.utf8Length u ↔
      u.takeWhile isNameChar = [] := fun u => by
    have hu := congrArg Text.utf8Length (List.takeWhile_append_dropWhile (p := isNameChar) (l := u))
    rw [Text.utf8Length_append] at hu
    rw [← Text.utf8Length_eq_zero_iff]
    omega
  have hlength : Text.utf8Length t - Text.utf8Length (readName leading t).2 =
      Text.utf8Length (readName leading t).1.writtenName := by
    conv => lhs; arg 1; rw [readName_source leading t, Text.utf8Length_append]
    exact Nat.add_sub_cancel ..
  dsimp only
  rw [← hlength, hbs, scanSpan]
  dsimp only
  rw [← hbs, skipByte_utf8 (by decide), Text.dropWhile_utf8 seesAscii_isNameChar,
    skipByte_utf8 (by decide)]
  simp only [Text.length_utf8, hempty, dite_eq_ite]
  rfl

/-! ### Values -/

theorem seesAscii_isUnquoted : Text.SeesAscii isUnquoted := by
  intro c d hc hd
  have hordinary : ∀ e : Char, 128 ≤ e.toNat → isUnquoted e = true := fun e he =>
    isUnquoted_iff.2 ⟨ne_of_le he (by decide), ne_of_le he (by decide), not_isSpace_of_le he⟩
  rw [hordinary c hc, hordinary d hd]

theorem spanThrough?_eq_none (h : c ∉ t) : spanThrough? c t = none := by
  refine Option.eq_none_iff_forall_ne_some.2 fun ⟨inside, rest⟩ hp => h ?_
  obtain ⟨u, -, rfl⟩ := spanThrough?_eq_some hp
  rw [spanThrough?_source hp]
  simp

theorem scanSpan_afterName_none (hs : s.state = .afterName) (ht : t.head? ≠ some '=') (pos : Nat) :
    scanSpan s pos (Text.utf8 t) = scanSpan (s.finish none pos) pos (Text.utf8 t) := by
  obtain ⟨state, leadingStart, name, valueStart, found⟩ := s
  obtain rfl : state = .afterName := hs
  cases t with
  | nil =>
      rw [Text.utf8, List.flatMap_nil, scanSpan, scanSpan]
      rfl
  | cons c t =>
      obtain ⟨b, bs, hbs, hb⟩ := Text.exists_utf8_cons c t
      rw [hbs, scanSpan]
      dsimp only
      rw [if_neg (ne_of_mem_utf8EncodeChar (by decide) (by simpa using ht) hb)]

theorem scanSpan_afterName_equals (hs : s.state = .afterName) (pos : Nat) (t : Text) :
    scanSpan s pos (Text.utf8 ('=' :: t)) =
      scanSpan { s with state := .beforeValue, valueStart := pos } (pos + 1) (Text.utf8 t) := by
  obtain ⟨state, leadingStart, name, valueStart, found⟩ := s
  obtain rfl : state = .afterName := hs
  have hequals : Text.utf8 ('=' :: t) = '='.toUInt8 :: Text.utf8 t := rfl
  rw [hequals, scanSpan]
  dsimp only
  rw [if_pos (by decide)]

/-- A quoted value ends behind the first character that is its quote. -/
theorem scanSpan_quotedValue (hc : c.toNat < 128) (hs : s.state = .quotedValue c.toUInt8) (pos : Nat)
    (t : Text) :
    scanSpan s pos (Text.utf8 t) =
      match spanThrough? c t with
      | some (inside, rest) =>
        let stop := pos + Text.utf8Length inside
        scanSpan (s.finish (some ⟨s.valueStart, stop⟩) stop) stop (Text.utf8 rest)
      | none => (s.found, false) := by
  obtain ⟨state, leadingStart, name, valueStart, found⟩ := s
  obtain rfl : state = .quotedValue c.toUInt8 := hs
  cases t with
  | nil =>
      rw [Text.utf8, List.flatMap_nil, scanSpan]
      rfl
  | cons d t =>
      obtain ⟨b, bs, hbs⟩ := List.exists_cons_of_ne_nil (Text.utf8_ne_nil (List.cons_ne_nil d t))
      rw [hbs, scanSpan]
      dsimp only
      rw [← hbs]
      generalize d :: t = t
      by_cases hin : c ∈ t
      · obtain ⟨u, v, rfl, hu, hindex, hdrop⟩ := exists_idxOf?_utf8 hc hin
        rw [hindex, spanThrough?_append hu]
        dsimp only
        rw [hdrop, Text.utf8Length_append, Text.utf8Length, Text.utf8Size_ascii hc, Text.utf8Length]
      · rw [idxOf?_utf8_eq_none hc hin, spanThrough?_eq_none hin]

theorem scanSpan_unquotedValue (hs : s.state = .unquotedValue) (ht : t ≠ []) (pos : Nat) :
    scanSpan s pos (Text.utf8 t) =
      let stop := pos + Text.utf8Length (t.takeWhile isUnquoted)
      scanSpan (s.finish (some ⟨s.valueStart, stop⟩) stop) stop
        (Text.utf8 (t.dropWhile isUnquoted)) := by
  obtain ⟨state, leadingStart, name, valueStart, found⟩ := s
  obtain rfl : state = .unquotedValue := hs
  obtain ⟨b, bs, hbs⟩ := List.exists_cons_of_ne_nil (Text.utf8_ne_nil ht)
  rw [hbs, scanSpan]
  dsimp only
  rw [← hbs, Text.takeWhile_utf8 seesAscii_isUnquoted, Text.dropWhile_utf8 seesAscii_isUnquoted,
    Text.length_utf8]

theorem scanSpan_beforeValue (hs : s.state = .beforeValue) (t : Text) :
    scanSpan s (s.valueStart + 1) (Text.utf8 t) =
      match readValue? t with
      | some (value, rest) =>
        let stop := s.valueStart + Text.utf8Length value
        scanSpan (s.finish (some ⟨s.valueStart, stop⟩) stop) stop (Text.utf8 rest)
      | none => (s.found, false) := by
  obtain ⟨state, leadingStart, name, valueStart, found⟩ := s
  obtain rfl : state = .beforeValue := hs
  have hequals : ('=').utf8Size = 1 := rfl
  cases t with
  | nil =>
      rw [Text.utf8, List.flatMap_nil, scanSpan]
      rfl
  | cons c t =>
      rw [readValue?]
      by_cases hquote : c = '"' ∨ c = '\''
      · have hc : c.toNat < 128 := by
          rcases hquote with rfl | rfl <;> decide
        rw [Text.utf8_cons, Text.utf8EncodeChar_ascii hc, List.singleton_append, scanSpan]
        dsimp only
        rw [Text.ofUInt8_toUInt8 hc, if_pos hquote, if_pos hquote, scanSpan_quotedValue hc rfl]
        cases spanThrough? c t with
        | none => rfl
        | some p =>
            have hstop : valueStart + 1 + 1 + Text.utf8Length p.1 =
                valueStart + Text.utf8Length ('=' :: c :: p.1) := by
              simp only [Text.utf8Length, hequals, Text.utf8Size_ascii hc]
              omega
            dsimp only [Option.map_some]
            rw [hstop]
            rfl
      · -- The scan sees the first byte only, which is no quote since the character is none.
        obtain ⟨b, bs, hbs, hb⟩ := Text.exists_utf8_cons c t
        have hbyte : ¬ (Char.ofUInt8 b = '"' ∨ Char.ofUInt8 b = '\'') := by
          obtain ⟨hdouble, hsingle⟩ := not_or.1 hquote
          exact not_or.2 ⟨ne_of_mem_utf8EncodeChar (by decide) hdouble hb,
            ne_of_mem_utf8EncodeChar (by decide) hsingle hb⟩
        rw [hbs, scanSpan]
        dsimp only
        rw [if_neg hbyte, if_neg hquote, seesAscii_isSpace.eq_of_mem hb]
        cases hs : isSpace c with
        | true => rfl
        | false =>
            have hunquoted : isUnquoted c = true :=
              isUnquoted_iff.2 ⟨fun h => hquote (.inl h), fun h => hquote (.inr h), hs⟩
            have hstop : valueStart + 1 + Text.utf8Length (c :: t.takeWhile isUnquoted) =
                valueStart + Text.utf8Length ('=' :: c :: t.takeWhile isUnquoted) := by
              simp only [Text.utf8Length, hequals]
              omega
            rw [if_neg Bool.false_ne_true, if_neg Bool.false_ne_true, ← hbs,
              scanSpan_unquotedValue rfl (List.cons_ne_nil c t),
              List.takeWhile_cons_of_pos hunquoted, List.dropWhile_cons_of_pos hunquoted]
            dsimp only
            rw [hstop]
            rfl

/-! ### Attributes -/

/-- The scan of a span behind an attribute. -/
def SpanScan.behind (s : SpanScan) (a : SourceAttribute) : SpanScan where
  state := .beforeAttribute
  leadingStart := s.leadingStart + Text.utf8Length a.source
  name := (a.extent s.leadingStart).name
  valueStart := if a.value.isSome then (a.extent s.leadingStart).name.stop else s.valueStart
  found := s.found ++ [a.extent s.leadingStart]

theorem scanSpan_attribute (hs : s.state = .attributeName) (ht : t ≠ [])
    (hstart : s.name.start = s.leadingStart + Text.utf8Length leading) :
    scanSpan s s.name.start (Text.utf8 t) =
      match SourceAttribute.read? leading t with
      | some (a, rest) => scanSpan (s.behind a) (s.behind a).leadingStart (Text.utf8 rest)
      | none => (s.found, false) := by
  rw [scanSpan_attributeName hs ht _ leading, read?_eq]
  have hleading : (readName leading t).1.leading = leading := rfl
  have hnone : (readName leading t).1.value = none := rfl
  generalize readName leading t = p at hleading hnone
  obtain ⟨⟨leading', opened, name, closed, value⟩, behind⟩ := p
  obtain rfl : leading' = leading := hleading
  obtain rfl : value = none := hnone
  dsimp only
  by_cases hname : name = []
  · rw [if_pos hname, if_pos hname]
  · rw [if_neg hname, if_neg hname]
    by_cases hequals : behind.head? = some '='
    · obtain ⟨k, rfl⟩ := List.head?_eq_some_iff.1 hequals
      rw [if_pos hequals, scanSpan_afterName_equals rfl, scanSpan_beforeValue rfl, List.tail_cons]
      cases readValue? k with
      | none => rfl
      | some q =>
          simp [SpanScan.behind, SpanScan.finish, SourceAttribute.extent, SourceAttribute.source,
            SourceAttribute.writtenName, hstart, Text.utf8Length_append, Nat.add_assoc]
    · rw [if_neg hequals, scanSpan_afterName_none rfl hequals]
      simp [SpanScan.behind, SpanScan.finish, SourceAttribute.extent, SourceAttribute.source,
        SourceAttribute.writtenName, hstart, Text.utf8Length_append, Nat.add_assoc]

theorem scanSpan_leading (hs : s.state = .beforeAttribute) (t : Text) :
    scanSpan s s.leadingStart (Text.utf8 t) =
      scanSpan s (s.leadingStart + Text.utf8Length (t.takeWhile isSpace))
        (Text.utf8 (t.dropWhile isSpace)) := by
  conv => lhs; rw [← List.takeWhile_append_dropWhile (p := isSpace) (l := t)]
  exact scanSpan_spaces hs (fun c hc => List.all_eq_true.1 List.all_takeWhile c hc) _ _

theorem isSpace_of_dropWhile_eq (hd : t.dropWhile isSpace = c :: rest) : isSpace c = false :=
  Text.of_head?_dropWhile (by rw [hd, List.head?_cons])

theorem scanSpan_of_leading (hs : s.state = .beforeAttribute)
    (hd : t.dropWhile isSpace = c :: rest) (hl : t.takeWhile isSpace ≠ []) :
    scanSpan s s.leadingStart (Text.utf8 t) =
      match SourceAttribute.read? (t.takeWhile isSpace) (c :: rest) with
      | some (a, rest) => scanSpan (s.behind a) (s.behind a).leadingStart (Text.utf8 rest)
      | none => (s.found, false) := by
  have hpos : s.leadingStart + Text.utf8Length (t.takeWhile isSpace) ≠ s.leadingStart := by
    have hlength := mt Text.utf8Length_eq_zero_iff.1 hl
    omega
  rw [scanSpan_leading hs, hd, scanSpan_beforeAttribute hs (isSpace_of_dropWhile_eq hd), if_neg hpos]
  exact scanSpan_attribute rfl (List.cons_ne_nil c rest) rfl

/-- The attributes of a span by the offsets of their bytes are those by characters. -/
theorem scanSpan_utf8 (hs : s.state = .beforeAttribute) (t : Text) :
    scanSpan s s.leadingStart (Text.utf8 t) =
      (s.found ++ attributeExtents s.leadingStart (readAttributes t).1, (readAttributes t).2) := by
  fun_induction readAttributes t generalizing s with
  | case1 t hd =>
      rw [scanSpan_leading hs, hd, Text.utf8, List.flatMap_nil, scanSpan, hs]
      simp [attributeExtents]
  | case2 t c rest hd hl =>
      rw [scanSpan_leading hs, hd, scanSpan_beforeAttribute hs (isSpace_of_dropWhile_eq hd),
        List.isEmpty_iff.1 hl]
      simp [attributeExtents, Text.utf8Length]
  | case3 t c rest hd hl hr =>
      rw [scanSpan_of_leading hs hd (by simpa using hl), hr]
      simp [attributeExtents]
  | case4 t c rest hd hl a rest' hr ih =>
      rw [scanSpan_of_leading hs hd (by simpa using hl), hr]
      dsimp only
      rw [ih rfl]
      simp [attributeExtents, SpanScan.behind]

theorem readAttributes_spec (t : Text) :
    (∀ a ∈ (readAttributes t).1, a.Written) ∧
      ∃ rest, t = (readAttributes t).1.flatMap SourceAttribute.source ++ rest := by
  fun_induction readAttributes t with
  | case1 t hd => exact ⟨by simp, t, rfl⟩
  | case2 t c rest hd hl => exact ⟨by simp, t, rfl⟩
  | case3 t c rest hd hl hr => exact ⟨by simp, t, rfl⟩
  | case4 t c rest hd hl a rest' hr ih =>
      obtain ⟨hwritten, left, hleft⟩ := ih
      have ha := SourceAttribute.read?_written (by simpa using hl)
        (fun c hc => List.all_eq_true.1 List.all_takeWhile c hc) hr
      refine ⟨List.forall_mem_cons.2 ⟨ha, hwritten⟩, left, ?_⟩
      rw [List.flatMap_cons, List.append_assoc, ← hleft, ← SourceAttribute.read?_source hr, ← hd,
        List.takeWhile_append_dropWhile]

/-- The attributes of a span by the offsets of their bytes, and whether they are all of the span. -/
def scanAttributes (bytes : List UInt8) : List AttributeExtent × Bool :=
  scanSpan ⟨.beforeAttribute, 0, ⟨0, 0⟩, 0, []⟩ 0 bytes

theorem scanAttributes_utf8 (t : Text) :
    scanAttributes (Text.utf8 t) =
      (attributeExtents 0 (readAttributes t).1, (readAttributes t).2) :=
  scanSpan_utf8 rfl t

end AmpMarkup.Source
