import AmpMarkup.Json.Reader
import AmpMarkup.Json.Writer
import AmpMarkup.Proofs.Text.Numeral

/-! Written JSON is read back. What is written for a value falls into the lexical units of the value,
whatever is written behind it, as long as that does not go on with a number; and the reader puts the value
together from these units, whatever is open around it. -/

namespace AmpMarkup.Json

/-- Every natural number in a value is one that can be read: below `2 ^ 64`. -/
inductive InRange : Json → Prop where
  | null : InRange .null
  | bool (b : Bool) : InRange (.bool b)
  | natural {n : Nat} (h : n < UInt64.size) : InRange (.natural n)
  | number : InRange .number
  | string (t : Text) : InRange (.string t)
  | broken : InRange .broken
  | array {items : List Json} (h : ∀ v ∈ items, InRange v) : InRange (.array items)
  | object {fields : List (Option Text × Json)} (h : ∀ f ∈ fields, InRange f.2) : InRange (.object fields)

mutual

/-- The lexical units of a value. -/
def lexemes : Json → List Lexeme
  | .null => [.null]
  | .bool b => [.bool b]
  | .natural n => [.number (some n)]
  | .number => [.number none]
  | .string t => [.string (some t)]
  | .broken => [.string none]
  | .array items => .openBracket :: (itemLexemes items ++ [.closeBracket])
  | .object fields => .openBrace :: (fieldLexemes fields ++ [.closeBrace])

/-- The lexical units of items with commas between them. -/
def itemLexemes : List Json → List Lexeme
  | [] => []
  | [v] => lexemes v
  | v :: vs => lexemes v ++ .comma :: itemLexemes vs

/-- The lexical units of fields with commas between them. -/
def fieldLexemes : List (Option Text × Json) → List Lexeme
  | [] => []
  | [(key, v)] => .string key :: .colon :: lexemes v
  | (key, v) :: fields => .string key :: .colon :: lexemes v ++ .comma :: fieldLexemes fields

end

/-- Whether a number ends before a text: no digit, point or exponent comes next. -/
def EndsNumber (t : Text) : Prop :=
  ∀ c ∈ t.head?, c.isDigit = false ∧ c ≠ '.' ∧ c ≠ 'e' ∧ c ≠ 'E'

variable {c : Char} {n : Nat} {t rest : Text} {d : Escaped} {l : Lexeme} {v : Json} {frames : List Frame}

theorem endsNumber_cons (h : c.isDigit = false ∧ c ≠ '.' ∧ c ≠ 'e' ∧ c ≠ 'E') (t : Text) :
    EndsNumber (c :: t) := by
  rintro _ ⟨⟩
  exact h

/-! ### Strings -/

theorem readString?_plain (hquote : c ≠ '"') (hescape : c ≠ '\\') (hcontrol : ¬ c.toNat < 0x20) (t : Text) :
    readString? (c :: t) = (readString? t).map fun (text, rest) => (text.map (c :: ·), rest) := by
  rw [readString?, if_neg hquote, if_neg hescape, if_neg hcontrol]

theorem readString?_escape (h : readEscape? t = some (d, rest)) : readString? ('\\' :: t) =
    (readString? rest).map fun (text, rest) => (d.bind fun d => text.map (d :: ·), rest) := by
  rw [readString?, if_neg (by decide), if_pos rfl]
  split
  · next hn => rw [h] at hn; cases hn
  · next hs =>
      rw [h] at hs
      obtain ⟨rfl, rfl⟩ := Prod.mk.inj (Option.some.inj hs)
      rfl

theorem readUnit?_hex (h : n < 16 ^ 4) (rest : Text) :
    readUnit? (Text.hex 4 n ++ rest) = some (n, rest) := by
  obtain ⟨a, b, c, d, hd⟩ : ∃ a b c d, Text.hex 4 n = [a, b, c, d] := ⟨_, _, _, _, rfl⟩
  have hall : [a, b, c, d].all isHexDigit = true :=
    List.all_eq_true.mpr fun x hx => Text.isHexDigit_of_mem_hex (hd ▸ hx)
  have hvalue : Text.numeral 16 [a, b, c, d] = n := hd ▸ Text.numeral_hex h
  rw [hd]
  simp only [List.cons_append, List.nil_append, readUnit?, hall, hvalue, if_true]

/-- A control character is read back from its number. -/
theorem readEscape?_control (h : c.toNat < 0x20) (rest : Text) :
    readEscape? ('u' :: (Text.hex 4 c.toNat ++ rest)) = some (some c, rest) := by
  have hhigh : isHigh c.toNat = false := by simp [isHigh]; omega
  have hlow : isLow c.toNat = false := by simp [isLow]; omega
  rw [readEscape?, readUnicode?, readUnit?_hex (by omega)]
  simp only [hhigh, hlow, Bool.false_eq_true, if_false, Char.ofNat_toNat]

/-- The short escapes: a backslash and one more character. -/
theorem escapeChar_of_mem (h : c ∈ ['"', '\\', '\x08', '\x0c', '\n', '\r', '\t']) :
    ∃ e, escapeChar c = ['\\', e] ∧ ∀ t, readEscape? (e :: t) = some (some c, t) := by
  simp only [List.mem_cons, List.not_mem_nil, or_false] at h
  rcases h with rfl | rfl | rfl | rfl | rfl | rfl | rfl
  · exact ⟨'"', by decide, fun _ => rfl⟩
  · exact ⟨'\\', by decide, fun _ => rfl⟩
  · exact ⟨'b', by decide, fun _ => rfl⟩
  · exact ⟨'f', by decide, fun _ => rfl⟩
  · exact ⟨'n', by decide, fun _ => rfl⟩
  · exact ⟨'r', by decide, fun _ => rfl⟩
  · exact ⟨'t', by decide, fun _ => rfl⟩

theorem escapeChar_of_notMem (h : c ∉ ['"', '\\', '\x08', '\x0c', '\n', '\r', '\t']) :
    escapeChar c = if c.toNat < 0x20 then '\\' :: 'u' :: Text.hex 4 c.toNat else [c] := by
  simp only [List.mem_cons, List.not_mem_nil, or_false, not_or] at h
  simp only [escapeChar, h, if_false]
  rfl

/-- A character of a string is read back in its written form. -/
theorem readString?_escapeChar (c : Char) (t : Text) : readString? (escapeChar c ++ t) =
    (readString? t).map fun (text, rest) => (text.map (c :: ·), rest) := by
  by_cases hshort : c ∈ ['"', '\\', '\x08', '\x0c', '\n', '\r', '\t']
  · obtain ⟨e, he, hread⟩ := escapeChar_of_mem hshort
    rw [he, List.cons_append, List.singleton_append, readString?_escape (hread t)]
    rfl
  · rw [escapeChar_of_notMem hshort]
    split
    · next h => exact readString?_escape (readEscape?_control h t)
    · next h =>
        simp only [List.mem_cons, not_or] at hshort
        exact readString?_plain hshort.1 hshort.2.1 h t

theorem readString?_flatMap_escapeChar (t rest : Text) :
    readString? (t.flatMap escapeChar ++ '"' :: rest) = some (some t, rest) := by
  induction t with
  | nil => rw [List.flatMap_nil, List.nil_append, readString?, if_pos rfl]
  | cons c t ih => rw [List.flatMap_cons, List.append_assoc, readString?_escapeChar, ih]; rfl

theorem readLexeme?_quote (t rest : Text) : readLexeme? (quote t ++ rest) = some (.string (some t), rest) := by
  have happend : quote t ++ rest = '"' :: (t.flatMap escapeChar ++ '"' :: rest) := by simp [quote]
  rw [happend, readLexeme?, readString?_flatMap_escapeChar]
  rfl

/-- Half a surrogate pair is written for what is no text, and read as no text. -/
theorem readLexeme?_broken (rest : Text) :
    readLexeme? (("\"\\ud800\"" : String).toList ++ rest) = some (.string none, rest) := by
  have hescape : readEscape? ('u' :: 'd' :: '8' :: '0' :: '0' :: '"' :: rest) = some (none, '"' :: rest) :=
    rfl
  have hstring : readString? ('\\' :: 'u' :: 'd' :: '8' :: '0' :: '0' :: '"' :: rest) = some (none, rest) := by
    rw [readString?_escape hescape, readString?, if_pos rfl]
    rfl
  have hwritten : ("\"\\ud800\"" : String).toList = ['"', '\\', 'u', 'd', '8', '0', '0', '"'] := by
    decide
  rw [hwritten]
  change readLexeme? ('"' :: '\\' :: 'u' :: 'd' :: '8' :: '0' :: '0' :: '"' :: rest) = _
  rw [readLexeme?, hstring]
  rfl

theorem readLexeme?_renderKey (key : Option Text) (rest : Text) :
    readLexeme? (renderKey key ++ rest) = some (.string key, rest) := by
  cases key with
  | none => exact readLexeme?_broken rest
  | some key => exact readLexeme?_quote key rest

/-! ### Numbers -/

theorem readWhole?_ofNat (n : Nat) (hrest : EndsNumber rest) :
    readWhole? (Text.ofNat n ++ rest) = some (Text.ofNat n, rest) := by
  have hdigits : ∀ c ∈ Text.ofNat n, c.isDigit = true := fun c => Text.isDigit_of_mem_ofNat
  have htake : rest.takeWhile Char.isDigit = [] := by
    cases rest with
    | nil => rfl
    | cons c rest => exact List.takeWhile_cons_of_neg (by simp [(hrest c rfl).1])
  have hdrop : rest.dropWhile Char.isDigit = rest := by
    cases rest with
    | nil => rfl
    | cons c rest => exact List.dropWhile_cons_of_neg (by simp [(hrest c rfl).1])
  unfold readWhole?
  rw [List.takeWhile_append_of_pos hdigits, htake, List.append_nil, List.dropWhile_append_of_pos hdigits,
    hdrop]
  split
  · next h => exact absurd h (Text.ofNat_ne_nil n)
  · next h =>
      rw [Text.eq_zero_of_ofNat_eq_zero_cons h, show Text.ofNat 0 = ['0'] by decide] at h
      cases h
  · rfl

theorem dropFraction?_of_endsNumber (hrest : EndsNumber rest) : dropFraction? rest = some rest := by
  cases rest with
  | nil => rfl
  | cons c rest =>
      obtain ⟨-, hc, -⟩ := hrest c rfl
      unfold dropFraction?
      split
      · next h => exact absurd (List.cons.inj h).1 hc
      · rfl

theorem dropExponent?_of_endsNumber (hrest : EndsNumber rest) : dropExponent? rest = some rest := by
  cases rest with
  | nil => rfl
  | cons c rest =>
      obtain ⟨-, -, he, hE⟩ := hrest c rfl
      unfold dropExponent?
      split <;> first | rfl | simp_all

/-- A natural number is read back if no number goes on behind it. -/
theorem readUnsigned?_ofNat (hn : n < UInt64.size) (hrest : EndsNumber rest) :
    readUnsigned? (Text.ofNat n ++ rest) = some (some n, rest) := by
  rw [readUnsigned?, readWhole?_ofNat n hrest]
  simp [dropFraction?_of_endsNumber hrest, dropExponent?_of_endsNumber hrest, Text.numeral_ofNat, hn]

theorem readLexeme?_of_isDigit (h : c.isDigit = true) (t : Text) :
    readLexeme? (c :: t) = (readUnsigned? (c :: t)).map fun (value, rest) => (.number value, rest) := by
  have hnumber : readNumber? (c :: t) = readUnsigned? (c :: t) := by
    unfold readNumber?
    split
    · next he =>
        rw [(List.cons.inj he).1] at h
        exact absurd h (by decide)
    · rfl
  rw [← hnumber]
  unfold readLexeme?
  split <;> first | rfl | simp_all

theorem readLexeme?_ofNat (hn : n < UInt64.size) (hrest : EndsNumber rest) :
    readLexeme? (Text.ofNat n ++ rest) = some (.number (some n), rest) := by
  obtain ⟨c, t, ht⟩ := List.exists_cons_of_ne_nil (Text.ofNat_ne_nil n)
  have hc : c.isDigit = true := Text.isDigit_of_mem_ofNat (n := n) (ht ▸ List.mem_cons_self)
  have hread := readUnsigned?_ofNat hn hrest
  rw [ht, List.cons_append] at hread ⊢
  rw [readLexeme?_of_isDigit hc, hread]
  rfl

/-! ### Values -/

theorem readLexeme?_of_isBlank (h : isBlank c = true) (t : Text) : readLexeme? (c :: t) = none := by
  simp only [isBlank, Bool.or_eq_true, beq_iff_eq] at h
  rcases h with ((rfl | rfl) | rfl) | rfl <;> rfl

/-- The lexical units of a text are the one at its front and those behind it. -/
theorem lexemes?_of_readLexeme? (h : readLexeme? t = some (l, rest)) :
    lexemes? t = (lexemes? rest).map (l :: ·) := by
  have hblank : t.dropWhile isBlank = t := by
    cases t with
    | nil => rfl
    | cons c t =>
        refine List.dropWhile_cons_of_neg fun hc => ?_
        rw [readLexeme?_of_isBlank hc] at h
        cases h
  rw [lexemes?]
  split
  · next hnil =>
      rw [← hblank, hnil] at h
      cases h
  · next c u hcons =>
      rw [hblank] at hcons
      rw [hcons] at h
      split
      · next hnone => rw [h] at hnone; cases hnone
      · next hsome =>
          rw [h] at hsome
          obtain ⟨rfl, rfl⟩ := Prod.mk.inj (Option.some.inj hsome)
          rfl

theorem renderItems_cons_cons (v w : Json) (items : List Json) :
    renderItems (v :: w :: items) = render v ++ ',' :: renderItems (w :: items) :=
  rfl

theorem itemLexemes_cons_cons (v w : Json) (items : List Json) :
    itemLexemes (v :: w :: items) = lexemes v ++ .comma :: itemLexemes (w :: items) :=
  rfl

theorem renderFields_cons_cons (key : Option Text) (v : Json) (f : Option Text × Json)
    (fields : List (Option Text × Json)) : renderFields ((key, v) :: f :: fields) =
      renderKey key ++ ':' :: (render v ++ ',' :: renderFields (f :: fields)) := by
  rw [← List.cons_append, ← List.append_assoc]
  rfl

theorem fieldLexemes_cons_cons (key : Option Text) (v : Json) (f : Option Text × Json)
    (fields : List (Option Text × Json)) : fieldLexemes ((key, v) :: f :: fields) =
      .string key :: .colon :: (lexemes v ++ .comma :: fieldLexemes (f :: fields)) :=
  rfl

theorem lexemes?_renderItems {items : List Json}
    (ih : ∀ v ∈ items, ∀ rest, EndsNumber rest →
      lexemes? (render v ++ rest) = (lexemes? rest).map (lexemes v ++ ·)) (hrest : EndsNumber rest) :
    lexemes? (renderItems items ++ rest) = (lexemes? rest).map (itemLexemes items ++ ·) := by
  induction items with
  | nil => exact Option.map_id'.symm
  | cons v vs ihs =>
      obtain ⟨hv, hvs⟩ := List.forall_mem_cons.mp ih
      cases vs with
      | nil => exact hv rest hrest
      | cons w ws =>
          have hcomma : lexemes? (',' :: (renderItems (w :: ws) ++ rest)) = _ := lexemes?_of_readLexeme? rfl
          rw [renderItems_cons_cons, List.append_assoc, List.cons_append,
            hv _ (endsNumber_cons (by decide) _), hcomma, ihs hvs]
          simp [itemLexemes_cons_cons, Function.comp_def]

theorem lexemes?_renderKey (key : Option Text) (t : Text) :
    lexemes? (renderKey key ++ ':' :: t) = (lexemes? t).map (.string key :: .colon :: ·) := by
  have hcolon : lexemes? (':' :: t) = _ := lexemes?_of_readLexeme? rfl
  rw [lexemes?_of_readLexeme? (readLexeme?_renderKey key _), hcolon, Option.map_map]
  rfl

theorem lexemes?_renderFields {fields : List (Option Text × Json)}
    (ih : ∀ f ∈ fields, ∀ rest, EndsNumber rest →
      lexemes? (render f.2 ++ rest) = (lexemes? rest).map (lexemes f.2 ++ ·)) (hrest : EndsNumber rest) :
    lexemes? (renderFields fields ++ rest) = (lexemes? rest).map (fieldLexemes fields ++ ·) := by
  induction fields with
  | nil => exact Option.map_id'.symm
  | cons f fs ihs =>
      obtain ⟨key, v⟩ := f
      obtain ⟨hv, hfs⟩ := List.forall_mem_cons.mp ih
      cases fs with
      | nil =>
          rw [renderFields, List.append_assoc, List.cons_append, lexemes?_renderKey, hv rest hrest]
          simp [fieldLexemes, Function.comp_def]
      | cons g gs =>
          have hcomma : lexemes? (',' :: (renderFields (g :: gs) ++ rest)) = _ := lexemes?_of_readLexeme? rfl
          rw [renderFields_cons_cons, List.append_assoc, List.cons_append, List.append_assoc,
            List.cons_append, lexemes?_renderKey, hv _ (endsNumber_cons (by decide) _), hcomma, ihs hfs]
          simp [fieldLexemes_cons_cons, Function.comp_def]

theorem readLexeme?_number (hrest : EndsNumber rest) :
    readLexeme? (renderScalar .number ++ rest) = some (.number none, rest) := by
  have hzero : readUnsigned? ('0' :: rest) = some (some 0, rest) := by
    have hread := readUnsigned?_ofNat (n := 0) (by decide) hrest
    rwa [show Text.ofNat 0 = ['0'] by decide] at hread
  change (readNumber? ('-' :: '0' :: rest)).map _ = _
  rw [readNumber?, hzero]
  rfl

/-- What is written for a value has the lexical units of the value. -/
theorem lexemes?_render (h : v.InRange) (hrest : EndsNumber rest) :
    lexemes? (render v ++ rest) = (lexemes? rest).map (lexemes v ++ ·) := by
  induction h generalizing rest with
  | null => exact lexemes?_of_readLexeme? rfl
  | bool b => cases b <;> exact lexemes?_of_readLexeme? rfl
  | natural h => exact lexemes?_of_readLexeme? (readLexeme?_ofNat h hrest)
  | number => exact lexemes?_of_readLexeme? (readLexeme?_number hrest)
  | string t => exact lexemes?_of_readLexeme? (readLexeme?_quote t rest)
  | broken => exact lexemes?_of_readLexeme? (readLexeme?_broken rest)
  | @array items h ih =>
      have hopen : lexemes? ('[' :: (renderItems items ++ ']' :: rest)) = _ := lexemes?_of_readLexeme? rfl
      have hclose : lexemes? (']' :: rest) = _ := lexemes?_of_readLexeme? rfl
      rw [render, List.cons_append, List.cons_append, List.append_assoc, List.singleton_append, hopen,
        lexemes?_renderItems (fun v hv _ => ih v hv) (endsNumber_cons (by decide) rest), hclose]
      simp [lexemes, Function.comp_def]
  | @object fields h ih =>
      have hopen : lexemes? ('\x7b' :: (renderFields fields ++ '\x7d' :: rest)) = _ :=
        lexemes?_of_readLexeme? rfl
      have hclose : lexemes? ('\x7d' :: rest) = _ := lexemes?_of_readLexeme? rfl
      rw [render, List.cons_append, List.cons_append, List.append_assoc, List.singleton_append, hopen,
        lexemes?_renderFields (fun f hf _ => ih f hf) (endsNumber_cons (by decide) rest), hclose]
      simp [lexemes, Function.comp_def]

/-! ### Reading the units -/

namespace Reader

/-- Where a value has to come, its lexical units lead to the finished value. -/
def Finishes (v : Json) : Prop :=
  ∀ frames ls, run? ⟨frames, .value⟩ (lexemes v ++ ls) = run? ⟨frames, .after v⟩ ls

/-- The units of a value do not start with the end of an array, so a new array goes on with it. -/
theorem run?_firstItem (v : Json) (frames : List Frame) (ls : List Lexeme) :
    run? ⟨frames, .firstItem⟩ (lexemes v ++ ls) = run? ⟨.array [] :: frames, .value⟩ (lexemes v ++ ls) := by
  cases v <;> rfl

/-- The items of an array, with those before them. -/
theorem run?_itemLexemes {items : List Json} (ih : ∀ w ∈ v :: items, Finishes w) (before : List Json)
    (frames : List Frame) (ls : List Lexeme) :
    run? ⟨.array before :: frames, .value⟩ (itemLexemes (v :: items) ++ .closeBracket :: ls) =
      run? ⟨frames, .after (.array (before.reverse ++ v :: items))⟩ ls := by
  induction items generalizing v before with
  | nil =>
      rw [itemLexemes, ih v List.mem_cons_self, run?]
      simp [step?, continue?]
  | cons w items ihs =>
      obtain ⟨hv, hitems⟩ := List.forall_mem_cons.mp ih
      have hcomma : run? ⟨.array before :: frames, .after v⟩
          (.comma :: (itemLexemes (w :: items) ++ .closeBracket :: ls)) =
          run? ⟨.array (v :: before) :: frames, .value⟩ (itemLexemes (w :: items) ++ .closeBracket :: ls) :=
        rfl
      rw [itemLexemes_cons_cons, List.append_assoc, List.cons_append, hv, hcomma, ihs hitems]
      simp

/-- The fields of an object, with those before them. -/
theorem run?_fieldLexemes {f : Field} {fields : List Field} (ih : ∀ g ∈ f :: fields, Finishes g.2)
    (before : List Field) (frames : List Frame) (ls : List Lexeme) :
    run? ⟨frames, .key before⟩ (fieldLexemes (f :: fields) ++ .closeBrace :: ls) =
      run? ⟨frames, .after (.object (before.reverse ++ f :: fields))⟩ ls := by
  induction fields generalizing f before with
  | nil =>
      obtain ⟨key, v⟩ := f
      have hkey : run? ⟨frames, .key before⟩ (fieldLexemes [(key, v)] ++ .closeBrace :: ls) =
          run? ⟨.object before key :: frames, .value⟩ (lexemes v ++ .closeBrace :: ls) := rfl
      rw [hkey, ih _ List.mem_cons_self, run?]
      simp [step?, continue?]
  | cons g fields ihs =>
      obtain ⟨key, v⟩ := f
      obtain ⟨hv, hfields⟩ := List.forall_mem_cons.mp ih
      have hkey : run? ⟨frames, .key before⟩ (.string key :: .colon :: (lexemes v ++
          .comma :: (fieldLexemes (g :: fields) ++ .closeBrace :: ls))) =
          run? ⟨.object before key :: frames, .value⟩
            (lexemes v ++ .comma :: (fieldLexemes (g :: fields) ++ .closeBrace :: ls)) := rfl
      have hcomma : run? ⟨.object before key :: frames, .after v⟩
          (.comma :: (fieldLexemes (g :: fields) ++ .closeBrace :: ls)) =
          run? ⟨frames, .key ((key, v) :: before)⟩ (fieldLexemes (g :: fields) ++ .closeBrace :: ls) := rfl
      rw [fieldLexemes_cons_cons, List.cons_append, List.cons_append, List.append_assoc, List.cons_append,
        hkey, hv, hcomma, ihs hfields]
      simp

/-- The reader puts a value together from its lexical units. -/
theorem finishes (h : v.InRange) : Finishes v := by
  induction h with
  | null => exact fun _ _ => rfl
  | bool b => exact fun _ _ => rfl
  | natural h => exact fun _ _ => rfl
  | number => exact fun _ _ => rfl
  | string t => exact fun _ _ => rfl
  | broken => exact fun _ _ => rfl
  | @array items h ih =>
      intro frames ls
      cases items with
      | nil => rfl
      | cons v items =>
          have hopen : run? ⟨frames, .value⟩ (lexemes (.array (v :: items)) ++ ls) =
              run? ⟨frames, .firstItem⟩ (itemLexemes (v :: items) ++ [.closeBracket] ++ ls) := rfl
          obtain ⟨rest, hrest⟩ : ∃ rest, itemLexemes (v :: items) = lexemes v ++ rest := by
            cases items with
            | nil => exact ⟨[], (List.append_nil _).symm⟩
            | cons w items => exact ⟨_, itemLexemes_cons_cons v w items⟩
          rw [hopen, List.append_assoc, hrest, List.append_assoc, run?_firstItem, ← List.append_assoc,
            ← hrest]
          exact run?_itemLexemes ih [] frames ls
  | @object fields h ih =>
      intro frames ls
      cases fields with
      | nil => rfl
      | cons f fields =>
          -- The first key of a new object is read like a later one.
          have hopen : run? ⟨frames, .value⟩ (lexemes (.object (f :: fields)) ++ ls) =
              run? ⟨frames, .key []⟩ (fieldLexemes (f :: fields) ++ .closeBrace :: ls) := by
            obtain ⟨key, v⟩ := f
            rw [lexemes, List.cons_append, List.append_assoc]
            cases fields <;> rfl
          rw [hopen]
          exact run?_fieldLexemes ih [] frames ls

end Reader

/-- What is written for a value is read as the value. -/
theorem ofText?_render (h : v.InRange) : ofText? (render v) = some v := by
  have hunits : lexemes? (render v) = some (lexemes v) := by
    have hread := lexemes?_render h (nofun : EndsNumber [])
    rw [List.append_nil, show lexemes? [] = some [] by rw [lexemes?]; rfl] at hread
    simpa using hread
  have hrun : Reader.start.run? (lexemes v) = some ⟨[], .after v⟩ := by
    have hfinish := Reader.finishes h [] []
    rw [List.append_nil] at hfinish
    exact hfinish
  rw [ofText?, hunits, Option.bind_some, ofLexemes?, hrun]
  rfl

end AmpMarkup.Json
