import AmpMarkup.Css.AtRule
import AmpMarkup.Proofs.Text.Occurrence

/-! Names that are spelled with escapes. Each character of a name may stand for itself or be written as
a hexadecimal escape, and all spellings of a name are read as that name, so no spelling hides an
at-rule. -/

namespace AmpMarkup.Css

/-- The ways to write a character: as itself where `plain` allows it, or as a backslash, one to six
hexadecimal digits of its code point and a space. -/
inductive SpellsChar (plain : Char → Bool) (c : Char) : Text → Prop where
  | plain (h : plain c = true) : SpellsChar plain c [c]
  | escape {digits : Text} (hne : digits ≠ []) (hle : digits.length ≤ 6)
      (hhex : ∀ d ∈ digits, isHexDigit d = true) (hvalue : Text.numeral 16 digits = c.toNat) :
      SpellsChar plain c ('\\' :: digits ++ [' '])

/-- The ways to write the characters of a name behind its first one. -/
inductive SpellsRest : (name spelled : Text) → Prop where
  | nil : SpellsRest [] []
  | cons {c : Char} {name w spelled : Text} (hc : SpellsChar isNameChar c w) (h : SpellsRest name spelled) :
      SpellsRest (c :: name) (w ++ spelled)

/-- The ways to write a name. -/
inductive Spells : (name spelled : Text) → Prop where
  | mk {c : Char} {name w spelled : Text} (hc : SpellsChar isNameStart c w) (h : SpellsRest name spelled) :
      Spells (c :: name) (w ++ spelled)

/-- A name without the vendor's mark at its start, which stands between two hyphens. Other names have
none and stay. -/
inductive Unmarked : (name plain : Text) → Prop where
  | marked {vendor : Text} (plain : Text) (h : '-' ∉ vendor) : Unmarked ('-' :: vendor ++ '-' :: plain) plain
  | plain {name : Text} (h : ∀ vendor plain, name ≠ '-' :: vendor ++ '-' :: plain) : Unmarked name name

variable {c : Char} {name spelled w digits rest t : Text} {plain : Char → Bool}

/-! ### Escapes -/

theorem spanHex_append (hhex : ∀ d ∈ digits, isHexDigit d = true) (hrest : rest.head?.any isHexDigit = false)
    {limit : Nat} (hle : digits.length ≤ limit) : spanHex limit (digits ++ rest) = (digits, rest) := by
  induction digits generalizing limit with
  | nil =>
      cases limit with
      | zero => cases rest <;> rfl
      | succ limit =>
          cases rest with
          | nil => rfl
          | cons c rest => rw [List.nil_append, spanHex, if_neg (by simpa using hrest)]
  | cons d digits ih =>
      obtain ⟨hd, hhex⟩ := List.forall_mem_cons.mp hhex
      cases limit with
      | zero => exact absurd hle (Nat.not_succ_le_zero _)
      | succ limit => rw [List.cons_append, spanHex, if_pos hd, ih hhex (Nat.le_of_succ_le_succ hle)]

theorem scalarOrReplacement_toNat (hc : c ≠ '\x00') : scalarOrReplacement c.toNat = c := by
  have hne : c.toNat ≠ 0 := fun h => hc (Char.toNat_inj.mp h)
  have hvalid : c.toNat.isValidChar := c.valid
  rw [scalarOrReplacement, if_neg hne, scalar?, dif_pos hvalid]
  rfl

/-- An escape with a space behind its digits is read as its character, whatever comes next. -/
theorem readEscape_digits (hne : digits ≠ []) (hle : digits.length ≤ 6)
    (hhex : ∀ d ∈ digits, isHexDigit d = true) (hvalue : Text.numeral 16 digits = c.toNat)
    (hc : c ≠ '\x00') (rest : Text) : readEscape (digits ++ ' ' :: rest) = (c, rest) := by
  unfold readEscape
  rw [spanHex_append hhex (by rfl) hle]
  cases digits with
  | nil => exact absurd rfl hne
  | cons d digits =>
      dsimp only
      rw [hvalue, scalarOrReplacement_toNat hc]
      rfl

/-- A backslash before a hexadecimal digit is an escape. -/
theorem escapes_digits (hne : digits ≠ []) (hhex : ∀ d ∈ digits, isHexDigit d = true) (rest : Text) :
    escapes (digits ++ rest) = true := by
  cases digits with
  | nil => exact absurd rfl hne
  | cons d digits =>
      obtain ⟨hd, -⟩ := List.forall_mem_cons.mp hhex
      rw [escapes, bne_iff_ne]
      rintro ⟨⟩
      exact absurd hd (by decide)

/-! ### Names -/

theorem readName_of_spellsChar (hw : SpellsChar isNameChar c w) (hc : c ≠ '\x00') (t : Text) :
    readName (w ++ t) = (c :: (readName t).1, (readName t).2) := by
  cases hw with
  | plain h => rw [List.singleton_append, readName, if_pos h]
  | escape hne hle hhex hvalue =>
      rw [List.append_assoc, List.cons_append, List.singleton_append, readName, if_neg (by decide),
        if_pos ⟨rfl, escapes_digits hne hhex _⟩, readEscape_digits hne hle hhex hvalue hc]

/-- All spellings of a name are read as the name, up to a character that cannot belong to it. -/
theorem readName_of_spellsRest (hs : SpellsRest name spelled) (h0 : '\x00' ∉ name)
    (hrest : readName rest = ([], rest)) : readName (spelled ++ rest) = (name, rest) := by
  induction hs with
  | nil => exact hrest
  | cons hc _ ih =>
      rw [List.mem_cons, not_or] at h0
      rw [List.append_assoc, readName_of_spellsChar hc (Ne.symm h0.1), ih h0.2]

theorem spellsChar_of_isNameStart (h : SpellsChar isNameStart c w) : SpellsChar isNameChar c w := by
  cases h with
  | plain h => exact .plain (by simp [isNameChar, h])
  | escape hne hle hhex hvalue => exact .escape hne hle hhex hvalue

theorem startsName_cons_of_isNameStart (h : isNameStart c = true) (t : Text) :
    startsName (c :: t) = true := by
  unfold startsName
  split <;> simp_all [isNameStart]

theorem startsName_of_spells (hs : Spells name spelled) (rest : Text) :
    startsName (spelled ++ rest) = true := by
  cases hs with
  | mk hc _ =>
      cases hc with
      | plain h => exact startsName_cons_of_isNameStart h _
      | escape hne _ hhex _ =>
          rw [List.append_assoc, List.append_assoc]
          exact escapes_digits hne hhex _

theorem readName_of_spells (hs : Spells name spelled) (h0 : '\x00' ∉ name)
    (hrest : readName rest = ([], rest)) : readName (spelled ++ rest) = (name, rest) := by
  cases hs with
  | mk hc h => exact readName_of_spellsRest (.cons (spellsChar_of_isNameStart hc) h) h0 hrest

/-! ### At-rules -/

theorem unmarked_stripVendorMark (name : Text) : Unmarked name (stripVendorMark name) := by
  unfold stripVendorMark
  split
  · next rest =>
      split
      · next vendor plain h =>
          obtain ⟨rfl, hv⟩ := Text.splitOnce?_eq_some h
          exact .marked plain hv
      · next h =>
          refine .plain fun vendor plain he => Text.notMem_of_splitOnce?_eq_none h ?_
          rw [(List.cons.inj he).2]
          exact List.mem_append_right _ List.mem_cons_self
  · next hne => exact .plain fun vendor plain he => hne _ he

/-- A keyword of an at-rule is read in every spelling of its name. -/
theorem readToken_of_spells (hs : Spells name spelled) (h0 : '\x00' ∉ name)
    (hrest : readName rest = ([], rest)) :
    readToken '@' (spelled ++ rest) = (.atKeyword name, rest) := by
  have hstart : startsName (spelled ++ rest) = true := startsName_of_spells hs rest
  have hn : startsNumber ('@' :: (spelled ++ rest)) = false := rfl
  have hi : startsName ('@' :: (spelled ++ rest)) = false := rfl
  rw [readToken, if_neg (by decide), if_neg (by decide), if_neg (by simp [hn]), if_neg (by simp),
    if_neg (by simp [hi]), if_neg (by simp), if_pos ⟨rfl, hstart⟩, readName_of_spells hs h0 hrest]

/-- Whatever the spelling of its name, an at-rule is seen, in lower case and without a vendor's mark. -/
theorem atRules_of_spells (hs : Spells name spelled) (h0 : '\x00' ∉ name) :
    ∃ plain, Unmarked name.lower plain ∧
      atRules ('@' :: spelled ++ ['\x7b', '\x7d']) = [⟨name.lower, plain⟩] := by
  refine ⟨_, unmarked_stripVendorMark name.lower, ?_⟩
  have hc : dropComments ('@' :: spelled ++ ['\x7b', '\x7d']) = '@' :: (spelled ++ ['\x7b', '\x7d']) := by
    rw [List.cons_append, dropComments]
    simp
  have hrest : readName ['\x7b', '\x7d'] = ([], ['\x7b', '\x7d']) := by decide +kernel
  have hbraces : Token.ofText ['\x7b', '\x7d'] = [.leftBrace, .rightBrace, .endOfFile] := by
    decide +kernel
  rw [atRules, Token.ofText_of_dropComments hc, readToken_of_spells hs h0 hrest, hbraces]
  rfl

/-- A digit behind an escape, leading zeros up to six digits, a character outside ASCII, and a brace that
only an escape can bring into a name. -/
theorem atRules_of_spells_vendor :
    Spells "-o-Ké\x7d2" "\\2d o-\\00004B é\\7D 2" ∧ '\x00' ∉ ("-o-Ké\x7d2" : String).toList ∧
      ∃ plain, Unmarked (Text.lower "-o-Ké\x7d2") plain ∧
        atRules ('@' :: ("\\2d o-\\00004B é\\7D 2" : String).toList ++ ['\x7b', '\x7d']) =
          [⟨Text.lower "-o-Ké\x7d2", plain⟩] := by
  have hname : ("-o-Ké\x7d2" : String).toList = ['-', 'o', '-', 'K', 'é', '\x7d', '2'] := by decide
  have hspelled : ("\\2d o-\\00004B é\\7D 2" : String).toList =
      '\\' :: ['2', 'd'] ++ [' '] ++ (['o'] ++ (['-'] ++
        ('\\' :: ['0', '0', '0', '0', '4', 'B'] ++ [' '] ++ (['é'] ++
          ('\\' :: ['7', 'D'] ++ [' '] ++ (['2'] ++ [])))))) := by
    decide
  have hs : Spells "-o-Ké\x7d2" "\\2d o-\\00004B é\\7D 2" := by
    rw [hname, hspelled]
    exact .mk (.escape (by decide) (by decide) (List.all_eq_true.mp (by decide)) (by decide)) <|
      .cons (.plain (by decide)) <| .cons (.plain (by decide)) <|
      .cons (.escape (by decide) (by decide) (List.all_eq_true.mp (by decide)) (by decide)) <|
      .cons (.plain (by decide)) <|
      .cons (.escape (by decide) (by decide) (List.all_eq_true.mp (by decide)) (by decide)) <|
      .cons (.plain (by decide)) .nil
  exact ⟨hs, by decide, atRules_of_spells hs (by decide)⟩

end AmpMarkup.Css
