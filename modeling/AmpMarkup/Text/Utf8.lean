import AmpMarkup.Text.Basic

/-! Texts as bytes in UTF-8. An ASCII character is one byte with its own number; the bytes of the
other characters are 128 or more. -/

namespace AmpMarkup.Text

/-- The bytes of the UTF-8 form. -/
def utf8 (t : Text) : List UInt8 :=
  t.flatMap String.utf8EncodeChar

/-- The text whose UTF-8 form the bytes are. -/
def ofUtf8? (bytes : List UInt8) : Option Text :=
  (String.fromUTF8? ⟨bytes.toArray⟩).map String.toList

theorem utf8_cons (c : Char) (t : Text) : utf8 (c :: t) = String.utf8EncodeChar c ++ utf8 t :=
  List.flatMap_cons

theorem utf8_ne_nil {t : Text} (h : t ≠ []) : utf8 t ≠ [] := by
  cases t with
  | nil => exact absurd rfl h
  | cons c t =>
      rw [utf8_cons]
      exact List.append_ne_nil_of_left_ne_nil String.utf8EncodeChar_ne_nil _

theorem utf8_append (t u : Text) : utf8 (t ++ u) = utf8 t ++ utf8 u :=
  List.flatMap_append

theorem length_utf8 (t : Text) : t.utf8.length = t.utf8Length := by
  induction t with
  | nil => rfl
  | cons c t ih =>
      rw [utf8_cons, List.length_append, String.length_utf8EncodeChar, ih, utf8Length]

theorem utf8Length_append (t u : Text) : utf8Length (t ++ u) = utf8Length t + utf8Length u := by
  rw [← length_utf8, utf8_append, List.length_append, length_utf8, length_utf8]

theorem utf8Length_eq_zero_iff {t : Text} : utf8Length t = 0 ↔ t = [] := by
  cases t with
  | nil => simp [utf8Length]
  | cons c t =>
      have hc := c.utf8Size_pos
      simp only [utf8Length, reduceCtorEq, iff_false]
      omega

theorem toByteArray_ofList (t : Text) : (String.ofList t).toByteArray = ⟨t.utf8.toArray⟩ := by
  rw [String.toByteArray_ofList, List.utf8Encode]
  apply ByteArray.ext
  simp [utf8]

theorem ofUtf8?_utf8 (t : Text) : ofUtf8? t.utf8 = some t := by
  rw [ofUtf8?, ← toByteArray_ofList, String.fromUTF8?, dif_pos (String.ofList t).isValidUTF8]
  exact congrArg some String.toList_ofList

/-! ### Bytes as characters -/

theorem toNat_ofUInt8 (b : UInt8) : (Char.ofUInt8 b).toNat = b.toNat :=
  UInt8.toNat_toUInt32 b

theorem ofUInt8_toUInt8 {c : Char} (h : c.toNat < 128) : Char.ofUInt8 c.toUInt8 = c := by
  apply Char.ext
  apply UInt32.toNat_inj.mp
  change (c.val.toUInt8.toUInt32).toNat = c.toNat
  rw [UInt8.toNat_toUInt32, UInt32.toNat_toUInt8]
  exact Nat.mod_eq_of_lt (Nat.lt_trans h (by decide))

theorem utf8Size_ascii {c : Char} (h : c.toNat < 128) : c.utf8Size = 1 :=
  Char.utf8Size_eq_one_iff.mpr (Nat.le_of_lt_succ h)

theorem utf8EncodeChar_ascii {c : Char} (h : c.toNat < 128) :
    String.utf8EncodeChar c = [c.toUInt8] :=
  String.utf8EncodeChar_eq_singleton (utf8Size_ascii h)

theorem le_of_mem_utf8EncodeChar {c : Char} {b : UInt8} (h : 128 ≤ c.toNat)
    (hb : b ∈ String.utf8EncodeChar c) : 128 ≤ b.toNat := by
  have hmark : ∀ x y : UInt8, 128 ≤ y.toNat → 128 ≤ (x ||| y).toNat := by
    intro x y hy
    rw [UInt8.toNat_or]
    exact Nat.le_trans hy Nat.right_le_or
  rcases c.utf8Size_eq with hs | hs | hs | hs
  · exact absurd h (Nat.not_le.mpr (Nat.lt_succ_of_le (Char.utf8Size_eq_one_iff.mp hs)))
  · rw [String.utf8EncodeChar_eq_cons_cons hs] at hb
    simp only [List.mem_cons, List.not_mem_nil, or_false] at hb
    rcases hb with rfl | rfl <;> exact hmark _ _ (by decide)
  · rw [String.utf8EncodeChar_eq_cons_cons_cons hs] at hb
    simp only [List.mem_cons, List.not_mem_nil, or_false] at hb
    rcases hb with rfl | rfl | rfl <;> exact hmark _ _ (by decide)
  · rw [String.utf8EncodeChar_eq_cons_cons_cons_cons hs] at hb
    simp only [List.mem_cons, List.not_mem_nil, or_false] at hb
    rcases hb with rfl | rfl | rfl | rfl <;> exact hmark _ _ (by decide)

theorem exists_utf8_cons (c : Char) (t : Text) :
    ∃ b bs, utf8 (c :: t) = b :: bs ∧ b ∈ String.utf8EncodeChar c := by
  obtain ⟨b, bs, hbs⟩ := List.exists_cons_of_ne_nil (String.utf8EncodeChar_ne_nil (c := c))
  exact ⟨b, bs ++ utf8 t, by rw [utf8_cons, hbs, List.cons_append], hbs ▸ List.mem_cons_self⟩

/-- Whether a class tells no two characters outside ASCII apart. -/
def SeesAscii (p : Char → Bool) : Prop :=
  ∀ c d : Char, 128 ≤ c.toNat → 128 ≤ d.toNat → p c = p d

theorem seesAscii_of_ascii {p : Char → Bool} (h : ∀ c, p c = true → c.toNat < 128) :
    SeesAscii p := by
  have hp : ∀ c : Char, 128 ≤ c.toNat → p c = false := fun c hc =>
    Bool.eq_false_iff.2 fun hpc => Nat.not_lt.2 hc (h c hpc)
  exact fun c d hc hd => (hp c hc).trans (hp d hd).symm

/-- What such a class says of a character it says of each of its bytes. -/
theorem SeesAscii.eq_of_mem {p : Char → Bool} (hp : SeesAscii p) {c : Char} {b : UInt8}
    (hb : b ∈ String.utf8EncodeChar c) : p (Char.ofUInt8 b) = p c := by
  by_cases hc : c.toNat < 128
  · rw [utf8EncodeChar_ascii hc, List.mem_singleton] at hb
    rw [hb, ofUInt8_toUInt8 hc]
  · have hle := Nat.le_of_not_lt hc
    exact hp _ _ (by rw [toNat_ofUInt8]; exact le_of_mem_utf8EncodeChar hle hb) hle

theorem takeWhile_utf8 {p : Char → Bool} (hp : SeesAscii p) (t : Text) :
    (utf8 t).takeWhile (fun b => p (Char.ofUInt8 b)) = utf8 (t.takeWhile p) := by
  induction t with
  | nil => rfl
  | cons c t ih =>
      by_cases hc : p c = true
      · rw [utf8_cons, List.takeWhile_append_of_pos fun b hb => (hp.eq_of_mem hb).trans hc, ih,
          List.takeWhile_cons_of_pos hc, utf8_cons]
      · obtain ⟨b, bs, hbs, hb⟩ := exists_utf8_cons c t
        rw [hbs, List.takeWhile_cons_of_neg (by rwa [hp.eq_of_mem hb]),
          List.takeWhile_cons_of_neg hc]
        rfl

theorem dropWhile_utf8 {p : Char → Bool} (hp : SeesAscii p) (t : Text) :
    (utf8 t).dropWhile (fun b => p (Char.ofUInt8 b)) = utf8 (t.dropWhile p) := by
  refine (List.append_right_inj (utf8 (t.takeWhile p))).1 ?_
  conv => lhs; rw [← takeWhile_utf8 hp]
  rw [List.takeWhile_append_dropWhile, ← utf8_append, List.takeWhile_append_dropWhile]

theorem head?_any_utf8 {p : Char → Bool} (hp : SeesAscii p) (t : Text) :
    (utf8 t).head?.any (fun b => p (Char.ofUInt8 b)) = t.head?.any p := by
  cases t with
  | nil => rfl
  | cons c t =>
      obtain ⟨b, bs, hbs, hb⟩ := exists_utf8_cons c t
      rw [hbs]
      exact hp.eq_of_mem hb

theorem toUInt8_ofUInt8 (b : UInt8) : (Char.ofUInt8 b).toUInt8 = b :=
  UInt8.toUInt8_toUInt32 b

theorem mem_utf8EncodeChar_iff {b : UInt8} (hb : b.toNat < 128) (c : Char) :
    b ∈ String.utf8EncodeChar c ↔ c = Char.ofUInt8 b := by
  by_cases hc : c.toNat < 128
  · rw [utf8EncodeChar_ascii hc, List.mem_singleton]
    constructor
    · rintro rfl
      exact (ofUInt8_toUInt8 hc).symm
    · rintro rfl
      exact (toUInt8_ofUInt8 b).symm
  · have hle := Nat.le_of_not_lt hc
    refine iff_of_false (fun hm => ?_) ?_
    · exact Nat.lt_irrefl _ (Nat.lt_of_lt_of_le hb (le_of_mem_utf8EncodeChar hle hm))
    · rintro rfl
      exact hc (by rwa [toNat_ofUInt8])

/-- An ASCII byte stands where its character stands. -/
theorem mem_utf8_iff {b : UInt8} (hb : b.toNat < 128) (t : Text) :
    b ∈ utf8 t ↔ Char.ofUInt8 b ∈ t := by
  simp [utf8, List.mem_flatMap, mem_utf8EncodeChar_iff hb]

/-! ### Slices -/

/-- The text before and the text behind its first `n` bytes, unless these end inside a character. -/
def splitAtByte? : Nat → Text → Option (Text × Text)
  | 0, t => some ([], t)
  | _ + 1, [] => none
  | n + 1, c :: t =>
    if c.utf8Size ≤ n + 1 then
      (splitAtByte? (n + 1 - c.utf8Size) t).map fun (u, v) => (c :: u, v)
    else none

/-- The text between two offsets of bytes. There is none if an offset is inside a character or behind
the end, or if the first is behind the second. -/
def slice? (t : Text) (start stop : Nat) : Option Text :=
  if start ≤ stop then
    (splitAtByte? stop t).bind fun (u, _) => (splitAtByte? start u).map Prod.snd
  else none

/-- Whether an offset is that of a character or of the end. -/
def IsBoundary (t : Text) (n : Nat) : Prop :=
  String.Pos.Raw.IsValid (String.ofList t) ⟨n⟩

theorem splitAtByte?_eq_some_iff {n : Nat} {t u v : Text} :
    splitAtByte? n t = some (u, v) ↔ t = u ++ v ∧ utf8Length u = n := by
  fun_induction splitAtByte? n t generalizing u v with
  | case1 t =>
      rw [utf8Length_eq_zero_iff, Option.some.injEq, Prod.mk.injEq]
      constructor
      · rintro ⟨rfl, rfl⟩
        exact ⟨rfl, rfl⟩
      · rintro ⟨rfl, rfl⟩
        exact ⟨rfl, rfl⟩
  | case2 n =>
      simp only [reduceCtorEq, false_iff]
      rintro ⟨h, hn⟩
      obtain ⟨rfl, -⟩ := List.nil_eq_append_iff.1 h
      cases hn
  | case3 n c t hc ih =>
      constructor
      · intro h
        obtain ⟨⟨u, v⟩, hr, he⟩ := Option.map_eq_some_iff.1 h
        obtain ⟨rfl, rfl⟩ := Prod.mk.inj he
        obtain ⟨rfl, hn⟩ := ih.1 hr
        exact ⟨rfl, by rw [utf8Length, hn]; omega⟩
      · rintro ⟨ht, hn⟩
        cases u with
        | nil => cases hn
        | cons d u =>
            obtain ⟨rfl, rfl⟩ := List.cons.inj ht
            rw [utf8Length] at hn
            rw [ih.2 ⟨rfl, by omega⟩]
            rfl
  | case4 n c t hc =>
      simp only [reduceCtorEq, false_iff]
      rintro ⟨ht, hn⟩
      cases u with
      | nil => cases hn
      | cons d u =>
          obtain ⟨rfl, rfl⟩ := List.cons.inj ht
          rw [utf8Length] at hn
          omega

theorem isBoundary_iff {t : Text} {n : Nat} :
    IsBoundary t n ↔ ∃ u v, t = u ++ v ∧ utf8Length u = n := by
  have hsize : ∀ u : Text, (String.ofList u).utf8ByteSize = utf8Length u := fun u => by
    rw [← length_utf8, String.utf8ByteSize, toByteArray_ofList]
    exact List.size_toArray
  rw [IsBoundary, String.Pos.Raw.isValid_ofList]
  simp only [hsize]
  constructor
  · rintro ⟨i, hi⟩
    exact ⟨t.take i, t.drop i, (List.take_append_drop i t).symm, hi.symm⟩
  · rintro ⟨u, v, rfl, rfl⟩
    exact ⟨u.length, by rw [List.take_left]⟩

theorem isBoundary_append {t u : Text} (v : Text) (ht : t = u ++ v) : IsBoundary t (utf8Length u) :=
  isBoundary_iff.2 ⟨u, v, ht, rfl⟩

/-- An offset between characters of a part is one of the text. -/
theorem IsBoundary.add {t u : Text} {n : Nat} (h : IsBoundary u n) (before behind : Text)
    (ht : t = before ++ (u ++ behind)) : IsBoundary t (utf8Length before + n) := by
  obtain ⟨v, w, rfl, rfl⟩ := isBoundary_iff.1 h
  rw [← utf8Length_append]
  exact isBoundary_append (w ++ behind) (by rw [ht, List.append_assoc, List.append_assoc])

theorem slice?_eq_some_iff {t u : Text} {start stop : Nat} :
    slice? t start stop = some u ↔
      ∃ before behind, t = before ++ (u ++ behind) ∧ utf8Length before = start ∧
        start + utf8Length u = stop := by
  rw [slice?]
  constructor
  · intro h
    split at h
    · obtain ⟨⟨w, behind⟩, hw, h⟩ := Option.bind_eq_some_iff.1 h
      obtain ⟨⟨before, u⟩, hu, rfl⟩ := Option.map_eq_some_iff.1 h
      obtain ⟨rfl, hstop⟩ := splitAtByte?_eq_some_iff.1 hw
      obtain ⟨rfl, hstart⟩ := splitAtByte?_eq_some_iff.1 hu
      rw [utf8Length_append, hstart] at hstop
      exact ⟨before, behind, List.append_assoc .., hstart, hstop⟩
    · cases h
  · rintro ⟨before, behind, rfl, rfl, rfl⟩
    have hw : splitAtByte? (utf8Length before + utf8Length u) (before ++ (u ++ behind)) =
        some (before ++ u, behind) :=
      splitAtByte?_eq_some_iff.2 ⟨(List.append_assoc ..).symm, utf8Length_append ..⟩
    have hu : splitAtByte? (utf8Length before) (before ++ u) = some (before, u) :=
      splitAtByte?_eq_some_iff.2 ⟨rfl, rfl⟩
    rw [if_pos (Nat.le_add_right ..), hw, Option.bind_some]
    dsimp only
    rw [hu, Option.map_some]

theorem slice?_append {t : Text} (before u behind : Text) (ht : t = before ++ (u ++ behind)) :
    slice? t (utf8Length before) (utf8Length before + utf8Length u) = some u :=
  slice?_eq_some_iff.2 ⟨before, behind, ht, rfl, rfl⟩

theorem slice?_front (u behind : Text) : slice? (u ++ behind) 0 (utf8Length u) = some u :=
  slice?_eq_some_iff.2 ⟨[], behind, rfl, rfl, Nat.zero_add _⟩

theorem slice?_back (before u : Text) :
    slice? (before ++ u) (utf8Length before) (utf8Length (before ++ u)) = some u :=
  slice?_eq_some_iff.2 ⟨before, [], by rw [List.append_nil], rfl, (utf8Length_append ..).symm⟩

/-- A text has the slices that start and stop between its characters, in this order. -/
theorem isSome_slice?_iff {t : Text} {start stop : Nat} :
    (slice? t start stop).isSome ↔ start ≤ stop ∧ IsBoundary t start ∧ IsBoundary t stop := by
  rw [Option.isSome_iff_exists, isBoundary_iff, isBoundary_iff]
  constructor
  · rintro ⟨m, hm⟩
    obtain ⟨u, v, rfl, rfl, rfl⟩ := slice?_eq_some_iff.1 hm
    exact ⟨Nat.le_add_right .., ⟨u, _, rfl, rfl⟩,
      ⟨u ++ m, v, (List.append_assoc ..).symm, utf8Length_append ..⟩⟩
  · rintro ⟨hle, ⟨u, v, rfl, rfl⟩, u', v', ht, rfl⟩
    -- Of two texts at the front one starts with the other, and the one with fewer bytes is shorter.
    obtain ⟨m, rfl⟩ : u <+: u' := by
      rcases List.prefix_or_prefix_of_prefix ⟨v, rfl⟩ ⟨v', ht.symm⟩ with h | ⟨m, rfl⟩
      · exact h
      · rw [utf8Length_append] at hle
        obtain rfl : m = [] := utf8Length_eq_zero_iff.1 (by omega)
        exact ⟨[], by rw [List.append_nil, List.append_nil]⟩
    refine ⟨m, slice?_eq_some_iff.2 ⟨u, v', ?_, rfl, (utf8Length_append ..).symm⟩⟩
    rw [ht, List.append_assoc]

end AmpMarkup.Text
