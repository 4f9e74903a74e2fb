import AmpMarkup.Proofs.Source.AttributeSpan

/-! The form of the stand-ins of a registry. A substitute consists of letters, digits and
underscores, a mark of a binding of those and hyphens, and neither overlaps another one of its
kind. -/

namespace AmpMarkup.Source

/-- The digits of a fingerprint: decimal digits and the letters `a` to `f`. -/
def isLowerHex (c : Char) : Bool :=
  c.isDigit || ('a' ≤ c && c ≤ 'f')

/-- The text that a digest contributes to a stand-in. -/
structure IsFingerprint (t : Text) : Prop where
  length_eq : t.length = 32
  digits : ∀ c ∈ t, isLowerHex c = true

/-- The form of a substitute. -/
def IsSubstitute (w : Text) : Prop :=
  ∃ f, IsFingerprint f ∧ w = substituteMark ++ f

/-- The form of a mark of a binding. -/
def IsBindingMark (w : Text) : Prop :=
  ∃ f, IsFingerprint f ∧ w = bindingMarkStart ++ f ++ ['-']

/-- The form of a registry. -/
structure Registry.WellFormed (r : Registry) : Prop where
  delimiter_eq : r.placeholders.map Placeholder.delimiter = delimiters
  isSubstitute : ∀ p ∈ r.placeholders, IsSubstitute p.substitute
  isBindingMark : IsBindingMark r.bindingMark

/-! ### Fingerprints -/

theorem hexDigit_isLowerHex {n : Nat} (h : n < 16) : isLowerHex (hexDigit n) = true := by
  revert n
  decide

theorem hex_length (width n : Nat) : (Text.hex width n).length = width := by
  induction width generalizing n with
  | zero => rfl
  | succ width ih => simp [Text.hex, ih]

theorem isLowerHex_of_mem_hex {width n : Nat} {c : Char} (h : c ∈ Text.hex width n) :
    isLowerHex c = true := by
  induction width generalizing n with
  | zero => simp [Text.hex] at h
  | succ width ih =>
      rcases List.mem_append.1 h with h | h
      · exact ih h
      · rw [List.mem_singleton.1 h]
        exact hexDigit_isLowerHex (Nat.mod_lt _ (by decide))

theorem sha256_length (message : List UInt8) : (Digest.sha256 message).length = 8 :=
  rfl

theorem hexDigest_length (t : Text) : (Digest.hexDigest t).length = 64 := by
  have h : ∀ words : List UInt32,
      (words.flatMap fun word => Text.hex 8 word.toNat).length = 8 * words.length := by
    intro words
    induction words with
    | nil => rfl
    | cons word words ih =>
        rw [List.flatMap_cons, List.length_append, ih, hex_length, List.length_cons]
        omega
  rw [Digest.hexDigest, h, sha256_length]

theorem fingerprint_isFingerprint (salt text : Text) :
    IsFingerprint (Registry.fingerprint salt text) := by
  refine ⟨by rw [Registry.fingerprint, List.length_take, hexDigest_length]; rfl, ?_⟩
  intro c hc
  obtain ⟨word, -, hw⟩ := List.mem_flatMap.1 (List.mem_of_mem_take hc)
  exact isLowerHex_of_mem_hex hw

/-- Every salt gives a registry of this form. -/
theorem Registry.ofSalt_wellFormed (salt : Text) : (Registry.ofSalt salt).WellFormed where
  delimiter_eq := by
    rw [Registry.ofSalt, List.map_map]
    exact List.map_id _
  isSubstitute p hp := by
    obtain ⟨d, -, rfl⟩ := List.mem_map.1 hp
    exact ⟨_, fingerprint_isFingerprint salt d, rfl⟩
  isBindingMark := ⟨_, fingerprint_isFingerprint salt [], rfl⟩

/-- The registry of a salt, from the fingerprints of the salt alone and with each delimiter. -/
theorem Registry.ofSalt_eq {salt mark : Text} {prints : List Text}
    (h : ([] :: delimiters).map (Registry.fingerprint salt) = mark :: prints) :
    Registry.ofSalt salt = ⟨salt, bindingMarkStart ++ mark ++ "-",
      delimiters.zipWith (fun d print => ⟨d, substituteMark ++ print⟩) prints⟩ := by
  rw [List.map_cons] at h
  obtain ⟨rfl, rfl⟩ := List.cons.inj h
  rw [List.zipWith_map_right, List.zipWith_self]
  rfl

theorem fingerprints_a : ([] :: delimiters).map (Registry.fingerprint "a".toList) =
    ["ca978112ca1bbdcafac231b39a23dc4d", "1c48ad97c9af553cc31dca29066183f2",
      "84608cfe1b976b4fdd428e60b8dcaeed", "3ed8578c6a678a7556c1a186d05719bf",
      "118f3891646709802c0a609a9f3c8384", "25a0bac98e5cc95d6bb2c7c10f09ef8d",
      "ecb3de925ea21d9a92baed94277f7c73", "8660fb5a0a326fa48e387624b8cae661"].map String.toList := by
  decide +kernel

theorem fingerprints_b : ([] :: delimiters).map (Registry.fingerprint "b".toList) =
    ["3e23e8160039594a33894f6564e1b134", "0ee83aea5c48e85605fc675e54e442dd",
      "85f18b757ff09d251751b90adddcc3c0", "448f8426b154c92eb360b10aef598725",
      "90befea14263a6ee4f0f9cf462908c11", "fa792b9b172f582a1f4114b0aef77297",
      "595f49dd849f5911d8b77331423d4b67", "cb93b2a0d321aeca87d6647b1708f80e"].map String.toList := by
  decide +kernel

/-! ### The characters of stand-ins -/

theorem isNameChar_of_isLowerHex {c : Char} (h : isLowerHex c = true) : isNameChar c = true := by
  have hn : c.isAlphanum = true := by
    unfold isLowerHex at h
    unfold Char.isAlphanum Char.isAlpha Char.isLower
    simp only [Bool.or_eq_true, Bool.and_eq_true, decide_eq_true_eq, ge_iff_le] at h ⊢
    rcases h with h | ⟨h1, h2⟩
    · exact .inr h
    · exact .inl (.inr ⟨h1, Nat.le_trans h2 (by decide)⟩)
  rw [isNameChar, hn, Bool.true_or, Bool.true_or]

theorem isLowerHex_ne {c d : Char} (h : isLowerHex c = true) (hd : isLowerHex d = false) :
    c ≠ d := by
  rintro rfl
  rw [h] at hd
  cases hd

namespace IsSubstitute

variable {v w w' : Text} {c : Char}

theorem length_eq (h : IsSubstitute w) : w.length = 46 := by
  obtain ⟨f, hf, rfl⟩ := h
  rw [List.length_append, hf.length_eq]
  rfl

theorem eq_cons (h : IsSubstitute w) : ∃ t : Text, w = '_' :: t := by
  obtain ⟨f, -, rfl⟩ := h
  exact ⟨_, rfl⟩

theorem startsMarked (h : IsSubstitute w) : substituteMark <+: w := by
  obtain ⟨f, -, rfl⟩ := h
  exact List.prefix_append ..

theorem ne_nil (h : IsSubstitute w) : w ≠ [] :=
  List.ne_nil_of_length_eq_add_one h.length_eq

theorem isNameChar_of_mem (h : IsSubstitute w) (hc : c ∈ w) : isNameChar c = true ∧ c ≠ '-' := by
  obtain ⟨f, hf, rfl⟩ := h
  rcases List.mem_append.1 hc with hc | hc
  · have hmark : substituteMark.all (fun c => isNameChar c && c != '-') = true := by decide
    simpa using List.all_eq_true.1 hmark c hc
  · exact ⟨isNameChar_of_isLowerHex (hf.digits c hc), isLowerHex_ne (hf.digits c hc) (by decide)⟩

theorem not_mem (h : IsSubstitute w) (hc : isNameChar c = false) : c ∉ w := fun hm => by
  rw [(h.isNameChar_of_mem hm).1] at hc
  cases hc

theorem not_mem_hyphen (h : IsSubstitute w) : '-' ∉ w :=
  fun hm => (h.isNameChar_of_mem hm).2 rfl

/-- The underscores of the mark after its first character. -/
theorem drop_substituteMark : ∀ k < 14, 0 < k → (substituteMark.drop k).head? ≠ some '_' ∨
    substituteMark.drop k = "_mustache_".toList ∨ substituteMark.drop k = ['_'] := by
  decide

/-- A proper part at the end of a substitute does not start a substitute: the start of a substitute
has an underscore that is followed by `am`, and this does not occur further on. -/
theorem not_prefix_of_suffix (h : IsSubstitute w) (h' : IsSubstitute w') (hs : v <:+ w)
    (hv : v ≠ []) (hl : v.length < 46) : ¬ v <+: w' := by
  intro hp
  have hd := List.suffix_iff_eq_drop.1 hs
  rw [h.length_eq] at hd
  obtain ⟨f, hf, rfl⟩ := h
  obtain ⟨f', -, rfl⟩ := h'
  have hpos : 0 < v.length := List.length_pos_iff.2 hv
  generalize hk : 46 - v.length = k at hd
  have hm : ∀ c ∈ f, c ≠ '_' ∧ c ≠ 'm' := fun c hc =>
    ⟨isLowerHex_ne (hf.digits c hc) (by decide), isLowerHex_ne (hf.digits c hc) (by decide)⟩
  have hstart : substituteMark ++ f' = '_' :: 'a' :: 'm' :: ("p_mustache_".toList ++ f') := rfl
  rw [hstart] at hp
  rw [List.drop_append] at hd
  -- The part starts inside the mark, or among the digits behind it.
  by_cases hlt : k < 14
  · have h0 : k - substituteMark.length = 0 := Nat.sub_eq_zero_of_le (Nat.le_of_lt hlt)
    rw [h0, List.drop_zero] at hd
    rcases drop_substituteMark k hlt (by omega) with hc | hc | hc
    · cases hr : substituteMark.drop k with
      | nil => exact absurd (List.drop_eq_nil_iff.1 hr) (Nat.not_le_of_lt hlt)
      | cons c m =>
          rw [hr, List.cons_append] at hd
          rw [hr] at hc
          rw [hd, List.cons_prefix_cons] at hp
          exact hc (congrArg some hp.1)
    · rw [hc] at hd
      rw [hd] at hp
      have := (List.cons_prefix_cons.1 (List.cons_prefix_cons.1 hp).2).1
      exact absurd this (by decide)
    · rw [hc] at hd
      rw [hd] at hp
      match f, hf.length_eq with
      | d :: e :: f, _ =>
          have he := (hm e (by simp)).2
          have := (List.cons_prefix_cons.1 (List.cons_prefix_cons.1
            (List.cons_prefix_cons.1 hp).2).2).1
          exact he this
  · have hnil : substituteMark.drop k = [] := List.drop_eq_nil_of_le (Nat.le_of_not_lt hlt)
    rw [hnil, List.nil_append] at hd
    cases v with
    | nil => exact hv rfl
    | cons c v =>
        have hc : c ∈ f := List.mem_of_mem_drop (hd ▸ List.mem_cons_self)
        exact (hm c hc).1 (List.cons_prefix_cons.1 hp).1

/-- A substitute does not start at the end of another one. -/
theorem not_prefix_append (hw : IsSubstitute w) (hw' : IsSubstitute w') (hne : w ≠ w')
    (hv : v ≠ []) (hs : v <:+ w') (t : Text) : ¬ w <+: v ++ t := by
  intro hp
  have hle := hs.length_le
  rw [hw'.length_eq] at hle
  have hpre : v <+: w := Text.prefix_of_append_prefix hp (by rw [hw.length_eq]; exact hle)
  rcases Nat.lt_or_eq_of_le hle with hlt | heq
  · exact hw'.not_prefix_of_suffix hw hs hv hlt hpre
  · have hvw := hpre.eq_of_length (heq.trans hw.length_eq.symm)
    have hvw' := hs.eq_of_length (heq.trans hw'.length_eq.symm)
    exact hne (hvw.symm.trans hvw')

end IsSubstitute

namespace IsBindingMark

variable {w : Text} {c : Char}

theorem eq_append_hyphen (h : IsBindingMark w) : ∃ u : Text, u.length = 44 ∧ w = u ++ ['-'] := by
  obtain ⟨f, hf, rfl⟩ := h
  exact ⟨bindingMarkStart ++ f, by rw [List.length_append, hf.length_eq]; rfl, rfl⟩

theorem eq_cons (h : IsBindingMark w) : ∃ t : Text, w = 'a' :: t := by
  obtain ⟨f, -, rfl⟩ := h
  exact ⟨_, rfl⟩

theorem isNameChar_of_mem (h : IsBindingMark w) (hc : c ∈ w) : isNameChar c = true := by
  obtain ⟨f, hf, rfl⟩ := h
  rcases List.mem_append.1 hc with hc | hc
  · rcases List.mem_append.1 hc with hc | hc
    · exact List.all_eq_true.1 (by decide : bindingMarkStart.all isNameChar = true) c hc
    · exact isNameChar_of_isLowerHex (hf.digits c hc)
  · rw [List.mem_singleton.1 hc]
    decide

theorem not_mem (h : IsBindingMark w) (hc : isNameChar c = false) : c ∉ w := fun hm => by
  rw [h.isNameChar_of_mem hm] at hc
  cases hc

end IsBindingMark

/-! ### Text without substitutes -/

/-- Where no substitute starts there is nothing to put back. -/
theorem Registry.WellFormed.restoreTemplates_eq_restoreWith {r : Registry} (hr : r.WellFormed)
    (t : Text) : r.restoreTemplates t = Registry.restoreWith r.placeholders t := by
  rw [Registry.restoreTemplates]
  split
  · rfl
  · next hmark =>
      refine (Text.foldl_replace_of_not_infix fun p hp hi => hmark (Text.contains_iff.2 ?_)).symm
      exact (hr.isSubstitute p hp).startsMarked.isInfix.trans hi

end AmpMarkup.Source
