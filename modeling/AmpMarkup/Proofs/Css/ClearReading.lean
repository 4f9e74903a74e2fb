import AmpMarkup.Proofs.Css.LineEnds

/-! Readers that meet escapes and strings. A backslash escapes every character but a line feed, only a
line feed ends a string, and one space belongs to a hexadecimal escape. So a line end of another form
is read otherwise there than the line feed it is normalised to. What is clear of such line ends is
read the same. -/

namespace AmpMarkup.Css

variable {c quote : Char} {t u : Text}

/-! ### Where line ends are met -/

/-- Whether the escape behind a backslash is the same after normalising: the backslash escapes no
line end, and no pair of line ends stands where one space belongs to the escape. -/
def clearEscape (t : Text) : Bool :=
  match spanHex 6 t with
  | ([], _) => !t.head?.any endsLine
  | (_, rest) => !rest.startsWith ['\r', '\n']

/-- Whether the escapes of an identifier are clear. -/
def clearName : Text → Bool
  | [] => true
  | c :: t =>
    if isNameChar c then clearName t
    else if c = '\\' ∧ escapes t then clearEscape t && clearName (readEscape t).2
    else true
termination_by t => t.length
decreasing_by
  · simp
  · exact Nat.lt_succ_of_le (readEscape_length_le t)

/-- Whether the escapes of a string are clear and no line end stands in it, other than one that is
or becomes a line feed and spoils it either way. -/
def clearString (quote : Char) : Text → Bool
  | [] => true
  | c :: t =>
    if c = quote ∨ c = '\n' then true
    else if c = '\\' then
      if escapes t then clearEscape t && clearString quote (readEscape t).2
      else clearString quote t.tail
    else if endsLine c then Text.startsWith (c :: t) ['\r', '\n']
    else clearString quote t
termination_by t => t.length
decreasing_by
  · exact Nat.lt_succ_of_le (readEscape_length_le t)
  · simp only [List.length_cons, List.length_tail]; omega
  · simp

/-- Whether the escapes of an address without quotes are clear. -/
def clearUrl : Text → Bool
  | [] => true
  | c :: t =>
    if c = ')' then true
    else if isSpace c then true
    else if c = '"' ∨ c = '\'' ∨ c = '(' then true
    else if c = '\\' then
      if escapes t then clearEscape t && clearUrl (readEscape t).2 else true
    else clearUrl t
termination_by t => t.length
decreasing_by
  · exact Nat.lt_succ_of_le (readEscape_length_le t)
  · simp

/-- Whether the escapes of an identifier, a function or an address without quotes are clear. -/
def clearIdentLike (t : Text) : Bool :=
  clearName t &&
    match readName t with
    | (name, '(' :: rest) => !name.sameIgnoringCase "url" || clearUrl (rest.dropWhile isSpace)
    | _ => true

/-! ### Escapes -/

theorem spanHex_endsLine (h : endsLine c = true) (limit : Nat) (t : Text) :
    spanHex limit (c :: t) = ([], c :: t) := by
  cases limit with
  | zero => rfl
  | succ limit => rw [spanHex, if_neg (by simp [isHexDigit_of_endsLine h])]

theorem any_endsLine_of_clearEscape (h : clearEscape t = true) : t.head?.any endsLine = false := by
  cases t with
  | nil => rfl
  | cons c t =>
      cases hc : endsLine c with
      | false => simpa using hc
      | true =>
          rw [clearEscape, spanHex_endsLine hc] at h
          simp [hc] at h

theorem escapes_normalizeLineEnds (h : t.head?.any endsLine = false) :
    escapes (normalizeLineEnds t) = escapes t := by
  cases t with
  | nil => rfl
  | cons c t =>
      have hc : endsLine c = false := by simpa using h
      rw [normalizeLineEnds_cons hc]
      rfl

/-- A line feed behind a backslash is there after normalising, too. -/
theorem escapes_of_normalizeLineEnds (h : escapes (normalizeLineEnds t) = true) :
    escapes t = true := by
  rw [escapes, bne_iff_ne, head?_normalizeLineEnds] at h
  rw [escapes, bne_iff_ne]
  intro ht
  rw [ht] at h
  exact h rfl

theorem readEscape_normalizeLineEnds (h : clearEscape t = true) :
    readEscape (normalizeLineEnds t) =
      ((readEscape t).1, normalizeLineEnds (readEscape t).2) := by
  have hl := any_endsLine_of_clearEscape h
  unfold clearEscape at h
  unfold readEscape
  rw [spanHex_normalizeLineEnds]
  generalize spanHex 6 t = s at h
  obtain ⟨_ | ⟨d, digits⟩, rest⟩ := s
  · cases t with
    | nil => rfl
    | cons c t =>
        have hc : endsLine c = false := by simpa using hl
        simp only [normalizeLineEnds_cons hc]
  · simp only [Bool.not_eq_true'] at h
    simp only [dropSpace_normalizeLineEnds h]

/-! ### Spoiled addresses -/

theorem dropBadUrl_lineFeed (t : Text) : dropBadUrl ('\n' :: t) = dropBadUrl t := by
  rw [dropBadUrl, if_neg (by decide), if_neg (by simp)]

/-- A line feed that is left over behind an escape is dropped with the rest. -/
theorem dropBadUrl_dropSpace (t : Text) :
    dropBadUrl (dropSpace (normalizeLineEnds t)) =
      dropBadUrl (normalizeLineEnds (dropSpace t)) := by
  cases h : t.startsWith ['\r', '\n'] with
  | false => rw [dropSpace_normalizeLineEnds h]
  | true =>
      obtain ⟨u, hu⟩ := Option.isSome_iff_exists.1 h
      rw [Text.after?_eq_some_iff.1 hu]
      exact (dropBadUrl_lineFeed _).symm

/-- No escape in a spoiled address has to be clear, since nothing of the address is kept. -/
theorem dropBadUrl_escape (h : escapes t = true) :
    dropBadUrl ('\\' :: normalizeLineEnds t) =
      dropBadUrl (normalizeLineEnds (readEscape t).2) := by
  rw [dropBadUrl, if_neg (by decide)]
  cases hl : t.head?.any endsLine with
  | true =>
      obtain ⟨c, hc, hl⟩ := (Option.any_eq_true _ _).1 hl
      obtain ⟨t, rfl⟩ := List.head?_eq_some_iff.1 hc
      obtain ⟨u, hu, hn⟩ := normalizeLineEnds_endsLine hl t
      rw [hn, if_neg (by simp [escapes]), dropBadUrl_lineFeed, readEscape, spanHex_endsLine hl]
      rcases hu with rfl | ⟨-, rfl⟩
      · rfl
      · exact (dropBadUrl_lineFeed _).symm.trans (by rw [normalizeLineEnds_cons (by rfl)])
  | false =>
      rw [if_pos ⟨rfl, (escapes_normalizeLineEnds hl).trans h⟩]
      unfold readEscape
      rw [spanHex_normalizeLineEnds]
      generalize spanHex 6 t = s
      obtain ⟨_ | ⟨d, digits⟩, rest⟩ := s
      · cases t with
        | nil => rfl
        | cons c t =>
            have hc : endsLine c = false := by simpa using hl
            simp only [normalizeLineEnds_cons hc]
      · exact dropBadUrl_dropSpace rest

theorem dropBadUrl_normalizeLineEnds (t : Text) :
    dropBadUrl (normalizeLineEnds t) = normalizeLineEnds (dropBadUrl t) := by
  fun_induction dropBadUrl t with
  | case1 => rw [normalizeLineEnds, dropBadUrl]
  | case2 t => rw [normalizeLineEnds_cons (by rfl), dropBadUrl, if_pos rfl]
  | case3 c t hc he ih =>
      obtain ⟨rfl, he⟩ := he
      rw [normalizeLineEnds_cons (by rfl), dropBadUrl_escape he, ih]
  | case4 c t hc he ih =>
      cases hl : endsLine c with
      | true =>
          obtain ⟨u, hu, hn⟩ := normalizeLineEnds_endsLine hl t
          rw [hn, dropBadUrl_lineFeed, ← ih]
          rcases hu with rfl | ⟨-, rfl⟩
          · rfl
          · rw [normalizeLineEnds_cons (by rfl), dropBadUrl_lineFeed]
      | false =>
          have hn : ¬ (c = '\\' ∧ escapes (normalizeLineEnds t) = true) :=
            fun h => he ⟨h.1, escapes_of_normalizeLineEnds h.2⟩
          rw [normalizeLineEnds_cons hl, dropBadUrl, if_neg hc, if_neg hn, ih]

/-! ### Readers of clear escapes -/

theorem isNameChar_of_endsLine (h : endsLine c = true) : isNameChar c = false := by
  rcases endsLine_iff.1 h with rfl | rfl <;> rfl

theorem endsLine_of_isNameChar (h : isNameChar c = true) : endsLine c = false := by
  cases hc : endsLine c with
  | false => rfl
  | true => rw [isNameChar_of_endsLine hc] at h; cases h

theorem readName_normalizeLineEnds (h : clearName t = true) :
    readName (normalizeLineEnds t) = ((readName t).1, normalizeLineEnds (readName t).2) := by
  fun_induction readName t with
  | case1 => rw [normalizeLineEnds, readName]
  | case2 c t hc name rest hr ih =>
      rw [clearName, if_pos hc] at h
      rw [normalizeLineEnds_cons (endsLine_of_isNameChar hc), readName, if_pos hc, ih h, hr]
  | case3 c t hc he name rest hr ih =>
      rw [clearName, if_neg hc, if_pos he, Bool.and_eq_true] at h
      obtain ⟨rfl, he⟩ := he
      have hl := any_endsLine_of_clearEscape h.1
      rw [normalizeLineEnds_cons (by rfl), readName, if_neg hc,
        if_pos ⟨rfl, (escapes_normalizeLineEnds hl).trans he⟩, readEscape_normalizeLineEnds h.1,
        ih h.2, hr]
  | case4 c t hc he =>
      cases hl : endsLine c with
      | true =>
          obtain ⟨u, -, hn⟩ := normalizeLineEnds_endsLine hl t
          rw [hn, readName, if_neg (by decide), if_neg (by simp)]
      | false =>
          have hn : ¬ (c = '\\' ∧ escapes (normalizeLineEnds t) = true) :=
            fun h => he ⟨h.1, escapes_of_normalizeLineEnds h.2⟩
          rw [normalizeLineEnds_cons hl, readName, if_neg hc, if_neg hn]

theorem readString_quote (t : Text) : readString quote (quote :: t) = (some [], t) := by
  rw [readString.eq_def]
  exact if_pos rfl

theorem readString_lineFeed (hq : quote ≠ '\n') (t : Text) :
    readString quote ('\n' :: t) = (none, '\n' :: t) := by
  rw [readString.eq_def]
  exact (if_neg hq.symm).trans (if_pos rfl)

theorem readString_escape (hq : quote ≠ '\\') (hc : c ≠ '\n') (t : Text) :
    readString quote ('\\' :: c :: t) =
      ((readString quote (readEscape (c :: t)).2).1.map ((readEscape (c :: t)).1 :: ·),
        (readString quote (readEscape (c :: t)).2).2) := by
  rw [readString, if_neg hq.symm, if_neg (by decide), if_pos rfl]
  exact hc

theorem readString_char (hq : c ≠ quote) (hn : c ≠ '\n') (hb : c ≠ '\\') (t : Text) :
    readString quote (c :: t) =
      ((readString quote t).1.map (c :: ·), (readString quote t).2) := by
  rw [readString.eq_def]
  simp only [if_neg hq, if_neg hn, if_neg hb]

theorem readString_normalizeLineEnds (hq : quote = '"' ∨ quote = '\'')
    (h : clearString quote t = true) :
    readString quote (normalizeLineEnds t) =
      ((readString quote t).1, normalizeLineEnds (readString quote t).2) := by
  have hn : quote ≠ '\n' := by rcases hq with rfl | rfl <;> decide
  have hb : quote ≠ '\\' := by rcases hq with rfl | rfl <;> decide
  have hl : endsLine quote = false := by rcases hq with rfl | rfl <;> rfl
  fun_induction readString quote t with
  | case1 => rw [normalizeLineEnds, readString]
  | case2 t => rw [normalizeLineEnds_cons hl, readString_quote]
  | case3 t => rw [normalizeLineEnds_cons (by rfl), readString_lineFeed hn]
  | case4 => rw [normalizeLineEnds_cons (by rfl), normalizeLineEnds, readString, if_neg hb.symm,
        if_neg (by decide), if_pos rfl]
  | case5 t _ _ ih =>
      rw [clearString, if_neg (by simp [hb.symm]), if_pos rfl, if_neg (by simp [escapes])] at h
      rw [normalizeLineEnds_cons (by rfl), normalizeLineEnds_cons (by rfl), readString,
        if_neg hb.symm, if_neg (by decide), if_pos rfl, ih h]
  | case6 d t hd value rest hr _ _ ih =>
      have he : escapes (d :: t) = true := by simpa [escapes] using hd
      rw [clearString, if_neg (by simp [hb.symm]), if_pos rfl, if_pos he, Bool.and_eq_true] at h
      have hl := any_endsLine_of_clearEscape h.1
      have hre := readEscape_normalizeLineEnds h.1
      rw [normalizeLineEnds_cons (by simpa using hl)] at hre
      rw [normalizeLineEnds_cons (by rfl), normalizeLineEnds_cons (by simpa using hl),
        readString_escape hb hd, hre, ih h.2, hr]
  | case7 c t hc hc' he value rest hr ih =>
      rw [clearString, if_neg (by simp [hc, hc']), if_neg he] at h
      cases hl : endsLine c with
      | true =>
          rw [if_pos hl] at h
          obtain ⟨u, hu⟩ := Option.isSome_iff_exists.1 h
          obtain ⟨rfl, ht⟩ := List.cons.inj (Text.after?_eq_some_iff.1 hu)
          obtain rfl : t = '\n' :: u := ht
          rw [readString_lineFeed hn] at hr
          obtain ⟨rfl, rfl⟩ := Prod.mk.inj hr
          rw [normalizeLineEnds_pair, normalizeLineEnds_cons (by rfl), readString_lineFeed hn]
          exact congrArg _ (normalizeLineEnds_cons (by rfl) u).symm
      | false =>
          rw [if_neg (by simp [hl])] at h
          rw [normalizeLineEnds_cons hl, readString_char hc hc' he, ih h, hr]

theorem endUrl_normalizeLineEnds (t : Text) :
    endUrl (normalizeLineEnds t) = ((endUrl t).1, normalizeLineEnds (endUrl t).2) := by
  rw [endUrl, dropWhile_isSpace_normalizeLineEnds]
  fun_cases endUrl t with
  | case1 h => rw [h, normalizeLineEnds]
  | case2 rest h =>
      rw [h, normalizeLineEnds_cons (by rfl)]
      rfl
  | case3 hn hc =>
      split
      · next hs => exact absurd (eq_nil_of_normalizeLineEnds hs) hn
      · next hs =>
          obtain ⟨w, hw⟩ := exists_of_normalizeLineEnds (p := [')']) rfl hs
          exact absurd hw (hc w)
      · rw [dropBadUrl_normalizeLineEnds]

theorem readUrl_normalizeLineEnds (h : clearUrl t = true) :
    readUrl (normalizeLineEnds t) = ((readUrl t).1, normalizeLineEnds (readUrl t).2) := by
  fun_induction readUrl t with
  | case1 => rw [normalizeLineEnds, readUrl]
  | case2 t => rw [normalizeLineEnds_cons (by rfl), readUrl, if_pos rfl]
  | case3 c t hc hs =>
      cases hl : endsLine c with
      | true =>
          obtain ⟨u, hu, hn⟩ := normalizeLineEnds_endsLine hl t
          rw [hn, readUrl, if_neg (by decide), if_pos (by rfl), endUrl_normalizeLineEnds]
          rcases hu with rfl | ⟨-, rfl⟩
          · rfl
          · rfl
      | false =>
          rw [normalizeLineEnds_cons hl, readUrl, if_neg hc, if_pos hs, endUrl_normalizeLineEnds]
  | case4 c t hc hs hq =>
      rw [normalizeLineEnds_cons (endsLine_of_isSpace (by simpa using hs)), readUrl, if_neg hc,
        if_neg hs, if_pos hq, dropBadUrl_normalizeLineEnds]
  | case5 t he value rest hr hc hs hq ih =>
      rw [clearUrl, if_neg hc, if_neg hs, if_neg hq, if_pos rfl, if_pos he, Bool.and_eq_true] at h
      have hl := any_endsLine_of_clearEscape h.1
      rw [normalizeLineEnds_cons (by rfl), readUrl, if_neg hc, if_neg hs, if_neg hq, if_pos rfl,
        if_pos ((escapes_normalizeLineEnds hl).trans he), readEscape_normalizeLineEnds h.1, ih h.2, hr]
  | case6 t he hc hs hq =>
      have hn : ¬ escapes (normalizeLineEnds t) = true := fun h => he (escapes_of_normalizeLineEnds h)
      rw [normalizeLineEnds_cons (by rfl), readUrl, if_neg hc, if_neg hs, if_neg hq, if_pos rfl,
        if_neg hn, dropBadUrl_normalizeLineEnds]
  | case7 c t hc hs hq hb value rest hr ih =>
      rw [clearUrl, if_neg hc, if_neg hs, if_neg hq, if_neg hb] at h
      rw [normalizeLineEnds_cons (endsLine_of_isSpace (by simpa using hs)), readUrl, if_neg hc,
        if_neg hs, if_neg hq, if_neg hb, ih h, hr]

/-- An address without quotes. -/
theorem readIdentLike_url {name rest : Text} (hn : readName t = (name, '(' :: rest))
    (hu : name.sameIgnoringCase "url" = true) (hd : ∀ u, rest.dropWhile isSpace ≠ '"' :: u)
    (hs : ∀ u, rest.dropWhile isSpace ≠ '\'' :: u) :
    readIdentLike t =
      ((readUrl (rest.dropWhile isSpace)).1.elim .badUrl .url,
        (readUrl (rest.dropWhile isSpace)).2) := by
  rw [readIdentLike, hn]
  simp only [if_pos hu]
  split <;> next h => rw [h]; rfl

theorem readIdentLike_normalizeLineEnds (h : clearIdentLike t = true) :
    readIdentLike (normalizeLineEnds t) =
      ((readIdentLike t).1, normalizeLineEnds (readIdentLike t).2) := by
  rw [clearIdentLike, Bool.and_eq_true] at h
  have hr := readName_normalizeLineEnds h.1
  cases hn : readName t with
  | mk name rest =>
      rw [hn] at hr h
      by_cases hp : ∃ u, rest = '(' :: u
      · obtain ⟨rest, rfl⟩ := hp
        rw [normalizeLineEnds_cons (by rfl)] at hr
        by_cases hu : name.sameIgnoringCase "url" = true
        · by_cases hq : (∃ u, rest.dropWhile isSpace = '"' :: u) ∨
              ∃ u, rest.dropWhile isSpace = '\'' :: u
          · rw [readIdentLike, readIdentLike, hr, hn]
            rcases hq with ⟨u, hq⟩ | ⟨u, hq⟩ <;>
              simp only [if_pos hu, dropWhile_isSpace_normalizeLineEnds, hq,
                normalizeLineEnds_cons (show endsLine '"' = false by rfl),
                normalizeLineEnds_cons (show endsLine '\'' = false by rfl)]
          · rw [not_or] at hq
            have hc := h.2
            simp only [hu, Bool.not_true, Bool.false_or] at hc
            rw [readIdentLike_url hn hu (fun u hd => hq.1 ⟨u, hd⟩) fun u hs => hq.2 ⟨u, hs⟩,
              readIdentLike_url hr hu, dropWhile_isSpace_normalizeLineEnds,
              readUrl_normalizeLineEnds hc]
            · intro u hd
              rw [dropWhile_isSpace_normalizeLineEnds] at hd
              exact hq.1 (exists_of_normalizeLineEnds (p := ['"']) rfl hd)
            · intro u hs
              rw [dropWhile_isSpace_normalizeLineEnds] at hs
              exact hq.2 (exists_of_normalizeLineEnds (p := ['\'']) rfl hs)
        · rw [readIdentLike, readIdentLike, hr, hn]
          simp only [if_neg hu]
      · have hp' : ¬ ∃ u, normalizeLineEnds rest = '(' :: u := by
          rintro ⟨u, hu⟩
          exact hp (exists_of_normalizeLineEnds (p := ['(']) rfl hu)
        rw [readIdentLike, readIdentLike, hr, hn]
        simp_all

theorem clearEscape_of_clearName (h : clearName ('\\' :: t) = true) (he : escapes t = true) :
    clearEscape t = true := by
  rw [clearName, if_neg (by decide), if_pos ⟨rfl, he⟩, Bool.and_eq_true] at h
  exact h.1

/-- An escape that is clear if it is one stays one, and no other backslash becomes an escape. -/
theorem escapes_normalizeLineEnds_eq (h : escapes t = true → clearEscape t = true) :
    escapes (normalizeLineEnds t) = escapes t := by
  cases he : escapes t with
  | true => exact (escapes_normalizeLineEnds (any_endsLine_of_clearEscape (h he))).trans he
  | false =>
      cases hn : escapes (normalizeLineEnds t) with
      | true => exact (escapes_of_normalizeLineEnds hn).symm.trans he
      | false => rfl

theorem isNameStart_of_endsLine (h : endsLine c = true) : isNameStart c = false := by
  rcases endsLine_iff.1 h with rfl | rfl <;> rfl

theorem startsName_normalizeLineEnds (h : startsName t = true → clearName t = true) :
    startsName (normalizeLineEnds t) = startsName t := by
  fun_cases startsName t with
  | case1 t => rw [normalizeLineEnds_cons (by rfl), normalizeLineEnds_cons (by rfl), startsName]
  | case2 t =>
      rw [normalizeLineEnds_cons (by rfl), normalizeLineEnds_cons (by rfl), startsName]
      refine escapes_normalizeLineEnds_eq fun he => ?_
      have hn := h he
      rw [clearName, if_pos (by rfl)] at hn
      exact clearEscape_of_clearName hn he
  | case3 c t hc hb =>
      rw [normalizeLineEnds_cons (by rfl)]
      cases hl : endsLine c with
      | true =>
          obtain ⟨u, -, hn⟩ := normalizeLineEnds_endsLine hl t
          rw [hn, isNameStart_of_endsLine hl]
          rfl
      | false =>
          rw [normalizeLineEnds_cons hl, startsName]
          · exact hc
          · exact hb
  | case4 t =>
      rw [normalizeLineEnds_cons (by rfl), startsName]
      exact escapes_normalizeLineEnds_eq fun he => clearEscape_of_clearName (h he) he
  | case5 c t _ _ hc hb =>
      cases hl : endsLine c with
      | true =>
          obtain ⟨u, -, hn⟩ := normalizeLineEnds_endsLine hl t
          rw [hn, isNameStart_of_endsLine hl]
          rfl
      | false =>
          have ht (hm : c = '-') : normalizeLineEnds t = [] := by
            cases t with
            | nil => rfl
            | cons d t => exact absurd rfl (hc d t hm)
          rw [normalizeLineEnds_cons hl, startsName]
          · exact fun u hm hu => by cases (ht hm).symm.trans hu
          · exact fun u hm hu => by cases (ht hm).symm.trans hu
          · exact fun d u hm hu => by cases (ht hm).symm.trans hu
          · exact hb
  | case6 => rfl

theorem readNumeric_normalizeLineEnds
    (h : startsName (readNumber t).2 = true → clearName (readNumber t).2 = true) :
    readNumeric (normalizeLineEnds t) =
      ((readNumeric t).1, normalizeLineEnds (readNumeric t).2) := by
  unfold readNumeric
  simp only [readNumber_normalizeLineEnds, startsName_normalizeLineEnds h]
  generalize (readNumber t).1 = value at h
  generalize (readNumber t).2 = rest at h
  by_cases hs : startsName rest = true
  · simp only [if_pos hs, readName_normalizeLineEnds (h hs)]
  · simp only [if_neg hs]
    split
    · next u hu =>
        obtain ⟨w, rfl⟩ := exists_of_normalizeLineEnds (p := ['%']) rfl hu
        rw [List.cons_append, normalizeLineEnds_cons (by rfl)] at hu
        obtain ⟨-, rfl⟩ := List.cons.inj hu
        rfl
    · next hp =>
        split
        · next u => exact absurd (normalizeLineEnds_cons (by rfl) u) (hp _)
        · rfl

end AmpMarkup.Css
