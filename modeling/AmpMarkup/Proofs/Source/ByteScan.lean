import AmpMarkup.Proofs.Lookup
import AmpMarkup.Proofs.Source.FragmentScan
import AmpMarkup.Proofs.Source.Piece
import AmpMarkup.Text.Utf8

/-! Start tags by the offsets of their bytes. A scan that sees nothing but bytes finds the tags that
cutting the text into pieces finds: what it looks for is ASCII, so that it passes over the bytes of
other characters without stopping between them. -/

namespace AmpMarkup.Source

/-- A part of a text: the offset of its first byte, and the offset behind its last one. -/
structure Extent where
  start : Nat
  stop : Nat
deriving DecidableEq, Repr

/-- A start tag by offsets: its `<`, its name, what stands between the name and the `>`, and the
offset behind the `>`. -/
structure TagExtent where
  start : Nat
  name : Extent
  attributes : Extent
  stop : Nat
deriving DecidableEq, Repr

/-! ### Scanning bytes -/

/-- The offset of the `>` that closes a tag. The first byte has offset `pos`, and `opening` says
whether a quote opens a value there. A value without a closing quote leaves the tag open. -/
def closeOffset? (opening : Bool) (pos : Nat) : List UInt8 → Option Nat
  | [] => none
  | b :: bs =>
    let c := Char.ofUInt8 b
    if c = '>' then some pos
    else if c = '=' then closeOffset? true (pos + 1) bs
    else if (c = '"' ∨ c = '\'') ∧ opening then
      match bs.idxOf? b with
      | some i => closeOffset? false (pos + 1 + (i + 1)) (bs.drop (i + 1))
      | none => none
    else if isSpace c then closeOffset? opening (pos + 1) bs
    else closeOffset? false (pos + 1) bs
termination_by bs => bs.length

/-- Whether a name may end before a byte. -/
def endsNameByte (b : UInt8) : Bool :=
  let c := Char.ofUInt8 b
  isSpace c || c == '/' || c == '>'

/-- The start tag whose `<` is the byte right before these, at the offset `start`. -/
def tagAt? (start : Nat) (bs : List UInt8) : Option TagExtent :=
  let name := bs.takeWhile (isNameChar <| Char.ofUInt8 ·)
  let rest := bs.dropWhile (isNameChar <| Char.ofUInt8 ·)
  let nameStop := start + 1 + name.length
  if bs.head?.any (Char.isAlpha <| Char.ofUInt8 ·) && rest.head?.any endsNameByte then
    (closeOffset? false nameStop rest).map fun close =>
      ⟨start, ⟨start + 1, nameStop⟩, ⟨nameStop, close⟩, close + 1⟩
  else none

/-- Whether an end tag's name follows, in any case, and may end there. -/
def closesAt (name bs : List UInt8) : Bool :=
  (bs.take name.length).map (Char.toLower <| Char.ofUInt8 ·) ==
      name.map (Char.toLower <| Char.ofUInt8 ·) &&
    (bs.drop name.length).head?.all endsNameByte

/-- The offset of the end tag that ends the content of an element, or of the end of the bytes. -/
def contentStop (name : List UInt8) (pos : Nat) : List UInt8 → Nat
  | [] => pos
  | [_] => pos + 1
  | b :: b' :: bs =>
    if Char.ofUInt8 b = '<' ∧ Char.ofUInt8 b' = '/' then
      if closesAt name bs then pos else contentStop name (pos + 2) bs
    else contentStop name (pos + 1) (b' :: bs)

/-- The first start tag from the offset `pos` on, and the offset from which to look for the next. -/
def nextTag? (pos : Nat) : List UInt8 → Option (TagExtent × Nat)
  | [] => none
  | b :: bs =>
    if Char.ofUInt8 b = '<' then
      match tagAt? pos bs with
      | some tag =>
        let name := bs.take (tag.name.stop - tag.name.start)
        if (Text.ofUtf8? name).any Vocabulary.isTextOnly then
          some (tag, contentStop name tag.stop (bs.drop (tag.stop - tag.name.start)))
        else some (tag, tag.stop)
      | none => nextTag? (pos + 1) bs
    else nextTag? (pos + 1) bs

/-- The tags that are found one after the other from an offset on, until there is none. -/
inductive Finds (bytes : List UInt8) : Nat → List TagExtent → Prop where
  | done {pos : Nat} : nextTag? pos (bytes.drop pos) = none → Finds bytes pos []
  | next {pos pos' : Nat} {tag : TagExtent} {tags : List TagExtent} :
      nextTag? pos (bytes.drop pos) = some (tag, pos') → Finds bytes pos' tags →
      Finds bytes pos (tag :: tags)

/-! ### The same by characters -/

/-- The parts of a start tag in a text in which it starts at `pos`. -/
def StartTag.extent (pos : Nat) (tag : StartTag) : TagExtent :=
  let nameStop := pos + 1 + Text.utf8Length tag.name
  let close := nameStop + Text.utf8Length tag.attributes
  ⟨pos, ⟨pos + 1, nameStop⟩, ⟨nameStop, close⟩, close + 1⟩

/-- The start tags among pieces of which the first starts at `pos`. -/
def tagExtents (pos : Nat) : List Piece → List TagExtent
  | [] => []
  | .text t :: ps => tagExtents (pos + Text.utf8Length t) ps
  | .tag tag :: ps => tag.extent pos :: tagExtents (pos + Text.utf8Length tag.source) ps

variable {c quote : Char} {t u v name rest : Text} {b : UInt8} {bs bytes : List UInt8} {pos pos' : Nat}
  {tag : StartTag} {tags tags' : List TagExtent}

/-! ### Classes of characters -/

theorem toNat_lt_of_isNameChar (h : isNameChar c = true) : c.toNat < 128 :=
  Nat.lt_of_le_of_lt (toNat_of_isNameChar h).2 (by decide)

theorem toNat_lt_of_isAlpha (h : c.isAlpha = true) : c.toNat < 128 :=
  toNat_lt_of_isNameChar (by simp [isNameChar, Char.isAlphanum, h])

theorem toNat_lt_of_isSpace (h : isSpace c = true) : c.toNat < 128 := by
  simp only [isSpace, Bool.or_eq_true, beq_iff_eq] at h
  rcases h with (((rfl | rfl) | rfl) | rfl) | rfl <;> decide

theorem not_isSpace_of_le (h : 128 ≤ c.toNat) : isSpace c = false :=
  Bool.eq_false_iff.2 fun hs => Nat.not_lt.2 h (toNat_lt_of_isSpace hs)

theorem ne_of_le {d : Char} (h : 128 ≤ c.toNat) (hd : d.toNat < 128) : c ≠ d := by
  rintro rfl
  exact Nat.not_lt.2 h hd

/-! ### The end of a start tag -/

/-- A scan that passes over each byte of a kind passes over any number of them. -/
theorem pass_append {α : Type} {scan : Nat → List UInt8 → α} {p : UInt8 → Prop}
    (hpass : ∀ b pos rest, p b → scan pos (b :: rest) = scan (pos + 1) rest) (h : ∀ b ∈ bs, p b)
    (pos : Nat) (rest : List UInt8) : scan pos (bs ++ rest) = scan (pos + bs.length) rest := by
  induction bs generalizing pos with
  | nil => rfl
  | cons b bs ih =>
      obtain ⟨hb, hbs⟩ := List.forall_mem_cons.1 h
      rw [List.cons_append, hpass b pos _ hb, ih hbs, List.length_cons, Nat.add_assoc, Nat.add_comm 1]

theorem closeOffset?_high (hb : 128 ≤ b.toNat) (opening : Bool) (pos : Nat) (rest : List UInt8) :
    closeOffset? opening pos (b :: rest) = closeOffset? false (pos + 1) rest := by
  have hle : 128 ≤ (Char.ofUInt8 b).toNat := by rwa [Text.toNat_ofUInt8]
  rw [closeOffset?]
  simp [not_isSpace_of_le hle, ne_of_le hle (show ('>').toNat < 128 by decide),
    ne_of_le hle (show ('=').toNat < 128 by decide),
    ne_of_le hle (show ('"').toNat < 128 by decide),
    ne_of_le hle (show ('\'').toNat < 128 by decide)]

/-- The bytes of a character outside ASCII end nothing and open nothing. -/
theorem closeOffset?_append_high (hne : bs ≠ []) (hb : ∀ b ∈ bs, 128 ≤ b.toNat) (opening : Bool)
    (pos : Nat) (rest : List UInt8) :
    closeOffset? opening pos (bs ++ rest) = closeOffset? false (pos + bs.length) rest := by
  obtain ⟨b, bs, rfl⟩ := List.exists_cons_of_ne_nil hne
  obtain ⟨hb, hbs⟩ := List.forall_mem_cons.1 hb
  rw [List.cons_append, closeOffset?_high hb,
    pass_append (fun _ pos rest hd => closeOffset?_high hd false pos rest) hbs, List.length_cons,
    Nat.add_assoc, Nat.add_comm 1]

theorem closeOffset?_utf8_cons (opening : Bool) (pos : Nat) (c : Char) (t : Text) :
    closeOffset? opening pos (Text.utf8 (c :: t)) =
      if c = '>' then some pos
      else if c = '=' then closeOffset? true (pos + c.utf8Size) (Text.utf8 t)
      else if (c = '"' ∨ c = '\'') ∧ opening then
        match (Text.utf8 t).idxOf? c.toUInt8 with
        | some i => closeOffset? false (pos + c.utf8Size + (i + 1)) ((Text.utf8 t).drop (i + 1))
        | none => none
      else closeOffset? (isSpace c && opening) (pos + c.utf8Size) (Text.utf8 t) := by
  rw [Text.utf8_cons]
  by_cases hc : c.toNat < 128
  · rw [Text.utf8EncodeChar_ascii hc, List.singleton_append, closeOffset?,
      Text.ofUInt8_toUInt8 hc, Text.utf8Size_ascii hc]
    cases isSpace c <;> simp
  · have hle := Nat.le_of_not_lt hc
    rw [closeOffset?_append_high String.utf8EncodeChar_ne_nil
      fun b => Text.le_of_mem_utf8EncodeChar hle]
    simp [not_isSpace_of_le hle, ne_of_le hle (show ('>').toNat < 128 by decide),
      ne_of_le hle (show ('=').toNat < 128 by decide),
      ne_of_le hle (show ('"').toNat < 128 by decide),
      ne_of_le hle (show ('\'').toNat < 128 by decide)]

/-- What a quote means where a scan of bytes stands: it opens a value or is ordinary. -/
def QuoteState.ofOpening (opening : Bool) : QuoteState :=
  if opening then .opening else .ordinary

theorem QuoteState.next_ofOpening (opening : Bool) (c : Char) :
    (ofOpening opening).next c =
      if c = '=' then ofOpening true
      else if (c = '"' ∨ c = '\'') ∧ opening then .inside c
      else ofOpening (isSpace c && opening) := by
  cases opening with
  | false => simp [ofOpening, next]
  | true =>
      by_cases hequals : c = '='
      · simp [ofOpening, next, hequals]
      · cases hs : isSpace c <;> simp [ofOpening, next, hequals, hs]

theorem spanTag?_inside_eq_none (h : quote ∉ t) : spanTag? (.inside quote) t = none := by
  have hne : ∀ c ∈ t, c ≠ quote := fun c hc => by
    rintro rfl
    exact h hc
  have happend := spanTag?_inside_append hne []
  rwa [List.append_nil] at happend

theorem mem_utf8_toUInt8_iff (hc : c.toNat < 128) (t : Text) : c.toUInt8 ∈ Text.utf8 t ↔ c ∈ t := by
  have hbyte : c.toUInt8.toNat < 128 := by
    rw [← Text.toNat_ofUInt8, Text.ofUInt8_toUInt8 hc]
    exact hc
  rw [Text.mem_utf8_iff hbyte, Text.ofUInt8_toUInt8 hc]

theorem idxOf?_utf8_eq_none (hc : c.toNat < 128) (h : c ∉ t) :
    (Text.utf8 t).idxOf? c.toUInt8 = none :=
  List.idxOf?_eq_none_iff.2 (mt (mem_utf8_toUInt8_iff hc t).1 h)

/-- The first of an ASCII character is its first byte. -/
theorem exists_idxOf?_utf8 (hc : c.toNat < 128) (h : c ∈ t) :
    ∃ u v, t = u ++ c :: v ∧ c ∉ u ∧ (Text.utf8 t).idxOf? c.toUInt8 = some (Text.utf8Length u) ∧
      (Text.utf8 t).drop (Text.utf8Length u + 1) = Text.utf8 v := by
  obtain ⟨u, v, rfl, hu⟩ := List.eq_append_cons_of_mem h
  have hutf8 : Text.utf8 (u ++ c :: v) = Text.utf8 u ++ c.toUInt8 :: Text.utf8 v := by
    rw [Text.utf8_append, Text.utf8_cons, Text.utf8EncodeChar_ascii hc, List.singleton_append]
  refine ⟨u, v, rfl, hu, ?_, ?_⟩
  · rw [hutf8, idxOf?_append_cons (mt (mem_utf8_toUInt8_iff hc u).1 hu), Text.length_utf8]
  · rw [hutf8, ← List.drop_drop, ← Text.length_utf8, List.drop_left]
    rfl

/-- A value goes on up to the first byte that is its quote. -/
theorem closeOffset?_value (hq : quote.toNat < 128)
    (h : ∀ v pos, v.length < t.length → closeOffset? false pos (Text.utf8 v) =
      (spanTag? .ordinary v).map fun p => pos + Text.utf8Length p.1) (pos : Nat) :
    (match (Text.utf8 t).idxOf? quote.toUInt8 with
      | some i => closeOffset? false (pos + (i + 1)) ((Text.utf8 t).drop (i + 1))
      | none => none) =
      (spanTag? (.inside quote) t).map fun p => pos + Text.utf8Length p.1 := by
  by_cases hin : quote ∈ t
  · obtain ⟨u, v, rfl, hu, hindex, hdrop⟩ := exists_idxOf?_utf8 hq hin
    rw [hindex]
    dsimp only
    rw [hdrop, h v _ (by simp; omega),
      spanTag?_inside_append fun c hc => by rintro rfl; exact hu hc,
      spanTag?_cons fun _ => ⟨quote, rfl⟩, QuoteState.next, if_pos rfl]
    simp only [Option.map_map, Function.comp_def, Text.utf8Length_append, Text.utf8Length,
      Text.utf8Size_ascii hq, Nat.add_assoc]
  · rw [idxOf?_utf8_eq_none hq hin, spanTag?_inside_eq_none hin]
    rfl

/-- The `>` that ends a tag has the same place among the bytes. -/
theorem closeOffset?_utf8 (opening : Bool) (pos : Nat) (t : Text) :
    closeOffset? opening pos (Text.utf8 t) =
      (spanTag? (.ofOpening opening) t).map fun p => pos + Text.utf8Length p.1 := by
  induction hn : t.length using Nat.strongRecOn generalizing opening pos t with
  | ind n ih =>
      cases t with
      | nil => rw [Text.utf8, List.flatMap_nil, closeOffset?]; rfl
      | cons c t =>
          have hlt : t.length < n := hn ▸ Nat.lt_succ_self t.length
          rw [closeOffset?_utf8_cons]
          by_cases hclose : c = '>'
          · subst hclose
            have hordinary : ∀ quote, QuoteState.ofOpening opening ≠ .inside quote := fun quote => by
              cases opening <;> simp [QuoteState.ofOpening]
            rw [if_pos rfl, spanTag?_close hordinary]
            rfl
          · rw [if_neg hclose, spanTag?_cons fun h => absurd h hclose, QuoteState.next_ofOpening,
              Option.map_map]
            split
            · rw [ih _ hlt _ _ _ rfl]
              simp [Function.comp_def, Text.utf8Length, Nat.add_assoc]
            · split
              · next hquote =>
                  have hq : c.toNat < 128 := by
                    rcases hquote.1 with rfl | rfl <;> decide
                  rw [closeOffset?_value hq fun v pos hv => ih _ (Nat.lt_trans hv hlt) false pos v rfl]
                  simp [Function.comp_def, Text.utf8Length, Nat.add_assoc]
              · rw [ih _ hlt _ _ _ rfl]
                simp [Function.comp_def, Text.utf8Length, Nat.add_assoc]

/-! ### Start tags -/

theorem seesAscii_isNameChar : Text.SeesAscii isNameChar :=
  Text.seesAscii_of_ascii fun _ => toNat_lt_of_isNameChar

theorem seesAscii_isSpace : Text.SeesAscii isSpace :=
  Text.seesAscii_of_ascii fun _ => toNat_lt_of_isSpace

theorem seesAscii_endsName : Text.SeesAscii fun c => isSpace c || c == '/' || c == '>' := by
  refine Text.seesAscii_of_ascii fun c hc => ?_
  simp only [Bool.or_eq_true, beq_iff_eq] at hc
  rcases hc with (hs | rfl) | rfl
  · exact toNat_lt_of_isSpace hs
  · decide
  · decide

theorem head?_any_endsNameByte (t : Text) : (Text.utf8 t).head?.any endsNameByte = endsName t :=
  Text.head?_any_utf8 seesAscii_endsName t

theorem tagAt?_utf8 (start : Nat) (t : Text) :
    tagAt? start (Text.utf8 t) = (StartTag.read? t).map fun p => p.1.extent start := by
  have hstart := Text.head?_any_utf8 (Text.seesAscii_of_ascii fun _ => toNat_lt_of_isAlpha) t
  rw [tagAt?, StartTag.read?]
  dsimp only
  rw [Text.takeWhile_utf8 seesAscii_isNameChar, Text.dropWhile_utf8 seesAscii_isNameChar, hstart,
    head?_any_endsNameByte, closeOffset?_utf8, Text.length_utf8]
  split
  · rw [Option.map_map, Option.map_map]
    rfl
  · rfl

/-! ### The content of an element of plain text -/

theorem closesAt_cons (n b : UInt8) (name bs : List UInt8) :
    closesAt (n :: name) (b :: bs) =
      ((Char.ofUInt8 b).toLower == (Char.ofUInt8 n).toLower && closesAt name bs) := by
  simp [closesAt, Bool.and_assoc]

theorem closesElement_cons (n c : Char) (name t : Text) :
    closesElement (n :: name) (c :: t) = (c.toLower == n.toLower && closesElement name t) := by
  rw [closesElement, Text.afterIgnoringCase?, closesElement]
  by_cases h : n.toLower = c.toLower
  · simp [h]
  · simp [h, Ne.symm h]

theorem toNat_lt_of_toLower_eq {n : Char} (hn : n.toNat < 128) (h : c.toLower = n.toLower) :
    c.toNat < 128 := by
  have hlower : n.toLower.toNat < 128 := by
    rcases toLower_eq_or_isLower n with hl | hl
    · rwa [hl]
    · exact toNat_lt_of_isAlpha (isAlpha_of_isLower hl)
  by_cases hu : c.isUpper = true
  · exact toNat_lt_of_isAlpha (isAlpha_of_isUpper hu)
  · rwa [← toLower_of_not_isUpper hu, h]

/-- The end tag of an element ends its content among the bytes as it does in the text. -/
theorem closesAt_utf8 (hn : ∀ c ∈ name, c.toNat < 128) (t : Text) :
    closesAt (Text.utf8 name) (Text.utf8 t) = closesElement name t := by
  induction name generalizing t with
  | nil =>
      have hend := head?_any_endsNameByte t
      cases t with
      | nil => rfl
      | cons c t =>
          obtain ⟨b, bs, hbs, -⟩ := Text.exists_utf8_cons c t
          simp only [closesElement, Text.afterIgnoringCase?, ← hend]
          rw [hbs]
          simp [closesAt, Text.utf8]
  | cons n name ih =>
      obtain ⟨hascii, hn⟩ := List.forall_mem_cons.1 hn
      rw [Text.utf8_cons, Text.utf8EncodeChar_ascii hascii, List.singleton_append]
      cases t with
      | nil => rfl
      | cons c t =>
          have hclass : Text.SeesAscii fun c => c.toLower == n.toLower :=
            Text.seesAscii_of_ascii fun c hc => toNat_lt_of_toLower_eq hascii (by simpa using hc)
          rw [closesElement_cons]
          by_cases hc : c.toLower = n.toLower
          · have hcascii := toNat_lt_of_toLower_eq hascii hc
            rw [Text.utf8_cons, Text.utf8EncodeChar_ascii hcascii, List.singleton_append, closesAt_cons,
              Text.ofUInt8_toUInt8 hcascii, Text.ofUInt8_toUInt8 hascii, ih hn]
          · obtain ⟨b, bs, hbs, hb⟩ := Text.exists_utf8_cons c t
            rw [hbs, closesAt_cons, Text.ofUInt8_toUInt8 hascii, hclass.eq_of_mem hb,
              beq_eq_false_iff_ne.2 hc, Bool.false_and, Bool.false_and]

theorem contentStop_cons (h : Char.ofUInt8 b ≠ '<' ∨ bs.head?.any (Char.ofUInt8 · == '/') = false)
    (name : List UInt8) (pos : Nat) :
    contentStop name pos (b :: bs) = contentStop name (pos + 1) bs := by
  cases bs with
  | nil => rfl
  | cons b' bs =>
      rw [contentStop, if_neg]
      rintro ⟨hb, hb'⟩
      simp [hb, hb'] at h

theorem seesAscii_beq {d : Char} (hd : d.toNat < 128) : Text.SeesAscii (· == d) :=
  Text.seesAscii_of_ascii fun c hc => by rwa [eq_of_beq hc]

theorem ne_of_mem_utf8EncodeChar {d : Char} (hd : d.toNat < 128) (hc : c ≠ d)
    (hb : b ∈ String.utf8EncodeChar c) : Char.ofUInt8 b ≠ d := by
  have hclass := (seesAscii_beq hd).eq_of_mem hb
  exact beq_eq_false_iff_ne.1 (hclass.trans (beq_eq_false_iff_ne.2 hc))

/-- The content of an element has as many bytes as the scan of bytes passes over. -/
theorem contentStop_utf8 (hn : ∀ c ∈ name, c.toNat < 128) (pos : Nat) (t : Text) :
    contentStop (Text.utf8 name) pos (Text.utf8 t) =
      pos + Text.utf8Length (spanContent name t).1 := by
  have hopen : ∀ t, Text.utf8 ('<' :: '/' :: t) = '<'.toUInt8 :: '/'.toUInt8 :: Text.utf8 t :=
    fun t => rfl
  fun_induction spanContent name t generalizing pos with
  | case1 => rfl
  | case2 t hc =>
      rw [hopen, contentStop, closesAt_utf8 hn, if_pos (by decide), if_pos hc]
      rfl
  | case3 t hc content rest hr ih =>
      have hlt : ('<').utf8Size = 1 := rfl
      have hsolidus : ('/').utf8Size = 1 := rfl
      rw [hopen, contentStop, closesAt_utf8 hn, if_pos (by decide), if_neg hc, ih, hr]
      simp only [Text.utf8Length, hlt, hsolidus]
      omega
  | case4 c t hne content rest hr ih =>
      have hpass : contentStop (Text.utf8 name) pos (Text.utf8 (c :: t)) =
          contentStop (Text.utf8 name) (pos + c.utf8Size) (Text.utf8 t) := by
        rw [Text.utf8_cons, ← String.length_utf8EncodeChar]
        by_cases hc : c = '<'
        · subst hc
          have hsolidus : t.head?.any (· == '/') = false := by
            cases t with
            | nil => rfl
            | cons d t => exact beq_eq_false_iff_ne.2 fun hd => hne t rfl (hd ▸ rfl)
          rw [← Text.head?_any_utf8 (seesAscii_beq (by decide))] at hsolidus
          exact contentStop_cons (.inr hsolidus) _ _
        · exact pass_append (fun _ pos _ hb => contentStop_cons (.inl hb) _ pos)
            (fun b => ne_of_mem_utf8EncodeChar (by decide) hc) _ _
      rw [hpass, ih, hr, Text.utf8Length, Nat.add_assoc]

/-! ### The first start tag -/

theorem nextTag?_cons (hb : Char.ofUInt8 b ≠ '<') (pos : Nat) (bs : List UInt8) :
    nextTag? pos (b :: bs) = nextTag? (pos + 1) bs := by
  rw [nextTag?, if_neg hb]

theorem nextTag?_utf8_cons (hc : c ≠ '<') (pos : Nat) (t : Text) :
    nextTag? pos (Text.utf8 (c :: t)) = nextTag? (pos + c.utf8Size) (Text.utf8 t) := by
  rw [Text.utf8_cons, ← String.length_utf8EncodeChar]
  exact pass_append (fun _ pos _ hb => nextTag?_cons hb pos _)
    (fun b => ne_of_mem_utf8EncodeChar (by decide) hc) pos _

theorem nextTag?_of_not_read (h : StartTag.read? t = none) (pos : Nat) :
    nextTag? pos (Text.utf8 ('<' :: t)) = nextTag? (pos + 1) (Text.utf8 t) := by
  have hopen : Text.utf8 ('<' :: t) = '<'.toUInt8 :: Text.utf8 t := rfl
  rw [hopen, nextTag?, if_pos (by decide), tagAt?_utf8, h]
  rfl

/-- Where the search goes on behind a start tag and the plain text that belongs to it. -/
def StartTag.resume (pos : Nat) (tag : StartTag) (rest : Text) : Nat :=
  if Vocabulary.isTextOnly tag.name then
    (tag.extent pos).stop + Text.utf8Length (spanContent tag.name rest).1
  else (tag.extent pos).stop

theorem nextTag?_of_read (h : StartTag.read? t = some (tag, rest)) (pos : Nat) :
    nextTag? pos (Text.utf8 ('<' :: t)) = some (tag.extent pos, tag.resume pos rest) := by
  have hopen : Text.utf8 ('<' :: t) = '<'.toUInt8 :: Text.utf8 t := rfl
  have hname : ∀ c ∈ tag.name, c.toNat < 128 := fun c hc =>
    toNat_lt_of_isNameChar (isNameChar_of_read? h c hc)
  have ht : t = tag.name ++ (tag.attributes ++ '>' :: rest) := by
    have hsource := StartTag.read?_source h
    simpa [StartTag.source] using hsource
  have hutf8 : Text.utf8 t = Text.utf8 tag.name ++ (Text.utf8 tag.attributes ++
      ['>'.toUInt8] ++ Text.utf8 rest) := by
    conv => lhs; rw [ht]
    rw [Text.utf8_append, Text.utf8_append, Text.utf8_cons, List.append_assoc]
    rfl
  have hnameLength : (tag.extent pos).name.stop - (tag.extent pos).name.start =
      (Text.utf8 tag.name).length := by
    rw [Text.length_utf8]
    exact Nat.add_sub_cancel_left ..
  have hlength : (tag.extent pos).stop - (tag.extent pos).name.start =
      (Text.utf8 tag.name).length + (Text.utf8 tag.attributes ++ ['>'.toUInt8]).length := by
    rw [List.length_append, Text.length_utf8, Text.length_utf8]
    simp only [StartTag.extent, List.length_singleton]
    omega
  rw [hopen, nextTag?, if_pos (by decide), tagAt?_utf8, h]
  dsimp only [Option.map_some]
  rw [hnameLength, hlength, hutf8, List.take_left, ← List.drop_drop, List.drop_left, List.drop_left,
    Text.ofUtf8?_utf8, contentStop_utf8 hname, StartTag.resume]
  rw [Option.any_some]
  split <;> rfl

/-! ### All start tags -/

theorem Finds.unique (h : Finds bytes pos tags) (h' : Finds bytes pos tags') : tags = tags' := by
  induction h generalizing tags' with
  | done hnone =>
      cases h' with
      | done => rfl
      | next hsome => cases hnone.symm.trans hsome
  | next hsome _ ih =>
      cases h' with
      | done hnone => cases hnone.symm.trans hsome
      | next hsome' h' =>
          obtain ⟨rfl, rfl⟩ := Prod.mk.inj (Option.some.inj (hsome.symm.trans hsome'))
          rw [ih h']

/-- What is found from an offset on is found from every offset with the same first tag. -/
theorem Finds.of_nextTag?_eq (h : Finds bytes pos' tags)
    (heq : nextTag? pos (bytes.drop pos) = nextTag? pos' (bytes.drop pos')) :
    Finds bytes pos tags := by
  cases h with
  | done hnone => exact .done (heq.trans hnone)
  | next hsome htags => exact .next (heq.trans hsome) htags

theorem drop_utf8_append (t u : Text) : (Text.utf8 (t ++ u)).drop (Text.utf8Length t) = Text.utf8 u := by
  rw [Text.utf8_append, ← Text.length_utf8, List.drop_left]

theorem StartTag.extent_stop (pos : Nat) (tag : StartTag) :
    (tag.extent pos).stop = pos + Text.utf8Length tag.source := by
  have hlt : ('<').utf8Size = 1 := rfl
  have hgt : ('>').utf8Size = 1 := rfl
  simp only [extent, source, List.cons_append, Text.utf8Length, Text.utf8Length_append, hlt, hgt]
  omega

theorem Finds.of_read (h : StartTag.read? t = some (tag, rest)) {before : Text}
    (htags : Finds (Text.utf8 (before ++ '<' :: t)) (tag.resume (Text.utf8Length before) rest) tags) :
    Finds (Text.utf8 (before ++ '<' :: t)) (Text.utf8Length before)
      (tag.extent (Text.utf8Length before) :: tags) := by
  refine .next ?_ htags
  rw [drop_utf8_append, nextTag?_of_read h]

theorem Finds.of_passed {before : Text}
    (hpass : nextTag? (Text.utf8Length before) (Text.utf8 (c :: t)) =
      nextTag? (Text.utf8Length before + c.utf8Size) (Text.utf8 t))
    (h : Finds (Text.utf8 (before ++ [c] ++ t)) (Text.utf8Length (before ++ [c])) tags) :
    Finds (Text.utf8 (before ++ c :: t)) (Text.utf8Length before) tags := by
  have htext : before ++ c :: t = before ++ [c] ++ t := by
    rw [List.append_assoc, List.singleton_append]
  refine (htext ▸ h).of_nextTag?_eq ?_
  conv => rhs; rw [htext, drop_utf8_append, Text.utf8Length_append]
  rw [drop_utf8_append, hpass]
  rfl

/-- From the end of a text on, the scan of bytes finds the start tags of what follows. -/
theorem finds_append (before t : Text) :
    Finds (Text.utf8 (before ++ t)) (Text.utf8Length before)
      (tagExtents (Text.utf8Length before) (pieces t)) := by
  fun_induction pieces t generalizing before with
  | case1 =>
      refine .done ?_
      rw [drop_utf8_append]
      rfl
  | case2 t tag rest hr hx ih =>
      have htext : before ++ '<' :: t =
          before ++ tag.source ++ (spanContent tag.name rest).1 ++ (spanContent tag.name rest).2 := by
        rw [List.append_assoc, spanContent_source, List.append_assoc, StartTag.read?_source hr]
      have hresume : tag.resume (Text.utf8Length before) rest =
          Text.utf8Length (before ++ tag.source ++ (spanContent tag.name rest).1) := by
        rw [StartTag.resume, if_pos hx, StartTag.extent_stop, Text.utf8Length_append,
          Text.utf8Length_append]
      refine .of_read hr ?_
      rw [htext, hresume, ← Text.utf8Length_append, tagExtents, ← Text.utf8Length_append]
      exact ih _
  | case3 t tag rest hr hx ih =>
      have htext : before ++ '<' :: t = before ++ tag.source ++ rest := by
        rw [List.append_assoc, StartTag.read?_source hr]
      have hresume : tag.resume (Text.utf8Length before) rest =
          Text.utf8Length (before ++ tag.source) := by
        rw [StartTag.resume, if_neg hx, StartTag.extent_stop, Text.utf8Length_append]
      refine .of_read hr ?_
      rw [htext, hresume, ← Text.utf8Length_append]
      exact ih _
  | case4 t hr ih =>
      rw [tagExtents, ← Text.utf8Length_append]
      exact (ih _).of_passed (nextTag?_of_not_read hr _)
  | case5 c t hc ih =>
      rw [tagExtents, ← Text.utf8Length_append]
      exact (ih _).of_passed (nextTag?_utf8_cons hc _ t)

theorem finds_iff (t : Text) : Finds (Text.utf8 t) 0 tags ↔ tags = tagExtents 0 (pieces t) :=
  ⟨fun h => h.unique (finds_append [] t), fun h => h ▸ finds_append [] t⟩

/-! ### Places of start tags -/

/-- The parts of a start tag in order, between a `<` and a `>`. -/
structure TagExtent.WellPlaced (bytes : List UInt8) (tag : TagExtent) : Prop where
  name_start : tag.start + 1 = tag.name.start
  name_lt : tag.name.start < tag.name.stop
  attributes_start : tag.name.stop = tag.attributes.start
  attributes_le : tag.attributes.start ≤ tag.attributes.stop
  attributes_lt : tag.attributes.stop < tag.stop
  opens : bytes[tag.start]? = some '<'.toUInt8
  closes : bytes[tag.stop - 1]? = some '>'.toUInt8

def TagExtent.offsets (tag : TagExtent) : List Nat :=
  [tag.start, tag.name.start, tag.name.stop, tag.attributes.start, tag.attributes.stop, tag.stop]

theorem exists_of_mem_tagExtents {before : Text} {ps : List Piece} {e : TagExtent}
    (h : e ∈ tagExtents (Text.utf8Length before) ps) :
    ∃ tag u rest, .tag tag ∈ ps ∧ ps.flatMap Piece.source = u ++ (tag.source ++ rest) ∧
      e = tag.extent (Text.utf8Length (before ++ u)) := by
  induction ps generalizing before with
  | nil => cases h
  | cons p ps ih =>
      have hlater : e ∈ tagExtents (Text.utf8Length (before ++ p.source)) ps →
          ∃ tag u rest, .tag tag ∈ p :: ps ∧
            (p :: ps).flatMap Piece.source = u ++ (tag.source ++ rest) ∧
            e = tag.extent (Text.utf8Length (before ++ u)) := fun h => by
        obtain ⟨tag, u, rest, hmem, hsource, he⟩ := ih h
        refine ⟨tag, p.source ++ u, rest, List.mem_cons_of_mem _ hmem, ?_, ?_⟩
        · rw [List.flatMap_cons, hsource, List.append_assoc]
        · rw [he, List.append_assoc]
      rw [Text.utf8Length_append] at hlater
      cases p with
      | text t => exact hlater h
      | tag tag =>
          rcases List.mem_cons.1 h with rfl | h
          · exact ⟨tag, [], ps.flatMap Piece.source, List.mem_cons_self, rfl, by rw [List.append_nil]⟩
          · exact hlater h

theorem name_ne_nil_of_mem_pieces (h : .tag tag ∈ pieces t) : tag.name ≠ [] := by
  fun_induction pieces t with
  | case1 => cases h
  | case2 t tag' rest hr hx ih =>
      rcases List.mem_cons.1 h with htag | h
      · obtain rfl := Piece.tag.inj htag
        exact name_ne_nil_of_read? hr
      · exact ih (List.mem_of_ne_of_mem (by simp) h)
  | case3 t tag' rest hr hx ih =>
      rcases List.mem_cons.1 h with htag | h
      · obtain rfl := Piece.tag.inj htag
        exact name_ne_nil_of_read? hr
      · exact ih h
  | case4 t hr ih => exact ih (List.mem_of_ne_of_mem (by simp) h)
  | case5 c t hc ih => exact ih (List.mem_of_ne_of_mem (by simp) h)

theorem getElem?_utf8 (hc : c.toNat < 128) (before rest : Text) :
    (Text.utf8 (before ++ c :: rest))[Text.utf8Length before]? = some c.toUInt8 := by
  rw [← List.head?_drop, drop_utf8_append, Text.utf8_cons, Text.utf8EncodeChar_ascii hc]
  rfl

variable {before : Text}

/-- The offsets of a start tag are the lengths of what stands before its parts. -/
theorem extent_utf8Length (before : Text) (tag : StartTag) :
    tag.extent (Text.utf8Length before) =
      ⟨Text.utf8Length before,
        ⟨Text.utf8Length (before ++ ['<']), Text.utf8Length (before ++ '<' :: tag.name)⟩,
        ⟨Text.utf8Length (before ++ '<' :: tag.name),
          Text.utf8Length (before ++ '<' :: (tag.name ++ tag.attributes))⟩,
        Text.utf8Length (before ++ '<' :: (tag.name ++ tag.attributes)) + 1⟩ := by
  have hlt : ('<').utf8Size = 1 := rfl
  simp only [StartTag.extent, Text.utf8Length_append, Text.utf8Length, hlt, Nat.add_zero,
    Nat.add_assoc]

theorem wellPlaced_extent (hn : tag.name ≠ []) (ht : t = before ++ (tag.source ++ rest)) :
    (tag.extent (Text.utf8Length before)).WellPlaced (Text.utf8 t) where
  name_start := rfl
  name_lt := by
    have hname := mt Text.utf8Length_eq_zero_iff.1 hn
    exact Nat.lt_add_of_pos_right (Nat.pos_of_ne_zero hname)
  attributes_start := rfl
  attributes_le := Nat.le_add_right ..
  attributes_lt := Nat.lt_succ_self _
  opens := by
    rw [ht]
    exact getElem?_utf8 (by decide) before (tag.name ++ tag.attributes ++ ['>'] ++ rest)
  closes := by
    have hsource : t = before ++ '<' :: (tag.name ++ tag.attributes) ++ '>' :: rest := by
      simp [ht, StartTag.source]
    rw [extent_utf8Length, hsource]
    exact getElem?_utf8 (by decide) _ rest

theorem isBoundary_of_mem_offsets (ht : t = before ++ (tag.source ++ rest)) {n : Nat}
    (hn : n ∈ (tag.extent (Text.utf8Length before)).offsets) : Text.IsBoundary t n := by
  have hopen : Text.IsBoundary t (Text.utf8Length (before ++ ['<'])) :=
    Text.isBoundary_append (tag.name ++ tag.attributes ++ '>' :: rest) (by simp [ht, StartTag.source])
  have hname : Text.IsBoundary t (Text.utf8Length (before ++ '<' :: tag.name)) :=
    Text.isBoundary_append (tag.attributes ++ '>' :: rest) (by simp [ht, StartTag.source])
  have hclose : Text.IsBoundary t (Text.utf8Length (before ++ '<' :: (tag.name ++ tag.attributes))) :=
    Text.isBoundary_append ('>' :: rest) (by simp [ht, StartTag.source])
  have hstop : Text.IsBoundary t (Text.utf8Length (before ++ tag.source)) :=
    Text.isBoundary_append rest (by rw [ht, List.append_assoc])
  rw [Text.utf8Length_append, ← StartTag.extent_stop, extent_utf8Length] at hstop
  rw [extent_utf8Length] at hn
  simp only [TagExtent.offsets, List.mem_cons, List.not_mem_nil, or_false] at hn
  rcases hn with rfl | rfl | rfl | rfl | rfl | rfl
  · exact Text.isBoundary_append _ ht
  · exact hopen
  · exact hname
  · exact hname
  · exact hclose
  · exact hstop

theorem le_start_of_mem_tagExtents {ps : List Piece} {e : TagExtent} (h : e ∈ tagExtents pos ps) :
    pos ≤ e.start := by
  induction ps generalizing pos with
  | nil => cases h
  | cons p ps ih =>
      cases p with
      | text t => exact Nat.le_trans (Nat.le_add_right ..) (ih h)
      | tag tag =>
          rcases List.mem_cons.1 h with rfl | h
          · exact Nat.le_refl _
          · exact Nat.le_trans (Nat.le_add_right ..) (ih h)

/-- A start tag begins where the one before it has ended, or later. -/
theorem pairwise_tagExtents (pos : Nat) (ps : List Piece) :
    (tagExtents pos ps).Pairwise fun tag next => tag.stop ≤ next.start := by
  induction ps generalizing pos with
  | nil => exact .nil
  | cons p ps ih =>
      cases p with
      | text t => exact ih _
      | tag tag =>
          refine .cons (fun e he => ?_) (ih _)
          rw [StartTag.extent_stop]
          exact le_start_of_mem_tagExtents he

end AmpMarkup.Source
