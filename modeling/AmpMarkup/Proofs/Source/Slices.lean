import AmpMarkup.Proofs.Source.ByteSpan
import AmpMarkup.Proofs.Source.FragmentClosing

/-! Rewriting start tags by slices. The tags and their attributes are cut out of the text by the offsets
of their bytes, and so is what stands between them. Every one of these offsets is between characters,
so that no slice is missing, and the rewritten text is that of the pieces. -/

namespace AmpMarkup.Source

/-- The part of a text. -/
def Extent.slice? (t : Text) (e : Extent) : Option Text :=
  Text.slice? t e.start e.stop

/-- An attribute as cut out of its span, with the brackets and the equals sign. -/
structure RawAttribute where
  leading : Text
  name : Text
  value : Option Text
deriving DecidableEq, Repr

def AttributeExtent.slice? (span : Text) (e : AttributeExtent) : Option RawAttribute := do
  let leading ← e.leading.slice? span
  let name ← e.name.slice? span
  match e.value with
  | some value => (value.slice? span).map fun v => ⟨leading, name, some v⟩
  | none => some ⟨leading, name, none⟩

/-- The attributes of a span, and whether they are all of it. -/
def splitSlices? (span : Text) : Option (List RawAttribute × Bool) :=
  let p := scanAttributes (Text.utf8 span)
  (p.1.mapM (AttributeExtent.slice? span)).map (·, p.2)

/-- Where the spaces at the end of a span start, with at most one solidus among them. -/
def suffixStart? (span : Text) : Option Nat := do
  let stop := Text.utf8Length (span.rdropWhile isSpace)
  let trimmed ← Text.slice? span 0 stop
  if trimmed.getLast? = some '/' then
    let before ← Text.slice? span 0 (stop - 1)
    some (Text.utf8Length (before.rdropWhile isSpace))
  else some stop

def splitSuffix? (span : Text) : Option (Text × Text) := do
  let start ← suffixStart? span
  Text.splitAtByte? start span

/-- The name without brackets, if it starts with one. -/
def RawAttribute.bindingName? (a : RawAttribute) : Option Text :=
  if a.name.head? = some '[' then some (Text.trim (fun c => c == '[' || c == ']') a.name) else none

def RawAttribute.encoded (r : Registry) (a : RawAttribute) : Text :=
  a.leading ++ (a.bindingName?.map r.bindingName).getD a.name ++ a.value.getD []

/-- A rewritten text in the making: what is written of it, up to where that stands for the text, and how
many parts are changed. -/
structure Copying where
  out : Text
  copied : Nat
  changes : Nat

/-- Copies the text up to a part of it, and writes a new text instead of this. -/
def Copying.replace? (t : Text) (s : Copying) (old : Extent) (new : Text) : Option Copying :=
  (Text.slice? t s.copied old.start).map fun kept => ⟨s.out ++ kept ++ new, old.stop, s.changes + 1⟩

/-- Copies the rest of the text. -/
def Copying.finish? (t : Text) (s : Copying) : Option Text :=
  if s.changes = 0 then some t
  else (Text.slice? t s.copied (Text.utf8Length t)).map (s.out ++ ·)

/-- Rewrites a text tag by tag. There is no result if a slice is missing. -/
def rewriteTags? (step : Copying → TagExtent → Option Copying) (t : Text) (tags : List TagExtent) :
    Option Text := do
  let s ← tags.foldlM step ⟨[], 0, 0⟩
  s.finish? t

/-- Renames the binding attributes of a start tag. -/
def encodeTag? (r : Registry) (t : Text) (s : Copying) (tag : TagExtent) : Option Copying := do
  let span ← tag.attributes.slice? t
  if '[' ∈ span then
    let (body, suffix) ← splitSuffix? span
    let (attributes, complete) ← splitSlices? body
    if complete then
      if attributes.any (·.bindingName?.isSome) then
        s.replace? t tag.attributes (attributes.flatMap (·.encoded r) ++ suffix)
      else some s
    else
      -- A message tells the name of the tag that stays.
      (tag.name.slice? t).map fun _ => s
  else some s

/-- Whether a text starts with the end tag of an element, in any case. -/
def endTagStarts? (name t : Text) : Option Bool :=
  match Text.after? ['<', '/'] t with
  | none => some false
  | some behind =>
    match Text.splitAtByte? (Text.utf8Length name) behind with
    | none => some false
    | some (candidate, _) =>
      if Text.sameIgnoringCase candidate name then
        (Text.slice? behind (Text.utf8Length name) (Text.utf8Length behind)).map
          (·.head? == some '>')
      else some false

/-- Writes the end tag of a void element that lacks one. -/
def closeTag? (t : Text) (s : Copying) (tag : TagExtent) : Option Copying := do
  let name ← tag.name.slice? t
  if Vocabulary.isVoid name then
    let rest ← Text.slice? t tag.stop (Text.utf8Length t)
    if ← endTagStarts? name rest then some s
    else s.replace? t ⟨tag.stop, tag.stop⟩ (endTag name)
  else some s

/-! ### The same by characters -/

/-- What is written tag by tag, where a tag is written in view of the text behind it. -/
def writeTags (write : StartTag → Text → Text) : List Piece → Text
  | [] => []
  | .text t :: ps => t ++ writeTags write ps
  | .tag tag :: ps => write tag (ps.flatMap Piece.source) ++ writeTags write ps

/-- The attribute as it is cut out of its span. -/
def SourceAttribute.raw (a : SourceAttribute) : RawAttribute :=
  ⟨a.leading, a.writtenName, a.value⟩

variable {c : Char} {t u before behind rest span name old new written : Text} {n : Nat}
  {r : Registry} {a : SourceAttribute} {as : List SourceAttribute} {tag : StartTag}
  {ps : List Piece} {s : Copying} {step : Copying → TagExtent → Option Copying}
  {write : StartTag → Text → Text}

/-! ### Slices of a span -/

theorem slice?_extent (a : SourceAttribute) (ht : t = before ++ (a.source ++ rest)) :
    (a.extent (Text.utf8Length before)).slice? t = some a.raw := by
  have hleading : (a.extent (Text.utf8Length before)).leading.slice? t = some a.leading :=
    Text.slice?_append before _ (a.writtenName ++ a.value.getD [] ++ rest)
      (by simp [ht, SourceAttribute.source])
  have hname : (a.extent (Text.utf8Length before)).name.slice? t = some a.writtenName :=
    Text.slice?_eq_some_iff.2 ⟨before ++ a.leading, a.value.getD [] ++ rest,
      by simp [ht, SourceAttribute.source], Text.utf8Length_append .., rfl⟩
  have hvalue : ∀ v, a.value = some v →
      Text.slice? t (Text.utf8Length before + Text.utf8Length a.leading + Text.utf8Length a.writtenName)
        (Text.utf8Length before + Text.utf8Length a.leading + Text.utf8Length a.writtenName +
          Text.utf8Length v) = some v := fun v hv =>
    Text.slice?_eq_some_iff.2 ⟨before ++ a.leading ++ a.writtenName, rest,
      by simp [ht, hv, SourceAttribute.source],
      by rw [Text.utf8Length_append, Text.utf8Length_append], rfl⟩
  rw [AttributeExtent.slice?, hleading, hname]
  cases hv : a.value with
  | none => simp [SourceAttribute.extent, SourceAttribute.raw, hv]
  | some v => simp [SourceAttribute.extent, SourceAttribute.raw, Extent.slice?, hv, hvalue v hv]

theorem mapM_slice? (before : Text) (ht : t = before ++ (as.flatMap SourceAttribute.source ++ rest)) :
    (attributeExtents (Text.utf8Length before) as).mapM (AttributeExtent.slice? t) =
      some (as.map SourceAttribute.raw) := by
  induction as generalizing before with
  | nil => rfl
  | cons a as ih =>
      rw [List.flatMap_cons, List.append_assoc] at ht
      have has := ih (before ++ a.source) (by rw [ht, List.append_assoc])
      rw [Text.utf8Length_append] at has
      rw [attributeExtents, List.mapM_cons, slice?_extent a ht, has]
      rfl

/-- Every slice that splitting a span takes is there, also if the span does not split. -/
theorem splitSlices?_eq (span : Text) :
    splitSlices? span =
      some ((readAttributes span).1.map SourceAttribute.raw, (readAttributes span).2) := by
  obtain ⟨-, rest, hspan⟩ := readAttributes_spec span
  have hslices := mapM_slice? [] hspan
  rw [splitSlices?, scanAttributes_utf8]
  dsimp only
  rw [Text.utf8Length] at hslices
  rw [hslices, Option.map_some]

theorem suffixStart?_eq (span : Text) :
    suffixStart? span = some (Text.utf8Length (splitSolidus span).1) := by
  obtain ⟨trailing, -, hspan⟩ := trimEnd_append span
  simp only [suffixStart?, splitSolidus, List.rdropWhile]
  generalize (span.reverse.dropWhile isSpace).reverse = trimmed at hspan
  subst hspan
  rw [Text.slice?_front]
  rcases List.eq_nil_or_concat trimmed with rfl | ⟨u, c, rfl⟩
  · rfl
  · rw [List.concat_eq_append]
    by_cases hc : c = '/'
    · subst hc
      have hlength : Text.utf8Length (u ++ ['/']) - 1 = Text.utf8Length u := by
        rw [Text.utf8Length_append]
        exact Nat.add_sub_cancel ..
      have hbefore := Text.slice?_front u ('/' :: trailing)
      simp [hlength, hbefore]
    · simp [hc]

theorem splitSuffix?_eq (span : Text) : splitSuffix? span = some (splitSolidus span) := by
  obtain ⟨hspan, -⟩ := splitSolidus_spec span
  rw [splitSuffix?, suffixStart?_eq]
  exact Text.splitAtByte?_eq_some_iff.2 ⟨hspan, rfl⟩

/-! ### Binding attributes -/

theorem bindingName?_raw (h : a.Written) :
    a.raw.bindingName? = if a.opened then some a.name else none := by
  have hbracket : ∀ c ∈ a.name, (c == '[' || c == ']') = false := fun c hc => by
    have hopen := ne_of_isNameChar (d := '[') (h.name_chars c hc) (by decide)
    have hclose := ne_of_isNameChar (d := ']') (h.name_chars c hc) (by decide)
    simp [hopen, hclose]
  rw [RawAttribute.bindingName?, SourceAttribute.raw, SourceAttribute.writtenName]
  dsimp only
  cases a.opened with
  | false =>
      obtain ⟨c, name, hname⟩ := List.exists_cons_of_ne_nil h.name_ne
      have hc : c ≠ '[' := ne_of_isNameChar (h.name_chars c (hname ▸ List.mem_cons_self)) (by decide)
      simp [hname, hc]
  | true =>
      have hfront : ∀ c, (a.name ++ if a.closed then [']'] else []).head? = some c →
          (c == '[' || c == ']') = false := by
        obtain ⟨d, name, hname⟩ := List.exists_cons_of_ne_nil h.name_ne
        intro c hc
        obtain rfl : d = c := by simpa [hname] using hc
        exact hbracket d (hname ▸ List.mem_cons_self)
      have hback : ∀ c, a.name.reverse.head? = some c → (c == '[' || c == ']') = false :=
        fun c hc => hbracket c (List.mem_reverse.1 (List.mem_of_mem_head? hc))
      have hclosing : ∀ c ∈ (if a.closed then [']'] else [] : Text).reverse,
          (c == '[' || c == ']') = true := by
        cases a.closed <;> simp
      rw [Text.trim, if_pos rfl, List.append_assoc,
        Text.dropWhile_append_stop (by simp) hfront, List.reverse_append,
        Text.dropWhile_append_stop hclosing hback, List.reverse_reverse]
      simp

theorem encoded_raw (h : a.Written) : a.raw.encoded r = a.encodedSource r := by
  rw [RawAttribute.encoded, bindingName?_raw h, SourceAttribute.encodedSource,
    SourceAttribute.isBinding]
  cases a.opened <;> rfl

theorem mem_source_of_isBinding (h : a.isBinding = true) : '[' ∈ a.source := by
  have hopened : a.opened = true := h
  simp [SourceAttribute.source, SourceAttribute.writtenName, hopened]

/-- A span without an opening bracket has no binding attributes. -/
theorem encodeSpan_eq_self (h : '[' ∉ span) : encodeSpan r span = span := by
  rw [encodeSpan]
  dsimp only
  split
  · next as has =>
      rw [if_neg]
      intro hany
      obtain ⟨a, ha, hbinding⟩ := List.any_eq_true.1 hany
      obtain ⟨-, trailing, -, hbody⟩ := splitAttributes?_spec has
      obtain ⟨hspan, -⟩ := splitSolidus_spec span
      refine h ?_
      rw [hspan, hbody]
      exact List.mem_append_left _ (List.mem_append_left _
        (List.mem_flatMap.2 ⟨a, ha, mem_source_of_isBinding hbinding⟩))
  · rfl

/-! ### Rewriting tag by tag -/

/-- What is written of a text and what is left to copy up to a place in it, put together, is the new text
up to this place. -/
structure Copying.Covers (s : Copying) (before written : Text) : Prop where
  copied : ∃ kept pending, before = kept ++ pending ∧ Text.utf8Length kept = s.copied ∧
    written = s.out ++ pending
  unchanged : s.changes = 0 → written = before

namespace Copying.Covers

theorem start : Covers ⟨[], 0, 0⟩ [] [] :=
  ⟨⟨[], [], rfl, rfl, rfl⟩, fun _ => rfl⟩

theorem append (h : s.Covers before written) (u : Text) : s.Covers (before ++ u) (written ++ u) := by
  obtain ⟨⟨kept, pending, hbefore, hcopied, hwritten⟩, hunchanged⟩ := h
  refine ⟨⟨kept, pending ++ u, ?_, hcopied, ?_⟩, fun h => by rw [hunchanged h]⟩
  · rw [hbefore, List.append_assoc]
  · rw [hwritten, List.append_assoc]

/-- A part that starts behind what is covered can be replaced. -/
theorem replace? (h : s.Covers before written) (old new rest : Text)
    (ht : t = before ++ (old ++ rest)) :
    ∃ s', s.replace? t ⟨Text.utf8Length before, Text.utf8Length (before ++ old)⟩ new = some s' ∧
      s'.Covers (before ++ old) (written ++ new) := by
  obtain ⟨⟨kept, pending, rfl, hcopied, rfl⟩, -⟩ := h
  have hslice : Text.slice? t s.copied (Text.utf8Length (kept ++ pending)) = some pending := by
    rw [← hcopied, Text.utf8Length_append]
    exact Text.slice?_append _ _ _ (by rw [ht, List.append_assoc])
  rw [Copying.replace?, hslice, Option.map_some]
  refine ⟨_, rfl, ⟨kept ++ pending ++ old, [], ?_, rfl, ?_⟩, ?_⟩
  · rw [List.append_nil]
  · rw [List.append_nil]
  · exact fun h => absurd h (Nat.succ_ne_zero _)

theorem finish? (h : s.Covers t written) : s.finish? t = some written := by
  obtain ⟨⟨kept, pending, rfl, hcopied, rfl⟩, hunchanged⟩ := h
  rw [Copying.finish?]
  split
  · next hzero => rw [hunchanged hzero]
  · rw [← hcopied, Text.slice?_back, Option.map_some]

end Copying.Covers

/-- Whether a step, at a start tag in the text, writes what stands for the tag. -/
def StepWrites (t : Text) (step : Copying → TagExtent → Option Copying)
    (write : StartTag → Text → Text) : Prop :=
  ∀ (s : Copying) (before written : Text) (tag : StartTag) (rest : Text), s.Covers before written →
    t = before ++ (tag.source ++ rest) →
    ∃ s', step s (tag.extent (Text.utf8Length before)) = some s' ∧
      s'.Covers (before ++ tag.source) (written ++ write tag rest)

theorem StepWrites.foldlM (h : StepWrites t step write) (hs : s.Covers before written)
    (ht : t = before ++ ps.flatMap Piece.source) :
    ∃ s', (tagExtents (Text.utf8Length before) ps).foldlM step s = some s' ∧
      s'.Covers t (written ++ writeTags write ps) := by
  induction ps generalizing s before written with
  | nil =>
      rw [List.flatMap_nil, List.append_nil] at ht
      exact ⟨s, rfl, by rw [writeTags, List.append_nil, ht]; exact hs⟩
  | cons p ps ih =>
      rw [List.flatMap_cons] at ht
      cases p with
      | text u =>
          rw [tagExtents, writeTags, ← List.append_assoc, ← Text.utf8Length_append]
          exact ih (hs.append u) (by rw [ht, List.append_assoc]; rfl)
      | tag tag =>
          obtain ⟨s', hstep, hs'⟩ := h s before written tag _ hs ht
          obtain ⟨s'', hfold, hs''⟩ := ih hs' (by rw [ht, List.append_assoc]; rfl)
          refine ⟨s'', ?_, ?_⟩
          · rw [tagExtents, List.foldlM_cons, hstep, ← Text.utf8Length_append]
            exact hfold
          · rwa [writeTags, ← List.append_assoc]

/-- If every step writes what stands for its tag, the text is rewritten. -/
theorem StepWrites.rewriteTags? (h : StepWrites t step write) :
    rewriteTags? step t (tagExtents 0 (pieces t)) = some (writeTags write (pieces t)) := by
  have ht : t = [] ++ (pieces t).flatMap Piece.source := by
    rw [flatMap_source_pieces, List.nil_append]
  obtain ⟨s, hfold, hs⟩ := h.foldlM Copying.Covers.start ht
  rw [Text.utf8Length] at hfold
  rw [Source.rewriteTags?, hfold]
  exact hs.finish?

/-! ### Binding attributes by slices -/

theorem slice?_name (ht : t = before ++ (tag.source ++ rest)) :
    (tag.extent (Text.utf8Length before)).name.slice? t = some tag.name :=
  Text.slice?_eq_some_iff.2 ⟨before ++ ['<'], tag.attributes ++ '>' :: rest,
    by simp [ht, StartTag.source], Text.utf8Length_append .., rfl⟩

theorem slice?_attributes (ht : t = before ++ (tag.source ++ rest)) :
    (tag.extent (Text.utf8Length before)).attributes.slice? t = some tag.attributes := by
  rw [extent_utf8Length]
  exact Text.slice?_eq_some_iff.2 ⟨before ++ '<' :: tag.name, '>' :: rest,
    by simp [ht, StartTag.source], rfl, by simp [Text.utf8Length_append, Text.utf8Length]; omega⟩

theorem encodeSpan_of_split (has : splitAttributes? (splitSolidus span).1 = some as) :
    encodeSpan r span =
      if as.any SourceAttribute.isBinding then
        as.flatMap (·.encodedSource r) ++ (splitSolidus span).2
      else span := by
  rw [encodeSpan]
  dsimp only
  rw [has]

theorem any_raw (h : ∀ a ∈ as, a.Written) :
    (as.map SourceAttribute.raw).any (·.bindingName?.isSome) = as.any SourceAttribute.isBinding := by
  induction as with
  | nil => rfl
  | cons a as ih =>
      obtain ⟨ha, has⟩ := List.forall_mem_cons.1 h
      rw [List.map_cons, List.any_cons, List.any_cons, ih has, bindingName?_raw ha,
        SourceAttribute.isBinding]
      cases a.opened <;> rfl

theorem flatMap_encoded_raw (h : ∀ a ∈ as, a.Written) :
    (as.map SourceAttribute.raw).flatMap (·.encoded r) = as.flatMap (·.encodedSource r) := by
  rw [List.flatMap_map, List.flatMap_def, List.flatMap_def]
  exact congrArg List.flatten (List.map_congr_left fun a ha => encoded_raw (h a ha))

theorem Copying.Covers.replaceAttributes (h : s.Covers before written)
    (ht : t = before ++ (tag.source ++ rest)) (new : Text) :
    ∃ s', s.replace? t (tag.extent (Text.utf8Length before)).attributes new = some s' ∧
      s'.Covers (before ++ tag.source) (written ++ { tag with attributes := new }.source) := by
  obtain ⟨s', hreplace, hs'⟩ := (h.append ('<' :: tag.name)).replace? (t := t)
    tag.attributes new ('>' :: rest) (by simp [ht, StartTag.source])
  refine ⟨s', ?_, ?_⟩
  · rw [extent_utf8Length]
    simpa using hreplace
  · simpa [StartTag.source] using hs'.append ['>']

theorem encodeTag?_writes (r : Registry) (t : Text) :
    StepWrites t (encodeTag? r t) fun tag _ => (Piece.tag tag).encodedSource r := by
  intro s before written tag rest hs ht
  have hkept : encodeSpan r tag.attributes = tag.attributes →
      ∃ s', some s = some s' ∧ s'.Covers (before ++ tag.source)
        (written ++ (Piece.tag tag).encodedSource r) := fun h =>
    ⟨s, rfl, by rw [Piece.encodedSource, h]; exact hs.append tag.source⟩
  obtain ⟨hwritten, -⟩ := readAttributes_spec (splitSolidus tag.attributes).1
  have hsplit := splitAttributes?_eq (splitSolidus tag.attributes).1
  rw [encodeTag?, slice?_attributes ht, Option.bind_eq_bind, Option.bind_some]
  by_cases hopen : '[' ∈ tag.attributes
  · rw [if_pos hopen, splitSuffix?_eq, Option.bind_eq_bind, Option.bind_some]
    dsimp only
    rw [splitSlices?_eq, Option.bind_eq_bind, Option.bind_some]
    dsimp only
    cases hcomplete : (readAttributes (splitSolidus tag.attributes).1).2 with
    | false =>
        rw [hcomplete] at hsplit
        rw [if_neg Bool.false_ne_true, slice?_name ht, Option.map_some]
        exact hkept (by simp [encodeSpan, hsplit])
    | true =>
        rw [hcomplete] at hsplit
        rw [if_pos rfl, any_raw hwritten, flatMap_encoded_raw hwritten]
        have hencoded := encodeSpan_of_split (r := r) hsplit
        split
        · next hany =>
            rw [if_pos hany] at hencoded
            rw [← hencoded]
            exact hs.replaceAttributes ht _
        · next hany => exact hkept (by rw [hencoded, if_neg hany])
  · rw [if_neg hopen]
    exact hkept (encodeSpan_eq_self hopen)

theorem writeTags_encodedSource (r : Registry) (ps : List Piece) :
    writeTags (fun tag _ => (Piece.tag tag).encodedSource r) ps =
      ps.flatMap (Piece.encodedSource r) := by
  induction ps with
  | nil => rfl
  | cons p ps ih =>
      cases p with
      | text t => rw [writeTags, ih]; rfl
      | tag tag => rw [writeTags, ih]; rfl

/-! ### Void elements by slices -/

theorem utf8Size_toLower (c : Char) : c.toLower.utf8Size = c.utf8Size := by
  rcases toLower_eq_or_isLower c with h | h
  · rw [h]
  · have hlower := isAlpha_of_isLower h
    rw [Text.utf8Size_ascii (toNat_lt_of_isAlpha hlower),
      Text.utf8Size_ascii (toNat_lt_of_isAlpha (isAlpha_of_toLower hlower))]

theorem utf8Length_lower (t : Text) : Text.utf8Length t.lower = Text.utf8Length t := by
  induction t with
  | nil => rfl
  | cons c t ih => rw [Text.lower, List.map_cons, Text.utf8Length, utf8Size_toLower, Text.utf8Length, ← ih,
      Text.lower]

theorem endTagStarts?_eq (name t : Text) : endTagStarts? name t = some (startsWithEndTag name t) := by
  have hslice : ∀ candidate rest : Text, Text.utf8Length candidate = Text.utf8Length name →
      Text.slice? (candidate ++ rest) (Text.utf8Length name) (Text.utf8Length (candidate ++ rest)) =
        some rest := fun candidate rest hlength => by
    rw [← hlength, Text.slice?_back]
  cases hstarts : startsWithEndTag name t with
  | true =>
      obtain ⟨candidate, rest, rfl, hlower⟩ := startsWithEndTag_iff.1 hstarts
      have hlength : Text.utf8Length candidate = Text.utf8Length name := by
        rw [← utf8Length_lower, hlower, utf8Length_lower]
      have hcandidate : Text.splitAtByte? (Text.utf8Length name) (candidate ++ '>' :: rest) =
          some (candidate, '>' :: rest) :=
        Text.splitAtByte?_eq_some_iff.2 ⟨rfl, hlength⟩
      simp [endTagStarts?, Text.after?, hcandidate, Text.sameIgnoringCase, hlower,
        hslice candidate _ hlength]
  | false =>
      have hnot := mt startsWithEndTag_iff.2 (Bool.eq_false_iff.1 hstarts)
      rw [endTagStarts?]
      split
      · rfl
      · next behind hbehind =>
          obtain rfl := Text.after?_eq_some_iff.1 hbehind
          split
          · rfl
          · next candidate rest hcandidate =>
              obtain ⟨rfl, hlength⟩ := Text.splitAtByte?_eq_some_iff.1 hcandidate
              split
              · next hsame =>
                  rw [hslice candidate rest hlength, Option.map_some]
                  refine congrArg some (beq_eq_false_iff_ne.2 fun hclose => hnot ?_)
                  obtain ⟨rest, rfl⟩ := List.head?_eq_some_iff.1 hclose
                  exact ⟨candidate, rest, rfl, eq_of_beq hsame⟩
              · rfl

theorem closeTag?_writes (t : Text) :
    StepWrites t (closeTag? t) fun tag rest => tag.source ++
      if Vocabulary.isVoid tag.name && !startsWithEndTag tag.name rest then endTag tag.name else [] := by
  intro s before written tag rest hs ht
  have hsource := hs.append tag.source
  have hstop : (tag.extent (Text.utf8Length before)).stop = Text.utf8Length (before ++ tag.source) := by
    rw [StartTag.extent_stop, Text.utf8Length_append]
  have hrest : Text.slice? t (Text.utf8Length (before ++ tag.source)) (Text.utf8Length t) =
      some rest := by
    rw [ht, ← List.append_assoc, Text.slice?_back]
  rw [closeTag?, slice?_name ht, Option.bind_eq_bind, Option.bind_some, ← List.append_assoc]
  cases hvoid : Vocabulary.isVoid tag.name with
  | false =>
      refine ⟨s, rfl, ?_⟩
      simpa using hsource
  | true =>
      rw [if_pos rfl, hstop, hrest, Option.bind_eq_bind, Option.bind_some, endTagStarts?_eq,
        Option.bind_some]
      cases startsWithEndTag tag.name rest with
      | true =>
          refine ⟨s, rfl, ?_⟩
          simpa using hsource
      | false =>
          have hreplace := hsource.replace? (t := t) [] (endTag tag.name) rest
            (by rw [ht, List.append_assoc, List.nil_append])
          simpa using hreplace

theorem writeTags_closePieces (ps : List Piece) :
    writeTags (fun tag rest => tag.source ++
      if Vocabulary.isVoid tag.name && !startsWithEndTag tag.name rest then endTag tag.name else [])
      ps = closePieces ps := by
  induction ps with
  | nil => rfl
  | cons p ps ih =>
      cases p with
      | text t => rw [writeTags, ih]; rfl
      | tag tag => rw [writeTags, ih, closePieces_tag, List.append_assoc]

/-! ### Offsets between characters -/

def AttributeExtent.offsets (a : AttributeExtent) : List Nat :=
  [a.leading.start, a.leading.stop, a.name.start, a.name.stop] ++
    a.value.toList.flatMap fun v => [v.start, v.stop]

/-- The offsets in a text at which the span of a start tag is cut: at its suffix and at its attributes. -/
def TagExtent.cuts? (t : Text) (tag : TagExtent) : Option (List Nat) := do
  let span ← tag.attributes.slice? t
  let start ← suffixStart? span
  let (body, _) ← Text.splitAtByte? start span
  let cuts := (scanAttributes (Text.utf8 body)).1.flatMap AttributeExtent.offsets
  some ((start :: cuts).map (tag.attributes.start + ·))

theorem isBoundary_of_slice? {e : AttributeExtent} {a : RawAttribute} (h : e.slice? t = some a)
    (hn : n ∈ e.offsets) : Text.IsBoundary t n := by
  have hslice : ∀ (x : Extent) (u : Text), x.slice? t = some u →
      Text.IsBoundary t x.start ∧ Text.IsBoundary t x.stop := fun x u hx =>
    (Text.isSome_slice?_iff.1 (Option.isSome_of_eq_some hx)).2
  obtain ⟨leading, hleading, h⟩ := Option.bind_eq_some_iff.1 h
  obtain ⟨name, hname, h⟩ := Option.bind_eq_some_iff.1 h
  obtain ⟨hleadingStart, hleadingStop⟩ := hslice _ _ hleading
  obtain ⟨hnameStart, hnameStop⟩ := hslice _ _ hname
  rw [AttributeExtent.offsets] at hn
  cases hvalue : e.value with
  | none =>
      simp only [hvalue, Option.toList_none, List.flatMap_nil, List.append_nil, List.mem_cons,
        List.not_mem_nil, or_false] at hn
      rcases hn with rfl | rfl | rfl | rfl <;> assumption
  | some value =>
      rw [hvalue] at h
      obtain ⟨v, hv, -⟩ := Option.map_eq_some_iff.1 h
      obtain ⟨hvalueStart, hvalueStop⟩ := hslice _ _ hv
      simp only [hvalue, Option.toList_some, List.flatMap_cons, List.flatMap_nil, List.append_nil,
        List.cons_append, List.nil_append, List.mem_cons, List.not_mem_nil, or_false] at hn
      rcases hn with rfl | rfl | rfl | rfl | rfl | rfl <;> assumption

theorem isBoundary_of_mem_attributeExtents {e : AttributeExtent} (before : Text)
    (ht : t = before ++ (as.flatMap SourceAttribute.source ++ rest))
    (he : e ∈ attributeExtents (Text.utf8Length before) as) (hn : n ∈ e.offsets) :
    Text.IsBoundary t n := by
  induction as generalizing before with
  | nil => cases he
  | cons a as ih =>
      rw [List.flatMap_cons, List.append_assoc] at ht
      rcases List.mem_cons.1 he with rfl | he
      · exact isBoundary_of_slice? (slice?_extent a ht) hn
      · exact ih (before ++ a.source) (by rw [ht, List.append_assoc])
          (by rwa [Text.utf8Length_append])

theorem exists_cuts? (ht : t = before ++ (tag.source ++ rest)) :
    ∃ cuts, (tag.extent (Text.utf8Length before)).cuts? t = some cuts ∧
      ∀ n ∈ cuts, Text.IsBoundary t n := by
  obtain ⟨hspan, -⟩ := splitSolidus_spec tag.attributes
  have hbody : Text.splitAtByte? (Text.utf8Length (splitSolidus tag.attributes).1) tag.attributes =
      some (splitSolidus tag.attributes) :=
    Text.splitAtByte?_eq_some_iff.2 ⟨hspan, rfl⟩
  rw [TagExtent.cuts?, slice?_attributes ht, Option.bind_eq_bind, Option.bind_some, suffixStart?_eq,
    Option.bind_eq_bind, Option.bind_some, hbody, Option.bind_eq_bind, Option.bind_some]
  refine ⟨_, rfl, fun n hn => ?_⟩
  obtain ⟨m, hm, rfl⟩ := List.mem_map.1 hn
  have hcut : Text.IsBoundary tag.attributes m := by
    rcases List.mem_cons.1 hm with rfl | hm
    · exact Text.isBoundary_append _ hspan
    · obtain ⟨e, he, hme⟩ := List.mem_flatMap.1 hm
      obtain ⟨-, left, hleft⟩ := readAttributes_spec (splitSolidus tag.attributes).1
      rw [scanAttributes_utf8] at he
      have hbody := isBoundary_of_mem_attributeExtents [] hleft he hme
      have hadd := hbody.add [] _ hspan
      rwa [Text.utf8Length, Nat.zero_add] at hadd
  rw [extent_utf8Length]
  exact hcut.add (before ++ '<' :: tag.name) ('>' :: rest) (by simp [ht, StartTag.source])

/-- A scan of the bytes finds the start tags one after the other. Their offsets, and those at which their
attributes are cut apart, are between characters, so that rewriting the tags by slices misses none. -/
theorem found_tags_sliceable (r : Registry) (t : Text) :
    (∀ tags, Finds (Text.utf8 t) 0 tags ↔ tags = tagExtents 0 (pieces t)) ∧
      (∀ tag ∈ tagExtents 0 (pieces t), tag.WellPlaced (Text.utf8 t) ∧
        (∀ n ∈ tag.offsets, Text.IsBoundary t n) ∧
        ∃ cuts, tag.cuts? t = some cuts ∧ ∀ n ∈ cuts, Text.IsBoundary t n) ∧
      (tagExtents 0 (pieces t)).Pairwise (fun tag next => tag.stop ≤ next.start) ∧
      rewriteTags? (encodeTag? r t) t (tagExtents 0 (pieces t)) = some (encodeBindings r t) ∧
      rewriteTags? (closeTag? t) t (tagExtents 0 (pieces t)) = some (closeVoidElements t) := by
  refine ⟨fun tags => finds_iff t, fun e he => ?_, pairwise_tagExtents 0 _, ?_, ?_⟩
  · have he : e ∈ tagExtents (Text.utf8Length []) (pieces t) := he
    obtain ⟨tag, before, rest, hmem, hsource, rfl⟩ := exists_of_mem_tagExtents he
    rw [flatMap_source_pieces] at hsource
    exact ⟨wellPlaced_extent (name_ne_nil_of_mem_pieces hmem) hsource,
      fun n hn => isBoundary_of_mem_offsets hsource hn, exists_cuts? hsource⟩
  · rw [(encodeTag?_writes r t).rewriteTags?, writeTags_encodedSource]
    rfl
  · rw [(closeTag?_writes t).rewriteTags?, writeTags_closePieces]
    rfl

/-- Characters of two bytes beside quotes, brackets and tags. -/
def twoByteMarkup : Text :=
  "é<img alt='é>ü' [src]=ñ/>ö<title>é<br></title>ß<br>é"

set_option maxRecDepth 100000 in
theorem found_tags_sliceable_two_bytes :
    let tags : List TagExtent :=
      [⟨2, ⟨3, 6⟩, ⟨6, 28⟩, 29⟩, ⟨31, ⟨32, 37⟩, ⟨37, 37⟩, 38⟩, ⟨54, ⟨55, 57⟩, ⟨57, 57⟩, 58⟩]
    Finds (Text.utf8 twoByteMarkup) 0 tags ∧
      (∀ tag ∈ tags, ∃ cuts, tag.cuts? twoByteMarkup = some cuts ∧
        ∀ n ∈ cuts, Text.IsBoundary twoByteMarkup n) ∧
      rewriteTags? (encodeTag? ⟨[], "amp-binding-x-", []⟩ twoByteMarkup) twoByteMarkup tags =
        some ("é<img alt='é>ü' amp-binding-x-src=ñ/>ö<title>é<br></title>ß<br>é" : Text) ∧
      rewriteTags? (closeTag? twoByteMarkup) twoByteMarkup tags =
        some ("é<img alt='é>ü' [src]=ñ/></img>ö<title>é<br></title>ß<br></br>é" : Text) := by
  intro tags
  obtain ⟨hfinds, htags, -, hencode, hclose⟩ :=
    found_tags_sliceable ⟨[], "amp-binding-x-", []⟩ twoByteMarkup
  have heq : tags = tagExtents 0 (pieces twoByteMarkup) := by decide +kernel
  rw [← heq] at htags hencode hclose
  refine ⟨(hfinds tags).2 heq, fun tag hm => (htags tag hm).2.2, hencode.trans ?_, hclose.trans ?_⟩
  · decide +kernel
  · decide +kernel

end AmpMarkup.Source
