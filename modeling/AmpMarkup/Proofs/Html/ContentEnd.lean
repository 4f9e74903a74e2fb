import AmpMarkup.Proofs.Html.SourceTag

/-! Where the content of an element of plain text ends. The reader leaves the content at the first
end tag of the element in the text, whatever it has taken for the start of one before, and delivers
the text in front of it as characters. -/

namespace AmpMarkup.Html

/-- Whether a text starts with an end tag of an element. The character behind the name has a say. -/
def startsEndTag (name t : Text) : Bool :=
  (Text.after? "</" t).any fun u => (Text.afterIgnoringCase? name u).any Source.endsName

/-- What stands before the first end tag of an element, and what from there on. -/
def splitAtEndTag? (name : Text) : Text → Option (Text × Text)
  | [] => none
  | c :: t =>
    if startsEndTag name (c :: t) then some ([], c :: t)
    else (splitAtEndTag? name t).map fun (before, after) => (c :: before, after)

/-- What has been read of what may be the end tag, inside an element of plain text. -/
def State.held? : State → Option Text
  | .content (.plain ..) => some []
  | .plainLessThan .. => some ['<']
  | .plainEndTagOpen .. => some ['<', '/']
  | .plainEndTagName _ _ written => some ('<' :: '/' :: written)
  | _ => none

/-- The text from the `<` on with which the reader leaves an element of plain text. -/
def State.leave? (s : State) : Text → Option Text
  | [] => none
  | c :: t =>
    match (s.step c t).state.held? with
    | some _ => (s.step c t).state.leave? (s.step c t).rest
    | none => s.held?.map (· ++ c :: t)
termination_by t => t.length
decreasing_by exact Nat.lt_succ_of_le (State.step_length_le s c t)

/-- A character of plain text as it is delivered. -/
def visible (c : Char) : Char :=
  if c = '\x00' then replacement else c

/-- A reader inside an element of plain text, with what has been read of what may be its end tag. -/
inductive State.InContent (references : Bool) (element : Text) : State → Text → Prop where
  | content : InContent references element (.content (.plain references element)) []
  | lessThan : InContent references element (.plainLessThan references element) ['<']
  | endTagOpen : InContent references element (.plainEndTagOpen references element) ['<', '/']
  | endTagName {written : Text} (hw : ∀ c ∈ written, c.isAlpha = true) (hne : written ≠ []) :
    InContent references element (.plainEndTagName references element written)
      ('<' :: '/' :: written)

/-- The text `w`, of which `t` is left to read, is read up to the first end tag. Without references
it is delivered as it stands. -/
structure State.ReadsContent (references : Bool) (element : Text) (s : State) (w t : Text) :
    Prop where
  tokens : ∃ out : Text, (references = false →
      out = (((splitAtEndTag? element w).map Prod.fst).getD w).map visible) ∧
    s.tokens t = out.map .character ++
      Token.ofText (((splitAtEndTag? element w).map Prod.snd).getD [])
  leave : s.leave? t = (splitAtEndTag? element w).map Prod.snd

/-- The name of an element of plain text, in lower case. -/
structure IsElementName (element : Text) : Prop where
  letters : ∀ c ∈ element, c.isAlpha = true
  lower : element.lower = element
  nonempty : element ≠ []

variable {references : Bool} {s : State} {c : Char} {element name t u k p w rest : Text}

/-! ### End tags -/

theorem startsEndTag_iff : startsEndTag name t = true ↔
    ∃ (w : Text) (c : Char) (k : Text), t = '<' :: '/' :: (w ++ c :: k) ∧ w.lower = name.lower ∧
      isNameEnd c = true := by
  have hopen : "</".toList = ['<', '/'] := by decide
  rw [startsEndTag, Option.any_eq_true]
  constructor
  · rintro ⟨u, hu, he⟩
    obtain ⟨k, hk, hend⟩ := (Option.any_eq_true _ _).1 he
    obtain ⟨w, rfl, hw⟩ := Text.afterIgnoringCase?_eq_some_iff.1 hk
    cases k with
    | nil => cases hend
    | cons c k =>
        refine ⟨w, c, k, ?_, hw, hend⟩
        rw [Text.after?_eq_some_iff.1 hu, hopen]
        rfl
  · rintro ⟨w, c, k, rfl, hw, hc⟩
    refine ⟨w ++ c :: k, Text.after?_eq_some_iff.2 (by rw [hopen]; rfl), ?_⟩
    rw [Option.any_eq_true]
    exact ⟨c :: k, Text.afterIgnoringCase?_eq_some_iff.2 ⟨w, rfl, hw⟩, hc⟩

theorem startsEndTag_of_ne (h : c ≠ '<') : startsEndTag name (c :: t) = false := by
  refine Bool.eq_false_iff.2 fun hs => ?_
  obtain ⟨w, d, k, he, -⟩ := startsEndTag_iff.1 hs
  exact h (List.cons.inj he).1

theorem startsEndTag_lower (name t : Text) : startsEndTag name.lower t = startsEndTag name t := by
  rw [Bool.eq_iff_iff, startsEndTag_iff, startsEndTag_iff, Source.lower_lower]

theorem splitAtEndTag?_lower (name t : Text) :
    splitAtEndTag? name.lower t = splitAtEndTag? name t := by
  induction t with
  | nil => rfl
  | cons c t ih => rw [splitAtEndTag?, splitAtEndTag?, startsEndTag_lower, ih]

theorem splitAtEndTag?_cons (h : startsEndTag name (c :: t) = false) :
    splitAtEndTag? name (c :: t) = (splitAtEndTag? name t).map fun q => (c :: q.1, q.2) := by
  rw [splitAtEndTag?, h]
  rfl

theorem splitAtEndTag?_append (h : '<' ∉ u) (t : Text) :
    splitAtEndTag? name (u ++ t) = (splitAtEndTag? name t).map fun q => (u ++ q.1, q.2) := by
  induction u with
  | nil => simp
  | cons c u ih =>
      rw [List.mem_cons, not_or] at h
      rw [List.cons_append, splitAtEndTag?_cons (startsEndTag_of_ne (Ne.symm h.1)), ih h.2,
        Option.map_map]
      rfl

theorem splitAtEndTag?_of_starts (h : startsEndTag name t = true) :
    splitAtEndTag? name t = some ([], t) := by
  cases t with
  | nil => cases h
  | cons c t => rw [splitAtEndTag?, if_pos h]

/-- The first end tag in a text: an end tag starts there, and none before. -/
theorem splitAtEndTag?_eq_some {before after : Text}
    (h : splitAtEndTag? name t = some (before, after)) :
    t = before ++ after ∧ startsEndTag name after = true ∧
      ∀ u v : Text, before = u ++ v → v ≠ [] → startsEndTag name (v ++ after) = false := by
  induction t generalizing before with
  | nil => cases h
  | cons c t ih =>
      cases hs : startsEndTag name (c :: t) with
      | true =>
          rw [splitAtEndTag?_of_starts hs] at h
          cases h
          refine ⟨rfl, hs, fun u v he hv => absurd ?_ hv⟩
          exact (List.append_eq_nil_iff.1 he.symm).2
      | false =>
          rw [splitAtEndTag?_cons hs] at h
          obtain ⟨⟨before', after'⟩, hp, he⟩ := Option.map_eq_some_iff.1 h
          cases he
          obtain ⟨rfl, hstart, hfirst⟩ := ih hp
          refine ⟨rfl, hstart, fun u v he hv => ?_⟩
          cases u with
          | nil =>
              rw [List.nil_append] at he
              rw [← he]
              exact hs
          | cons d u => exact hfirst u v (List.cons.inj he).2 hv

theorem splitAtEndTag?_eq_none (h : splitAtEndTag? name t = none) (hu : u <:+ t) :
    startsEndTag name u = false := by
  induction t with
  | nil => exact List.suffix_nil.1 hu ▸ rfl
  | cons c t ih =>
      cases hs : startsEndTag name (c :: t) with
      | true =>
          rw [splitAtEndTag?_of_starts hs] at h
          cases h
      | false =>
          rw [splitAtEndTag?_cons hs] at h
          rcases List.suffix_cons_iff.1 hu with rfl | hu
          · exact hs
          · exact ih (Option.map_eq_none_iff.1 h) hu

/-! ### Steps -/

namespace State.InContent

theorem held?_eq (h : s.InContent references element p) : s.held? = some p := by
  cases h <;> rfl

/-- What is held back starts with the only `<` in it. -/
theorem eq_cons (h : s.InContent references element p) (hp : p ≠ []) :
    ∃ u : Text, p = '<' :: u ∧ '<' ∉ u := by
  cases h with
  | content => exact absurd rfl hp
  | lessThan => exact ⟨[], rfl, List.not_mem_nil⟩
  | endTagOpen => exact ⟨['/'], rfl, by decide⟩
  | endTagName hw =>
      refine ⟨_, rfl, fun hm => ?_⟩
      rcases List.mem_cons.1 hm with he | hm
      · exact absurd he (by decide)
      · exact absurd (hw _ hm) (by decide)

/-- No end tag starts in what is held back and will not become one. -/
theorem splitAtEndTag?_append (h : s.InContent references element p)
    (hp : p ≠ [] → startsEndTag element (p ++ k) = false) :
    splitAtEndTag? element (p ++ k) =
      (splitAtEndTag? element k).map fun q => (p ++ q.1, q.2) := by
  by_cases hnil : p = []
  · subst hnil
    exact Html.splitAtEndTag?_append List.not_mem_nil k
  · obtain ⟨u, rfl, hu⟩ := h.eq_cons hnil
    have hnot : startsEndTag element ('<' :: (u ++ k)) = false := hp hnil
    rw [List.cons_append, splitAtEndTag?_cons hnot, Html.splitAtEndTag?_append hu, Option.map_map]
    rfl

end State.InContent

/-- The letters behind `</` are the name of the element if a character behind them ends it. -/
theorem startsEndTag_word {written : Text} (he : IsElementName element)
    (hw : ∀ c ∈ written, c.isAlpha = true) (hc : c.isAlpha = false) (rest : Text) :
    startsEndTag element ('<' :: '/' :: (written ++ c :: rest)) = true ↔
      written.lower = element ∧ isNameEnd c = true := by
  rw [startsEndTag_iff, he.lower]
  constructor
  · rintro ⟨w, d, k, hsame, hlower, hd⟩
    have hletters : ∀ e ∈ w, e.isAlpha = true := fun e hm =>
      Source.isAlpha_of_toLower (he.letters _ (hlower ▸ List.mem_map_of_mem hm))
    have hstop : d.isAlpha = false := by
      refine Bool.eq_false_iff.2 fun ha => ?_
      rw [isNameEnd_of_isAlpha ha] at hd
      cases hd
    have hrest : written ++ c :: rest = w ++ d :: k := (List.cons.inj (List.cons.inj hsame).2).2
    have hword := congrArg (List.takeWhile Char.isAlpha) hrest
    rw [Text.takeWhile_append_stop hw (by simpa using hc),
      Text.takeWhile_append_stop hletters (by simpa using hstop)] at hword
    subst hword
    obtain ⟨rfl, -⟩ := List.cons.inj (List.append_cancel_left hrest)
    exact ⟨hlower, hd⟩
  · rintro ⟨hlower, hd⟩
    exact ⟨written, c, rest, rfl, hlower, hd⟩

/-- A character inside an element of plain text goes on with what may be the end tag, ends its name,
or shows that it is none. -/
inductive Step.InContentCases (references : Bool) (element : Text) (s : State) (p : Text) (c : Char)
    (rest : Text) : Prop where
  | goesOn {s' : State} (h : s.step c rest = .goto s' rest)
    (hs : s'.InContent references element (p ++ [c]))
  | endsName {written : Text} (h : s = .plainEndTagName references element written)
    (hname : written.lower = element) (hend : isNameEnd c = true)
    (hstep : s.step c rest = (State.beforeAttribute ⟨true, element, []⟩).step c rest)
  | givesUp (h : s.step c rest = (Step.content (.plain references element) c rest).withText p)
    (hp : p ≠ [] → startsEndTag element (p ++ c :: rest) = false)

theorem State.InContent.step_cases (h : s.InContent references element p)
    (he : IsElementName element) (c : Char) (rest : Text) :
    Step.InContentCases references element s p c rest := by
  cases h with
  | content => exact .givesUp rfl fun hne => absurd rfl hne
  | lessThan =>
      by_cases hc : c = '/'
      · subst hc
        exact .goesOn rfl .endTagOpen
      · refine .givesUp (if_neg hc) fun _ => Bool.eq_false_iff.2 fun hs => ?_
        obtain ⟨w, d, k, hsame, -⟩ := startsEndTag_iff.1 hs
        exact hc (List.cons.inj (List.cons.inj hsame).2).1
  | endTagOpen =>
      cases hc : c.isAlpha with
      | true =>
          refine .goesOn (if_pos hc) (.endTagName (fun d hd => ?_) (List.cons_ne_nil _ _))
          exact List.mem_singleton.1 hd ▸ hc
      | false =>
          refine .givesUp (if_neg (Bool.eq_false_iff.1 hc)) fun _ => ?_
          refine Bool.eq_false_iff.2 fun hs => ?_
          have hnone : ∀ d ∈ ([] : Text), d.isAlpha = true := fun _ h => nomatch h
          exact he.nonempty ((startsEndTag_word he hnone hc rest).1 hs).1.symm
  | @endTagName written hw hne =>
      cases hc : c.isAlpha with
      | true =>
          have hlonger : ∀ d ∈ written ++ [c], d.isAlpha = true := fun d hd =>
            (List.mem_append.1 hd).elim (hw d) fun hd => List.mem_singleton.1 hd ▸ hc
          have hs : (plainEndTagName references element (written ++ [c])).InContent references
              element ('<' :: '/' :: (written ++ [c])) := .endTagName hlonger (by simp)
          refine .goesOn ?_ hs
          dsimp only [State.step]
          rw [isSpace_of_isAlpha hc, if_neg fun h => Bool.false_ne_true h.1,
            if_neg fun h => ne_of_isAlpha hc rfl h.1, if_neg fun h => ne_of_isAlpha hc rfl h.1,
            if_pos hc]
      | false =>
          have hword := startsEndTag_word he hw hc rest
          -- The name is over: the tag ends the content if it is the element's name.
          cases hs : startsEndTag element ('<' :: '/' :: (written ++ c :: rest)) with
          | true =>
              obtain ⟨hname, hend⟩ := hword.1 hs
              refine .endsName rfl hname hend ?_
              dsimp only [State.step, Step.beforeAttribute]
              rcases isNameEnd_iff.1 hend with (hspace | rfl) | rfl
              · rw [if_pos ⟨hspace, hname⟩, if_pos hspace]
              · rw [if_neg fun h => absurd h.1 (by decide), if_pos ⟨rfl, hname⟩]
                rfl
              · rw [if_neg fun h => absurd h.1 (by decide), if_neg fun h => absurd h.1 (by decide),
                  if_pos ⟨rfl, hname⟩]
                rfl
          | false =>
              have hnot : written.lower = element → isNameEnd c = false := fun hname =>
                Bool.eq_false_iff.2 fun hend => by
                  rw [hword.2 ⟨hname, hend⟩] at hs
                  cases hs
              refine .givesUp ?_ fun _ => hs
              dsimp only [State.step]
              rw [if_neg, if_neg, if_neg, if_neg (Bool.eq_false_iff.1 hc)]
              all_goals
                rintro ⟨hchar, hname⟩
                have hend := hnot hname
                simp [isNameEnd, hchar] at hend

/-- A step from the text `w` on that delivers a part of it and goes on inside the element. No end
tag starts in that part. -/
inductive Step.Yields (references : Bool) (element w : Text) : Step → Prop where
  | mk {q u p t : Text} {s : State} (hs : s.InContent references element p)
    (hw : w = u ++ (p ++ t)) (hu : '<' ∉ u) (hq : references = false → q = u.map visible)
    (hl : t.length < w.length) : Yields references element w ⟨q.map .character, s, t⟩

/-- A character of the content is delivered, with what belongs to its reference, or it may start the
end tag. -/
theorem Step.yields_content (references : Bool) (element : Text) (c : Char) (rest : Text) :
    (content (.plain references element) c rest).Yields references element (c :: rest) := by
  have hone : ∀ d, c ≠ '<' → (references = false → d = visible c) →
      (Step.mk [.character d] (.content (.plain references element)) rest).Yields references
        element (c :: rest) := fun d hlt hd =>
    .mk (q := [d]) (u := [c]) .content rfl (by simpa using hlt.symm) (fun hr => by rw [hd hr]; rfl)
      (Nat.lt_succ_self _)
  unfold content
  by_cases hlt : c = '<'
  · subst hlt
    exact .mk (q := []) (u := []) .lessThan rfl List.not_mem_nil (fun _ => rfl) (Nat.lt_succ_self _)
  · dsimp only
    rw [if_neg hlt]
    by_cases hamp : c = '&' ∧ references = true
    · obtain ⟨rfl, rfl⟩ := hamp
      rw [if_pos ⟨rfl, rfl⟩]
      split
      · next d k hr =>
          obtain ⟨u, rfl, hu⟩ := CharacterReference.exists_read? hr
          have hopen : '<' ∉ '&' :: u := fun hm =>
            (List.mem_cons.1 hm).elim (fun he => absurd he (by decide)) fun hm =>
              absurd (hu _ hm) (by decide)
          have hl : k.length < ('&' :: (u ++ k)).length := by
            simp only [List.length_cons, List.length_append]
            omega
          exact .mk (q := [d]) .content rfl hopen nofun hl
      · exact hone '&' hlt nofun
    · rw [if_neg hamp]
      split
      · next hnull => exact hone replacement hlt fun _ => by rw [visible, if_pos hnull]
      · next hnull => exact hone c hlt fun _ => by rw [visible, if_neg hnull]

/-! ### Content -/

theorem ofText_nil : Token.ofText [] = [.endOfFile] := by
  rw [Token.ofText, State.tokens]
  rfl

namespace State

theorem InContent.notMem_null (h : s.InContent references element p) : '\x00' ∉ p := by
  intro hm
  cases h with
  | content => cases hm
  | lessThan | endTagOpen => exact absurd hm (by decide)
  | endTagName hw =>
      rcases List.mem_cons.1 hm with he | hm
      · exact absurd he (by decide)
      · rcases List.mem_cons.1 hm with he | hm
        · exact absurd he (by decide)
        · exact absurd (hw _ hm) (by decide)

theorem InContent.map_visible (h : s.InContent references element p) : p.map visible = p := by
  have hsame : ∀ d ∈ p, visible d = id d := fun d hd => by
    have hne : d ≠ '\x00' := fun he => h.notMem_null (he ▸ hd)
    rw [visible, if_neg hne]
    rfl
  rw [List.map_congr_left hsame, List.map_id]

/-- Reading on from a step that delivers text in which no end tag starts. -/
theorem ReadsContent.cons {q v : Text} {s' : State}
    (hstep : s.step c rest = ⟨q.map .character, s', t⟩) (hs : s'.InContent references element p)
    (hu : splitAtEndTag? element (u ++ v) =
      (splitAtEndTag? element v).map fun q => (u ++ q.1, q.2))
    (hq : references = false → q = u.map visible) (h : s'.ReadsContent references element v t) :
    s.ReadsContent references element (u ++ v) (c :: rest) where
  tokens := by
    obtain ⟨out, hout, htokens⟩ := h.tokens
    refine ⟨q ++ out, fun hr => ?_, ?_⟩
    · rw [hq hr, hout hr, hu]
      cases splitAtEndTag? element v <;> simp
    · rw [State.tokens_cons, hstep, htokens, hu, List.map_append, List.append_assoc, Option.map_map]
      rfl
  leave := by
    rw [State.leave?, hstep, hs.held?_eq, hu, Option.map_map]
    exact h.leave

/-- At the end of the input what is held back is delivered. -/
theorem InContent.readsContent_nil (h : s.InContent references element p) :
    s.ReadsContent references element p [] := by
  have hstart : startsEndTag element p = false := by
    refine Bool.eq_false_iff.2 fun hs => ?_
    obtain ⟨w, c, k, hp, -, hc⟩ := startsEndTag_iff.1 hs
    cases h with
    | content | lessThan => cases hp
    | endTagOpen => simp at hp
    | endTagName hw =>
        obtain rfl := (List.cons.inj (List.cons.inj hp).2).2
        rw [isNameEnd_of_isAlpha (hw c (List.mem_append_right w List.mem_cons_self))] at hc
        cases hc
  have hnone : splitAtEndTag? element p = none := by
    have hp := h.splitAtEndTag?_append (k := []) fun _ => by rwa [List.append_nil]
    rwa [List.append_nil] at hp
  have hfinish : s.finish = p.map .character := by cases h <;> rfl
  refine ⟨⟨p, fun _ => ?_, ?_⟩, ?_⟩
  · rw [hnone]
    exact h.map_visible.symm
  · rw [State.tokens, hfinish, hnone]
    exact congrArg _ ofText_nil.symm
  · rw [State.leave?, hnone]
    rfl

/-- Outside of the element its end tag is read like any other. -/
theorem ofText_endTag {written : Text} (hw : ∀ c ∈ written, c.isAlpha = true) (hne : written ≠ [])
    (hc : isNameEnd c = true) (t : Text) :
    Token.ofText ('<' :: '/' :: (written ++ c :: t)) =
      (State.beforeAttribute ⟨true, written.lower, []⟩).tokens (c :: t) := by
  obtain ⟨d, w, rfl⟩ := List.exists_cons_of_ne_nil hne
  have hopen : State.endTagOpen.step d (w ++ c :: t) =
      .goto (.tagName ⟨true, [d.toLower], []⟩) (w ++ c :: t) := if_pos (hw d List.mem_cons_self)
  have hword : ∀ e ∈ w, isNameEnd e = false := fun e he =>
    isNameEnd_of_isAlpha (hw e (List.mem_cons_of_mem _ he))
  rw [Token.ofText, State.tokens_goto rfl, State.tokens_goto rfl, List.cons_append,
    State.tokens_goto hopen, tokens_lower_tagName hword, State.tokens_cons, Source.step_tagName hc,
    ← State.tokens_cons]
  rfl

/-- The reader leaves the content where it has read the name of the end tag. -/
theorem InContent.readsContent_endTag {written : Text}
    (h : (State.plainEndTagName references element written).InContent references element p)
    (hname : written.lower = element) (hend : isNameEnd c = true)
    (hstep : (State.plainEndTagName references element written).step c t =
      (State.beforeAttribute ⟨true, element, []⟩).step c t) :
    (State.plainEndTagName references element written).ReadsContent references element (p ++ c :: t)
      (c :: t) := by
  cases h with
  | endTagName hw hne =>
      have hstart : splitAtEndTag? element ('<' :: '/' :: (written ++ c :: t)) =
          some ([], '<' :: '/' :: (written ++ c :: t)) :=
        splitAtEndTag?_of_starts
          (startsEndTag_iff.2 ⟨written, c, t, rfl, by rw [← hname, Source.lower_lower], hend⟩)
      have hleft : ((State.beforeAttribute ⟨true, element, []⟩).step c t).state.held? = none := by
        rcases isNameEnd_iff.1 hend with (hspace | rfl) | rfl
        · rw [State.step, Step.beforeAttribute, if_pos hspace]
          rfl
        · rfl
        · rfl
      refine ⟨⟨[], fun _ => ?_, ?_⟩, ?_⟩
      · rw [List.cons_append, List.cons_append, hstart]
        rfl
      · rw [List.cons_append, List.cons_append, hstart, State.tokens_cons, hstep]
        refine Eq.trans ?_ (ofText_endTag hw hne hend t).symm
        rw [hname, State.tokens_cons]
      · rw [List.cons_append, List.cons_append, hstart, State.leave?, hstep, hleft]
        rfl

/-- Characters that turn out to start no end tag are delivered, and reading goes on behind them. -/
theorem InContent.readsContent_givesUp {st : Step} (h : s.InContent references element p)
    (hp : p ≠ [] → startsEndTag element (p ++ c :: rest) = false)
    (hst : st.Yields references element (c :: rest)) (hstep : s.step c rest = st.withText p)
    (hrec : ∀ {s' : State} {q t : Text}, s'.InContent references element q →
      t.length < (c :: rest).length → s'.ReadsContent references element (q ++ t) t) :
    s.ReadsContent references element (p ++ c :: rest) (c :: rest) := by
  cases hst with
  | @mk q u p' t s' hs hw hu hq hl =>
      have hall : s.step c rest = ⟨(p ++ q).map .character, s', t⟩ := by
        rw [hstep, Step.withText, List.map_append]
      have hno : splitAtEndTag? element ((p ++ u) ++ (p' ++ t)) =
          (splitAtEndTag? element (p' ++ t)).map fun r => ((p ++ u) ++ r.1, r.2) := by
        rw [List.append_assoc, h.splitAtEndTag?_append (hw ▸ hp), Html.splitAtEndTag?_append hu,
          Option.map_map]
        simp only [List.append_assoc]
        rfl
      have hsource : p ++ c :: rest = (p ++ u) ++ (p' ++ t) := by rw [hw, List.append_assoc]
      rw [hsource]
      refine .cons hall hs hno (fun hr => ?_) (hrec hs hl)
      rw [List.map_append, h.map_visible, hq hr]

/-- Inside an element of plain text a text is read up to the first end tag. -/
theorem InContent.readsContent (h : s.InContent references element p) (he : IsElementName element)
    (t : Text) : s.ReadsContent references element (p ++ t) t := by
  -- A reference takes more than one character, so the induction is on the length of what is left.
  induction hn : t.length using Nat.strong_induction_on generalizing s p t with
  | _ n ih =>
    subst hn
    cases t with
    | nil =>
        rw [List.append_nil]
        exact h.readsContent_nil
    | cons c t =>
        cases h.step_cases he c t with
        | goesOn hstep hs =>
            have hrec := ih _ (Nat.lt_succ_self _) hs t rfl
            rw [List.append_assoc, List.singleton_append] at hrec
            exact .cons (q := []) (u := []) hstep hs (by simp) (fun _ => rfl) hrec
        | endsName hs hname hend hstep =>
            subst hs
            exact h.readsContent_endTag hname hend hstep
        | givesUp hstep hp =>
            exact h.readsContent_givesUp hp (Step.yields_content references element c t) hstep
              fun hs hl => ih _ hl hs _ rfl

end State

end AmpMarkup.Html
