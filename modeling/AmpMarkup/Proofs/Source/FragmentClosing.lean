import AmpMarkup.Proofs.Source.FragmentEncoding

/-! Closing the void elements of a fragment. The encoded fragment can be read like the fragment itself,
and each of its void elements gets an end tag. -/

namespace AmpMarkup.Source

variable {c : Char} {t u k tag name : Text} {a : Attribute} {attributes : List Attribute}
  {r : Registry} {f : Fragment}

/-! ### The encoded fragment -/

theorem isLowerNameChar_of_isLowerHex (h : isLowerHex c = true) : isLowerNameChar c = true := by
  rw [isLowerHex, Bool.or_eq_true] at h
  simp only [isLowerNameChar, Bool.or_eq_true]
  rcases h with h | h
  · exact .inl (.inl (.inr h))
  · refine .inl (.inl (.inl ?_))
    rw [Bool.and_eq_true, decide_eq_true_eq, decide_eq_true_eq] at h
    unfold Char.isLower
    rw [Bool.and_eq_true, decide_eq_true_eq, decide_eq_true_eq]
    exact ⟨h.1, Nat.le_trans h.2 (by decide)⟩

theorem IsBindingMark.isLowerNameChar_of_mem {mark : Text} (h : IsBindingMark mark)
    (hc : c ∈ mark) : isLowerNameChar c = true := by
  obtain ⟨f, hf, rfl⟩ := h
  rcases List.mem_append.1 hc with hc | hc
  · rcases List.mem_append.1 hc with hc | hc
    · exact List.all_eq_true.1 (by decide : bindingMarkStart.all isLowerNameChar = true) c hc
    · exact isLowerNameChar_of_isLowerHex (hf.digits c hc)
  · exact List.mem_singleton.1 hc ▸ by decide

/-- A kept name has no brackets. -/
theorem isBareName_keptName (hr : r.WellFormed) (h : IsWrittenName name) :
    IsBareName (r.keptName name) := by
  rcases h with h | ⟨bare, hb, rfl⟩
  · rwa [h.keptName_eq]
  · rw [keptName_bracketed]
    refine ⟨fun hn => hb.1 (List.append_eq_nil_iff.1 hn).2, fun c hc => ?_⟩
    exact (List.mem_append.1 hc).elim hr.isBindingMark.isLowerNameChar_of_mem (hb.2 c)

/-- Names without the mark are kept apart. -/
theorem keptName_inj {name' : Text} (h : IsWrittenName name) (h' : IsWrittenName name')
    (hm : ¬ r.bindingMark <:+: name) (hm' : ¬ r.bindingMark <:+: name')
    (he : r.keptName name = r.keptName name') : name = name' := by
  rcases h with h | ⟨bare, hb, rfl⟩ <;> rcases h' with h' | ⟨bare', hb', rfl⟩
  · rwa [h.keptName_eq, h'.keptName_eq] at he
  · rw [h.keptName_eq, keptName_bracketed] at he
    exact absurd (he ▸ (List.prefix_append ..).isInfix) hm
  · rw [h'.keptName_eq, keptName_bracketed] at he
    exact absurd (he ▸ (List.prefix_append ..).isInfix) hm'
  · rw [keptName_bracketed, keptName_bracketed] at he
    rw [List.append_cancel_left he]

theorem CanonicalAttributes.encoded (hr : r.WellFormed) (h : CanonicalAttributes attributes)
    (hm : ∀ a ∈ attributes, ¬ r.bindingMark <:+: a.name) :
    CanonicalAttributes
      (attributes.map fun a => ⟨r.keptName a.name, a.value.map r.substituteTemplates⟩) where
  names b hb := by
    obtain ⟨a, ha, rfl⟩ := List.mem_map.1 hb
    exact .inl (isBareName_keptName hr (h.names a ha))
  values b hb v hv c hc := by
    obtain ⟨a, ha, rfl⟩ := List.mem_map.1 hb
    obtain ⟨u, hu, rfl⟩ := Option.map_eq_some_iff.1 hv
    rcases mem_substituteTemplates hr hc with hc | hc
    · exact h.values a ha u hu c hc
    · exact ⟨ne_of_isNameChar hc (by decide), ne_of_isNameChar hc (by decide),
        ne_of_isNameChar hc (by decide)⟩
  nodup := by
    have hn : attributes.Pairwise fun a b => a.name ≠ b.name := List.pairwise_map.1 h.nodup
    refine List.pairwise_map.2 (List.pairwise_map.2 (hn.imp_of_mem fun ha hb hne he => hne ?_))
    exact keptName_inj (h.names _ ha) (h.names _ hb) (hm _ ha) (hm _ hb) he

theorem not_infix_name (hm : ¬ r.bindingMark <:+: startTagSource tag attributes) :
    ∀ a ∈ attributes, ¬ r.bindingMark <:+: a.name := by
  intro a ha h
  obtain ⟨before, after, rfl⟩ := List.append_of_mem ha
  refine hm (h.trans ?_)
  refine ⟨'<' :: tag ++ before.flatMap attributeSource ++ [' '],
    (valueSource a.value).getD [] ++ after.flatMap attributeSource ++ ['>'], ?_⟩
  simp [startTagSource, attributeSource_eq]

theorem Fragment.Readable.encoded (hr : r.WellFormed) (h : f.Readable)
    (hm : ¬ r.bindingMark <:+: f.source) : (f.encoded r).Readable := by
  induction f with
  | nil => trivial
  | text t rest ih =>
      refine ⟨fun c hc => ?_, ih h.2 fun hi => hm (List.infix_append_of_infix_right hi)⟩
      rcases mem_substituteTemplates hr hc with hc | hc
      · exact h.1 c hc
      · exact ⟨ne_of_isNameChar hc (by decide), ne_of_isNameChar hc (by decide),
          ne_of_isNameChar hc (by decide), ne_of_isNameChar hc (by decide),
          ne_of_isNameChar hc (by decide)⟩
  | element tag attributes content rest ihc ihr =>
      obtain ⟨ht, hv, ha, hc, hrest⟩ := h
      rw [source] at hm
      have hstart : ¬ r.bindingMark <:+: startTagSource tag attributes := fun hi =>
        hm (List.infix_append_of_infix_left (List.infix_append_of_infix_left
          (List.infix_append_of_infix_left hi)))
      have hcontent : ¬ r.bindingMark <:+: content.source := fun hi =>
        hm (List.infix_append_of_infix_left (List.infix_append_of_infix_left
          (List.infix_append_of_infix_right hi)))
      exact ⟨ht, hv, ha.encoded hr (not_infix_name hstart), ihc hc hcontent,
        ihr hrest fun hi => hm (List.infix_append_of_infix_right hi)⟩
  | void tag attributes rest ih =>
      obtain ⟨ht, hv, ha, hrest⟩ := h
      rw [source] at hm
      have hstart : ¬ r.bindingMark <:+: startTagSource tag attributes := fun hi =>
        hm (List.infix_append_of_infix_left hi)
      exact ⟨ht, hv, ha.encoded hr (not_infix_name hstart),
        ih hrest fun hi => hm (List.infix_append_of_infix_right hi)⟩

theorem Fragment.Normal.encoded (hr : r.WellFormed) (h : f.Normal) : (f.encoded r).Normal := by
  induction f with
  | nil => trivial
  | text t rest ih =>
      refine ⟨substituteTemplates_ne_nil hr h.1, ?_, ih h.2.2⟩
      cases rest with
      | text => cases h.2.1
      | nil | element | void => rfl
  | element tag attributes content rest ihc ihr => exact ⟨ihc h.1, ihr h.2⟩
  | void tag attributes rest ih => exact ih h

/-! ### End tags that follow -/

/-- An end tag of an element has the letters of the name in any case. -/
theorem startsWithEndTag_iff : startsWithEndTag name t = true ↔
    ∃ w rest : Text, t = '<' :: '/' :: w ++ '>' :: rest ∧ w.lower = name.lower := by
  rw [startsWithEndTag, Option.isSome_iff_exists]
  constructor
  · rintro ⟨rest, h⟩
    obtain ⟨v, rfl, hv⟩ := Text.afterIgnoringCase?_eq_some_iff.1 h
    obtain ⟨c, v, rfl, hc, hv⟩ := List.map_eq_cons_iff.1 hv
    obtain ⟨d, v, rfl, hd, hv⟩ := List.map_eq_cons_iff.1 hv
    obtain ⟨w, v, rfl, hw, hv⟩ := List.map_eq_append_iff.1 (hv.trans List.map_append)
    obtain ⟨e, rfl, he⟩ := List.map_eq_singleton_iff.1 hv
    obtain rfl := eq_of_toLower_eq hc (by decide)
    obtain rfl := eq_of_toLower_eq hd (by decide)
    obtain rfl := eq_of_toLower_eq he (by decide)
    exact ⟨w, rest, by simp, hw⟩
  · rintro ⟨w, rest, rfl, hw⟩
    refine ⟨rest, Text.afterIgnoringCase?_eq_some_iff.2 ⟨'<' :: '/' :: w ++ ['>'], by simp, ?_⟩⟩
    rw [Text.lower, Text.lower] at hw
    simp [endTag, Text.lower, hw]

theorem startsWithEndTag_endTag_append (name k : Text) :
    startsWithEndTag name (endTag name ++ k) = true :=
  startsWithEndTag_iff.2 ⟨name, k, by simp [endTag], rfl⟩

theorem startsWithEndTag_cons (name : Text) (h : c ≠ '<') (t : Text) :
    startsWithEndTag name (c :: t) = false := by
  rw [Bool.eq_false_iff, Ne, startsWithEndTag_iff]
  rintro ⟨w, rest, he, -⟩
  exact h (List.cons.inj he).1

theorem startsWithEndTag_startTag (name : Text) (ht : IsTag tag) (attributes : List Attribute)
    (k : Text) : startsWithEndTag name (startTagSource tag attributes ++ k) = false := by
  obtain ⟨c, tag, rfl⟩ := List.exists_cons_of_ne_nil ht.ne_nil
  rw [Bool.eq_false_iff, Ne, startsWithEndTag_iff]
  rintro ⟨w, rest, he, -⟩
  have hc : c = '/' := (List.cons.inj (List.cons.inj he).2).1
  exact ne_of_isNameChar (ht.isNameChar c List.mem_cons_self) (by decide) hc

theorem not_mem_of_lower_eq {w : Text} (hn : ∀ c ∈ name, isNameChar c = true)
    (hw : w.lower = name.lower) : '>' ∉ w := by
  intro h
  have hlower : '>' ∈ name.lower := hw ▸ List.mem_map_of_mem (f := Char.toLower) h
  obtain ⟨c, hc, he⟩ := List.mem_map.1 hlower
  exact ne_of_isNameChar (hn c hc) (by decide) (eq_of_toLower_eq he (by decide))

/-- The end tag of an element that is not void does not count for a void one. -/
theorem startsWithEndTag_endTag (hn : IsTag name) (hnv : Vocabulary.isVoid name = true)
    (ht : IsTag tag) (htv : Vocabulary.isVoid tag = false) (k : Text) :
    startsWithEndTag name (endTag tag ++ k) = false := by
  rw [Bool.eq_false_iff, Ne, startsWithEndTag_iff]
  rintro ⟨w, rest, he, hw⟩
  have hsplit : tag ++ '>' :: k = w ++ '>' :: rest := by simpa [endTag] using he
  obtain ⟨rfl, -⟩ := Text.append_cons_inj (not_mem_of_lower_eq ht.isNameChar rfl)
    (not_mem_of_lower_eq hn.isNameChar hw) hsplit
  rw [Vocabulary.isVoid, ← hw] at hnv
  exact Bool.false_ne_true (htv.symm.trans hnv)

namespace Fragment

theorem flatMap_source_pieces (h : f.Readable) : f.pieces.flatMap Piece.source = f.source := by
  have hp := pieces_source h []
  rw [List.append_nil, show Source.pieces [] = [] by rw [Source.pieces], List.append_nil] at hp
  rw [← hp, Source.flatMap_source_pieces]

/-- A fragment starts with no end tag. -/
theorem startsWithEndTag_source (h : f.Readable) (hn : f.Normal)
    (hk : startsWithEndTag name k = false) : startsWithEndTag name (f.source ++ k) = false := by
  cases f with
  | nil => exact hk
  | text t rest =>
      obtain ⟨c, t, rfl⟩ := List.exists_cons_of_ne_nil hn.1
      exact startsWithEndTag_cons name (h.1 c List.mem_cons_self).1 _
  | element tag attributes content rest =>
      rw [source, List.append_assoc, List.append_assoc, List.append_assoc]
      exact startsWithEndTag_startTag name h.1 attributes _
  | void tag attributes rest =>
      rw [source, List.append_assoc]
      exact startsWithEndTag_startTag name h.1 attributes _

theorem closePieces_text (t : Text) (ps : List Piece) :
    closePieces (t.map (.text [·]) ++ ps) = t ++ closePieces ps := by
  induction t with
  | nil => rfl
  | cons c t ih => rw [List.map_cons, List.cons_append, closePieces, ih]; rfl

/-- Every void element of a fragment gets an end tag. -/
theorem closePieces_pieces (h : f.Readable) (hn : f.Normal) (ps : List Piece)
    (hk : ∀ name, IsTag name → Vocabulary.isVoid name = true →
      startsWithEndTag name (ps.flatMap Piece.source) = false) :
    closePieces (f.pieces ++ ps) = f.closedSource ++ closePieces ps := by
  induction f generalizing ps with
  | nil => rfl
  | text t rest ih =>
      rw [pieces, List.append_assoc, closePieces_text, ih h.2 hn.2.2 ps hk, closedSource,
        List.append_assoc]
  | element tag attributes content rest ihc ihr =>
      obtain ⟨ht, hv, -, hc, hr⟩ := h
      have hrest : ∀ name, IsTag name → Vocabulary.isVoid name = true →
          startsWithEndTag name
            (((endTag tag).map (Piece.text [·]) ++ (rest.pieces ++ ps)).flatMap Piece.source) =
              false := by
        intro name hname hvoid
        rw [List.flatMap_append, flatMap_text fun _ => rfl]
        exact startsWithEndTag_endTag hname hvoid ht hv _
      rw [pieces, List.cons_append, closePieces, hv, Bool.false_and, if_neg Bool.false_ne_true,
        List.append_assoc, List.append_assoc, ihc hc hn.1 _ hrest, closePieces_text,
        ihr hr hn.2 ps hk, closedSource]
      simp [startTagSource, StartTag.source]
  | void tag attributes rest ih =>
      obtain ⟨ht, hv, -, hr⟩ := h
      have hnone : endTagFollows tag (rest.pieces ++ ps) = false := by
        rw [endTagFollows_eq, List.flatMap_append, flatMap_source_pieces hr]
        exact startsWithEndTag_source hr hn (hk tag ht hv)
      rw [pieces, List.cons_append, closePieces, hv, hnone, if_pos (by rfl), ih hr hn ps hk,
        closedSource]
      simp [startTagSource, StartTag.source]

theorem closeVoidElements_source (h : f.Readable) (hn : f.Normal) :
    closeVoidElements f.source = f.closedSource := by
  have hp := pieces_source h []
  have hc := closePieces_pieces h hn [] fun _ _ _ => rfl
  rw [closePieces] at hc
  rw [List.append_nil, show Source.pieces [] = [] by rw [Source.pieces]] at hp
  rw [closeVoidElements, hp, hc, List.append_nil]

/-- Encoding a fragment changes its names, texts and values and closes its void elements. -/
theorem encode_source (hr : r.WellFormed) (h : f.Readable) (hn : f.Normal)
    (he : (f.encoded r).Readable) : encode r f.source = (f.encoded r).closedSource := by
  rw [encode, encodeBindings_source h, substituteTemplates_source hr h hn,
    closeVoidElements_source he (hn.encoded hr)]

end Fragment

end AmpMarkup.Source
