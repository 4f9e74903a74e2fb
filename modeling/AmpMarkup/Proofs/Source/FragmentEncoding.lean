import AmpMarkup.Proofs.Source.FragmentScan
import AmpMarkup.Proofs.Source.Template
import AmpMarkup.Proofs.Source.VoidClosing

/-! Encoding a fragment. The names of its binding attributes change and the delimiters in its texts
and values; what was written as text, value, name and tag stays what it was. -/

namespace AmpMarkup.Source

namespace Fragment

/-- The pieces that a fragment is cut into. -/
def pieces : Fragment → List Piece
  | .nil => []
  | .text t rest => t.map (.text [·]) ++ rest.pieces
  | .element tag attributes content rest =>
    .tag ⟨tag, attributes.flatMap attributeSource⟩ ::
      (content.pieces ++ (endTag tag).map (.text [·]) ++ rest.pieces)
  | .void tag attributes rest =>
    .tag ⟨tag, attributes.flatMap attributeSource⟩ :: rest.pieces

/-- The fragment with other names of attributes, and with other texts and values. -/
def map (name text : Text → Text) : Fragment → Fragment
  | .nil => .nil
  | .text t rest => .text (text t) (rest.map name text)
  | .element tag attributes content rest =>
    .element tag (attributes.map fun a => ⟨name a.name, a.value.map text⟩)
      (content.map name text) (rest.map name text)
  | .void tag attributes rest =>
    .void tag (attributes.map fun a => ⟨name a.name, a.value.map text⟩) (rest.map name text)

/-- The fragment as markup in which void elements have an end tag too. -/
def closedSource : Fragment → Text
  | .nil => []
  | .text t rest => t ++ rest.closedSource
  | .element tag attributes content rest =>
    startTagSource tag attributes ++ content.closedSource ++ endTag tag ++ rest.closedSource
  | .void tag attributes rest =>
    startTagSource tag attributes ++ endTag tag ++ rest.closedSource

end Fragment

/-- The name under which an attribute is kept. -/
def Registry.keptName (r : Registry) : Text → Text
  | '[' :: name => r.bindingName name.dropLast
  | name => name

/-- The fragment as it is encoded. -/
def Fragment.encoded (r : Registry) (f : Fragment) : Fragment :=
  f.map r.keptName r.substituteTemplates

variable {c : Char} {t u k tag name : Text} {a : Attribute} {attributes : List Attribute}
  {r : Registry} {f : Fragment}

/-! ### Pieces -/

theorem pieces_startTag (ht : IsTag tag) (ha : CanonicalAttributes attributes) (k : Text) :
    pieces (startTagSource tag attributes ++ k) =
      .tag ⟨tag, attributes.flatMap attributeSource⟩ :: pieces k := by
  have hread := read?_startTag ht.start ht.chars ha k
  rw [startTagSource, List.append_assoc, List.singleton_append, List.cons_append, List.cons_append]
  exact pieces_of_read hread ht.not_textOnly

theorem Fragment.pieces_source (h : f.Readable) (k : Text) :
    Source.pieces (f.source ++ k) = f.pieces ++ Source.pieces k := by
  induction f generalizing k with
  | nil => rfl
  | text t rest ih =>
      rw [source, List.append_assoc, pieces_text fun c hc => (h.1 c hc).1, ih h.2, pieces,
        List.append_assoc]
  | element tag attributes content rest ihc ihr =>
      obtain ⟨ht, -, ha, hc, hr⟩ := h
      rw [source, List.append_assoc, List.append_assoc, List.append_assoc, pieces_startTag ht ha,
        ihc hc, pieces_endTag ht.isNameChar, ihr hr, pieces]
      simp only [List.cons_append, List.append_assoc]
  | void tag attributes rest ih =>
      obtain ⟨ht, -, ha, hr⟩ := h
      rw [source, List.append_assoc, pieces_startTag ht ha, ih hr, pieces, List.cons_append]

/-! ### Renaming -/

/-- The attribute as it is kept. -/
def Registry.keptAttribute (r : Registry) (a : Attribute) : Attribute :=
  ⟨r.keptName a.name, a.value⟩

theorem IsBareName.keptName_eq (h : IsBareName name) : r.keptName name = name := by
  unfold Registry.keptName
  split
  · exact absurd rfl (h.ne_bracket '[' List.mem_cons_self)
  · rfl

theorem keptName_bracketed (r : Registry) (bare : Text) :
    r.keptName ('[' :: bare ++ [']']) = r.bindingName bare := by
  simp [Registry.keptName]

theorem encodedSource_foundAttribute (h : IsWrittenName a.name) :
    (foundAttribute a).encodedSource r = attributeSource (r.keptAttribute a) := by
  rw [attributeSource_eq, Registry.keptAttribute]
  rcases h with h | ⟨bare, -, hname⟩
  · rw [h.foundAttribute_eq, h.keptName_eq]
    simp [SourceAttribute.encodedSource, SourceAttribute.isBinding, SourceAttribute.writtenName]
  · rw [hname, keptName_bracketed]
    simp [foundAttribute, hname, SourceAttribute.encodedSource, SourceAttribute.isBinding]

theorem keptAttribute_of_not_isBinding (h : IsWrittenName a.name)
    (hb : (foundAttribute a).isBinding = false) : r.keptAttribute a = a := by
  rcases h with h | ⟨bare, -, hname⟩
  · rw [Registry.keptAttribute, h.keptName_eq]
  · simp [foundAttribute, hname, SourceAttribute.isBinding] at hb

theorem encodeSpan_attributes (h : CanonicalAttributes attributes) :
    encodeSpan r (attributes.flatMap attributeSource) =
      (attributes.map r.keptAttribute).flatMap attributeSource := by
  unfold encodeSpan
  rw [splitSolidus_attributes h]
  dsimp only
  rw [splitAttributes?_attributes h]
  dsimp only
  split
  · rw [List.append_nil, List.flatMap_map, List.flatMap_map, List.flatMap_def, List.flatMap_def]
    exact congrArg List.flatten
      (List.map_congr_left fun a ha => encodedSource_foundAttribute (h.names a ha))
  · next hany =>
      have hmap : attributes.map r.keptAttribute = attributes.map id := by
        refine List.map_congr_left fun a ha => ?_
        refine keptAttribute_of_not_isBinding (h.names a ha) (Bool.eq_false_iff.2 fun hb => hany ?_)
        exact List.any_eq_true.2 ⟨_, List.mem_map_of_mem ha, hb⟩
      rw [hmap, List.map_id]

theorem flatMap_text {g : Piece → Text} (hg : ∀ t, g (.text t) = t) (t : Text) :
    (t.map fun c => Piece.text [c]).flatMap g = t := by
  induction t with
  | nil => rfl
  | cons c t ih => rw [List.map_cons, List.flatMap_cons, ih, hg, List.singleton_append]

theorem map_keptName_id (r : Registry) (attributes : List Attribute) :
    (attributes.map fun a => (⟨r.keptName a.name, a.value.map id⟩ : Attribute)) =
      attributes.map r.keptAttribute := by
  simp only [Option.map_id, id]
  rfl

theorem Fragment.flatMap_pieces (h : f.Readable) :
    f.pieces.flatMap (·.encodedSource r) = (f.map r.keptName id).source := by
  induction f with
  | nil => rfl
  | text t rest ih =>
      rw [pieces, List.flatMap_append, flatMap_text fun _ => rfl, ih h.2, map, source, id]
  | element tag attributes content rest ihc ihr =>
      obtain ⟨-, -, ha, hc, hr⟩ := h
      rw [pieces, List.flatMap_cons, List.flatMap_append, List.flatMap_append,
        flatMap_text fun _ => rfl, ihc hc, ihr hr, map, source, map_keptName_id, Piece.encodedSource, encodeSpan_attributes ha]
      simp only [List.append_assoc]
      rfl
  | void tag attributes rest ih =>
      obtain ⟨-, -, ha, hr⟩ := h
      rw [pieces, List.flatMap_cons, ih hr, map, source, map_keptName_id, Piece.encodedSource,
        encodeSpan_attributes ha]
      rfl

/-- Renaming changes names of attributes and nothing else. -/
theorem Fragment.encodeBindings_source (h : f.Readable) :
    encodeBindings r f.source = (f.map r.keptName id).source := by
  have hp := pieces_source h []
  rw [List.append_nil, show Source.pieces [] = [] by rw [Source.pieces], List.append_nil] at hp
  rw [encodeBindings, hp, flatMap_pieces h]

/-! ### Substituting -/

/-- A character that no delimiter starts with. -/
def NoBrace (c : Char) : Prop :=
  c ≠ '\x7b' ∧ c ≠ '\x7d'

theorem noBrace_of_all (h : t.all (fun c => c != '\x7b' && c != '\x7d') = true) :
    ∀ c ∈ t, NoBrace c := by
  intro c hc
  simpa [NoBrace] using List.all_eq_true.1 h c hc

theorem noBrace_of_isNameChar (h : isNameChar c = true) : NoBrace c :=
  ⟨ne_of_isNameChar h (by decide), ne_of_isNameChar h (by decide)⟩

theorem head?_of_mem_delimiters :
    ∀ d ∈ delimiters, d.head? = some '\x7b' ∨ d.head? = some '\x7d' := by
  decide

theorem IsWrittenName.noBrace (h : IsWrittenName name) : ∀ c ∈ name, NoBrace c := fun c hc =>
  ⟨h.ne (by decide) (by decide) (by decide) c hc, h.ne (by decide) (by decide) (by decide) c hc⟩

theorem keptName_noBrace (hr : r.WellFormed) (h : IsWrittenName name) :
    ∀ c ∈ r.keptName name, NoBrace c := by
  rcases h with h | ⟨bare, hb, rfl⟩
  · rw [h.keptName_eq]
    exact IsWrittenName.noBrace (.inl h)
  · rw [keptName_bracketed]
    intro c hc
    refine noBrace_of_isNameChar ((List.mem_append.1 hc).elim ?_ ?_)
    · exact hr.isBindingMark.isNameChar_of_mem
    · exact fun hc => isNameChar_of_isLowerNameChar (hb.2 c hc)

section
variable {d new : Text} (hd : d ∈ delimiters)
include hd

/-- No delimiter starts in text without braces. -/
theorem replace_noBrace (hu : ∀ c ∈ u, NoBrace c) (k : Text) :
    Text.replace d new (u ++ k) = u ++ Text.replace d new k := by
  refine Text.replace_append_of_not_prefix fun v hv hsuf hp => ?_
  obtain ⟨c, v, rfl⟩ := List.exists_cons_of_ne_nil hv
  have hc := hu c (hsuf.subset List.mem_cons_self)
  obtain ⟨w, hw⟩ := hp
  have hhead := congrArg List.head? hw
  cases d with
  | nil => exact delimiter_ne_nil [] hd rfl
  | cons e d =>
      obtain rfl : e = c := Option.some.inj hhead
      rcases head?_of_mem_delimiters _ hd with h | h
      · exact hc.1 (Option.some.inj h)
      · exact hc.2 (Option.some.inj h)

theorem replace_attributeSource (hn : ∀ c ∈ a.name, NoBrace c) (k : Text) :
    Text.replace d new (attributeSource a ++ k) =
      attributeSource ⟨a.name, a.value.map (Text.replace d new)⟩ ++ Text.replace d new k := by
  have hname : ∀ c ∈ ' ' :: a.name, NoBrace c := by
    intro c hc
    rcases List.mem_cons.1 hc with rfl | hc
    · exact ⟨by decide, by decide⟩
    · exact hn c hc
  have hquote : '"' ∉ d := (by decide : ∀ d ∈ delimiters, '"' ∉ d) d hd
  cases hv : a.value with
  | none =>
      simp only [attributeSource, hv, Option.map_none, List.append_nil]
      exact replace_noBrace hd hname k
  | some v =>
      simp only [attributeSource, hv, Option.map_some]
      have hopen : ∀ c ∈ ' ' :: a.name ++ ['=', '"'], NoBrace c := by
        intro c hc
        rcases List.mem_append.1 hc with hc | hc
        · exact hname c hc
        · rcases List.mem_cons.1 hc with rfl | hc
          · exact ⟨by decide, by decide⟩
          · exact List.mem_singleton.1 hc ▸ ⟨by decide, by decide⟩
      have hstep : Text.replace d new (' ' :: a.name ++ ['=', '"'] ++ (v ++ '"' :: k)) =
          ' ' :: a.name ++ ['=', '"'] ++ Text.replace d new (v ++ '"' :: k) :=
        replace_noBrace hd hopen _
      rw [Text.replace_append_cons hquote] at hstep
      simpa using hstep

theorem replace_startTag (ht : IsTag tag) (ha : ∀ a ∈ attributes, ∀ c ∈ a.name, NoBrace c)
    (k : Text) :
    Text.replace d new (startTagSource tag attributes ++ k) =
      startTagSource tag (attributes.map fun a => ⟨a.name, a.value.map (Text.replace d new)⟩) ++
        Text.replace d new k := by
  have hattributes : ∀ k, Text.replace d new (attributes.flatMap attributeSource ++ k) =
      (attributes.map fun a => ⟨a.name, a.value.map (Text.replace d new)⟩).flatMap
        attributeSource ++ Text.replace d new k := by
    intro k
    induction attributes with
    | nil => rfl
    | cons a attributes ih =>
        rw [List.flatMap_cons, List.append_assoc,
          replace_attributeSource hd (ha a List.mem_cons_self),
          ih fun b hb => ha b (List.mem_cons_of_mem _ hb), List.map_cons, List.flatMap_cons,
          List.append_assoc]
  have htag : ∀ c ∈ '<' :: tag, NoBrace c := by
    intro c hc
    rcases List.mem_cons.1 hc with rfl | hc
    · exact ⟨by decide, by decide⟩
    · exact noBrace_of_isNameChar (ht.isNameChar c hc)
  have hclose : ∀ c ∈ ['>'], NoBrace c := fun c hc =>
    List.mem_singleton.1 hc ▸ ⟨by decide, by decide⟩
  rw [startTagSource, List.append_assoc, List.append_assoc, replace_noBrace hd htag, hattributes,
    replace_noBrace hd hclose, startTagSource, List.append_assoc, List.append_assoc]

theorem replace_endTag (ht : IsTag tag) (k : Text) :
    Text.replace d new (endTag tag ++ k) = endTag tag ++ Text.replace d new k := by
  refine replace_noBrace hd (fun c hc => ?_) k
  simp only [endTag, List.cons_append, List.mem_cons, List.mem_append, List.not_mem_nil,
    or_false] at hc
  rcases hc with rfl | rfl | hc | rfl
  · exact ⟨by decide, by decide⟩
  · exact ⟨by decide, by decide⟩
  · exact noBrace_of_isNameChar (ht.isNameChar c hc)
  · exact ⟨by decide, by decide⟩

/-- Replacing goes on afresh where a tag starts. -/
theorem replace_append_tag (hk : k.head?.all (· == '<') = true) :
    Text.replace d new (u ++ k) = Text.replace d new u ++ Text.replace d new k := by
  cases k with
  | nil => rw [List.append_nil, Text.replace_nil, List.append_nil]
  | cons c k =>
      obtain rfl : c = '<' := by simpa using hk
      have hlt : '<' ∉ d := (by decide : ∀ d ∈ delimiters, '<' ∉ d) d hd
      have hopen : ∀ c ∈ ['<'], NoBrace c := fun c hc =>
        List.mem_singleton.1 hc ▸ ⟨by decide, by decide⟩
      rw [Text.replace_append_cons hlt]
      exact congrArg (Text.replace d new u ++ ·) (replace_noBrace hd hopen k).symm

end

theorem Fragment.head?_source {name text : Text → Text} (hf : f.startsWithText = false)
    (hk : k.head?.all (· == '<') = true) :
    ((f.map name text).source ++ k).head?.all (· == '<') = true := by
  cases f with
  | nil => exact hk
  | text t rest => cases hf
  | element | void => rfl

/-- Replacing a delimiter in a fragment replaces it in each text and in each value. -/
theorem Fragment.replace_source {d : Text} (new : Text) (hd : d ∈ delimiters) (hr : r.WellFormed)
    (h : f.Readable) (hn : f.Normal) (g : Text → Text) (hk : k.head?.all (· == '<') = true) :
    Text.replace d new ((f.map r.keptName g).source ++ k) =
      (f.map r.keptName fun t => Text.replace d new (g t)).source ++ Text.replace d new k := by
  have hkept : ∀ {attributes : List Attribute}, CanonicalAttributes attributes →
      ∀ a ∈ attributes.map fun a => (⟨r.keptName a.name, a.value.map g⟩ : Attribute),
        ∀ c ∈ a.name, NoBrace c := by
    intro attributes ha a hmem
    obtain ⟨b, hb, rfl⟩ := List.mem_map.1 hmem
    exact keptName_noBrace hr (ha.names b hb)
  have hvalues : ∀ attributes : List Attribute,
      ((attributes.map fun a => (⟨r.keptName a.name, a.value.map g⟩ : Attribute)).map fun a =>
        (⟨a.name, a.value.map (Text.replace d new)⟩ : Attribute)) =
        attributes.map fun a => ⟨r.keptName a.name, a.value.map fun t => Text.replace d new (g t)⟩ := by
    intro attributes
    rw [List.map_map]
    refine List.map_congr_left fun a _ => ?_
    simp only [Function.comp_apply, Option.map_map]
    rfl
  induction f generalizing k with
  | nil => rfl
  | text t rest ih =>
      obtain ⟨-, hrest, hn⟩ := hn
      rw [map, map, source, source, List.append_assoc, List.append_assoc,
        replace_append_tag hd (head?_source hrest hk), ih h.2 hn hk]
  | element tag attributes content rest ihc ihr =>
      obtain ⟨ht, -, ha, hc, hr'⟩ := h
      rw [map, map, source, source]
      simp only [List.append_assoc]
      rw [replace_startTag hd ht (hkept ha), hvalues, ihc hc hn.1 (by rfl), replace_endTag hd ht,
        ihr hr' hn.2 hk]
  | void tag attributes rest ih =>
      obtain ⟨ht, -, ha, hr'⟩ := h
      rw [map, map, source, source, List.append_assoc, List.append_assoc,
        replace_startTag hd ht (hkept ha), hvalues, ih hr' hn hk]

/-- Replacing some delimiters in turn. -/
theorem Fragment.foldl_replace_source {ds : List Text} (new : Text → Text)
    (hd : ∀ d ∈ ds, d ∈ delimiters) (hr : r.WellFormed) (h : f.Readable) (hn : f.Normal)
    (g : Text → Text) :
    ds.foldl (fun t d => Text.replace d (new d) t) (f.map r.keptName g).source =
      (f.map r.keptName fun t =>
        ds.foldl (fun t d => Text.replace d (new d) t) (g t)).source := by
  induction ds generalizing g with
  | nil => rfl
  | cons d ds ih =>
      have hstep := replace_source (new d) (hd d List.mem_cons_self) hr h hn g (k := [])
        (by rfl)
      rw [List.append_nil, Text.replace_nil, List.append_nil] at hstep
      rw [List.foldl_cons, hstep, ih fun e he => hd e (List.mem_cons_of_mem _ he)]
      rfl

/-- Substituting templates in a fragment substitutes them in each text and in each value. -/
theorem Fragment.substituteTemplates_source (hr : r.WellFormed) (h : f.Readable)
    (hn : f.Normal) :
    r.substituteTemplates (f.map r.keptName id).source = (f.encoded r).source := by
  have hsub : r.substituteTemplates =
      fun t => delimiters.foldl (fun t d => Text.replace d (r.spelling.delimiter d) t) t :=
    funext hr.substituteTemplates_eq
  rw [encoded, hsub]
  exact foldl_replace_source _ (fun _ hd => hd) hr h hn id

end AmpMarkup.Source
