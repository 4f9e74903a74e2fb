import Mathlib.Data.List.Forall2
import AmpMarkup.Proofs.Html.ReferenceReading
import AmpMarkup.Proofs.Html.WordTokens
import AmpMarkup.Proofs.Source.Likeness
import AmpMarkup.Proofs.Source.UniformEncoding

/-! The tokens of markup that the same symbols spell under two registries. The reader runs in step:
its states and the tokens that it gives are alike, until a stand-in shows in the name of an
attribute. -/

namespace AmpMarkup.Html

open Source (Registry Symbol Alike AlikeUnmarked AlikeName SameName Hides Delimited Spaced spell)

/-- The attributes have the same name in the source and alike values. -/
structure AttributeLike (r r' : Registry) (a a' : Attribute) : Prop where
  name : SameName r r' a.name a'.name
  text : Alike r r' a.text a'.text

/-- Whether one of the words shows in the name of an attribute. -/
def LeaksName (r : Registry) (words : List Text) (attributes : List Attribute) : Prop :=
  ∃ a ∈ attributes, ¬ Hides words (r.sourceName a.name)

/-- The attributes are alike in order, or a stand-in shows in the name of one. -/
def AttributesLike (r r' : Registry) (l l' : List Attribute) : Prop :=
  List.Forall₂ (AttributeLike r r') l l' ∨ LeaksName r (r.standIns ++ r'.standIns) l ∨
    LeaksName r' (r.standIns ++ r'.standIns) l'

/-- The unfinished tags are alike. -/
structure TagDraft.Like (r r' : Registry) (tag tag' : TagDraft) : Prop where
  isEnd : tag.isEnd = tag'.isEnd
  name : AlikeUnmarked r r' tag.name tag'.name
  attributes : AttributesLike r r' tag.attributes tag'.attributes

/-- The tokens are alike. Comments and document types need not be. -/
inductive Token.Like (r r' : Registry) : Token → Token → Prop where
  | doctype (name name' : Option Text) : Like r r' (.doctype name) (.doctype name')
  | startTag {name name' : Text} {attributes attributes' : List Attribute} (selfClosing : Bool)
      (hn : AlikeUnmarked r r' name name') (ha : AttributesLike r r' attributes attributes') :
      Like r r' (.startTag name attributes selfClosing) (.startTag name' attributes' selfClosing)
  | endTag {name name' : Text} (hn : AlikeUnmarked r r' name name') :
      Like r r' (.endTag name) (.endTag name')
  | comment (data data' : Text) : Like r r' (.comment data) (.comment data')
  | character (c : Char) : Like r r' (.character c) (.character c)
  | endOfFile : Like r r' .endOfFile .endOfFile

/-- The sequences of tokens are alike: token by token, or with the characters of stand-ins for the
same symbol. -/
inductive TokensLike (r r' : Registry) : List Token → List Token → Prop where
  | nil : TokensLike r r' [] []
  | cons {t t' : Token} {ts ts' : List Token} (ht : t.Like r r' t') (h : TokensLike r r' ts ts') :
      TokensLike r r' (t :: ts) (t' :: ts')
  | word {a : Symbol} {ts ts' : List Token}
      (ha : a = .mark ∨ ∃ d ∈ Source.delimiters, a = .delimiter d)
      (h : TokensLike r r' ts ts') :
      TokensLike r r' ((a.spell r.spelling).map .character ++ ts)
        ((a.spell r'.spelling).map .character ++ ts')

/-- The states are alike. What a comment or a document type has come to need not be. -/
inductive State.Like (r r' : Registry) : State → State → Prop where
  | content (reading : Reading) : Like r r' (.content reading) (.content reading)
  | tagOpen : Like r r' .tagOpen .tagOpen
  | endTagOpen : Like r r' .endTagOpen .endTagOpen
  | plainLessThan (references : Bool) (element : Text) :
      Like r r' (.plainLessThan references element) (.plainLessThan references element)
  | plainEndTagOpen (references : Bool) (element : Text) :
      Like r r' (.plainEndTagOpen references element) (.plainEndTagOpen references element)
  | plainEndTagName (references : Bool) (element written : Text) :
      Like r r' (.plainEndTagName references element written)
        (.plainEndTagName references element written)
  | tagName {tag tag' : TagDraft} (h : tag.Like r r' tag') :
      Like r r' (.tagName tag) (.tagName tag')
  | beforeAttribute {tag tag' : TagDraft} (h : tag.Like r r' tag') :
      Like r r' (.beforeAttribute tag) (.beforeAttribute tag')
  | attributeName {tag tag' : TagDraft} {name name' : Text} (h : tag.Like r r' tag')
      (hn : AlikeName r r' name name') :
      Like r r' (.attributeName tag name) (.attributeName tag' name')
  | afterAttributeName {tag tag' : TagDraft} {name name' : Text} (h : tag.Like r r' tag')
      (hn : AlikeName r r' name name') :
      Like r r' (.afterAttributeName tag name) (.afterAttributeName tag' name')
  | beforeValue {tag tag' : TagDraft} {name name' : Text} (h : tag.Like r r' tag')
      (hn : AlikeName r r' name name') : Like r r' (.beforeValue tag name) (.beforeValue tag' name')
  | inValue (quoting : Quoting) {tag tag' : TagDraft} {name name' value value' : Text}
      (h : tag.Like r r' tag') (hn : AlikeName r r' name name') (hv : Alike r r' value value') :
      Like r r' (.inValue quoting tag name value) (.inValue quoting tag' name' value')
  | afterQuotedValue {tag tag' : TagDraft} (h : tag.Like r r' tag') :
      Like r r' (.afterQuotedValue tag) (.afterQuotedValue tag')
  | solidus {tag tag' : TagDraft} (h : tag.Like r r' tag') : Like r r' (.solidus tag) (.solidus tag')
  | bogusComment (data data' : Text) : Like r r' (.bogusComment data) (.bogusComment data')
  | commentStart : Like r r' .commentStart .commentStart
  | commentStartDash : Like r r' .commentStartDash .commentStartDash
  | comment (data data' : Text) : Like r r' (.comment data) (.comment data')
  | commentDash (data data' : Text) : Like r r' (.commentDash data) (.commentDash data')
  | commentEnd (data data' : Text) : Like r r' (.commentEnd data) (.commentEnd data')
  | commentBang (data data' : Text) : Like r r' (.commentBang data) (.commentBang data')
  | beforeDoctypeName : Like r r' .beforeDoctypeName .beforeDoctypeName
  | doctypeName (name name' : Text) : Like r r' (.doctypeName name) (.doctypeName name')
  | afterDoctypeName (name name' : Text) :
      Like r r' (.afterDoctypeName name) (.afterDoctypeName name')

variable {r r' : Registry} {s s' : State} {c : Char} {tag tag' : TagDraft} {n n' : Text}
  {v v' : Option Text} {ts ts' us us' : List Token} {z : List Symbol}

theorem TokensLike.characters (t : Text) (h : TokensLike r r' ts ts') :
    TokensLike r r' (t.map .character ++ ts) (t.map .character ++ ts') := by
  induction t with
  | nil => exact h
  | cons c t ih => exact .cons (.character c) ih

theorem TokensLike.append (h : TokensLike r r' ts ts') (hu : TokensLike r r' us us') :
    TokensLike r r' (ts ++ us) (ts' ++ us') := by
  induction h with
  | nil => exact hu
  | cons ht _ ih => exact .cons ht ih
  | word ha _ ih =>
      rw [List.append_assoc, List.append_assoc]
      exact .word ha ih

theorem TokensLike.single {t t' : Token} (h : t.Like r r' t') : TokensLike r r' [t] [t'] :=
  .cons h .nil

/-! ### Attributes -/

theorem TagDraft.subset_add (tag : TagDraft) (n : Text) (v : Option Text) :
    ∀ a ∈ tag.attributes, a ∈ (tag.add n v).attributes := by
  intro a ha
  unfold TagDraft.add
  split
  · exact ha
  · exact List.mem_append_left _ ha

theorem TagDraft.exists_mem_add (tag : TagDraft) (n : Text) (v : Option Text) :
    ∃ a ∈ (tag.add n v).attributes, a.name = n := by
  unfold TagDraft.add
  split
  · next h =>
      obtain ⟨a, ha, he⟩ := List.any_eq_true.1 h
      exact ⟨a, ha, by simpa using he⟩
  · exact ⟨⟨n, v⟩, List.mem_append_right _ List.mem_cons_self, rfl⟩

theorem LeaksName.of_subset {words : List Text} {l l' : List Attribute}
    (h : LeaksName r words l) (hs : ∀ a ∈ l, a ∈ l') : LeaksName r words l' := by
  obtain ⟨a, ha, hw⟩ := h
  exact ⟨a, hs a ha, hw⟩

/-- Attributes that are alike have the same names. -/
theorem any_name_eq {l l' : List Attribute} (h : List.Forall₂ (AttributeLike r r') l l')
    (hn : SameName r r' n n') : l.any (·.name == n) = l'.any (·.name == n') := by
  induction h with
  | nil => rfl
  | cons ha _ ih =>
      rw [List.any_cons, List.any_cons, ih]
      congr 1
      rw [Bool.eq_iff_iff, beq_iff_eq, beq_iff_eq]
      exact ha.name.eq_iff hn

theorem tagDraftLike_new (isEnd : Bool) (name : Text) :
    TagDraft.Like r r' ⟨isEnd, name, []⟩ ⟨isEnd, name, []⟩ :=
  ⟨rfl, .same _, .inl .nil⟩

section
variable (hr : r.WellFormed) (hr' : r'.WellFormed)
include hr hr'

theorem TagDraft.Like.add (h : tag.Like r r' tag') (hn : AlikeName r r' n n')
    (hv : Alike r r' (v.getD []) (v'.getD [])) : (tag.add n v).Like r r' (tag'.add n' v') := by
  have hkeep : ∀ (tag : TagDraft) n v, (tag.add n v).isEnd = tag.isEnd ∧
      (tag.add n v).name = tag.name := fun tag n v => by
    unfold TagDraft.add
    split <;> exact ⟨rfl, rfl⟩
  refine ⟨?_, ?_, ?_⟩
  · rw [(hkeep ..).1, (hkeep ..).1, h.isEnd]
  · rw [(hkeep ..).2, (hkeep ..).2]
    exact h.name
  · rcases h.attributes with ha | hl | hl
    · by_cases hshow : Hides (r.standIns ++ r'.standIns) (r.sourceName n)
      · by_cases hshow' : Hides (r.standIns ++ r'.standIns) (r'.sourceName n')
        · have hsame := hn.same_of_hides hr hr' hshow hshow'
          refine .inl ?_
          rw [TagDraft.add, TagDraft.add, any_name_eq ha hsame]
          split
          · exact ha
          · exact List.rel_append ha (.cons ⟨hsame, hv⟩ .nil)
        · obtain ⟨a, ha, rfl⟩ := tag'.exists_mem_add n' v'
          exact .inr (.inr ⟨a, ha, hshow'⟩)
      · obtain ⟨a, ha, rfl⟩ := tag.exists_mem_add n v
        exact .inr (.inl ⟨a, ha, hshow⟩)
    · exact .inr (.inl (hl.of_subset (tag.subset_add n v)))
    · exact .inr (.inr (hl.of_subset (tag'.subset_add n' v')))

/-- Only a name that is the same under both registries is a name of the vocabulary. -/
theorem readingAfter_eq (h : AlikeUnmarked r r' n n') :
    TagDraft.readingAfter n = TagDraft.readingAfter n' := by
  rcases h.eq_or_substitute hr hr' with rfl | ⟨u, x, x', w, hw, w', hw', rfl, rfl⟩
  · rfl
  · have hplain : ∀ (w t : Text), Source.IsSubstitute w → w <:+: t →
        TagDraft.readingAfter t = .markup := by
      intro w t hw hi
      have hfalse : ∀ p : Text → Bool, (∀ name, p name = true →
          Vocabulary.isTextOnly name = true) → p t = false := by
        intro p hp
        refine Bool.eq_false_iff.2 fun ht => ?_
        obtain ⟨y, rfl⟩ := hw.eq_cons
        have := Source.toLower_mem_of_isTextOnly (hp t ht) (hi.subset List.mem_cons_self)
        cases this
      rw [TagDraft.readingAfter, hfalse Vocabulary.isEscapableText, hfalse Vocabulary.isRawText]
      · rfl
      · exact fun name h => by rw [Vocabulary.isTextOnly, h, Bool.true_or]
      · exact fun name h => by rw [Vocabulary.isTextOnly, h, Bool.or_true]
    rw [hplain w _ (Source.isSubstitute_of_mem hr hw) ⟨u, x, rfl⟩,
      hplain w' _ (Source.isSubstitute_of_mem hr' hw') ⟨u, x', rfl⟩]

end

/-! ### One character -/

/-- Choices by conditions that hold of both or of neither. -/
theorem rel_ite {α : Type} {R : α → α → Prop} {p q : Prop} [Decidable p] [Decidable q]
    {x x' y y' : α} (h : p ↔ q) (ht : p → R x x') (he : ¬ p → R y y') :
    R (if p then x else y) (if q then x' else y') := by
  by_cases hp : p
  · rw [if_pos hp, if_pos (h.1 hp)]
    exact ht hp
  · rw [if_neg hp, if_neg (mt h.2 hp)]
    exact he hp

/-- The steps are alike: so are their tokens and states, and what is left is spelled by the same
symbols, which are `z` unless the step looked ahead. It does not after a space. -/
def StepLike (r r' : Registry) (c : Char) (z : List Symbol) (a a' : Step) : Prop :=
  TokensLike r r' a.tokens a'.tokens ∧ a.state.Like r r' a'.state ∧
    ∃ y, y.length ≤ z.length ∧ Delimited y ∧ (y = z ∨ isSpace c = false ∧ Spaced false y) ∧
      a.rest = spell r.spelling y ∧ a'.rest = spell r'.spelling y

section
variable (hz : Delimited z)
include hz

theorem StepLike.of_tokens (ht : TokensLike r r' ts ts') (h : s.Like r r' s') :
    StepLike r r' c z ⟨ts, s, spell r.spelling z⟩ ⟨ts', s', spell r'.spelling z⟩ :=
  ⟨ht, h, z, Nat.le_refl _, hz, .inl rfl, rfl, rfl⟩

theorem StepLike.goto (h : s.Like r r' s') :
    StepLike r r' c z (.goto s (spell r.spelling z)) (.goto s' (spell r'.spelling z)) :=
  .of_tokens hz .nil h

theorem StepLike.emit {t t' : Token} (ht : t.Like r r' t') (h : s.Like r r' s') :
    StepLike r r' c z ⟨[t], s, spell r.spelling z⟩ ⟨[t'], s', spell r'.spelling z⟩ :=
  .of_tokens hz (.single ht) h

omit hz in
theorem StepLike.withText {a a' : Step} (t : Text) (h : StepLike r r' c z a a') :
    StepLike r r' c z (a.withText t) (a'.withText t) :=
  ⟨h.1.characters t, h.2⟩

theorem TagDraft.Like.finish (hr : r.WellFormed) (hr' : r'.WellFormed) (h : tag.Like r r' tag')
    (selfClosing : Bool) : StepLike r r' c z (tag.finish selfClosing (spell r.spelling z))
      (tag'.finish selfClosing (spell r'.spelling z)) := by
  rw [TagDraft.finish, TagDraft.finish, h.isEnd, readingAfter_eq hr hr' h.name]
  split
  · exact .emit hz (.endTag h.name) (.content _)
  · exact .emit hz (.startTag selfClosing h.name h.attributes) (.content _)

omit hz in
/-- A step that looked ahead. -/
theorem StepLike.ahead {y : List Symbol} (hl : y.length ≤ z.length) (hy : Delimited y)
    (hc : isSpace c = false) (hs : Spaced false y) (ht : TokensLike r r' ts ts')
    (h : s.Like r r' s') :
    StepLike r r' c z ⟨ts, s, spell r.spelling y⟩ ⟨ts', s', spell r'.spelling y⟩ :=
  ⟨ht, h, y, hl, hy, .inr ⟨hc, hs⟩, rfl, rfl⟩

section
variable (hr : r.WellFormed) (hr' : r'.WellFormed) (hs : Spaced (isSpace c) z)
include hr hr' hs

theorem stepLike_content (reading : Reading) :
    StepLike r r' c z (Step.content reading c (spell r.spelling z))
      (Step.content reading c (spell r'.spelling z)) := by
  cases reading with
  | markup =>
      unfold Step.content
      dsimp only
      split
      · exact .goto hz .tagOpen
      · split
        · next hc =>
            -- The reference behind the ampersand is the same in both texts.
            subst hc
            rcases CharacterReference.exists_read?_spell false hz hs with
              h | ⟨d, y, hl, hy, hsy, h⟩
            · rw [h r hr, h r' hr']
              exact .emit hz (.character _) (.content _)
            · rw [h r hr, h r' hr']
              exact .ahead hl hy rfl hsy (.single (.character _)) (.content _)
        · exact .emit hz (.character _) (.content _)
  | plain references element =>
      unfold Step.content
      dsimp only
      split
      · exact .goto hz (.plainLessThan ..)
      · split
        · next hc =>
            obtain ⟨rfl, -⟩ := hc
            rcases CharacterReference.exists_read?_spell false hz hs with
              h | ⟨d, y, hl, hy, hsy, h⟩
            · rw [h r hr, h r' hr']
              exact .emit hz (.character _) (.content _)
            · rw [h r hr, h r' hr']
              exact .ahead hl hy rfl hsy (.single (.character _)) (.content _)
        · split
          · exact .emit hz (.character _) (.content _)
          · exact .emit hz (.character _) (.content _)

omit hs in
theorem stepLike_declaration (hs : Spaced false z) (hc : isSpace c = false) :
    StepLike r r' c z (Step.declaration (spell r.spelling z))
      (Step.declaration (spell r'.spelling z)) := by
  have hchars : ∀ u : Text, u.all (fun c => !isSpace c && c != '_') = true →
      ∀ c ∈ u, isSpace c = false ∧ c ≠ '_' := fun u hu c hc => by
    simpa using List.all_eq_true.1 hu c hc
  have hsolid : ∀ c ∈ "doctype".toList, Source.isSolid c = true :=
    List.all_eq_true.1 (by decide)
  unfold Step.declaration
  rcases Source.exists_after? (hchars "--" (by decide)) hz hs with h | ⟨y, hl, hy, hsy, h⟩
  · rw [h r hr, h r' hr']
    rcases Source.exists_afterIgnoringCase? hsolid hz hs with h | ⟨y, hl, hy, hsy, h⟩
    · rw [h r hr, h r' hr']
      rcases Source.exists_after? (hchars "[CDATA[" (by decide)) hz hs with
        h | ⟨y, hl, hy, hsy, h⟩
      · rw [h r hr, h r' hr']
        exact .goto hz (.bogusComment ..)
      · rw [h r hr, h r' hr']
        exact .ahead hl hy hc hsy .nil (.bogusComment ..)
    · rw [h r hr, h r' hr']
      exact .ahead hl hy hc hsy .nil .beforeDoctypeName
  · rw [h r hr, h r' hr']
    exact .ahead hl hy hc hsy .nil .commentStart

omit hr hr' hs in
theorem stepLike_comment (data data' : Text) :
    StepLike r r' c z (Step.comment data c (spell r.spelling z))
      (Step.comment data' c (spell r'.spelling z)) := by
  refine rel_ite .rfl (fun _ => .goto hz (.commentDash ..)) fun _ => ?_
  exact rel_ite .rfl (fun _ => .goto hz (.comment ..)) fun _ => .goto hz (.comment ..)

omit hr hr' hs in
theorem stepLike_bogusComment (data data' : Text) :
    StepLike r r' c z (Step.bogusComment data c (spell r.spelling z))
      (Step.bogusComment data' c (spell r'.spelling z)) := by
  refine rel_ite .rfl (fun _ => .emit hz (.comment ..) (.content _)) fun _ => ?_
  exact rel_ite .rfl (fun _ => .goto hz (.bogusComment ..)) fun _ => .goto hz (.bogusComment ..)

omit hs in
theorem stepLike_beforeAttribute (h : tag.Like r r' tag') :
    StepLike r r' c z (Step.beforeAttribute tag c (spell r.spelling z))
      (Step.beforeAttribute tag' c (spell r'.spelling z)) := by
  refine rel_ite .rfl (fun _ => .goto hz (.beforeAttribute h)) fun _ => ?_
  refine rel_ite .rfl (fun _ => .goto hz (.solidus h)) fun _ => ?_
  refine rel_ite .rfl (fun _ => h.finish hz hr hr' false) fun _ => ?_
  exact .goto hz (.attributeName h (.inl (.same _)))

theorem stepLike_valueCharacter (quoting : Quoting) (h : tag.Like r r' tag')
    (hn : AlikeName r r' n n') {value value' : Text} (hv : Alike r r' value value') :
    StepLike r r' c z (Step.valueCharacter quoting tag n value c (spell r.spelling z))
      (Step.valueCharacter quoting tag' n' value' c (spell r'.spelling z)) := by
  have hadd : ∀ d, State.Like r r' (.inValue quoting tag n (value ++ [d]))
      (.inValue quoting tag' n' (value' ++ [d])) := fun d =>
    .inValue quoting h hn (hv.append (.same [d]))
  unfold Step.valueCharacter
  split
  · next hc =>
      subst hc
      rcases CharacterReference.exists_read?_spell true hz hs with hx | ⟨d, y, hl, hy, hsy, hx⟩
      · rw [hx r hr, hx r' hr']
        exact .goto hz (hadd _)
      · rw [hx r hr, hx r' hr']
        exact .ahead hl hy rfl hsy .nil (hadd d)
  · exact .goto hz (hadd c)

theorem stepLike_unquotedValue (h : tag.Like r r' tag') (hn : AlikeName r r' n n')
    {value value' : Text} (hv : Alike r r' value value') :
    StepLike r r' c z (Step.unquotedValue tag n value c (spell r.spelling z))
      (Step.unquotedValue tag' n' value' c (spell r'.spelling z)) := by
  have hadd : (tag.add n (some value)).Like r r' (tag'.add n' (some value')) :=
    h.add hr hr' hn hv
  refine rel_ite .rfl (fun _ => .goto hz (.beforeAttribute hadd)) fun _ => ?_
  refine rel_ite .rfl (fun _ => hadd.finish hz hr hr' false) fun _ => ?_
  exact stepLike_valueCharacter hz hr hr' hs .unquoted h hn hv

theorem stepLike_tagOpen :
    StepLike r r' c z (State.tagOpen.step c (spell r.spelling z))
      (State.tagOpen.step c (spell r'.spelling z)) := by
  refine rel_ite .rfl (fun hc => ?_) fun _ => ?_
  · subst hc
    exact stepLike_declaration hz hr hr' hs rfl
  refine rel_ite .rfl (fun _ => .goto hz .endTagOpen) fun _ => ?_
  refine rel_ite .rfl (fun _ => .goto hz (.tagName (tagDraftLike_new ..))) fun _ => ?_
  refine rel_ite .rfl (fun _ => stepLike_bogusComment hz [] []) fun _ => ?_
  exact (stepLike_content hz hr hr' hs .markup).withText _

theorem stepLike_plainEndTagName (references : Bool) (element written : Text) :
    StepLike r r' c z
      ((State.plainEndTagName references element written).step c (spell r.spelling z))
      ((State.plainEndTagName references element written).step c (spell r'.spelling z)) := by
  refine rel_ite .rfl (fun _ => .goto hz (.beforeAttribute (tagDraftLike_new ..))) fun _ => ?_
  refine rel_ite .rfl (fun _ => .goto hz (.solidus (tagDraftLike_new ..))) fun _ => ?_
  refine rel_ite .rfl (fun _ => (tagDraftLike_new true element).finish hz hr hr' false) fun _ => ?_
  refine rel_ite .rfl (fun _ => .goto hz (.plainEndTagName ..)) fun _ => ?_
  exact (stepLike_content hz hr hr' hs _).withText _

omit hs in
theorem stepLike_attributeName (h : tag.Like r r' tag') (hn : AlikeName r r' n n') :
    StepLike r r' c z ((State.attributeName tag n).step c (spell r.spelling z))
      ((State.attributeName tag' n').step c (spell r'.spelling z)) := by
  have hbare : (tag.add n none).Like r r' (tag'.add n' none) := h.add hr hr' hn (.same [])
  refine rel_ite .rfl (fun _ => .goto hz (.afterAttributeName h hn)) fun _ => ?_
  refine rel_ite .rfl (fun _ => .goto hz (.solidus hbare)) fun _ => ?_
  refine rel_ite .rfl (fun _ => hbare.finish hz hr hr' false) fun _ => ?_
  refine rel_ite .rfl (fun _ => .goto hz (.beforeValue h hn)) fun _ => ?_
  exact .goto hz (.attributeName h (hn.append (.same _)))

omit hs in
theorem stepLike_afterAttributeName (h : tag.Like r r' tag') (hn : AlikeName r r' n n') :
    StepLike r r' c z ((State.afterAttributeName tag n).step c (spell r.spelling z))
      ((State.afterAttributeName tag' n').step c (spell r'.spelling z)) := by
  have hbare : (tag.add n none).Like r r' (tag'.add n' none) := h.add hr hr' hn (.same [])
  refine rel_ite .rfl (fun _ => .goto hz (.afterAttributeName h hn)) fun _ => ?_
  refine rel_ite .rfl (fun _ => .goto hz (.solidus hbare)) fun _ => ?_
  refine rel_ite .rfl (fun _ => .goto hz (.beforeValue h hn)) fun _ => ?_
  refine rel_ite .rfl (fun _ => hbare.finish hz hr hr' false) fun _ => ?_
  exact .goto hz (.attributeName hbare (.inl (.same _)))

theorem stepLike_beforeValue (h : tag.Like r r' tag') (hn : AlikeName r r' n n') :
    StepLike r r' c z ((State.beforeValue tag n).step c (spell r.spelling z))
      ((State.beforeValue tag' n').step c (spell r'.spelling z)) := by
  refine rel_ite .rfl (fun _ => .goto hz (.beforeValue h hn)) fun _ => ?_
  refine rel_ite .rfl (fun _ => .goto hz (.inValue _ h hn (.same []))) fun _ => ?_
  refine rel_ite .rfl (fun _ => .goto hz (.inValue _ h hn (.same []))) fun _ => ?_
  refine rel_ite .rfl (fun _ => (h.add hr hr' hn (.same [])).finish hz hr hr' false) fun _ => ?_
  exact stepLike_unquotedValue hz hr hr' hs h hn (.same [])

/-- Reading one character keeps states alike. -/
theorem State.Like.step (h : s.Like r r' s') :
    StepLike r r' c z (s.step c (spell r.spelling z)) (s'.step c (spell r'.spelling z)) := by
  cases h with
  | content reading => exact stepLike_content hz hr hr' hs reading
  | tagOpen => exact stepLike_tagOpen hz hr hr' hs
  | endTagOpen =>
      refine rel_ite .rfl (fun _ => .goto hz (.tagName (tagDraftLike_new ..))) fun _ => ?_
      exact rel_ite .rfl (fun _ => .goto hz (.content _)) fun _ => stepLike_bogusComment hz [] []
  | plainLessThan references element =>
      refine rel_ite .rfl (fun _ => .goto hz (.plainEndTagOpen ..)) fun _ => ?_
      exact (stepLike_content hz hr hr' hs _).withText _
  | plainEndTagOpen references element =>
      refine rel_ite .rfl (fun _ => .goto hz (.plainEndTagName ..)) fun _ => ?_
      exact (stepLike_content hz hr hr' hs _).withText _
  | plainEndTagName references element written =>
      exact stepLike_plainEndTagName hz hr hr' hs references element written
  | tagName h =>
      refine rel_ite .rfl (fun _ => .goto hz (.beforeAttribute h)) fun _ => ?_
      refine rel_ite .rfl (fun _ => .goto hz (.solidus h)) fun _ => ?_
      refine rel_ite .rfl (fun _ => h.finish hz hr hr' false) fun _ => ?_
      exact .goto hz (.tagName ⟨h.isEnd, h.name.append (.same _), h.attributes⟩)
  | beforeAttribute h => exact stepLike_beforeAttribute hz hr hr' h
  | attributeName h hn => exact stepLike_attributeName hz hr hr' h hn
  | afterAttributeName h hn => exact stepLike_afterAttributeName hz hr hr' h hn
  | beforeValue h hn => exact stepLike_beforeValue hz hr hr' hs h hn
  | inValue quoting h hn hv =>
      cases quoting with
      | double =>
          refine rel_ite .rfl (fun _ => ?_) fun _ => stepLike_valueCharacter hz hr hr' hs _ h hn hv
          exact .goto hz (.afterQuotedValue (h.add hr hr' hn hv))
      | single =>
          refine rel_ite .rfl (fun _ => ?_) fun _ => stepLike_valueCharacter hz hr hr' hs _ h hn hv
          exact .goto hz (.afterQuotedValue (h.add hr hr' hn hv))
      | unquoted => exact stepLike_unquotedValue hz hr hr' hs h hn hv
  | afterQuotedValue h => exact stepLike_beforeAttribute hz hr hr' h
  | solidus h =>
      refine rel_ite .rfl (fun _ => h.finish hz hr hr' true) fun _ => ?_
      exact stepLike_beforeAttribute hz hr hr' h
  | bogusComment data data' => exact stepLike_bogusComment hz data data'
  | commentStart =>
      refine rel_ite .rfl (fun _ => .goto hz .commentStartDash) fun _ => ?_
      exact rel_ite .rfl (fun _ => .emit hz (.comment ..) (.content _))
        fun _ => stepLike_comment hz _ _
  | commentStartDash =>
      refine rel_ite .rfl (fun _ => .goto hz (.commentEnd ..)) fun _ => ?_
      exact rel_ite .rfl (fun _ => .emit hz (.comment ..) (.content _))
        fun _ => stepLike_comment hz _ _
  | comment data data' => exact stepLike_comment hz data data'
  | commentDash data data' =>
      exact rel_ite .rfl (fun _ => .goto hz (.commentEnd ..)) fun _ => stepLike_comment hz _ _
  | commentEnd data data' =>
      refine rel_ite .rfl (fun _ => .emit hz (.comment ..) (.content _)) fun _ => ?_
      refine rel_ite .rfl (fun _ => .goto hz (.commentBang ..)) fun _ => ?_
      exact rel_ite .rfl (fun _ => .goto hz (.commentEnd ..)) fun _ => stepLike_comment hz _ _
  | commentBang data data' =>
      refine rel_ite .rfl (fun _ => .goto hz (.commentDash ..)) fun _ => ?_
      exact rel_ite .rfl (fun _ => .emit hz (.comment ..) (.content _))
        fun _ => stepLike_comment hz _ _
  | beforeDoctypeName =>
      refine rel_ite .rfl (fun _ => .goto hz .beforeDoctypeName) fun _ => ?_
      exact rel_ite .rfl (fun _ => .emit hz (.doctype ..) (.content _))
        fun _ => .goto hz (.doctypeName ..)
  | doctypeName name name' =>
      refine rel_ite .rfl (fun _ => .goto hz (.afterDoctypeName ..)) fun _ => ?_
      exact rel_ite .rfl (fun _ => .emit hz (.doctype ..) (.content _))
        fun _ => .goto hz (.doctypeName ..)
  | afterDoctypeName name name' =>
      exact rel_ite .rfl (fun _ => .emit hz (.doctype ..) (.content _))
        fun _ => .goto hz (.afterDoctypeName ..)

end

end

end AmpMarkup.Html
