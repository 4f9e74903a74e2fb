import AmpMarkup.Proofs.Html.TagEnd
import AmpMarkup.Proofs.Html.WrittenTag
import AmpMarkup.Proofs.Text.Occurrence

/-! What a step of the reader can do. Its states come down to four regions: text, with the characters
of it that are held back, a tag, a comment and a document type. A step is one of a few transitions
between these, and what holds of the tokens of every text is shown for the transitions alone. -/

namespace AmpMarkup.Html

/-- What has been read of an attribute that the tag does not have yet. -/
inductive AttributeDraft where
  | none
  | name (name : Text)
  /-- Behind the equals sign. -/
  | value (name : Text)

/-- What the reader is in. -/
inductive Region where
  /-- Text between tags. The characters `held` may open a tag and have not been delivered. -/
  | text (reading : Reading) (held : Text)
  | tag (tag : TagDraft) (pending : AttributeDraft)
  | comment
  | doctype

def State.region : State → Region
  | .content reading => .text reading []
  | .tagOpen => .text .markup ['<']
  | .endTagOpen => .text .markup ['<', '/']
  | .plainLessThan references element => .text (.plain references element) ['<']
  | .plainEndTagOpen references element => .text (.plain references element) ['<', '/']
  | .plainEndTagName references element written =>
    .text (.plain references element) ('<' :: '/' :: written)
  | .tagName tag | .beforeAttribute tag | .afterQuotedValue tag | .solidus tag => .tag tag .none
  | .attributeName tag name | .afterAttributeName tag name => .tag tag (.name name)
  | .beforeValue tag name | .inValue _ tag name _ => .tag tag (.value name)
  | .bogusComment _ | .commentStart | .commentStartDash | .comment _ | .commentDash _
  | .commentEnd _ | .commentBang _ => .comment
  | .beforeDoctypeName | .doctypeName _ | .afterDoctypeName _ => .doctype

/-- What a character makes of a tag and of the attribute that comes next. -/
inductive TagDraft.Edits (c : Char) :
    TagDraft → AttributeDraft → TagDraft → AttributeDraft → Prop where
  | keep {tag : TagDraft} {pending : AttributeDraft} : Edits c tag pending tag pending
  | name {tag : TagDraft} (hc : isNameEnd c = false) :
    Edits c tag .none { tag with name := tag.name ++ [c.toLower] } .none
  | startAttribute {tag : TagDraft} (hc : isNameEnd c = false) :
    Edits c tag .none tag (.name [c.toLower])
  | attributeName {tag : TagDraft} {name : Text} (hc : isNameEnd c = false) (he : c ≠ '=') :
    Edits c tag (.name name) tag (.name (name ++ [c.toLower]))
  | value {tag : TagDraft} {name : Text} : Edits c tag (.name name) tag (.value name)
  | addBare {tag : TagDraft} {name : Text} : Edits c tag (.name name) (tag.add name none) .none
  | addBareBefore {tag : TagDraft} {name : Text} (hc : isNameEnd c = false) :
    Edits c tag (.name name) (tag.add name none) (.name [c.toLower])
  | add {tag : TagDraft} {name : Text} (value : Text) :
    Edits c tag (.value name) (tag.add name (some value)) .none

/-- A step inside a tag. It goes on in the tag, or it finishes the tag with no attribute left. -/
inductive Step.Edits (tag : TagDraft) (pending : AttributeDraft) (c : Char) (rest : Text) :
    Step → Prop where
  | goto {tag' : TagDraft} {pending' : AttributeDraft} {s : State} {k : Text}
    (h : tag.Edits c pending tag' pending') (hs : s.region = .tag tag' pending')
    (hk : k <:+ rest) : Edits tag pending c rest (.goto s k)
  | finish {tag' : TagDraft} (h : tag.Edits c pending tag' .none) (selfClosing : Bool) :
    Edits tag pending c rest (tag'.finish selfClosing rest)

/-- Text of a bogus comment: no `>` has closed it, and U+0000 has been replaced. -/
structure IsBogusText (data : Text) : Prop where
  close : '>' ∉ data
  null : '\x00' ∉ data

/-- What a step in a region can do with a character and the text behind it. -/
inductive Transition (c : Char) (rest : Text) : Region → Step → Prop where
  /-- The character is held back, too. -/
  | hold {reading : Reading} {held : Text} {s : State} (hc : c ≠ '\x00')
    (hs : s.region = .text reading (held ++ [c])) :
    Transition c rest (.text reading held) (.goto s rest)
  /-- What is held back is text, and the character is held back instead. -/
  | reopen {reading : Reading} {held : Text} {s : State} (hc : c = '<')
    (hs : s.region = .text reading [c]) :
    Transition c rest (.text reading held) ((Step.goto s rest).withText held)
  /-- The character is text like what is held back, maybe with more of a reference behind it. -/
  | character {reading : Reading} {held : Text} {d : Char} {k : Text}
    (hd : reading ≠ .markup → d ≠ '\x00') (hk : k <:+ rest) : Transition c rest (.text reading held)
      ((Step.mk [.character d] (.content reading) k).withText held)
  | startTag (hc : c.isAlpha = true) :
    Transition c rest (.text .markup ['<']) (.goto (.tagName ⟨false, [c.toLower], []⟩) rest)
  | endTag (hc : c.isAlpha = true) :
    Transition c rest (.text .markup ['<', '/']) (.goto (.tagName ⟨true, [c.toLower], []⟩) rest)
  /-- The name of the end tag of an element of plain text ends. -/
  | plainEndTag {references : Bool} {element held : Text} {st : Step}
    (h : st.Edits ⟨true, element, []⟩ .none c rest) :
    Transition c rest (.text (.plain references element) held) st
  /-- An end tag without a name is dropped. -/
  | drop {held : Text} : Transition c rest (.text .markup held) (.goto (.content .markup) rest)
  | comment {held k : Text} (hk : k <:+ rest) :
    Transition c rest (.text .markup held) (.goto .commentStart k)
  | bogusComment {held data k : Text} (hd : IsBogusText data) (hk : k <:+ rest) :
    Transition c rest (.text .markup held) (.goto (.bogusComment data) k)
  | doctype {held k : Text} (hk : k <:+ rest) :
    Transition c rest (.text .markup held) (.goto .beforeDoctypeName k)
  | inTag {tag : TagDraft} {pending : AttributeDraft} {st : Step}
    (h : st.Edits tag pending c rest) : Transition c rest (.tag tag pending) st
  | inComment {s : State} (hs : s.region = .comment) : Transition c rest .comment (.goto s rest)
  | endComment (data : Text) :
    Transition c rest .comment ⟨[.comment data], .content .markup, rest⟩
  | inDoctype {s : State} (hs : s.region = .doctype) : Transition c rest .doctype (.goto s rest)
  | endDoctype (name : Option Text) :
    Transition c rest .doctype ⟨[.doctype name], .content .markup, rest⟩

/-- What the end of the input completes in a region. -/
inductive Region.Finish : Region → List Token → Prop where
  | text {reading : Reading} {held : Text} : Finish (.text reading held) (held.map .character)
  | tag {tag : TagDraft} {pending : AttributeDraft} : Finish (.tag tag pending) []
  | comment (data : Text) : Finish .comment [.comment data]
  | doctype (name : Option Text) : Finish .doctype [.doctype name]

variable {c d : Char} {t rest k name data held : Text} {tag tag' : TagDraft}
  {reading : Reading}  {s : State} {st : Step} {pending pending' : AttributeDraft}

@[simp] theorem State.region_content (reading : Reading) :
    (State.content reading).region = .text reading [] :=
  rfl

/-! ### Character references and other text ahead -/

theorem CharacterReference.suffix_of_read? {inValue : Bool} (h : read? inValue t = some (d, rest)) :
    rest <:+ t := by
  obtain ⟨u, rfl, -⟩ := exists_read? h
  exact List.suffix_append u rest

theorem suffix_of_afterIgnoringCase? (h : Text.afterIgnoringCase? name t = some rest) :
    rest <:+ t := by
  obtain ⟨w, rfl, -⟩ := Text.afterIgnoringCase?_eq_some_iff.1 h
  exact List.suffix_append w rest

theorem suffix_of_after? (h : Text.after? name t = some rest) : rest <:+ t :=
  ⟨name, (Text.after?_eq_some_iff.1 h).symm⟩

theorem ne_null_of_isAlpha (h : c.isAlpha = true) : c ≠ '\x00' :=
  ne_of_isAlpha h rfl

theorem replacement_ne_null : replacement ≠ '\x00' := by
  decide

theorem scalarOrReplacement_ne_null (n : Nat) : scalarOrReplacement n ≠ '\x00' := by
  unfold scalarOrReplacement
  split
  · exact replacement_ne_null
  · next hn =>
      by_cases hv : n.isValidChar
      · rw [scalar?, dif_pos hv]
        exact fun he => hn (congrArg Char.toNat he)
      · rw [scalar?, dif_neg hv]
        exact replacement_ne_null

/-- No character reference denotes U+0000. -/
theorem CharacterReference.ne_null_of_read? {inValue : Bool} {t : Text}
    (h : read? inValue t = some (d, rest)) : d ≠ '\x00' := by
  have hdigits : ∀ base isDigit t, readDigits? base isDigit t = some (d, rest) → d ≠ '\x00' := by
    intro base isDigit t h
    unfold readDigits? at h
    split at h
    · cases h
    · obtain ⟨rfl, -⟩ := Prod.mk.inj (Option.some.inj h)
      exact scalarOrReplacement_ne_null _
  have hnames : ∀ n ∈ names, n.character ≠ '\x00' := by
    decide
  have hname : ∀ length, readName? inValue t length = some (d, rest) → d ≠ '\x00' := by
    intro length h
    induction length with
    | zero => cases h
    | succ length ih =>
        unfold readName? at h
        split at h
        · next n _ hn _ =>
            obtain ⟨rfl, -⟩ := Prod.mk.inj (Option.some.inj h)
            exact hnames n (List.mem_of_find?_eq_some hn)
        · next n hn _ =>
            split at h
            · split at h
              · cases h
              · obtain ⟨rfl, -⟩ := Prod.mk.inj (Option.some.inj h)
                exact hnames n (List.mem_of_find?_eq_some hn)
            · exact ih h
        · exact ih h
  unfold read? at h
  split at h
  · exact hdigits _ _ _ h
  · exact hdigits _ _ _ h
  · exact hdigits _ _ _ h
  · exact hname _ h

theorem isNameEnd_eq_false (hspace : ¬ isSpace c = true) (hs : c ≠ '/') (hc : c ≠ '>') :
    isNameEnd c = false :=
  Bool.eq_false_iff.2 fun h => (isNameEnd_iff.1 h).elim (fun h => h.elim hspace hs) hc

/-! ### Bogus comments -/

theorem isBogusText_nil : IsBogusText [] :=
  ⟨List.not_mem_nil, List.not_mem_nil⟩

theorem IsBogusText.append (h : IsBogusText data) (hc : c ≠ '>') (hn : c ≠ '\x00') :
    IsBogusText (data ++ [c]) :=
  ⟨by simp [h.close, hc.symm], by simp [h.null, hn.symm]⟩

/-- A bogus comment ends with the first `>`. -/
theorem Step.bogusComment_cases (h : IsBogusText data) (c : Char) (rest : Text) :
    (c = '>' ∧ bogusComment data c rest = ⟨[.comment data], .content .markup, rest⟩) ∨
      ∃ data', IsBogusText data' ∧ bogusComment data c rest = .goto (.bogusComment data') rest := by
  unfold Step.bogusComment
  split
  · next hc => exact .inl ⟨hc, rfl⟩
  · next hc =>
      refine .inr ?_
      split
      · exact ⟨_, h.append (by decide) (by decide), rfl⟩
      · next hn => exact ⟨_, h.append hc hn, rfl⟩

/-! ### Steps inside a tag -/

theorem TagDraft.Edits.isEnd_eq (h : tag.Edits c pending tag' pending') :
    tag'.isEnd = tag.isEnd := by
  cases h with
  | keep | name | startAttribute | attributeName | value => rfl
  | addBare | addBareBefore | add => exact isEnd_add ..


namespace Step

theorem edits_beforeAttribute (tag : TagDraft) (c : Char) (rest : Text) :
    (beforeAttribute tag c rest).Edits tag .none c rest := by
  unfold beforeAttribute
  refine iteInduction (fun _ => .goto .keep rfl List.suffix_rfl) fun hspace => ?_
  refine iteInduction (fun _ => .goto .keep rfl List.suffix_rfl) fun hs => ?_
  refine iteInduction (fun _ => .finish .keep false) fun hc => ?_
  exact .goto (.startAttribute (isNameEnd_eq_false hspace hs hc)) rfl List.suffix_rfl

theorem edits_valueCharacter (quoting : Quoting) (tag : TagDraft) (name value : Text) (c : Char)
    (rest : Text) :
    (valueCharacter quoting tag name value c rest).Edits tag (.value name) c rest := by
  unfold valueCharacter
  refine iteInduction (fun _ => ?_) fun _ => .goto .keep rfl List.suffix_rfl
  split
  · next h => exact .goto .keep rfl (CharacterReference.suffix_of_read? h)
  · exact .goto .keep rfl List.suffix_rfl

theorem edits_unquotedValue (tag : TagDraft) (name value : Text) (c : Char) (rest : Text) :
    (unquotedValue tag name value c rest).Edits tag (.value name) c rest := by
  unfold unquotedValue
  refine iteInduction (fun _ => .goto (.add value) rfl List.suffix_rfl) fun _ => ?_
  refine iteInduction (fun _ => .finish (.add value) false) fun _ => ?_
  exact edits_valueCharacter .unquoted tag name value c rest

end Step

/-- A step inside a tag does nothing but edit the tag or finish it. -/
theorem State.edits_step (h : s.region = .tag tag pending) (c : Char) (rest : Text) :
    (s.step c rest).Edits tag pending c rest := by
  have hgoto : ∀ {tag' pending'} {s' : State}, tag.Edits c pending tag' pending' →
      s'.region = .tag tag' pending' → (Step.goto s' rest).Edits tag pending c rest :=
    fun he hs => .goto he hs List.suffix_rfl
  unfold State.step
  cases s with
  | tagName =>
      cases h
      refine iteInduction (fun _ => hgoto .keep rfl) fun hspace => ?_
      refine iteInduction (fun _ => hgoto .keep rfl) fun hs => ?_
      refine iteInduction (fun _ => .finish .keep false) fun hc => ?_
      exact hgoto (.name (isNameEnd_eq_false hspace hs hc)) rfl
  | beforeAttribute | afterQuotedValue =>
      cases h
      exact Step.edits_beforeAttribute tag c rest
  | solidus =>
      cases h
      exact iteInduction (fun _ => .finish .keep true) fun _ =>
        Step.edits_beforeAttribute tag c rest
  | attributeName =>
      cases h
      refine iteInduction (fun _ => hgoto .keep rfl) fun hspace => ?_
      refine iteInduction (fun _ => hgoto .addBare rfl) fun hs => ?_
      refine iteInduction (fun _ => .finish .addBare false) fun hc => ?_
      refine iteInduction (fun _ => hgoto .value rfl) fun he => ?_
      exact hgoto (.attributeName (isNameEnd_eq_false hspace hs hc) he) rfl
  | afterAttributeName =>
      cases h
      refine iteInduction (fun _ => hgoto .keep rfl) fun hspace => ?_
      refine iteInduction (fun _ => hgoto .addBare rfl) fun hs => ?_
      refine iteInduction (fun _ => hgoto .value rfl) fun _ => ?_
      refine iteInduction (fun _ => .finish .addBare false) fun hc => ?_
      exact hgoto (.addBareBefore (isNameEnd_eq_false hspace hs hc)) rfl
  | beforeValue =>
      cases h
      refine iteInduction (fun _ => hgoto .keep rfl) fun _ => ?_
      refine iteInduction (fun _ => hgoto .keep rfl) fun _ => ?_
      refine iteInduction (fun _ => hgoto .keep rfl) fun _ => ?_
      exact iteInduction (fun _ => .finish (.add []) false) fun _ =>
        Step.edits_unquotedValue tag _ [] c rest
  | inValue quoting _ _ value =>
      cases h
      cases quoting with
      | double | single =>
          exact iteInduction (fun _ => hgoto (.add value) rfl) fun _ =>
            Step.edits_valueCharacter _ tag _ value c rest
      | unquoted => exact Step.edits_unquotedValue tag _ value c rest
  | content | tagOpen | endTagOpen | plainLessThan | plainEndTagOpen | plainEndTagName | bogusComment
  | commentStart | commentStartDash | comment | commentDash | commentEnd | commentBang
  | beforeDoctypeName | doctypeName | afterDoctypeName => cases h

/-! ### Steps elsewhere -/

namespace Transition

/-- A character that does not go on with what is held back. -/
theorem content (reading : Reading) (held : Text) (c : Char) (rest : Text) :
    Transition c rest (.text reading held) ((Step.content reading c rest).withText held) := by
  unfold Step.content
  cases reading with
  | markup =>
      have hd : ∀ d : Char, Reading.markup ≠ .markup → d ≠ '\x00' := fun _ h => absurd rfl h
      dsimp only
      split
      · next hc => exact .reopen hc (hc ▸ rfl)
      · split
        · split
          · next h => exact .character (hd _) (CharacterReference.suffix_of_read? h)
          · exact .character (hd _) List.suffix_rfl
        · exact .character (hd _) List.suffix_rfl
  | plain references element =>
      dsimp only
      split
      · next hc => exact .reopen hc (hc ▸ rfl)
      · split
        · split
          · next h =>
              exact .character (fun _ => CharacterReference.ne_null_of_read? h)
                (CharacterReference.suffix_of_read? h)
          · exact .character (fun _ => by decide) List.suffix_rfl
        · split
          · exact .character (fun _ => replacement_ne_null) List.suffix_rfl
          · next hc => exact .character (fun _ => hc) List.suffix_rfl

theorem declaration (held : Text) (c : Char) (rest : Text) :
    Transition c rest (.text .markup held) (.declaration rest) := by
  have hcdata : IsBogusText "[CDATA[" := ⟨by decide, by decide⟩
  unfold Step.declaration
  split
  · next h => exact .comment (suffix_of_after? h)
  · split
    · next h => exact .doctype (suffix_of_afterIgnoringCase? h)
    · split
      · next h => exact .bogusComment hcdata (suffix_of_after? h)
      · exact .bogusComment isBogusText_nil List.suffix_rfl

/-- A character that opens a bogus comment. -/
theorem opensBogusComment (hc : c ≠ '>') (held rest : Text) :
    Transition c rest (.text .markup held) (.bogusComment [] c rest) := by
  rcases Step.bogusComment_cases isBogusText_nil c rest with ⟨he, -⟩ | ⟨data, hd, h⟩
  · exact absurd he hc
  · exact h ▸ .bogusComment hd List.suffix_rfl

theorem inBogusComment (data : Text) (c : Char) (rest : Text) :
    Transition c rest .comment (.bogusComment data c rest) := by
  unfold Step.bogusComment
  refine iteInduction (fun _ => .endComment data) fun _ => ?_
  exact iteInduction (fun _ => .inComment rfl) fun _ => .inComment rfl

theorem commentText (data : Text) (c : Char) (rest : Text) :
    Transition c rest .comment (.comment data c rest) := by
  unfold Step.comment
  refine iteInduction (fun _ => .inComment rfl) fun _ => ?_
  exact iteInduction (fun _ => .inComment rfl) fun _ => .inComment rfl

end Transition

open Transition in
/-- Every step is one of the transitions from its region. -/
theorem State.transition (s : State) (c : Char) (rest : Text) :
    Transition c rest s.region (s.step c rest) := by
  cases s with
  | tagName | beforeAttribute | attributeName | afterAttributeName | beforeValue | inValue
  | afterQuotedValue | solidus => exact .inTag (State.edits_step rfl c rest)
  | content reading => exact Transition.content reading [] c rest
  | tagOpen =>
      refine iteInduction (fun _ => declaration ['<'] c rest) fun _ => ?_
      refine iteInduction (fun hc => .hold (hc ▸ by decide) (hc ▸ rfl)) fun _ => ?_
      refine iteInduction (fun hc => .startTag hc) fun _ => ?_
      refine iteInduction (fun hc => opensBogusComment (hc ▸ by decide) ['<'] rest) fun _ => ?_
      exact Transition.content .markup ['<'] c rest
  | endTagOpen =>
      refine iteInduction (fun hc => .endTag hc) fun _ => ?_
      exact iteInduction (fun _ => .drop) fun hc => opensBogusComment hc ['<', '/'] rest
  | plainLessThan references element =>
      refine iteInduction (fun hc => .hold (hc ▸ by decide) (hc ▸ rfl)) fun _ => ?_
      exact Transition.content _ ['<'] c rest
  | plainEndTagOpen references element =>
      refine iteInduction (fun hc => .hold (ne_null_of_isAlpha hc) rfl) fun _ => ?_
      exact Transition.content _ ['<', '/'] c rest
  | plainEndTagName references element written =>
      refine iteInduction (fun _ => .plainEndTag (.goto .keep rfl List.suffix_rfl)) fun _ => ?_
      refine iteInduction (fun _ => .plainEndTag (.goto .keep rfl List.suffix_rfl)) fun _ => ?_
      refine iteInduction (fun _ => .plainEndTag (.finish .keep false)) fun _ => ?_
      refine iteInduction (fun hc => .hold (ne_null_of_isAlpha hc) rfl) fun _ => ?_
      exact Transition.content _ ('<' :: '/' :: written) c rest
  | bogusComment data => exact inBogusComment data c rest
  | commentStart | commentStartDash =>
      refine iteInduction (fun _ => .inComment rfl) fun _ => ?_
      exact iteInduction (fun _ => .endComment _) fun _ => commentText _ c rest
  | comment data => exact commentText data c rest
  | commentDash data =>
      exact iteInduction (fun _ => .inComment rfl) fun _ => commentText _ c rest
  | commentEnd data =>
      refine iteInduction (fun _ => .endComment data) fun _ => ?_
      refine iteInduction (fun _ => .inComment rfl) fun _ => ?_
      exact iteInduction (fun _ => .inComment rfl) fun _ => commentText _ c rest
  | commentBang data =>
      refine iteInduction (fun _ => .inComment rfl) fun _ => ?_
      exact iteInduction (fun _ => .endComment data) fun _ => commentText _ c rest
  | beforeDoctypeName | doctypeName =>
      refine iteInduction (fun _ => .inDoctype rfl) fun _ => ?_
      exact iteInduction (fun _ => .endDoctype _) fun _ => .inDoctype rfl
  | afterDoctypeName =>
      exact iteInduction (fun _ => .endDoctype _) fun _ => .inDoctype rfl

theorem State.finish_region (s : State) : s.region.Finish s.finish := by
  cases s with
  | content | tagOpen | endTagOpen | plainLessThan | plainEndTagOpen | plainEndTagName => exact .text
  | tagName | beforeAttribute | attributeName | afterAttributeName | beforeValue | inValue
  | afterQuotedValue | solidus => exact .tag
  | bogusComment | commentStart | commentStartDash | comment | commentDash | commentEnd
  | commentBang => exact .comment _
  | beforeDoctypeName | doctypeName | afterDoctypeName => exact .doctype _

end AmpMarkup.Html
