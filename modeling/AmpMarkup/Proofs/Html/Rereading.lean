import AmpMarkup.Proofs.Html.TokenStream
import AmpMarkup.Proofs.Html.WrittenTag

/-! Reading at the pace of one character a turn. Where a character does not belong to what is being
read, the next turn reads the same character in another state, and the end of the input is read like a
character; one state takes none at all. A character is read three times at most, so reading comes to an
end, and it gives the tokens of the text. -/

namespace AmpMarkup.Html

/-- The reader at a turn: in one of its states, or where one of its steps passes through. -/
inductive Reader where
  | state (s : State)
  | declarationOpen
  | beforeDoctype
  | afterAttribute (tag : TagDraft)
deriving DecidableEq, Repr, Inhabited

/-- The outcome of a turn. The next turn takes a character from `rest`, or it reads the same character
once more and `text` is given as text before, or there is none. -/
inductive Turn where
  | take (tokens : List Token) (reader : Reader) (rest : Text)
  | again (text : Text) (reader : Reader)
  | stop (tokens : List Token)
deriving DecidableEq, Repr, Inhabited

namespace Turn

/-- The turn that is a step. -/
def ofStep (s : Step) : Turn :=
  .take s.tokens (.state s.state) s.rest

/-- The turn that completes no token. -/
def goto (s : State) (rest : Text) : Turn :=
  .take [] (.state s) rest

/-- The turn that leaves the character to another state. -/
def leave (s : State) : Turn :=
  .again [] (.state s)

/-- The turn behind `<!`, which looks ahead and leaves the character at hand alone. -/
def declaration (rest : Text) : Turn :=
  match Text.after? "--" rest with
  | some rest => goto .commentStart rest
  | none =>
    match Text.afterIgnoringCase? "doctype" rest with
    | some rest => .take [] .beforeDoctype rest
    | none =>
      match Text.after? "[CDATA[" rest with
      | some rest => goto (.bogusComment "[CDATA[") rest
      | none => goto (.bogusComment []) rest

end Turn

namespace State

/-- One turn of reading: character `c` with `rest` after it. In the states that are not listed a step
is one turn. -/
def turn (s : State) (c : Char) (rest : Text) : Turn :=
  match s with
  | .tagOpen =>
    if c = '!' then .again [] .declarationOpen
    else if c = '/' then .goto .endTagOpen rest
    else if c.isAlpha then .leave (.tagName ⟨false, [], []⟩)
    else if c = '?' then .leave (.bogusComment [])
    else .again "<" (.state (.content .markup))
  | .endTagOpen =>
    if c.isAlpha then .leave (.tagName ⟨true, [], []⟩)
    else if c = '>' then .goto (.content .markup) rest
    else .leave (.bogusComment [])
  | .plainLessThan references element =>
    if c = '/' then .goto (.plainEndTagOpen references element) rest
    else .again "<" (.state (.content (.plain references element)))
  | .plainEndTagOpen references element =>
    if c.isAlpha then .leave (.plainEndTagName references element [])
    else .again "</" (.state (.content (.plain references element)))
  | .plainEndTagName references element written =>
    let tag : TagDraft := ⟨true, element, []⟩
    if isSpace c ∧ written.lower = element then .goto (.beforeAttribute tag) rest
    else if c = '/' ∧ written.lower = element then .goto (.solidus tag) rest
    else if c = '>' ∧ written.lower = element then .ofStep (tag.finish false rest)
    else if c.isAlpha then .goto (.plainEndTagName references element (written ++ [c])) rest
    else .again ('<' :: '/' :: written) (.state (.content (.plain references element)))
  | .beforeAttribute tag =>
    if isSpace c then .goto (.beforeAttribute tag) rest
    else if c = '/' ∨ c = '>' then .again [] (.afterAttribute tag)
    else if c = '=' then .goto (.attributeName tag ['=']) rest
    else .leave (.attributeName tag [])
  | .attributeName tag name =>
    if isSpace c ∨ c = '/' ∨ c = '>' then .leave (.afterAttributeName tag name)
    else if c = '=' then .goto (.beforeValue tag name) rest
    else .goto (.attributeName tag (name ++ [c.toLower])) rest
  | .afterAttributeName tag name =>
    if isSpace c then .goto (.afterAttributeName tag name) rest
    else if c = '/' then .goto (.solidus (tag.add name none)) rest
    else if c = '=' then .goto (.beforeValue tag name) rest
    else if c = '>' then .ofStep ((tag.add name none).finish false rest)
    else .leave (.attributeName (tag.add name none) [])
  | .beforeValue tag name =>
    if isSpace c then .goto (.beforeValue tag name) rest
    else if c = '"' then .goto (.inValue .double tag name []) rest
    else if c = '\'' then .goto (.inValue .single tag name []) rest
    else if c = '>' then .ofStep ((tag.add name (some [])).finish false rest)
    else .leave (.inValue .unquoted tag name [])
  | .afterQuotedValue tag =>
    if isSpace c then .goto (.beforeAttribute tag) rest
    else if c = '/' then .goto (.solidus tag) rest
    else if c = '>' then .ofStep (tag.finish false rest)
    else .leave (.beforeAttribute tag)
  | .solidus tag =>
    if c = '>' then .ofStep (tag.finish true rest) else .leave (.beforeAttribute tag)
  | .commentStart =>
    if c = '-' then .goto .commentStartDash rest
    else if c = '>' then .take [.comment []] (.state (.content .markup)) rest
    else .leave (.comment [])
  | .commentStartDash =>
    if c = '-' then .goto (.commentEnd []) rest
    else if c = '>' then .take [.comment []] (.state (.content .markup)) rest
    else .leave (.comment "-")
  | .commentDash data =>
    if c = '-' then .goto (.commentEnd data) rest else .leave (.comment (data ++ "-"))
  | .commentEnd data =>
    if c = '>' then .take [.comment data] (.state (.content .markup)) rest
    else if c = '!' then .goto (.commentBang data) rest
    else if c = '-' then .goto (.commentEnd (data ++ "-")) rest
    else .leave (.comment (data ++ "--"))
  | .commentBang data =>
    if c = '-' then .goto (.commentDash (data ++ "--!")) rest
    else if c = '>' then .take [.comment data] (.state (.content .markup)) rest
    else .leave (.comment (data ++ "--!"))
  | s => .ofStep (s.step c rest)

/-- The turn that reads the end of the input. -/
def lastTurn : State → Turn
  | .plainLessThan references element => .again "<" (.state (.content (.plain references element)))
  | .plainEndTagOpen references element => .again "</" (.state (.content (.plain references element)))
  | .plainEndTagName references element written =>
    .again ('<' :: '/' :: written) (.state (.content (.plain references element)))
  | .beforeAttribute tag => .again [] (.afterAttribute tag)
  | .attributeName tag name => .leave (.afterAttributeName tag name)
  | .beforeValue tag name => .leave (.inValue .unquoted tag name [])
  | .commentStart => .leave (.comment [])
  | s => .stop (s.finish ++ [.endOfFile])

end State

namespace Reader

/-- One turn of reading, where no character is the end of the input. -/
def turn (p : Reader) (c : Option Char) (rest : Text) : Turn :=
  match p, c with
  | .declarationOpen, _ => .declaration rest
  | .state s, some c => s.turn c rest
  | .state s, none => s.lastTurn
  | .beforeDoctype, some c =>
    if isSpace c then .goto .beforeDoctypeName rest else .leave .beforeDoctypeName
  | .beforeDoctype, none => .stop [.doctype none, .endOfFile]
  | .afterAttribute tag, some c =>
    if isSpace c then .take [] (.afterAttribute tag) rest
    else if c = '/' then .goto (.solidus tag) rest
    else if c = '>' then .ofStep (tag.finish false rest)
    else .leave (.attributeName tag [])
  | .afterAttribute _, none => .stop [.endOfFile]

/-- The tokens that are read turn by turn, or nothing if the turns do not suffice. -/
def run : (turns : Nat) → Reader → Option Char → Text → Option (List Token)
  | 0, _, _, _ => none
  | turns + 1, p, c, rest =>
    match p.turn c rest with
    | .take tokens p rest => (run turns p rest.head? rest.tail).map (tokens ++ ·)
    | .again text p => (run turns p c rest).map (text.map .character ++ ·)
    | .stop tokens => some tokens

/-- A reader that goes on as from a state. -/
inductive Stands : Reader → State → Prop where
  | state (s : State) : Stands (.state s) s
  | beforeDoctype : Stands .beforeDoctype .beforeDoctypeName

end Reader

/-- A turn that does a step, with the turns behind it that read the same character. -/
inductive Turn.Does : (turns : Nat) → Turn → Option Char → Text → Step → Prop where
  | take {turns : Nat} {q : Reader} {c : Option Char} {rest k : Text} {s : State} {ts : List Token}
      (hq : q.Stands s) : Does (turns + 1) (.take ts q k) c rest ⟨ts, s, k⟩
  | again {turns : Nat} {q : Reader} {c : Option Char} {rest text : Text} {st : Step}
      (h : Does turns (q.turn c rest) c rest st) :
      Does (turns + 1) (.again text q) c rest (st.withText text)

/-- The tokens of a text, read turn by turn. -/
def Token.readTurns? (turns : Nat) (t : Text) : Option (List Token) :=
  (Reader.state (.content .markup)).run turns t.head? t.tail

variable {p q : Reader} {s s' : State} {st : Step} {c : Char} {rest u : Text} {turns more : Nat}
  {ts us : List Token} {tag : TagDraft} {name : Text}

/-! ### Turns -/

namespace Reader

theorem run_mono {c : Option Char} (h : p.run turns c rest = some ts) (hm : turns ≤ more) :
    p.run more c rest = some ts := by
  induction turns generalizing p c rest ts more with
  | zero => cases h
  | succ turns ih =>
      obtain ⟨more, rfl⟩ := Nat.exists_eq_add_of_le' (Nat.le_trans (Nat.le_add_left 1 turns) hm)
      have hle : turns ≤ more := Nat.le_of_succ_le_succ hm
      rw [run] at h ⊢
      split at h
      · obtain ⟨us, hus, rfl⟩ := Option.map_eq_some_iff.1 h
        rw [ih hus hle, Option.map_some]
      · obtain ⟨us, hus, rfl⟩ := Option.map_eq_some_iff.1 h
        rw [ih hus hle, Option.map_some]
      · exact h

/-- What is read behind a step is read behind its turns. -/
theorem run_of_does {c : Option Char} (h : (p.turn c rest).Does more c rest st)
    (hrun : ∀ q : Reader, q.Stands st.state → q.run turns st.rest.head? st.rest.tail = some us) :
    p.run (turns + more) c rest = some (st.tokens ++ us) := by
  induction more generalizing p st with
  | zero => cases h
  | succ more ih =>
      rw [← Nat.add_assoc, run]
      generalize p.turn c rest = turn at h
      cases h with
      | take hq =>
          dsimp only
          rw [run_mono (hrun _ hq) (Nat.le_add_right ..), Option.map_some]
      | again h =>
          dsimp only
          rw [ih h hrun, Option.map_some, Step.withText, List.append_assoc]

end Reader

namespace Turn

theorem does_ofStep {c : Option Char} : Does (turns + 1) (.ofStep st) c rest st :=
  .take (.state _)

theorem does_goto {c : Option Char} {k : Text} : Does (turns + 1) (.goto s k) c rest (.goto s k) :=
  .take (.state s)

/-- The character is read again and nothing is given before. -/
theorem Does.leave {c : Option Char} (h : Does turns (q.turn c rest) c rest st) :
    Does (turns + 1) (.again [] q) c rest st :=
  .again h

theorem does_ite {c : Option Char} {a : Prop} [Decidable a] {t t' : Turn} {st st' : Step}
    (h : a → Does turns t c rest st) (h' : ¬ a → Does turns t' c rest st') :
    Does turns (if a then t else t') c rest (if a then st else st') := by
  split
  · next ha => exact h ha
  · next ha => exact h' ha

/-! ### Steps -/

/-- The first character of the name of a tag. -/
theorem does_tagName (h : c.isAlpha = true) (isEnd : Bool) :
    Does (turns + 1) ((Reader.state (.tagName ⟨isEnd, [], []⟩)).turn (some c) rest) (some c) rest
      (.goto (.tagName ⟨isEnd, [c.toLower], []⟩) rest) := by
  have hstep : (State.tagName ⟨isEnd, [], []⟩).step c rest =
      .goto (.tagName ⟨isEnd, [c.toLower], []⟩) rest := by
    rw [State.step, isSpace_of_isAlpha h, if_neg Bool.false_ne_true, if_neg (ne_of_isAlpha h rfl),
      if_neg (ne_of_isAlpha h rfl)]
    rfl
  exact hstep ▸ does_ofStep

/-- The first character of the name of an end tag in plain text. -/
theorem does_plainEndTagName (h : c.isAlpha = true) (references : Bool) (element : Text) :
    Does (turns + 1) ((Reader.state (.plainEndTagName references element [])).turn (some c) rest)
      (some c) rest (.goto (.plainEndTagName references element [c]) rest) := by
  have hturn : (Reader.state (.plainEndTagName references element [])).turn (some c) rest =
      .goto (.plainEndTagName references element [c]) rest := by
    rw [Reader.turn, State.turn, if_neg (by simp [isSpace_of_isAlpha h]),
      if_neg fun he => ne_of_isAlpha h rfl he.1, if_neg fun he => ne_of_isAlpha h rfl he.1, if_pos h]
    rfl
  exact hturn ▸ does_goto

/-- The first character of the name of an attribute. -/
theorem does_attributeName (hspace : ¬ isSpace c = true) (hs : c ≠ '/') (hc : c ≠ '>')
    (he : c ≠ '=') :
    Does (turns + 1) ((Reader.state (.attributeName tag [])).turn (some c) rest) (some c) rest
      (.goto (.attributeName tag [c.toLower]) rest) := by
  have hturn : (Reader.state (.attributeName tag [])).turn (some c) rest =
      .goto (.attributeName tag [c.toLower]) rest := by
    rw [Reader.turn, State.turn, if_neg (by simp [hspace, hs, hc]), if_neg he, List.nil_append]
  exact hturn ▸ does_goto

theorem does_beforeAttribute (tag : TagDraft) (c : Char) (rest : Text) :
    Does (turns + 2) ((Reader.state (.beforeAttribute tag)).turn (some c) rest) (some c) rest
      (.beforeAttribute tag c rest) := by
  rw [Reader.turn, State.turn, Step.beforeAttribute]
  refine does_ite (fun _ => does_goto) fun hspace => ?_
  by_cases hs : c = '/'
  · rw [if_pos (.inl hs), if_pos hs]
    refine .leave ?_
    rw [Reader.turn, if_neg hspace, if_pos hs]
    exact does_goto
  rw [if_neg hs]
  by_cases hc : c = '>'
  · rw [if_pos (.inr hc), if_pos hc]
    refine .leave ?_
    rw [Reader.turn, if_neg hspace, if_neg hs, if_pos hc]
    exact does_ofStep
  rw [if_neg (by simp [hs, hc]), if_neg hc]
  by_cases he : c = '='
  · rw [if_pos he, he]
    exact does_goto
  · rw [if_neg he]
    exact (does_attributeName hspace hs hc he).leave

/-- A character that ends a name is read again behind the name. -/
theorem does_attributeName_step (tag : TagDraft) (name : Text) (c : Char) (rest : Text) :
    Does (turns + 2) ((Reader.state (.attributeName tag name)).turn (some c) rest) (some c) rest
      ((State.attributeName tag name).step c rest) := by
  rw [Reader.turn, State.turn, State.step]
  by_cases hend : isSpace c = true ∨ c = '/' ∨ c = '>'
  · rw [if_pos hend]
    refine .leave ?_
    rw [Reader.turn, State.turn]
    refine does_ite (fun _ => does_goto) fun hspace => ?_
    refine does_ite (fun _ => does_goto) fun hs => ?_
    have hc : c = '>' := (hend.resolve_left hspace).resolve_left hs
    rw [if_neg (by rw [hc]; decide), if_pos hc, if_pos hc]
    exact does_ofStep
  · rw [not_or, not_or] at hend
    obtain ⟨hspace, hs, hc⟩ := hend
    rw [if_neg (by simp [hspace, hs, hc]), if_neg hspace, if_neg hs, if_neg hc]
    exact does_ite (fun _ => does_goto) fun _ => does_goto

theorem does_afterQuotedValue (tag : TagDraft) (c : Char) (rest : Text) :
    Does (turns + 3) ((Reader.state (.afterQuotedValue tag)).turn (some c) rest) (some c) rest
      ((State.afterQuotedValue tag).step c rest) := by
  rw [Reader.turn, State.turn, State.step]
  refine does_ite (fun _ => does_goto) fun hspace => ?_
  refine does_ite (fun _ => does_goto) fun hs => ?_
  refine does_ite (fun _ => does_ofStep) fun hc => ?_
  have hname : Step.beforeAttribute tag c rest = .goto (.attributeName tag [c.toLower]) rest := by
    rw [Step.beforeAttribute, if_neg hspace, if_neg hs, if_neg hc]
  exact .leave (hname ▸ does_beforeAttribute tag c rest)

theorem does_declaration (c : Option Char) (rest : Text) :
    Does (turns + 1) (.declaration rest) c rest (.declaration rest) := by
  unfold declaration Step.declaration
  cases Text.after? "--" rest with
  | some k => exact does_goto
  | none =>
      cases Text.afterIgnoringCase? "doctype" rest with
      | some k => exact .take .beforeDoctype
      | none => cases Text.after? "[CDATA[" rest <;> exact does_goto

end Turn

/-- A step is done in three turns. -/
theorem State.does_step (s : State) (c : Char) (rest : Text) :
    ((Reader.state s).turn (some c) rest).Does 3 (some c) rest (s.step c rest) := by
  rw [Reader.turn]
  unfold State.turn State.step
  cases s with
  | content | tagName | inValue | bogusComment | comment | beforeDoctypeName | doctypeName
  | afterDoctypeName => exact Turn.does_ofStep
  | tagOpen =>
      refine Turn.does_ite (fun _ => .leave (Turn.does_declaration _ rest)) fun _ => ?_
      refine Turn.does_ite (fun _ => Turn.does_goto) fun _ => ?_
      refine Turn.does_ite (fun ha => .leave (Turn.does_tagName ha false)) fun _ => ?_
      refine Turn.does_ite (fun _ => .leave Turn.does_ofStep) fun _ => ?_
      exact .again Turn.does_ofStep
  | endTagOpen =>
      refine Turn.does_ite (fun ha => .leave (Turn.does_tagName ha true)) fun _ => ?_
      exact Turn.does_ite (fun _ => Turn.does_goto) fun _ => .leave Turn.does_ofStep
  | plainLessThan references element =>
      exact Turn.does_ite (fun _ => Turn.does_goto) fun _ => .again Turn.does_ofStep
  | plainEndTagOpen references element =>
      exact Turn.does_ite (fun ha => .leave (Turn.does_plainEndTagName ha references element))
        fun _ => .again Turn.does_ofStep
  | plainEndTagName references element written =>
      refine Turn.does_ite (fun _ => Turn.does_goto) fun _ => ?_
      refine Turn.does_ite (fun _ => Turn.does_goto) fun _ => ?_
      refine Turn.does_ite (fun _ => Turn.does_ofStep) fun _ => ?_
      exact Turn.does_ite (fun _ => Turn.does_goto) fun _ => .again Turn.does_ofStep
  | beforeAttribute tag => exact Turn.does_beforeAttribute tag c rest
  | attributeName tag name => exact Turn.does_attributeName_step tag name c rest
  | afterAttributeName tag name =>
      refine Turn.does_ite (fun _ => Turn.does_goto) fun hspace => ?_
      refine Turn.does_ite (fun _ => Turn.does_goto) fun hs => ?_
      refine Turn.does_ite (fun _ => Turn.does_goto) fun he => ?_
      refine Turn.does_ite (fun _ => Turn.does_ofStep) fun hc => ?_
      exact .leave (Turn.does_attributeName hspace hs hc he)
  | beforeValue tag name =>
      refine Turn.does_ite (fun _ => Turn.does_goto) fun _ => ?_
      refine Turn.does_ite (fun _ => Turn.does_goto) fun _ => ?_
      refine Turn.does_ite (fun _ => Turn.does_goto) fun _ => ?_
      exact Turn.does_ite (fun _ => Turn.does_ofStep) fun _ => .leave Turn.does_ofStep
  | afterQuotedValue tag => exact Turn.does_afterQuotedValue tag c rest
  | solidus tag =>
      exact Turn.does_ite (fun _ => Turn.does_ofStep) fun _ =>
        .leave (Turn.does_beforeAttribute tag c rest)
  | commentStart | commentStartDash =>
      refine Turn.does_ite (fun _ => Turn.does_goto) fun _ => ?_
      exact Turn.does_ite (fun _ => .take (.state _)) fun _ => .leave Turn.does_ofStep
  | commentDash data =>
      exact Turn.does_ite (fun _ => Turn.does_goto) fun _ => .leave Turn.does_ofStep
  | commentEnd data =>
      refine Turn.does_ite (fun _ => .take (.state _)) fun _ => ?_
      refine Turn.does_ite (fun _ => Turn.does_goto) fun _ => ?_
      exact Turn.does_ite (fun _ => Turn.does_goto) fun _ => .leave Turn.does_ofStep
  | commentBang data =>
      refine Turn.does_ite (fun _ => Turn.does_goto) fun _ => ?_
      exact Turn.does_ite (fun _ => .take (.state _)) fun _ => .leave Turn.does_ofStep

theorem Reader.Stands.does_step (h : p.Stands s) (c : Char) (rest : Text) :
    (p.turn (some c) rest).Does 3 (some c) rest (s.step c rest) := by
  cases h with
  | state s => exact s.does_step c rest
  | beforeDoctype =>
      by_cases hspace : isSpace c = true
      · rw [Reader.turn, if_pos hspace, State.step, if_pos hspace]
        exact Turn.does_goto
      · rw [Reader.turn, if_neg hspace]
        exact .leave Turn.does_ofStep

/-! ### Texts -/

/-- The end of the input is read twice at most. -/
theorem Reader.Stands.run_none (h : p.Stands s) (rest : Text) :
    p.run 2 none rest = some (s.finish ++ [.endOfFile]) := by
  cases h with
  | beforeDoctype => rfl
  | state s => cases s <;> rfl

/-- Three turns a character and two for the end of the input read all tokens. -/
theorem Reader.Stands.run_eq (h : p.Stands s) (u : Text) :
    p.run (3 * u.length + 2) u.head? u.tail = some (s.tokens u) := by
  fun_induction State.tokens s u generalizing p with
  | case1 s => exact h.run_none []
  | case2 s c rest ih =>
      have hrest : ∀ q : Reader, q.Stands (s.step c rest).state →
          q.run (3 * rest.length + 2) (s.step c rest).rest.head? (s.step c rest).rest.tail =
            some ((s.step c rest).state.tokens (s.step c rest).rest) := fun q hq =>
        run_mono (ih hq) (by have := s.step_length_le c rest; omega)
      have hturns : 3 * (c :: rest).length + 2 = 3 * rest.length + 2 + 3 := by
        rw [List.length_cons]
        omega
      rw [hturns]
      exact run_of_does (h.does_step c rest) hrest

/-- Reading turn by turn ends for every text, with the end of the input as the last token and no other
time. -/
theorem readTurns?_ofText (t : Text) :
    (∀ more, Token.readTurns? (3 * t.length + 2 + more) t = some (Token.ofText t)) ∧
      ∃ before, Token.endOfFile ∉ before ∧ Token.ofText t = before ++ [.endOfFile] :=
  ⟨fun _ => Reader.run_mono (Reader.Stands.run_eq (.state _) t) (Nat.le_add_right ..),
    (delivered_ofText t).exists_eq_append⟩

end AmpMarkup.Html
