import AmpMarkup.Proofs.Html.OpenBody

/-! The structure of a document under construction. In every phase it is known which of the document
element, the head and the body are there and which of them are open. A `template` start tag between
head and body leaves its element open, and the body is then put into that element. -/

namespace AmpMarkup.Html

open Dom (Tree NodeId)

/-- What is there and what is open in a phase, with `late` saying whether a `template` element was
opened between head and body. -/
def Stage (late : Bool) (t : Tree) (head : Option NodeId) (stack : List NodeId) : Phase → Prop
  | .initial | .beforeHtml => late = false ∧ stack = [] ∧ t.elementChildren Tree.root = []
  | .beforeHead => late = false ∧ ∃ html, stack = [html] ∧ HasDocument t html []
  | .inHead => late = false ∧ ∃ html id inside, stack = inside ++ [id, html] ∧
      HasDocument t html [id] ∧ head = some id ∧ t.tag? id = some "head".toList ∧
      ∀ i ∈ inside, i ≠ html ∧ t.tag? i ≠ some "head".toList
  | .afterHead => ∃ (html id : NodeId) (templates : List NodeId),
      late = !templates.isEmpty ∧ stack = templates ++ [html] ∧
      HasDocument t html [id] ∧ head = some id ∧ t.tag? id = some "head".toList ∧
      ∀ i ∈ templates, t.tag? i = some "template".toList
  | .inBody | .afterBody | .afterAfterBody => ∃ (s : Spine) (inside : List NodeId),
      late = !s.templates.isEmpty ∧ stack = inside ++ s.stack ∧ s.In t ∧ s.html ∉ inside

/-- A document under construction, in plain text with one more element open. -/
structure Building (late : Bool) (b : Builder) : Prop where
  sound : b.Sound
  running : b.stopped = false
  stage : match b.mode with
    | .phase p => Stage late b.tree b.head b.openElements p
    | .plainText p =>
        ∃ id stack, b.openElements = id :: stack ∧ Stage late b.tree b.head stack p

/-- Construction has ended, past the head, with the whole structure in place. -/
structure Complete (late : Bool) (b : Builder) : Prop where
  stopped : b.stopped = true
  mode_ne : b.mode ≠ .phase .afterHead
  spine : ∃ s : Spine, late = !s.templates.isEmpty ∧ s.In b.tree

/-- What the rules make of a document under construction is one again, or the end of it. -/
def Outcome.Keeps (late : Bool) : Outcome → Prop
  | .settled b => Building late b ∨ Complete late b
  | .passed next b => Building late (b.enter next)

/-- A phase from the body on. -/
def Phase.FromBody (p : Phase) : Prop :=
  p = .inBody ∨ p = .afterBody ∨ p = .afterAfterBody

section
variable {late : Bool} {t t' : Tree} {head : Option NodeId} {stack : List NodeId} {p : Phase}
  {b b' : Builder} {s : Spine} {mode : Mode} {inside : List NodeId} {id : NodeId}

theorem Stage.same (h : Stage late t head stack p) (ht : Dom.Tree.SameElements t t') :
    Stage late t' head stack p := by
  cases p with
  | initial | beforeHtml => exact ⟨h.1, h.2.1, (ht.elementChildren _).trans h.2.2⟩
  | beforeHead =>
      obtain ⟨hl, html, hs, hd⟩ := h
      exact ⟨hl, html, hs, hd.same ht⟩
  | inHead =>
      obtain ⟨hl, html, id, inside, hs, hd, hh, htag, hi⟩ := h
      exact ⟨hl, html, id, inside, hs, hd.same ht, hh, (ht.tag? _).trans htag,
        fun i hm => ⟨(hi i hm).1, ht.tag? i ▸ (hi i hm).2⟩⟩
  | afterHead =>
      obtain ⟨html, id, templates, hl, hs, hd, hh, htag, hi⟩ := h
      exact ⟨html, id, templates, hl, hs, hd.same ht, hh, (ht.tag? _).trans htag,
        fun i hm => (ht.tag? i).trans (hi i hm)⟩
  | inBody | afterBody | afterAfterBody =>
      obtain ⟨s, inside, hl, hs, hin, hm⟩ := h
      exact ⟨s, inside, hl, hs, hin.same ht, hm⟩

/-- Changes that leave the elements alone. -/
theorem Building.same (h : Building late b) (ht : Dom.Tree.SameElements b.tree b'.tree)
    (hm : b'.mode = b.mode) (hs : b'.stopped = b.stopped) (hh : b'.head = b.head)
    (ho : b'.openElements = b.openElements) : Building late b' where
  sound := h.sound.same ht fun _ hid => ho ▸ hid
  running := hs.trans h.running
  stage := by
    have hstage := h.stage
    rw [hm, hh, ho]
    split at hstage
    · exact hstage.same ht
    · obtain ⟨id, stack, ho, hst⟩ := hstage
      exact ⟨id, stack, ho, hst.same ht⟩

theorem Building.note (h : Building late b) (cause : Cause) : Building late (b.note cause) :=
  h.same (.refl h.sound.bounded) rfl rfl rfl rfl

theorem Building.insertText (h : Building late b) (data : Text) :
    Building late (b.insertText data) :=
  h.same (Tree.sameElements_appendText h.sound.bounded _ _) rfl rfl rfl rfl

theorem Building.insertComment {parent : NodeId} (h : Building late b)
    (hp : parent < b.tree.size) (data : Text) : Building late (b.insertComment parent data) :=
  h.same (Tree.sameElements_alloc_append h.sound.bounded hp fun e he => by cases he) rfl rfl rfl rfl

theorem Building.merge (h : Building late b) (target : Option NodeId)
    (attributes : List Attribute) : Building late (b.merge target attributes) := by
  cases target with
  | none => exact h
  | some id =>
      exact h.same (Tree.sameElements_mapAttributes h.sound.bounded id (·.addAll attributes)) rfl
        rfl rfl rfl

theorem Building.htmlAgain (h : Building late b) (attributes : List Attribute) :
    Building late (b.htmlAgain attributes) :=
  (h.note _).merge _ _

/-- A phase is the mode. -/
theorem Building.stage_of_phase (h : Building late b) (hm : b.mode = .phase p) :
    Stage late b.tree b.head b.openElements p := by
  have := h.stage
  rwa [hm] at this

theorem Building.of_stage (hs : b.Sound) (hr : b.stopped = false) (hm : b.mode = .phase p)
    (h : Stage late b.tree b.head b.openElements p) : Building late b :=
  ⟨hs, hr, by rw [hm]; exact h⟩

theorem Building.of_text_stage (hs : b.Sound) (hr : b.stopped = false)
    (hm : b.mode = .plainText p) (ho : b.openElements = id :: stack)
    (h : Stage late b.tree b.head stack p) : Building late b :=
  ⟨hs, hr, by rw [hm]; exact ⟨id, stack, ho, h⟩⟩

theorem Building.enter (hs : b.Sound) (hr : b.stopped = false)
    (h : Stage late b.tree b.head b.openElements p) : Building late (b.enter p) :=
  .of_stage (hs.same (.refl hs.bounded) fun _ hid => hid) hr rfl h

/-! ### The body -/

theorem Stage.of_fromBody (hp : p.FromBody) (h : late = !s.templates.isEmpty)
    (hs : stack = inside ++ s.stack) (hin : s.In t) (hm : s.html ∉ inside) :
    Stage late t head stack p := by
  rcases hp with rfl | rfl | rfl <;> exact ⟨s, inside, h, hs, hin, hm⟩

theorem Building.openBody (h : Building late b) (hm : b.mode = .phase p) (hp : p.FromBody) :
    ∃ (s : Spine) (inside : List NodeId),
      late = !s.templates.isEmpty ∧ OpenBody s (.phase p) inside b := by
  have hstage := h.stage_of_phase hm
  rcases hp with rfl | rfl | rfl <;> obtain ⟨s, inside, hl, hs, hin, hni⟩ := hstage <;>
    exact ⟨s, inside, hl, h.sound, hm, h.running, hs, hin, hni⟩

theorem OpenBody.building (h : OpenBody s (.phase p) inside b) (hp : p.FromBody)
    (hl : late = !s.templates.isEmpty) : Building late b :=
  .of_stage h.sound h.running h.mode (.of_fromBody hp hl h.stack h.spine h.html_not_mem)

theorem OpenBody.enter (h : OpenBody s mode inside b) (p : Phase) :
    OpenBody s (.phase p) inside (b.enter p) :=
  ⟨h.sound.same (.refl h.sound.bounded) fun _ hid => hid, rfl, h.running, h.stack, h.spine,
    h.html_not_mem⟩

/-- An element of plain text that has just been opened. -/
theorem OpenBody.enterText (h : OpenBody s mode (id :: inside) b) (hp : p.FromBody)
    (hl : late = !s.templates.isEmpty) : Building late (b.enterText p) :=
  .of_text_stage (h.sound.same (.refl h.sound.bounded) fun _ hid => hid) h.running rfl
    h.stack (.of_fromBody hp hl rfl h.spine fun hm => h.html_not_mem (List.mem_cons_of_mem _ hm))

end

end AmpMarkup.Html
