import AmpMarkup.Proofs.Html.Moves
import AmpMarkup.Proofs.Html.Simulation

/-! The rules of tree construction write repairs down and never look at them. So two builders that
differ in repairs and positions alone make the same of every token, and the repairs of the one stay
among those of the other. -/

namespace AmpMarkup.Html

open Dom (Content NodeId)

/-- The second builder has built the same, and the repairs of the first one are among its own. -/
structure Builder.Covered (b c : Builder) : Prop where
  frame : c.frame = b.frame
  repairs : (b.issues.map Issue.cause).Sublist (c.issues.map Issue.cause)

variable {b b' c c' : Builder} {tag : Text} {attributes : List Attribute}

theorem Token.related_self (t : Token) : t.Related Eq Eq Eq t := by
  cases t with
  | doctype name => exact .doctype rfl
  | startTag tag attributes selfClosing => exact .startTag selfClosing rfl rfl
  | endTag tag => exact .endTag rfl
  | comment data => exact .comment rfl
  | character c => exact .character c
  | endOfFile => exact .endOfFile

namespace Builder

namespace Covered

theorem refl (b : Builder) : b.Covered b :=
  ⟨rfl, .refl _⟩

theorem trans {d : Builder} (h : b.Covered c) (h' : c.Covered d) : b.Covered d :=
  ⟨h'.frame.trans h.frame, h.repairs.trans h'.repairs⟩

/-- What changes the frame in the same way and notes nothing. -/
theorem change (h : b.Covered c) (F : Frame → Frame) (hb : b'.frame = F b.frame)
    (hc : c'.frame = F c.frame) (hi : b'.issues = b.issues) (hi' : c'.issues = c.issues) :
    b'.Covered c' where
  frame := by rw [hc, hb, h.frame]
  repairs := by
    rw [hi, hi']
    exact h.repairs

section
variable (h : b.Covered c)
include h

theorem tree : c.tree = b.tree :=
  congrArg Frame.tree h.frame

theorem stopped : c.stopped = b.stopped :=
  congrArg Frame.stopped h.frame

theorem agrees : b.Agrees c where
  size := by rw [h.tree]
  tag? := by rw [h.tree]
  mode := (congrArg Frame.mode h.frame).symm
  openElements := (congrArg Frame.openElements h.frame).symm
  head := (congrArg Frame.head h.frame).symm
  stopped := h.stopped.symm

theorem note (cause : Cause) : (b.note cause).Covered (c.note cause) where
  frame := h.frame
  repairs := by
    rw [Builder.note, Builder.note, List.map_append, List.map_append]
    exact h.repairs.append (.refl [cause])

/-- A repair more. -/
theorem noteMore (cause : Cause) : b.Covered (c.note cause) where
  frame := h.frame
  repairs := by
    rw [Builder.note, List.map_append]
    exact h.repairs.trans (List.sublist_append_left ..)

theorem insertBelow (parent : NodeId) (content : Content) :
    (b.insertBelow parent content).Covered (c.insertBelow parent content) :=
  h.change (fun f => { f with tree := (f.tree.alloc content).append parent f.tree.size })
    rfl rfl rfl rfl

theorem insertText (data : Text) : (b.insertText data).Covered (c.insertText data) :=
  h.change (fun f => { f with tree := f.tree.appendText (innermost f.openElements) data })
    rfl rfl rfl rfl

theorem insertElement (tag : Text) (attributes : List Attribute) :
    (b.insertElement tag attributes).Covered (c.insertElement tag attributes) :=
  h.change (fun f => { f with
    tree := (f.tree.alloc (elementOf tag attributes)).append (innermost f.openElements) f.tree.size
    openElements := f.tree.size :: f.openElements }) rfl rfl rfl rfl

theorem merge (target : Option NodeId) (attributes : List Attribute) :
    (b.merge target attributes).Covered (c.merge target attributes) := by
  cases target with
  | none => exact h
  | some id =>
      exact h.change (fun f => { f with tree := f.tree.mapAttributes id (·.addAll attributes) })
        rfl rfl rfl rfl

theorem closeMatching (tag : Text) (ids : List NodeId) :
    (b.closeMatching tag ids).Covered (c.closeMatching tag ids) := by
  induction ids with
  | nil => exact h
  | cons id outer ih =>
      have hid : c.tree.tag? id = b.tree.tag? id := by rw [h.tree]
      rw [Builder.closeMatching, Builder.closeMatching, hid]
      split
      · exact ih
      · refine rel_ite .rfl (fun _ => ?_) fun _ => rel_ite .rfl (fun _ => h.note _) fun _ => ih
        exact h.change (fun f => { f with openElements := outer }) rfl rfl rfl rfl

end

end Covered

/-- The same changes keep builders that differ in repairs alone. -/
theorem simulation_covered : Simulation Eq Eq Eq Covered Covered where
  same _ := rfl
  tags := .inl
  agrees := Covered.agrees
  settle := id
  reframe h ha ht ht' hi hi' :=
    have hframe := h.tree
    ⟨by simp only [frame, ht, ht', hframe, ha.mode, ha.openElements, ha.head, ha.stopped],
      hi ▸ hi' ▸ h.repairs⟩
  note h ht cause := ht ▸ h.note (cause _)
  insertBelow h hc parent := hc ▸ h.insertBelow parent _
  insertText h data := h.insertText data
  insertBare h tag := h.insertElement tag []
  insertElement h ht ha := ht ▸ ha ▸ h.insertElement _ _
  merge h ha target := ha ▸ h.merge target _
  closeMatching h ht ids := ht ▸ h.closeMatching _ ids
  after h hc _ _ := hc h

/-- Tokens are settled in the same way whatever has been repaired so far. -/
theorem Covered.run (h : b.Covered c) (ts : List Token) : (b.run ts).Covered (c.run ts) := by
  induction ts generalizing b c with
  | nil => exact h
  | cons t ts ih =>
      have hsettled := simulation_covered.process h t.related_self
      rw [Builder.run, Builder.run]
      exact rel_ite (by rw [h.stopped]) (fun _ => h) fun _ =>
        ih (simulation_covered.moveOn hsettled _ _)

end Builder

end AmpMarkup.Html
