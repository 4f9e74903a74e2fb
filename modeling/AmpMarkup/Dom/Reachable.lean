import AmpMarkup.Dom.Closing

/-! The trees that changes lead to from the empty document. A change is allowed where the nodes that
it links exist and no node is put below itself; what it leaves alone is free. -/

namespace AmpMarkup.Dom

/-- A change to a tree. -/
inductive Edit where
  | make (content : Content)
  | append (parent child : NodeId)
  | insertBefore (parent child reference : NodeId)
  | remove (parent child : NodeId)
  | clear (id : NodeId)
  | forceClosingTags (id : NodeId)
deriving DecidableEq, Repr

namespace Tree

/-- The tree after a change. -/
def apply (t : Tree) : Edit → Tree
  | .make content => t.alloc content
  | .append parent child => t.append parent child
  | .insertBefore parent child reference => t.insertBefore parent child reference
  | .remove parent child => t.remove parent child
  | .clear id => t.clear id
  | .forceClosingTags id => t.forceClosingTags id

/-- Whether both nodes exist and `child` is neither `parent` nor above it. -/
def MayLink (t : Tree) (parent child : NodeId) : Prop :=
  parent < t.size ∧ child < t.size ∧ child ≠ parent ∧ child ∉ t.ancestors parent

instance (t : Tree) (parent child : NodeId) : Decidable (t.MayLink parent child) :=
  inferInstanceAs (Decidable (_ ∧ _))

/-- Whether a change is allowed. -/
def Allows (t : Tree) : Edit → Prop
  | .append parent child | .insertBefore parent child _ => t.MayLink parent child
  | .clear id => id < t.size
  | _ => True

instance (t : Tree) (e : Edit) : Decidable (t.Allows e) :=
  match e with
  | .make _ | .remove .. | .forceClosingTags _ => .isTrue trivial
  | .append parent child => inferInstanceAs (Decidable (t.MayLink parent child))
  | .insertBefore parent child _ => inferInstanceAs (Decidable (t.MayLink parent child))
  | .clear id => inferInstanceAs (Decidable (id < t.size))

/-- The trees that allowed changes lead to. -/
inductive Reachable : Tree → Prop where
  | empty : Reachable .empty
  | change {t : Tree} (e : Edit) : Reachable t → t.Allows e → Reachable (t.apply e)

end Tree

end AmpMarkup.Dom
