import AmpMarkup.Dom.Basic

/-! Changes to the document tree. A node has at most one place: putting it somewhere takes it out
of where it was. The statements say what the two basic changes do to `get?`. -/

namespace AmpMarkup.Dom

/-- Puts `child` before the first `reference`, or at the end of a list without one. -/
def placeBefore (child reference : NodeId) : List NodeId → List NodeId
  | [] => [child]
  | id :: ids =>
    if id = reference then child :: id :: ids else id :: placeBefore child reference ids

namespace Tree

/-- Replaces a node by what `f` makes of it. -/
def modify (t : Tree) (id : NodeId) (f : Node → Node) : Tree :=
  ⟨t.nodes.modify id f⟩

/-- Makes a node without a place. Its name is the size of the tree before. -/
def alloc (t : Tree) (content : Content) : Tree :=
  ⟨t.nodes.push ⟨content, none, []⟩⟩

theorem get?_modify (t : Tree) (i j : NodeId) (f : Node → Node) :
    (t.modify i f).get? j = if i = j then (t.get? j).map f else t.get? j := by
  simp [get?, modify, Array.getElem?_modify]

theorem get?_alloc (t : Tree) (content : Content) (j : NodeId) :
    (t.alloc content).get? j = if j = t.size then some ⟨content, none, []⟩ else t.get? j := by
  rw [get?, alloc, Array.getElem?_push]
  rfl

theorem get?_size (t : Tree) : t.get? t.size = none := by
  simp [get?, size]

/-- A tree is determined by its nodes. -/
theorem eq_of_get? {s t : Tree} (h : ∀ id, s.get? id = t.get? id) : s = t := by
  cases s
  cases t
  exact congrArg Tree.mk (Array.ext_getElem? h)

/-- Replaces what a node is, keeping its links. -/
def setContent (t : Tree) (id : NodeId) (content : Content) : Tree :=
  t.modify id fun n => { n with content }

theorem get?_setContent (t : Tree) (i j : NodeId) (content : Content) :
    (t.setContent i content).get? j =
      if i = j then (t.get? j).map ({ · with content }) else t.get? j :=
  get?_modify ..

theorem content?_setContent_of_ne {t : Tree} {i j : NodeId} (content : Content) (h : i ≠ j) :
    (t.setContent i content).content? j = t.content? j := by
  rw [content?, content?, get?_setContent, if_neg h]

theorem children_setContent (t : Tree) (i j : NodeId) (content : Content) :
    (t.setContent i content).children j = t.children j := by
  rw [children, children, get?_setContent]
  split <;> simp [Function.comp_def]

theorem setContent_setContent (t : Tree) (id : NodeId) (first second : Content) :
    (t.setContent id first).setContent id second = t.setContent id second :=
  eq_of_get? fun j => by
    simp only [get?_setContent]
    split <;> simp [Function.comp_def]

/-- Gives an element the attributes that `f` makes of its own. Other nodes stay as they are. -/
def mapAttributes (t : Tree) (id : NodeId) (f : Attributes → Attributes) : Tree :=
  match t.element? id with
  | some e => t.setContent id (.element { e with attributes := f e.attributes })
  | none => t

/-- Takes a node out of its parent's children. -/
def detach (t : Tree) (child : NodeId) : Tree :=
  match t.parent? child with
  | none => t
  | some parent =>
    (t.modify child fun n => { n with parent := none }).modify parent fun n =>
      { n with children := n.children.filter (· != child) }

/-- Makes `parent` the parent of a detached `child`, with `place` choosing its place. -/
def attach (t : Tree) (parent child : NodeId) (place : List NodeId → List NodeId) : Tree :=
  (t.modify parent fun n => { n with children := place n.children }).modify child fun n =>
    { n with parent := some parent }

/-- Makes `child` the last child of `parent`. -/
def append (t : Tree) (parent child : NodeId) : Tree :=
  (t.detach child).attach parent child (· ++ [child])

/-- A new node in the last place below another one. -/
theorem get?_alloc_append {t : Tree} {id : NodeId} (hid : id ≠ t.size) (content : Content)
    (j : NodeId) :
    ((t.alloc content).append id t.size).get? j =
      if j = t.size then some ⟨content, some id, []⟩
      else if j = id then (t.get? j).map fun n => { n with children := n.children ++ [t.size] }
      else t.get? j := by
  have hd : (t.alloc content).detach t.size = t.alloc content := by
    simp [detach, parent?, get?_alloc]
  rw [append, hd, attach, get?_modify, get?_modify, get?_alloc]
  by_cases hs : j = t.size
  · simp [hs, hid]
  · by_cases hi : j = id
    · simp [hi, hid, Ne.symm hid]
    · simp [hs, hi, Ne.symm hs, Ne.symm hi]

/-- Makes `child` a child of `parent`, right before `reference` if that is another child of
`parent`, at the end otherwise. -/
def insertBefore (t : Tree) (parent child reference : NodeId) : Tree :=
  (t.detach child).attach parent child (placeBefore child reference)

/-- Takes `child` out of `parent`; a node that is no child of `parent` stays where it is. -/
def remove (t : Tree) (parent child : NodeId) : Tree :=
  if t.parent? child = some parent then t.detach child else t

/-- Takes out every child of a node. -/
def clear (t : Tree) (id : NodeId) : Tree :=
  (t.children id).foldl (fun t child => t.modify child fun n => { n with parent := none })
    (t.modify id fun n => { n with children := [] })

end Tree

end AmpMarkup.Dom
