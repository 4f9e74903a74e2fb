import AmpMarkup.Proofs.Document.HeadAndBody
import AmpMarkup.Proofs.Dom.Tidy
import AmpMarkup.Proofs.Html.TextOfTokens

/-! What a parsed document has at the top: comments, perhaps a document type, and then comments and
elements. Growth that puts no text there keeps to this order. No rule of tree construction puts text or
a second element there: the document element stays open to the end, and so every insertion but that of a
comment or of the document type is below it. -/

namespace AmpMarkup

namespace Dom

/-- The kinds of nodes. -/
inductive Kind where
  | document
  | doctype
  | element
  | text
  | comment
deriving DecidableEq, Repr

def Content.kind : Content → Kind
  | .document => .document
  | .doctype _ => .doctype
  | .element _ => .element
  | .text _ => .text
  | .comment _ => .comment

namespace Tree

/-- The kind of a node. -/
def kind? (t : Tree) (id : NodeId) : Option Kind :=
  (t.content? id).map Content.kind

/-- Below the document, a document type comes before all elements, and all else is comments. -/
def Headed (t : Tree) : Prop :=
  ∃ before doctype? rest, t.children root = before ++ Option.toList doctype? ++ rest ∧
    (∀ id ∈ before, t.kind? id = some .comment) ∧
    (∀ id ∈ doctype?, t.kind? id = some .doctype) ∧
    ∀ id ∈ rest, t.kind? id = some .comment ∨ t.kind? id = some .element

variable {t t' : Tree} {id p : NodeId} {content : Content} {kind : Kind}

/-! ### Growth and kinds -/

theorem kind?_eq_element_iff : t.kind? id = some .element ↔ t.isElement id = true := by
  rw [kind?, isElement, element?]
  cases t.content? id with
  | none => simp
  | some content => cases content <;> simp [Content.kind]

theorem lt_size_of_kind? (h : t.kind? id = some kind) : id < t.size := by
  obtain ⟨content, hc, -⟩ := Option.map_eq_some_iff.mp h
  exact lt_size_of_content? hc

theorem kind?_alloc_append (t : Tree) (p : NodeId) (content : Content) (j : NodeId) :
    ((t.alloc content).append p t.size).kind? j =
      if j = t.size then some content.kind else t.kind? j := by
  rw [kind?, kind?, content?_alloc_append]
  split <;> rfl

theorem kind?_setContent (h : t.kind? id = some content.kind) (j : NodeId) :
    (t.setContent id content).kind? j = t.kind? j := by
  by_cases hj : id = j
  · subst hj
    rw [h, kind?, content?_setContent_self (lt_size_of_kind? h)]
    rfl
  · rw [kind?, kind?, content?_setContent_of_ne _ hj]

theorem kind?_mapAttributes (t : Tree) (id : NodeId) (f : Attributes → Attributes) (j : NodeId) :
    (t.mapAttributes id f).kind? j = t.kind? j := by
  unfold mapAttributes
  split
  · next e he => exact kind?_setContent (by rw [kind?, element?_eq_some_iff.1 he]; rfl) j
  · rfl

theorem kind?_appendText {data : Text} {j : NodeId} (hj : j < t.size) :
    (t.appendText id data).kind? j = t.kind? j := by
  unfold appendText
  split
  · split
    · next last before hl =>
        have hlast := text?_eq_some_iff.1 (trailingText?_eq_some_iff.1 hl).2
        exact kind?_setContent (by rw [kind?, hlast]; rfl) j
    · rw [kind?_alloc_append, if_neg (Nat.ne_of_lt hj)]
  · rfl

/-- Text goes below elements only. -/
theorem children_appendText {data : Text} (hp : t.isElement p = false) :
    (t.appendText id data).children p = t.children p := by
  unfold appendText
  split
  · next hid =>
      split
      · exact children_setContent ..
      · rw [children_alloc_append (lt_size_of_isElement hid), if_neg]
        rintro rfl
        rw [hid] at hp
        cases hp
  · rfl

/-! ### Growth below the document -/

namespace Headed

/-- The order depends on the nodes below the document alone. -/
theorem congr (h : t.Headed) (hc : t'.children root = t.children root)
    (hk : ∀ id ∈ t.children root, t'.kind? id = t.kind? id) : t'.Headed := by
  obtain ⟨before, doctype?, rest, heq, hbefore, hdoctype, hrest⟩ := h
  rw [heq] at hk
  refine ⟨before, doctype?, rest, hc.trans heq, fun id hid => ?_, fun id hid => ?_, fun id hid => ?_⟩
  · rw [hk id (by simp [hid]), hbefore id hid]
  · rw [hk id (by simp [Option.mem_def.mp hid]), hdoctype id hid]
  · rw [hk id (by simp [hid])]
    exact hrest id hid

theorem alloc_append (h : t.Headed) (ho : t.Ordered) (hp : p < t.size)
    (hc : content.kind = .comment ∨ content.kind = .element) :
    ((t.alloc content).append p t.size).Headed := by
  have hkind : ∀ id ∈ t.children root,
      ((t.alloc content).append p t.size).kind? id = t.kind? id := fun id hid => by
    rw [kind?_alloc_append, if_neg (Nat.ne_of_lt (ho.child_lt root id hid).2)]
  have hnew : ((t.alloc content).append p t.size).kind? t.size = some content.kind := by
    rw [kind?_alloc_append, if_pos rfl]
  by_cases hroot : root = p
  · obtain ⟨before, doctype?, rest, heq, hbefore, hdoctype, hrest⟩ := h
    rw [heq] at hkind
    refine ⟨before, doctype?, rest ++ [t.size], ?_, fun id hid => ?_, fun id hid => ?_,
      fun id hid => ?_⟩
    · rw [children_alloc_append hp, if_pos hroot, heq, List.append_assoc]
    · rw [hkind id (by simp [hid]), hbefore id hid]
    · rw [hkind id (by simp [Option.mem_def.mp hid]), hdoctype id hid]
    · rcases List.mem_append.mp hid with hid | hid
      · rw [hkind id (by simp [hid])]
        exact hrest id hid
      · rw [List.mem_singleton.mp hid, hnew]
        exact hc.imp (congrArg some) (congrArg some)
  · refine h.congr ?_ hkind
    rw [children_alloc_append hp, if_neg hroot]

/-- A document type comes where there are comments only. -/
theorem of_doctype (h : ∀ id ∈ t.children root, t.kind? id = some .comment) (ho : t.Ordered)
    (name : Text) : ((t.alloc (.doctype name)).append root t.size).Headed := by
  refine ⟨t.children root, some t.size, [], ?_, fun id hid => ?_, fun id hid => ?_, nofun⟩
  · rw [children_alloc_append ho.root_lt, if_pos rfl, Option.toList_some, List.append_nil]
  · rw [kind?_alloc_append, if_neg (Nat.ne_of_lt (ho.child_lt root id hid).2), h id hid]
  · obtain rfl : t.size = id := Option.some.inj hid
    rw [kind?_alloc_append, if_pos rfl]
    rfl

/-- With one element only, the other nodes below the document are comments and a document type in
front of that element. -/
theorem split (h : t.Headed) {html : NodeId} (he : t.elementChildren root = [html]) :
    ∃ before doctype? between after,
      t.children root = before ++ Option.toList doctype? ++ between ++ html :: after ∧
      (∀ id ∈ before ++ between ++ after, t.kind? id = some .comment) ∧
      ∀ id ∈ doctype?, t.kind? id = some .doctype := by
  obtain ⟨before, doctype?, rest, heq, hbefore, hdoctype, hrest⟩ := h
  have hcomment : ∀ {id}, t.kind? id = some .comment → ¬ t.isElement id = true := fun hk he => by
    simp [kind?_eq_element_iff.2 he] at hk
  have hfirst : before.filter t.isElement = [] :=
    List.filter_eq_nil_iff.mpr fun id hid => hcomment (hbefore id hid)
  have hsecond : doctype?.toList.filter t.isElement = [] :=
    List.filter_eq_nil_iff.mpr fun id hid he => by
      have hk := hdoctype id (Option.mem_toList.mp hid)
      simp [kind?_eq_element_iff.2 he] at hk
  rw [elementChildren, heq, List.filter_append, List.filter_append, hfirst, hsecond] at he
  obtain ⟨between, after, rfl, hbetween, -, hafter⟩ := List.filter_eq_cons_iff.mp he
  have hrest' : ∀ id ∈ between ++ html :: after, t.isElement id ≠ true →
      t.kind? id = some .comment := fun id hid hne =>
    (hrest id hid).resolve_right fun hk => hne (kind?_eq_element_iff.1 hk)
  refine ⟨before, doctype?, between, after, by rw [heq, List.append_assoc, List.append_assoc,
    List.append_assoc], fun id hid => ?_, hdoctype⟩
  rcases List.mem_append.mp hid with hid | hid
  · rcases List.mem_append.mp hid with hid | hid
    · exact hbefore id hid
    · exact hrest' id (by simp [hid]) (hbetween id hid)
  · exact hrest' id (by simp [hid]) (List.filter_eq_nil_iff.mp hafter id hid)

end Headed

end Tree

end Dom

open Dom (Content Kind Tree NodeId)
open Source (Registry)

namespace Html

/-- The nodes below the document are in order, and comments only until another phase comes. -/
structure Frame.Headed (f : Frame) : Prop where
  tidy : f.Tidy
  document : f.tree.kind? Tree.root = some .document
  order : f.tree.Headed
  initial : f.mode.base = .initial → ∀ id ∈ f.tree.children Tree.root, f.tree.kind? id = some .comment

variable {t : Token} {f g : Frame} {w : Text} {tree tree' : Tree} {mode mode' : Mode}
  {ids ids' : List NodeId} {head head' : Option NodeId} {stopped stopped' : Bool} {parent : NodeId}
  {content : Content}

namespace Frame.Headed

/-- The tree stays what it is. -/
theorem move (h : Frame.Headed ⟨tree, mode, ids, head, stopped⟩)
    (hg : Frame.Tidy ⟨tree, mode', ids', head', stopped'⟩)
    (hmode : mode'.base = .initial → mode.base = .initial) :
    Frame.Headed ⟨tree, mode', ids', head', stopped'⟩ :=
  ⟨hg, h.document, h.order, fun hp => h.initial (hmode hp)⟩

/-- Nothing comes or goes below the document, and nodes keep their kind. -/
theorem grow (h : Frame.Headed ⟨tree, mode, ids, head, stopped⟩)
    (hg : Frame.Tidy ⟨tree', mode, ids, head, stopped⟩)
    (hc : tree'.children Tree.root = tree.children Tree.root)
    (hk : ∀ id < tree.size, tree'.kind? id = tree.kind? id) :
    Frame.Headed ⟨tree', mode, ids, head, stopped⟩ := by
  have ho := h.tidy.ordered
  have hchildren : ∀ id ∈ tree.children Tree.root, tree'.kind? id = tree.kind? id := fun id hid =>
    hk id (ho.child_lt Tree.root id hid).2
  refine ⟨hg, (hk _ ho.root_lt).trans h.document, h.order.congr hc hchildren, fun hp id hid => ?_⟩
  rw [hc] at hid
  rw [hchildren id hid, h.initial hp id hid]

/-- A new node that may come anywhere. Below the document it is a comment as long as the initial phase
is on. -/
theorem insert (h : Frame.Headed ⟨tree, mode, ids, head, stopped⟩)
    (hg : Frame.Tidy ⟨(tree.alloc content).append parent tree.size, mode', ids', head', stopped'⟩)
    (hp : parent < tree.size) (hc : content.kind = .comment ∨ content.kind = .element)
    (hmode : mode'.base = .initial → mode.base = .initial ∧ content.kind = .comment) :
    Frame.Headed ⟨(tree.alloc content).append parent tree.size, mode', ids', head', stopped'⟩ := by
  have ho := h.tidy.ordered
  have hkind : ∀ id < tree.size,
      ((tree.alloc content).append parent tree.size).kind? id = tree.kind? id := fun id hid => by
    rw [Tree.kind?_alloc_append, if_neg (Nat.ne_of_lt hid)]
  refine ⟨hg, (hkind _ ho.root_lt).trans h.document, h.order.alloc_append ho hp hc,
    fun hi id hid => ?_⟩
  obtain ⟨hbase, hcomment⟩ := hmode hi
  have hold : ∀ id ∈ tree.children Tree.root,
      ((tree.alloc content).append parent tree.size).kind? id = some .comment := fun id hid =>
    (hkind id (ho.child_lt Tree.root id hid).2).trans (h.initial hbase id hid)
  rw [Tree.children_alloc_append hp] at hid
  split at hid
  · rcases List.mem_append.mp hid with hid | hid
    · exact hold id hid
    · rw [List.mem_singleton.mp hid, Tree.kind?_alloc_append, if_pos rfl, hcomment]
  · exact hold id hid

end Frame.Headed

/-- Every move keeps the order below the document. -/
theorem Move.headed (hm : Move t f w g) (h : f.Headed) : g.Headed := by
  have hg := hm.tidy h.tidy
  cases hm with
  | close _ hp => exact h.move hg hp.1
  | endHead => exact h.move hg nofun
  | endText => exact h.move hg id
  | @text tree mode top ids head c _ _ =>
      have hroot : tree.isElement Tree.root = false := by
        rw [← Bool.not_eq_true, ← Tree.kind?_eq_element_iff, h.document]
        decide
      exact h.grow hg (Tree.children_appendText hroot) fun id => Tree.kind?_appendText
  | comment _ hparent =>
      exact h.insert hg (h.tidy.parent hparent).1 (.inl rfl) fun hp => ⟨hp, rfl⟩
  | @doctype tree ids head name =>
      refine ⟨hg, ?_, .of_doctype (h.initial rfl) h.tidy.ordered name, nofun⟩
      rw [Tree.kind?_alloc_append, if_neg (Nat.ne_of_lt h.tidy.ordered.root_lt), h.document]
  | @attributes tree mode ids head id attributes _ =>
      exact h.grow hg (tree.children_mapAttributes id _ _) fun j _ => tree.kind?_mapAttributes id _ j
  | element _ _ hp _ =>
      exact h.insert hg h.tidy.innermost.1 (.inr rfl) fun hi => absurd hi hp.1
  | leaf _ _ hp | textElement _ _ _ hp =>
      refine h.insert hg (h.tidy.place hp).1 (.inr rfl) fun hi => ?_
      cases hp with
      | inside hnests => exact absurd hi hnests.1
      | late => cases hi
  | lateTemplate => exact h.insert hg (h.tidy.head _ rfl).1 (.inr rfl) nofun
  | stop => exact h.move hg id

theorem headed_start : Builder.start.frame.Headed where
  tidy := tidy_start
  document := rfl
  order := ⟨[], none, [], rfl, nofun, nofun, nofun⟩
  initial _ := nofun

/-- The order of the nodes below the document. -/
theorem headed_parse (u : Text) : (parse u).1.Headed := by
  have h : (Builder.start.run (Token.ofText u)).frame.Headed :=
    building_start.frame_run headed_start (delivered_ofText u).lower_of_mem
      fun _ _ _ _ => Move.headed
  rw [parse_eq_construct]
  exact h.order

end Html

namespace Document

/-- Markup that is not blank becomes a document. Below the document stands one element, `html`, with
at most one document type before it and with comments. -/
theorem parse_topLevel {markup : Text} (h : markup.blank = false) (registry : Registry) :
    ∃ d, parse markup registry = .ok d ∧ ∃ before doctype? between html after,
      d.tree.children Tree.root = before ++ Option.toList doctype? ++ between ++ html :: after ∧
      d.tree.tag? html = some "html".toList ∧
      (∀ id ∈ doctype?, d.tree.kind? id = some .doctype) ∧
      ∀ id ∈ before ++ between ++ after, d.tree.kind? id = some .comment := by
  obtain ⟨s, hs, -⟩ := Html.exists_spine (Source.encode registry markup)
  obtain ⟨before, doctype?, between, after, heq, hcomments, hdoctype⟩ :=
    (Html.headed_parse (Source.encode registry markup)).split hs.html.document
  exact ⟨_, parse_eq_ok h registry, before, doctype?, between, s.html, after, heq, hs.html.tag,
    hdoctype, hcomments⟩

/-- A second document type and what follows the end of the document. -/
theorem parse_topLevel_stray :
    Text.blank "<!--a--><!DOCTYPE html><!--b--><!DOCTYPE c><p>d</html><!--e-->f" = false ∧
      ∃ d, parse "<!--a--><!DOCTYPE html><!--b--><!DOCTYPE c><p>d</html><!--e-->f"
          (Registry.ofSalt "a".toList) = .ok d ∧
        ∃ before doctype? between html after,
          d.tree.children Tree.root = before ++ Option.toList doctype? ++ between ++ html :: after ∧
          d.tree.tag? html = some "html".toList ∧
          (∀ id ∈ doctype?, d.tree.kind? id = some .doctype) ∧
          ∀ id ∈ before ++ between ++ after, d.tree.kind? id = some .comment := by
  have h : Text.blank "<!--a--><!DOCTYPE html><!--b--><!DOCTYPE c><p>d</html><!--e-->f" = false := by
    decide
  exact ⟨h, parse_topLevel h (Registry.ofSalt "a".toList)⟩

end Document

end AmpMarkup
