import Mathlib.Data.List.Nodup
import AmpMarkup.Proofs.Dom.Growth
import AmpMarkup.Proofs.Html.TagNames

/-! Start tags that are written and read again. The tag comes back as it was, unless an attribute
without a value stands in front of one whose name starts with an equals sign: that sign is then read as
the start of a value, so the attribute in front comes back with a value or the tag does not come back
at all. -/

namespace AmpMarkup.Html

open Dom (Element NodeId Subtree Tree renderAttribute renderStartTag)

/-- A start tag in which the attribute `name` has a value. -/
structure TagDraft.Gives (name : Text) (tag : TagDraft) : Prop where
  isEnd : tag.isEnd = false
  value : ∃ v, ⟨name, some v⟩ ∈ tag.attributes

/-- A reader in a start tag in which the attribute `name` has a value, or has one as soon as the value
that is being read ends. -/
def State.Gives (name : Text) : State → Prop
  | .tagName tag | .beforeAttribute tag | .attributeName tag _ | .afterAttributeName tag _
  | .afterQuotedValue tag | .solidus tag => tag.Gives name
  | .beforeValue tag n | .inValue _ tag n _ => ∀ v, (tag.add n (some v)).Gives name
  | _ => False

/-- A step that goes on in such a tag or ends it. -/
inductive Step.Gives (name : Text) : Step → Prop where
  | goto {s : State} {rest : Text} (h : s.Gives name) : Gives name (.goto s rest)
  | finish {tag : TagDraft} (h : tag.Gives name) (selfClosing : Bool) (rest : Text) :
    Gives name (tag.finish selfClosing rest)

variable {s : State} {tag draft : TagDraft} {pending pending' : AttributeDraft} {c : Char}
  {name n u k : Text} {attributes : List Attribute}
  {selfClosing bare : Bool} {ts : List Token}

/-! ### Values that stay -/

theorem TagDraft.Gives.add (h : tag.Gives name) (n : Text) (v : Option Text) :
    (tag.add n v).Gives name := by
  unfold TagDraft.add
  split
  · exact h
  · exact ⟨h.isEnd, h.value.imp fun _ hv => List.mem_append_left _ hv⟩

/-- The attribute has a value in the tag, or will have one with the value that is pending. -/
def AttributeDraft.Gives (name : Text) (tag : TagDraft) : AttributeDraft → Prop
  | .none | .name _ => tag.Gives name
  | .value n => ∀ v, (tag.add n (some v)).Gives name

theorem State.gives_iff : s.Gives name ↔
    ∃ tag pending, s.region = .tag tag pending ∧ pending.Gives name tag := by
  cases s <;> simp [Gives, region, AttributeDraft.Gives]

/-- No character takes a value from an attribute that has one. -/
theorem TagDraft.Edits.gives (h : tag.Edits c pending draft pending')
    (hg : pending.Gives name tag) : pending'.Gives name draft := by
  cases h with
  | keep | startAttribute | attributeName => exact hg
  | name => exact ⟨hg.isEnd, hg.value⟩
  | value => exact fun v => hg.add _ (some v)
  | addBare | addBareBefore => exact hg.add _ none
  | add value => exact hg value

theorem State.Gives.step (h : s.Gives name) (c : Char) (rest : Text) :
    (s.step c rest).Gives name := by
  obtain ⟨tag, pending, hs, hg⟩ := State.gives_iff.1 h
  have hstep := State.edits_step hs c rest
  generalize s.step c rest = st at hstep
  cases hstep with
  | goto h hs' _ => exact .goto (State.gives_iff.2 ⟨_, _, hs', h.gives hg⟩)
  | finish h selfClosing => exact .finish (h.gives hg) selfClosing rest

/-- A tag that is completed comes with that value. -/
theorem State.Gives.exists_mem (h : s.Gives name)
    (ht : s.tokens u = .startTag n attributes selfClosing :: ts) :
    ∃ v, ⟨name, some v⟩ ∈ attributes := by
  fun_induction State.tokens s u with
  | case1 s => cases s <;> first | exact h.elim | cases ht
  | case2 s c rest ih =>
      have hstep := h.step c rest
      generalize s.step c rest = st at hstep ht ih
      cases hstep with
      | goto h => exact ih h ht
      | finish h sc rest =>
          rw [TagDraft.finish, if_neg (Bool.not_eq_true _ ▸ h.isEnd)] at ht
          cases ht
          exact h.value

/-! ### Attributes that are not separate -/

/-- Where attributes are not separate, one without a value is read with a value. -/
theorem State.Ready.exists_gives (hs : s.Ready draft bare) (he : draft.isEnd = false)
    (hn : ∀ a ∈ attributes, IsAttributeName a.name) (hsep : ¬ Separate attributes)
    (hb : ∀ a ∈ attributes.head?, bare = true → a.name.head? ≠ some '=')
    (hnodup : (draft.attributes.map Attribute.name ++ attributes.map Attribute.name).Nodup)
    (k : Text) :
    ∃ a ∈ attributes, a.value = none ∧ ∃ (s' : State) (u : Text), s'.Gives a.name ∧
      s.tokens (attributes.flatMap renderAttribute ++ k) = s'.tokens u := by
  induction attributes generalizing s draft bare with
  | nil => exact absurd .nil hsep
  | cons a attributes ih =>
      have hnot : a.name ∉ draft.attributes.map Attribute.name := fun hm =>
        (List.pairwise_append.1 hnodup).2.2 _ hm _ List.mem_cons_self rfl
      have hadd := fun v : Option Text => TagDraft.add_of_notMem hnot v
      by_cases hhead : ∀ b ∈ attributes.head?, a.value = none → b.name.head? ≠ some '='
      · obtain ⟨s₁, hs₁, h₁⟩ := hs.exists_attribute (hn a List.mem_cons_self) (hb a rfl)
        have hrest : ¬ Separate attributes := fun h => hsep (List.isChain_cons.2 ⟨hhead, h⟩)
        obtain ⟨b, hb, hnone, s₂, u, hs₂, h₂⟩ := ih hs₁ (by rw [hadd]; exact he)
          (fun b h => hn b (List.mem_cons_of_mem _ h)) hrest
          (fun b h hnone => hhead b h (Option.isNone_iff_eq_none.1 hnone)) (by simpa [hadd] using hnodup)
        refine ⟨b, List.mem_cons_of_mem _ hb, hnone, s₂, u, hs₂, ?_⟩
        rw [List.flatMap_cons, List.append_assoc, h₁, h₂]
      · -- The name behind starts with the equals sign that the reader takes for a value of `a`.
        push Not at hhead
        obtain ⟨b, hbmem, hnone, hequals⟩ := hhead
        obtain ⟨rest, rfl⟩ : ∃ rest, attributes = b :: rest := List.head?_eq_some_iff.1 hbmem
        obtain ⟨t, ht⟩ : ∃ t, b.name = '=' :: t := List.head?_eq_some_iff.1 hequals
        obtain ⟨u, hu⟩ : ∃ u, (b :: rest).flatMap renderAttribute ++ k = ' ' :: '=' :: u := by
          rw [List.flatMap_cons, renderAttribute, ht]
          exact ⟨_, rfl⟩
        refine ⟨a, List.mem_cons_self, hnone, .beforeValue draft a.name, u, fun v => ?_, ?_⟩
        · rw [hadd]
          exact ⟨he, v, List.mem_append_right _ List.mem_cons_self⟩
        · have hspace : (State.attributeName draft a.name).step ' ' ('=' :: u) =
              .goto (.afterAttributeName draft a.name) ('=' :: u) := rfl
          have hvalue : (State.afterAttributeName draft a.name).step '=' u =
              .goto (.beforeValue draft a.name) u := rfl
          rw [List.flatMap_cons, List.append_assoc, hu, renderAttribute, hnone, List.append_nil,
            List.cons_append, hs.tokens_name (hn a List.mem_cons_self) (hb a rfl),
            State.tokens_goto hspace, State.tokens_goto hvalue]

/-! ### Elements without children -/

theorem exists_outerHtml_eq {tree : Tree} {id : NodeId} {e : Element}
    (he : tree.element? id = some e) (hc : tree.children id = []) :
    ∃ k, tree.outerHtml id = renderStartTag e ++ k := by
  have hsubtree : tree.subtree? id = some (.node (.element e) []) := by
    rw [Tree.subtree?]
    cases tree.size <;> simp [Tree.subtreeWithin, Tree.element?_eq_some_iff.1 he, hc]
  rw [Tree.outerHtml, hsubtree, Option.map_some, Option.getD_some, Subtree.render_element]
  split
  · exact ⟨[], (List.append_nil _).symm⟩
  · split <;> exact ⟨_, List.append_assoc ..⟩

/-- The start tag that is written for an element without children is read with the name and the
attributes of the tag that the element comes from, if and only if these attributes are separate. -/
theorem head?_ofText_outerHtml (h : .startTag name attributes selfClosing ∈ Token.ofText u)
    {tree : Tree} {id : NodeId} (he : tree.element? id = some ⟨name, ⟨attributes⟩⟩)
    (hc : tree.children id = []) :
    (∃ selfClosing', (Token.ofText (tree.outerHtml id)).head? =
      some (.startTag name attributes selfClosing')) ↔ Separate attributes := by
  have hnames : TagDraft.WellNamed ⟨false, name, attributes⟩ := Token.wellNamed_of_mem_ofText h
  obtain ⟨k, hk⟩ := exists_outerHtml_eq he hc
  rw [hk, Token.ofText]
  constructor
  · rintro ⟨sc, hread⟩
    by_contra hsep
    obtain ⟨ts, hts⟩ := List.head?_eq_some_iff.1 hread
    obtain ⟨a, ha, hnone, s, t, hs, hst⟩ := (ready_tagName ⟨false, name, []⟩).exists_gives rfl
      hnames.attributes hsep (fun _ _ h => nomatch h) hnames.nodup ('>' :: k)
    rw [tokens_open (hnames.name rfl), hst] at hts
    obtain ⟨v, hv⟩ := hs.exists_mem hts
    have hsame : a = ⟨a.name, some v⟩ := List.inj_on_of_nodup_map hnames.nodup ha hv rfl
    rw [hsame] at hnone
    cases hnone
  · intro hsep
    exact ⟨false, by
      rw [tokens_renderStartTag (hnames.name rfl) hnames.attributes hnames.nodup hsep]; rfl⟩

/-- A document with one element. -/
def singleElement (e : Element) : Tree :=
  ⟨#[⟨.document, none, [1]⟩, ⟨.element e, some 0, []⟩]⟩

/-- The tag `<x a/=b>` is written as `<x a =b>`, which is another tag; in the other order the same
attributes come back. -/
theorem head?_ofText_outerHtml_order :
    (.startTag "x" [⟨"a", none⟩, ⟨"=b", none⟩] false ∈ Token.ofText "<x a/=b>" ∧
      ¬ ∃ selfClosing, (Token.ofText
        ((singleElement ⟨"x", ⟨[⟨"a", none⟩, ⟨"=b", none⟩]⟩⟩).outerHtml 1)).head? =
          some (.startTag "x" [⟨"a", none⟩, ⟨"=b", none⟩] selfClosing)) ∧
    (.startTag "x" [⟨"=b", none⟩, ⟨"a", none⟩] false ∈ Token.ofText "<x =b a>" ∧
      ∃ selfClosing, (Token.ofText
        ((singleElement ⟨"x", ⟨[⟨"=b", none⟩, ⟨"a", none⟩]⟩⟩).outerHtml 1)).head? =
          some (.startTag "x" [⟨"=b", none⟩, ⟨"a", none⟩] selfClosing)) := by
  have hbare : .startTag "x" [⟨"a", none⟩, ⟨"=b", none⟩] false ∈ Token.ofText "<x a/=b>" := by
    decide +kernel
  have hequals : .startTag "x" [⟨"=b", none⟩, ⟨"a", none⟩] false ∈ Token.ofText "<x =b a>" := by
    decide +kernel
  refine ⟨⟨hbare, fun h => ?_⟩, hequals, ?_⟩
  · exact absurd ((head?_ofText_outerHtml hbare rfl rfl).1 h)
      fun hsep => (List.isChain_cons_cons.1 hsep).1 rfl rfl
  · exact (head?_ofText_outerHtml hequals rfl rfl).2
      (.cons_cons (fun _ h => by cases h) (.singleton _))

end AmpMarkup.Html
