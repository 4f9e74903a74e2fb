import AmpMarkup.Document
import AmpMarkup.Proofs.Html.Completion

/-! Head and body of a parsed document. Markup that is not blank always becomes a document with a
head; it has a body unless a `template` start tag comes between the two. -/

namespace AmpMarkup

open Dom (Tree NodeId)
open Html (Builder Token)
open Source (Registry)

namespace Dom.Tree

variable {t : Tree} {id html head body : NodeId} {tag : Text}

/-- The document element is `html`, and its elements are a head and a body after it. -/
def HasHeadAndBody (t : Tree) : Prop :=
  ∃ html head body, t.documentElement? = some html ∧ t.tag? html = some "html".toList ∧
    t.elementChildren html = [head, body] ∧ t.tag? head = some "head".toList ∧
    t.tag? body = some "body".toList ∧ t.head? = some head ∧ t.body? = some body

theorem elementIs_of_tag? (h : t.tag? id = some tag) (name : Text) :
    t.elementIs id name = tag.sameIgnoringCase name := by
  obtain ⟨e, he, rfl⟩ := Option.map_eq_some_iff.1 h
  rw [elementIs, he]
  rfl

theorem isElement_of_elementIs (h : t.elementIs id tag = true) : t.isElement id = true := by
  obtain ⟨e, he, -⟩ := (Option.any_eq_true _ _).1 h
  rw [isElement, he]
  rfl

/-- A search for elements among children looks at the elements only. -/
theorem find?_children {p : NodeId → Bool} (h : ∀ i, p i = true → t.isElement i = true)
    (id : NodeId) : (t.children id).find? p = (t.elementChildren id).find? p := by
  rw [elementChildren, List.find?_filter]
  congr 1
  funext i
  cases hp : p i with
  | false => simp
  | true => simp [h i hp]

theorem documentElement?_eq (h : t.elementChildren root = [html]) :
    t.documentElement? = some html := by
  rw [documentElement?, ← List.head?_filter]
  exact congrArg List.head? h

end Dom.Tree

namespace Html.Spine

variable {s : Spine} {t : Tree}

theorem In.documentElement? (h : s.In t) : t.documentElement? = some s.html :=
  Tree.documentElement?_eq h.html.document

theorem In.head? (h : s.In t) : t.head? = some s.head := by
  have hhead : t.elementIs s.head "head" = true := by
    rw [Tree.elementIs_of_tag? h.head]
    decide
  rw [Tree.head?, h.documentElement?, Option.bind_eq_bind, Option.bind_some, Tree.childElement?,
    Tree.find?_children fun _ => Tree.isElement_of_elementIs, h.html.children]
  split <;> exact List.find?_cons_of_pos (p := (t.elementIs · "head")) hhead

/-- The body stands below the document element unless a template came before it. -/
theorem In.body? (h : s.In t) : t.body? = if s.templates = [] then some s.body else none := by
  have hhead : (t.elementIs s.head "body" || t.elementIs s.head "frameset") = false := by
    rw [Tree.elementIs_of_tag? h.head, Tree.elementIs_of_tag? h.head]
    decide
  have hbody : (t.elementIs s.body "body" || t.elementIs s.body "frameset") = true := by
    rw [Tree.elementIs_of_tag? h.body, Tree.elementIs_of_tag? h.body]
    decide
  rw [Tree.body?, h.documentElement?, Option.bind_eq_bind, Option.bind_some, Tree.find?_children,
    h.html.children]
  · split
    · simp only [List.find?_cons, hhead, hbody]
    · simp only [List.find?_cons, hhead, List.find?_nil]
  · intro id hid
    exact (Bool.or_eq_true_iff.1 hid).elim Tree.isElement_of_elementIs Tree.isElement_of_elementIs

theorem In.hasHeadAndBody_iff (h : s.In t) : t.HasHeadAndBody ↔ s.templates = [] := by
  constructor
  · rintro ⟨html, head, body, -, -, -, -, -, -, hbody⟩
    rw [h.body?] at hbody
    split at hbody
    · next hs => exact hs
    · cases hbody
  · intro hs
    have hchildren := h.html.children
    rw [if_pos hs] at hchildren
    exact ⟨s.html, s.head, s.body, h.documentElement?, h.html.tag, hchildren, h.head, h.body, h.head?,
      by rw [h.body?, if_pos hs]⟩

end Html.Spine

namespace Document

/-- Markup that is not blank becomes a document. -/
theorem parse_eq_ok {markup : Text} (h : markup.blank = false) (registry : Registry) :
    parse markup registry = .ok ⟨(Html.parse (Source.encode registry markup)).1, registry,
      (Html.parse (Source.encode registry markup)).2⟩ := by
  obtain ⟨s, hs, -⟩ := Html.exists_spine (Source.encode registry markup)
  rw [parse, h, if_neg Bool.false_ne_true]
  dsimp only
  rw [hs.documentElement?]

/-- Markup that is not blank becomes a document with a head. It has a body behind the head if and only
if no `template` start tag comes between the two. -/
theorem parse_hasHeadAndBody_iff {markup : Text} (h : markup.blank = false)
    (registry : Registry) :
    ∃ d, parse markup registry = .ok d ∧ d.tree.head?.isSome = true ∧
      (d.tree.HasHeadAndBody ↔
        ¬ Builder.start.MeetsLateTemplate (Token.ofText (Source.encode registry markup))) ∧
      (d.tree.body? = none ↔
        Builder.start.MeetsLateTemplate (Token.ofText (Source.encode registry markup))) := by
  obtain ⟨s, hs, hlate⟩ := Html.exists_spine (Source.encode registry markup)
  refine ⟨⟨(Html.parse (Source.encode registry markup)).1, registry,
    (Html.parse (Source.encode registry markup)).2⟩, ?_, by rw [hs.head?]; rfl, ?_, ?_⟩
  · rw [parse, if_neg (by rw [h]; exact Bool.false_ne_true)]
    dsimp only
    rw [hs.documentElement?]
  · rw [hs.hasHeadAndBody_iff, ← hlate, Decidable.not_not]
  · rw [hs.body?, ← hlate]
    simp

/-- Here the body is put into the template. -/
theorem parse_template_before_body :
    Text.blank "<head></head><template></template><p>x" = false ∧
      ∃ d, parse "<head></head><template></template><p>x" (Registry.ofSalt "a".toList) = .ok d ∧
        d.tree.body? = none := by
  have hblank : Text.blank "<head></head><template></template><p>x" = false := by decide
  obtain ⟨d, hd, -, -, hbody⟩ := parse_hasHeadAndBody_iff hblank (Registry.ofSalt "a".toList)
  refine ⟨hblank, d, hd, hbody.2 ?_⟩
  refine ⟨[.startTag "head" [] false, .endTag "head"], .startTag "template" [] false,
    [.endTag "template", .startTag "p" [] false, .character 'x', .endOfFile], ?_, ?_⟩
  · decide +kernel
  · decide +kernel

end Document

end AmpMarkup
