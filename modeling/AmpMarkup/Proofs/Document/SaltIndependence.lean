import AmpMarkup.Proofs.Document.HeadAndBody
import AmpMarkup.Proofs.Html.Lockstep
import AmpMarkup.Proofs.Validation.Agreement

/-! Reports on the same markup under two registries. They are the same as long as no stand-in shows in
what rules see of the document. One in the tag of an element or in the name of an attribute does show,
since only texts and values are restored. -/

namespace AmpMarkup

open Dom (Tree NodeId)
open Html (AttributeLike)
open Source (Registry Alike Hides)
open Validation (Agree Subject Validator subjects)

/-- The text is without marks of bindings, which stay in it, and restoring it leaves no substitute. -/
def Source.Registry.Clears (r s : Registry) (t : Text) : Prop :=
  ¬ s.bindingMark <:+: t ∧ Hides s.substitutes (r.restoreTemplates t)

/-- No stand-in of a registry shows in what rules see of the document. -/
structure Document.HidesStandIns (d : Document) (s : Registry) : Prop where
  tag : ∀ id, ∀ e ∈ d.tree.element? id, Hides s.standIns e.tag
  name : ∀ id, ∀ e ∈ d.tree.element? id, ∀ a ∈ e.attributes.entries,
    Hides s.standIns (d.registry.sourceName a.name)
  value : ∀ id, ∀ e ∈ d.tree.element? id, ∀ a ∈ e.attributes.entries, d.registry.Clears s a.text
  text : ∀ id < d.tree.size, d.registry.Clears s (d.tree.childText id)

variable {d d' : Document} {r r' : Registry} {t t' : Text} {words : List Text}

theorem Source.Hides.append {words' : List Text} (h : Hides words t) (h' : Hides words' t) :
    Hides (words ++ words') t := fun w hw =>
  (List.mem_append.1 hw).elim (h w) (h' w)

namespace Document

theorem childText_eq_nil {tree : Tree} {id : NodeId} (h : tree.size ≤ id) :
    tree.childText id = [] := by
  rw [Tree.childText, Tree.children_eq_nil h]
  rfl

theorem restoreTemplates_nil (r : Registry) : r.restoreTemplates [] = [] :=
  rfl

theorem HidesStandIns.not_leaks (h : d.HidesStandIns r) (h' : d.HidesStandIns r') :
    ¬ d.tree.Leaks d.registry (r.standIns ++ r'.standIns) := by
  rintro ⟨id, e, he, ht | ⟨a, ha, hn⟩⟩
  · exact ht ((h.tag id e he).append (h'.tag id e he))
  · exact hn ((h.name id e he a ha).append (h'.name id e he a ha))

section
variable (hr : d.registry.WellFormed) (hr' : d'.registry.WellFormed)
  (hn : (d.registry.substitutes ++ d'.registry.substitutes).Nodup)
include hr hr' hn

theorem restoreTemplates_eq (h : Alike d.registry d'.registry t t')
    (ht : d.registry.Clears d.registry t) (hc : d.registry.Clears d'.registry t)
    (hc' : d'.registry.Clears d.registry t') :
    d.registry.restoreTemplates t = d'.registry.restoreTemplates t' :=
  h.restoreTemplates_eq hr hr' hn ht.1 hc.2 hc'.2

theorem map_ruleAttribute_eq {l l' : List Attribute}
    (hl : List.Forall₂ (AttributeLike d.registry d'.registry) l l')
    (ht : ∀ a ∈ l, d.registry.Clears d.registry a.text)
    (hc : ∀ a ∈ l, d.registry.Clears d'.registry a.text)
    (hc' : ∀ a ∈ l', d'.registry.Clears d.registry a.text) :
    l.map d.ruleAttribute = l'.map d'.ruleAttribute := by
  induction hl with
  | nil => rfl
  | @cons a a' l l' ha _ ih =>
      rw [List.forall_mem_cons] at ht hc hc'
      rw [List.map_cons, List.map_cons, ih ht.2 hc.2 hc'.2, ruleAttribute, ruleAttribute,
        ha.name.sourceName_eq, restoreTemplates_eq hr hr' hn ha.text ht.1 hc.1 hc'.1]

/-- Documents with alike trees in which no stand-in shows look the same to the rules. -/
theorem agree_of_like (hlike : d.tree.Like d.registry d'.registry d'.tree)
    (h : d.HidesStandIns d.registry) (hc : d.HidesStandIns d'.registry)
    (hc' : d'.HidesStandIns d.registry) : Agree d d' where
  subjects := by
    rw [subjects, subjects, hlike.shape.descendants]
    congr 1
    funext id
    have helement := hlike.element? id
    generalize he : d.tree.element? id = e, he' : d'.tree.element? id = e' at helement
    cases helement with
    | none => rfl
    | @some e e' hl =>
        have hattributes := map_ruleAttribute_eq hr hr' hn hl.attributes
          (fun a ha => h.value id e he a ha) (fun a ha => hc.value id e he a ha)
          (fun a ha => hc'.value id e' he' a ha)
        rw [Option.map_some, Option.map_some, Subject.ofElement, Subject.ofElement, hl.tag,
          hattributes]
  characterData := by
    funext id
    rw [characterData, characterData]
    rcases Nat.lt_or_ge id d.tree.size with hid | hid
    · exact restoreTemplates_eq hr hr' hn (hlike.childText id) (h.text id hid) (hc.text id hid)
        (hc'.text id (hlike.size ▸ hid))
    · rw [childText_eq_nil hid, childText_eq_nil (hlike.size ▸ hid), restoreTemplates_nil,
        restoreTemplates_nil]
  place := by
    funext id
    rw [place, place, hlike.shape.elementPath]
  parent? := hlike.parent?
  ancestors := hlike.shape.ancestors
  tag? := hlike.tag?
  elementIs := hlike.shape.elementIs

end

theorem of_parse_eq_ok {markup : Text} (h : parse markup r = .ok d) :
    d.tree = (Html.parse (Source.encode r markup)).1 ∧ d.registry = r := by
  rw [parse] at h
  split at h
  · cases h
  · dsimp only at h
    split at h
    · cases h
    · cases h
      exact ⟨rfl, rfl⟩

theorem hidesStandIns_iff {s : Registry} : d.HidesStandIns s ↔ ∀ id < d.tree.size,
    (∀ e ∈ d.tree.element? id, Hides s.standIns e.tag ∧ ∀ a ∈ e.attributes.entries,
      Hides s.standIns (d.registry.sourceName a.name) ∧ d.registry.Clears s a.text) ∧
    d.registry.Clears s (d.tree.childText id) := by
  constructor
  · exact fun h id hid => ⟨fun e he => ⟨h.tag id e he, fun a ha =>
      ⟨h.name id e he a ha, h.value id e he a ha⟩⟩, h.text id hid⟩
  · intro h
    have hlt : ∀ id, ∀ e ∈ d.tree.element? id, id < d.tree.size := fun id e he =>
      Tree.lt_size_of_content? (Tree.element?_eq_some_iff.1 he)
    exact ⟨fun id e he => ((h id (hlt id e he)).1 e he).1,
      fun id e he a ha => (((h id (hlt id e he)).1 e he).2 a ha).1,
      fun id e he a ha => (((h id (hlt id e he)).1 e he).2 a ha).2, fun id hid => (h id hid).2⟩

instance (r s : Registry) (t : Text) : Decidable (r.Clears s t) :=
  inferInstanceAs (Decidable (_ ∧ _))

instance (s : Registry) : Decidable (d.HidesStandIns s) :=
  decidable_of_iff' _ hidesStandIns_iff

/-- The report on markup in whose documents no stand-in shows does not depend on the salt. -/
theorem validate_parse_eq {s s' markup : Text}
    (hn : s ≠ s' → ((Registry.ofSalt s).substitutes ++ (Registry.ofSalt s').substitutes).Nodup)
    (hd : parse markup (Registry.ofSalt s) = .ok d)
    (hd' : parse markup (Registry.ofSalt s') = .ok d')
    (h : ∀ r ∈ [Registry.ofSalt s, Registry.ofSalt s'], d.HidesStandIns r ∧ d'.HidesStandIns r)
    (v : Validator) : v.validate d = v.validate d' := by
  by_cases hs : s = s'
  · subst hs
    rw [Except.ok.inj (hd.symm.trans hd')]
  have hr := Registry.ofSalt_wellFormed s
  have hr' := Registry.ofSalt_wellFormed s'
  obtain ⟨hown, hcross'⟩ := h (Registry.ofSalt s) List.mem_cons_self
  obtain ⟨hcross, hown'⟩ := h (Registry.ofSalt s') (List.mem_cons_of_mem _ List.mem_cons_self)
  have hl := hown.not_leaks hcross
  have hl' := hcross'.not_leaks hown'
  obtain ⟨tree, registry, issues⟩ := d
  obtain ⟨tree', registry', issues'⟩ := d'
  obtain ⟨rfl, rfl⟩ := of_parse_eq_ok hd
  obtain ⟨rfl, rfl⟩ := of_parse_eq_ok hd'
  rcases Html.like_or_leaks_parse_encode hr hr' markup with hlike | hleaks | hleaks
  · exact (agree_of_like hr hr' (hn hs) hlike hown hcross hcross').validate v
  · exact absurd hleaks hl
  · exact absurd hleaks hl'

/-- A validator that knows of paragraphs without attributes of their own. -/
def paragraphs : Validator :=
  ⟨⟨⟨[], []⟩, [⟨{ tag := "p" }, [], [], none⟩]⟩, {}⟩

/-- A binding, and a template in the text. -/
theorem validate_parse_eq_template :
    ∃ d d', parse "<p [a]>\x7b\x7b" (Registry.ofSalt "a".toList) = .ok d ∧
      parse "<p [a]>\x7b\x7b" (Registry.ofSalt "b".toList) = .ok d' ∧
      paragraphs.validate d = paragraphs.validate d' := by
  have hblank : Text.blank "<p [a]>\x7b\x7b" = false := by decide
  have hd := parse_eq_ok hblank (Registry.ofSalt "a".toList)
  have hd' := parse_eq_ok hblank (Registry.ofSalt "b".toList)
  refine ⟨_, _, hd, hd', validate_parse_eq (fun _ => ?_) hd hd' ?_ paragraphs⟩
  · rw [Registry.ofSalt_eq Source.fingerprints_a, Registry.ofSalt_eq Source.fingerprints_b]
    decide +kernel
  · rw [Html.parse_eq_construct, Html.parse_eq_construct, Registry.ofSalt_eq Source.fingerprints_a,
      Registry.ofSalt_eq Source.fingerprints_b, List.forall_mem_cons, List.forall_mem_singleton]
    exact ⟨⟨by decide +kernel, by decide +kernel⟩, by decide +kernel, by decide +kernel⟩

end Document

end AmpMarkup
