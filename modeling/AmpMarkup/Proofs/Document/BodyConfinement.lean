import AmpMarkup.Proofs.Document.FragmentWrapper
import AmpMarkup.Proofs.Document.HeadAndBody
import AmpMarkup.Proofs.Html.ClosedElements

/-! A fragment stays in its body. When the content of the body begins, the head and what it declares
are closed and the body stands below the document element; whatever the content is, every element that
it makes comes below the body. -/

namespace AmpMarkup

open Dom (Tree NodeId)
open Html (Builder Building Frame Spine State Token)
open Source (Registry)

namespace Dom.Tree

variable {t : Tree} {html head declared body id : NodeId}

/-- With nothing in the head but an empty element, all other elements are at or below the body. -/
theorem Branching.confined (h : t.Branching) (hroot : t.elementChildren root = [html])
    (hhtml : t.elementChildren html = [head, body]) (hhead : t.children head = [declared])
    (hdeclared : t.children declared = []) (he : t.isElement id = true) (hne : id ≠ html)
    (hne' : id ≠ head) (hne'' : id ≠ declared) : id ∈ t.descendants body := by
  have hnot : id ≠ root := by
    rintro rfl
    rw [h.document] at he
    cases he
  obtain ⟨i, hi, hw⟩ := h.within_of_elementChildren_eq hroot
    (h.ordered.within_root (lt_size_of_isElement he)) he hnot
  obtain rfl := List.mem_singleton.mp hi
  obtain ⟨j, hj, hw⟩ := h.within_of_elementChildren_eq hhtml hw he hne
  rcases List.mem_cons.mp hj with rfl | hj
  · -- Below the head there is the declared element, and below that one nothing.
    obtain ⟨c, hc, hw⟩ := hw.eq_or_child.resolve_left hne'
    rw [hhead] at hc
    obtain rfl := List.mem_singleton.mp hc
    obtain ⟨d, hd, -⟩ := hw.eq_or_child.resolve_left hne''
    rw [hdeclared] at hd
    cases hd
  · obtain rfl := List.mem_singleton.mp hj
    exact h.ordered.mem_descendants.2 hw

end Dom.Tree

namespace Document

variable {t : Tree} {s : Spine}

/-! ### Where the content begins -/

theorem building_openedBody : ∃ late, Building late openedBody := by
  obtain ⟨late, -, h | h⟩ := Html.building_start.run openingTokens
  · exact ⟨late, h⟩
  · have hrunning := inBody_openedBody.running
    rw [openedBody, h.stopped] at hrunning
    cases hrunning

/-- The head and the element that it declares are out of reach. -/
theorem not_reaches_openedBody {id : NodeId} (hroot : id ≠ Tree.root) (hmem : id ∉ [4, 1]) :
    ¬ openedBody.frame.Reaches id := by
  have hopened : openedBody.frame.openElements = [4, 1] := inBody_openedBody.opened
  have hmode : openedBody.frame.mode = .phase .inBody := inBody_openedBody.mode
  rintro (h | h | ⟨h, -⟩)
  · exact hroot h
  · exact hmem (hopened ▸ h)
  · rw [hmode] at h
    cases h

/-- The document of a fragment comes after the one where its content begins. -/
theorem later_openedBody (hr : r.WellFormed) (content : Text) : ∃ f : Frame,
    openedBody.frame.Later f ∧
      f.tree = (Html.parse (Source.encode r (wrapFragment content "utf-8"))).1 := by
  have hl := (Html.delivered_ofText (Source.encode r (wrapFragment content "utf-8"))).lower_of_mem
  obtain ⟨k, hencode⟩ : ∃ k, Source.encode r (wrapFragment content "utf-8") = openingClosed ++ k :=
    ⟨_, by rw [wrapFragment_eq, encode_opening hr]⟩
  rw [Html.parse_eq_construct, Html.construct]
  rw [hencode, tokens_opening] at hl ⊢
  generalize (State.content .markup).tokens _ = ts at hl ⊢
  obtain ⟨late, h⟩ := building_openedBody
  have htidy : openedBody.frame.Tidy := Html.building_start.tidy_run Html.tidy_start
    fun tag attributes s hm => hl tag attributes s (List.mem_append_left ts hm)
  refine ⟨(openedBody.run ts).frame, h.later_run htidy fun tag attributes s hm =>
    hl tag attributes s (List.mem_append_right openingTokens hm), ?_⟩
  rw [Builder.run_append]
  rfl

/-! ### What it becomes -/

/-- The elements that hold a document together are the ones that were there before the content. -/
theorem elementChildren_of_steady (hs : s.In t) (h : openedBody.tree.Steady t) :
    t.elementChildren Tree.root = [1] ∧ t.elementChildren 1 = [2, 4] := by
  have hlt : ∀ {id}, id < 5 → id < openedBody.tree.size := fun hid =>
    Nat.lt_of_lt_of_le hid (by decide +kernel)
  have hchild : ∀ {p id}, id < 5 → id ∈ openedBody.tree.elementChildren p →
      id ∈ t.elementChildren p := by
    intro p id hid hc
    obtain ⟨hc, he⟩ := Tree.mem_elementChildren.1 hc
    exact Tree.mem_elementChildren.2 ⟨h.children p id hc, (h.isElement (hlt hid)).trans he⟩
  have hhtml : 1 ∈ t.elementChildren Tree.root := hchild (by decide) (by decide +kernel)
  have hhead : 2 ∈ t.elementChildren 1 := hchild (by decide) (by decide +kernel)
  have hbody : 4 ∈ t.elementChildren 1 := hchild (by decide) (by decide +kernel)
  have htag : t.tag? 2 = some "head".toList ∧ t.tag? 4 = some "body".toList := by
    rw [h.tag? 2 (hlt (by decide)), h.tag? 4 (hlt (by decide))]
    decide +kernel
  have hroot := hs.html.document
  rw [hroot] at hhtml
  rw [← List.mem_singleton.mp hhtml] at hroot
  have hchildren := hs.html.children
  rw [← List.mem_singleton.mp hhtml] at hchildren
  rw [hchildren] at hhead hbody ⊢
  have hne : 4 ≠ s.head := by
    rintro he
    rw [he, hs.head] at htag
    exact absurd htag.2 (by decide)
  split at hbody
  · next htemplates =>
      have hbody' : 4 = s.body := by simpa [hne] using hbody
      have hhead' : 2 = s.head := by simpa [htemplates, ← hbody'] using hhead
      rw [if_pos htemplates, ← hhead', ← hbody']
      exact ⟨hroot, rfl⟩
  · exact absurd (List.mem_singleton.mp hbody) hne

/-- Whatever the content is, it does not leave the body: below the document element are a head, which
holds the declared encoding and nothing else, and a body, and every other element is below the body. -/
theorem parseFragment_confined (content salt : Text) :
    ∃ d, parseFragment content "utf-8" (Registry.ofSalt salt) = .ok d ∧
      ∃ html head declared body, d.tree.documentElement? = some html ∧
        d.tree.tag? html = some "html".toList ∧ d.tree.elementChildren html = [head, body] ∧
        d.tree.tag? head = some "head".toList ∧ d.tree.tag? body = some "body".toList ∧
        d.tree.children head = [declared] ∧
        d.tree.element? declared = some ⟨"meta", ⟨encodingAttributes⟩⟩ ∧
        ∀ id, d.tree.isElement id = true → id ≠ html → id ≠ head → id ≠ declared → id ≠ body →
          id ∈ d.tree.descendants body := by
  have hblank : (wrapFragment content "utf-8").blank = false := rfl
  obtain ⟨f, hf, htree⟩ := later_openedBody (Registry.ofSalt_wellFormed salt) content
  generalize hu : Source.encode (Registry.ofSalt salt) (wrapFragment content "utf-8") = u at htree
  obtain ⟨s, hs, -⟩ := Html.exists_spine u
  obtain ⟨hroot, hhtml⟩ := elementChildren_of_steady hs (htree ▸ hf.steady)
  have hsize : openedBody.frame.tree.size = 5 := by decide +kernel
  have hlt : ∀ id < 5, id < openedBody.frame.tree.size := fun id hid => hsize ▸ hid
  have hhead : ¬ openedBody.frame.Reaches 2 := not_reaches_openedBody (by decide) (by decide)
  have hdeclared : ¬ openedBody.frame.Reaches 3 := not_reaches_openedBody (by decide) (by decide)
  have htag : ∀ id < 5, (Html.parse u).1.tag? id = openedBody.tree.tag? id := fun id hid =>
    htree ▸ hf.steady.tag? id (hlt id hid)
  have hchildren := hf.children 2 (hlt 2 (by decide)) hhead
  have hempty := hf.children 3 (hlt 3 (by decide)) hdeclared
  have helement := hf.element 3 (hlt 3 (by decide)) hdeclared
  rw [htree] at hchildren hempty helement
  refine ⟨_, parse_eq_ok hblank _, 1, 2, 3, 4, ?_⟩
  rw [hu]
  refine ⟨Tree.documentElement?_eq hroot, ?_, hhtml, ?_, ?_, hchildren.trans ?_, helement.trans ?_,
    fun id he hne hne' hne'' _ => ?_⟩
  · rw [htag 1 (by decide)]
    decide +kernel
  · rw [htag 2 (by decide)]
    decide +kernel
  · rw [htag 4 (by decide)]
    decide +kernel
  · decide +kernel
  · decide +kernel
  · exact (Html.branching_parse u).confined hroot hhtml (hchildren.trans (by decide +kernel))
      (hempty.trans (by decide +kernel)) he hne hne' hne''

end Document

end AmpMarkup
