import AmpMarkup.Proofs.Source.Template
import AmpMarkup.Proofs.Source.VoidClosing

/-! Decoding undoes encoding. The three changes are undone one after the other; the end tags of void
elements are carried along until the markup is itself again apart from them. -/

namespace AmpMarkup.Source

variable {r : Registry} {m e s t : Text}

/-- Markup without stand-ins of the registry and without end tags of void elements. -/
structure StandInFree (r : Registry) (m : Text) : Prop where
  substitutes : ∀ w ∈ r.substitutes, ¬ w <:+: m
  mark : ¬ r.bindingMark <:+: m
  voidEndTags : ¬ HasVoidEndTag m

theorem StandInFree.left (h : StandInFree r (s ++ t)) : StandInFree r s where
  substitutes w hw hi := h.substitutes w hw (List.infix_append_of_infix_left hi)
  mark hi := h.mark (List.infix_append_of_infix_left hi)
  voidEndTags := by
    rintro ⟨v, ⟨u, rfl⟩, ha⟩
    refine h.voidEndTags ⟨v ++ t, ⟨u, (List.append_assoc ..).symm⟩, ?_⟩
    obtain ⟨rest, hrest⟩ := Option.isSome_iff_exists.1 ha
    obtain ⟨w, rfl, hw⟩ := afterVoidEndTag?_eq_some_iff.1 hrest
    refine Option.isSome_iff_exists.2 ⟨rest ++ t, afterVoidEndTag?_eq_some_iff.2 ⟨w, ?_, hw⟩⟩
    simp

theorem StandInFree.right (h : StandInFree r (s ++ t)) : StandInFree r t where
  substitutes w hw hi := h.substitutes w hw (List.infix_append_of_infix_right hi)
  mark hi := h.mark (List.infix_append_of_infix_right hi)
  voidEndTags := by
    rintro ⟨v, hv, ha⟩
    exact h.voidEndTags ⟨v, hv.trans (List.suffix_append ..), ha⟩

/-- Decoding goes through end tags that void elements got. -/
theorem decode_of_voidClosed (hr : r.WellFormed) (hn : r.substitutes.Nodup)
    (hfree : StandInFree r m) (hclosed : ∀ p ∈ pieces m, p.ClosesBrackets)
    (he : VoidClosed (r.substituteTemplates (encodeBindings r m)) e) : decode r e = m := by
  have hbindings : decodeBindings r (encodeBindings r m) = m :=
    (decodeBindings_encodeBindings hr.isBindingMark hfree.mark).trans
      (closeBrackets_eq_self_iff.2 hclosed)
  have htemplates : r.restoreTemplates (r.substituteTemplates (encodeBindings r m)) =
      encodeBindings r m := by
    refine restoreTemplates_substituteTemplates hr hn fun w hw hi => ?_
    obtain ⟨p, hp, rfl⟩ := List.mem_map.1 hw
    exact hfree.substitutes _ hw
      (infix_of_infix_encodeBindings hr.isBindingMark (hr.isSubstitute p hp) hi)
  have hrestored := he.restoreTemplates hr
  rw [htemplates] at hrestored
  have hdecoded : VoidClosed (decodeBindings r (encodeBindings r m)) _ :=
    hrestored.decodeBindingsAfter hr.isBindingMark false
  rw [hbindings] at hdecoded
  exact hdecoded.stripVoidEndTags_eq.trans (stripVoidEndTags_eq_self_iff.2 hfree.voidEndTags)

/-- Markup that holds none of the registry's stand-ins and no end tag of a void element, and in whose
start tags every bracket before a name has its other half, comes back from encoding unchanged. -/
theorem decode_encode {salt m : Text} (hn : (Registry.ofSalt salt).substitutes.Nodup)
    (hsubstitutes : ∀ w ∈ (Registry.ofSalt salt).substitutes, ¬ w <:+: m)
    (hmark : ¬ (Registry.ofSalt salt).bindingMark <:+: m) (hvoid : ¬ HasVoidEndTag m)
    (hclosed : ∀ p ∈ pieces m, p.ClosesBrackets) :
    decode (Registry.ofSalt salt) (encode (Registry.ofSalt salt) m) = m :=
  decode_of_voidClosed (Registry.ofSalt_wellFormed salt) hn ⟨hsubstitutes, hmark, hvoid⟩ hclosed
    (.closeVoidElements _)

set_option maxRecDepth 100000 in
theorem decode_encode_nested_delimiters :
    (Registry.ofSalt "a".toList).substitutes.Nodup ∧
      decode (Registry.ofSalt "a".toList)
        (encode (Registry.ofSalt "a".toList) "<br [a]=\x7b\x7b\x7bb\x7d\x7d\x7d\x7d>") =
          ("<br [a]=\x7b\x7b\x7bb\x7d\x7d\x7d\x7d>" : Text) := by
  refine ⟨nodup_substitutes_a, decode_encode nodup_substitutes_a ?_ ?_ ?_ ?_⟩
  · rw [Registry.ofSalt_eq fingerprints_a]
    decide +kernel
  · rw [Registry.ofSalt_eq fingerprints_a]
    decide +kernel
  · decide
  · decide +kernel

end AmpMarkup.Source
