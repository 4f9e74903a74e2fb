import AmpMarkup.Proofs.Document.SaltIndependence
import AmpMarkup.Proofs.Source.MarkedEnd
import AmpMarkup.Proofs.Source.PlainText
import AmpMarkup.Proofs.Text.Replacement

/-! Comments of a document. A comment is written between its delimiters and decoded with them. The
source of its text stands between the delimiters again unless the text ends with a marked name: the
hyphens that close the comment then go into the brackets of the name. -/

namespace AmpMarkup

open Dom (Tree NodeId renderComment renderComment_eq)

variable {t : Text}

namespace Source

variable {r : Registry}

/-! ### The three steps of decoding -/

/-- No substitute reaches into the delimiters of a comment. -/
theorem replace_renderComment {w new : Text} (hw : IsSubstitute w) (t : Text) :
    Text.replace w new (renderComment t) = renderComment (Text.replace w new t) := by
  have hhyphen : '-' ∉ w := hw.not_mem_hyphen
  have hless : '<' ∉ w := hw.not_mem (by decide)
  have hgreater : '>' ∉ w := hw.not_mem (by decide)
  have hexclamation : '!' ∉ w := hw.not_mem (by decide)
  have hopen : ∀ c ∈ ['<', '!', '-', '-'], c ∉ w := by simp [hless, hexclamation, hhyphen]
  have hclose : ∀ c ∈ ['-', '-', '>'], c ∉ w := by simp [hhyphen, hgreater]
  rw [renderComment_eq, renderComment_eq, Text.replace_free_append hopen,
    Text.replace_append_free hclose]

theorem restoreTemplates_renderComment (hr : r.WellFormed) (t : Text) :
    r.restoreTemplates (renderComment t) = renderComment (r.restoreTemplates t) := by
  rw [hr.restoreTemplates_eq_restoreWith, hr.restoreTemplates_eq_restoreWith]
  refine List.foldl_rel (r := fun s e => s = renderComment e) rfl fun p hp s e h => ?_
  rw [h, replace_renderComment (hr.isSubstitute p hp)]

/-- The delimiter that opens a comment has no spaces. -/
theorem decodeBindings_renderComment (r : Registry) (t : Text) :
    decodeBindings r (renderComment t) =
      ['<', '!', '-', '-'] ++ decodeBindingsAfter r.bindingMark false (t ++ ['-', '-', '>']) := by
  rw [renderComment_eq]
  exact decodeBindingsAfter_append (by simp [isSpace]) _

theorem stripVoidEndTags_comment (t : Text) :
    stripVoidEndTags (['<', '!', '-', '-'] ++ t) = ['<', '!', '-', '-'] ++ stripVoidEndTags t := by
  have hopen : afterVoidEndTag? ('<' :: (['!', '-', '-'] ++ t)) = none := rfl
  rw [List.cons_append, stripVoidEndTags_of_none hopen, stripVoidEndTags_text (by decide)]
  rfl

theorem stripVoidEndTags_append_text {c : Char} {u : Text} (hc : BreaksEndTag c) (hu : '<' ∉ c :: u)
    (t : Text) : stripVoidEndTags (t ++ c :: u) = stripVoidEndTags t ++ c :: u := by
  have htext := stripVoidEndTags_text hu []
  rw [List.append_nil, stripVoidEndTags, List.append_nil] at htext
  rw [stripVoidEndTags_append hc, htext]

/-- Decoding goes on inside the comment unless its text ends with a marked name. -/
theorem decode_renderComment_iff (hr : r.WellFormed) : decode r (renderComment t) =
    renderComment (decode r t) ↔ ¬ EndsMarked r.bindingMark (r.restoreTemplates t) := by
  rw [decode, decode, restoreTemplates_renderComment hr, decodeBindings_renderComment,
    stripVoidEndTags_comment, renderComment_eq, List.append_cancel_left_eq, decodeBindings]
  constructor
  · intro h hend
    obtain ⟨u, hu⟩ := exists_decodeBindingsAfter_of_endsMarked hr.isBindingMark hend
    rw [hu, stripVoidEndTags_append_text (by decide) (by decide)] at h
    have hlast := congrArg List.reverse h
    simp at hlast
  · intro hend
    rw [decodeBindingsAfter_closing hr.isBindingMark hend,
      stripVoidEndTags_append_text (by decide) (by decide)]

end Source

namespace Document

variable {d : Document} {id : NodeId} {markup data salt : Text}

/-- A comment of a parsed document is written with the source of its text between its delimiters,
except where the text ends, behind a space, with the mark of a binding and characters of a name; a
hyphen of the delimiter counts there as the last character of the mark. -/
theorem serialize_comment_iff (hd : parse markup (Source.Registry.ofSalt salt) = .ok d)
    (hc : d.tree.content? id = some (.comment data)) :
    d.serialize id = renderComment (Source.decode d.registry data) ↔
      ¬ Source.EndsMarked d.registry.bindingMark (d.registry.restoreTemplates data) := by
  obtain ⟨-, hregistry⟩ := of_parse_eq_ok hd
  have hr := Source.Registry.ofSalt_wellFormed salt
  have hblank : (renderComment data).blank = false := rfl
  rw [serialize, Dom.Tree.outerHtml_comment hc, hblank, if_neg Bool.false_ne_true, hregistry]
  exact Source.decode_renderComment_iff hr

/-- A binding at the end of what is read as a comment up to the end of its tag. -/
theorem serialize_comment_iff_binding :
    ∃ d data, parse "<!x <p [a]>" (Source.Registry.ofSalt "a".toList) = .ok d ∧
      d.tree.content? 1 = some (.comment data) ∧
      d.serialize 1 ≠ renderComment (Source.decode d.registry data) := by
  have hblank : Text.blank "<!x <p [a]>" = false := by decide
  have hd := parse_eq_ok hblank (Source.Registry.ofSalt "a".toList)
  have hc : (Html.parse (Source.encode (Source.Registry.ofSalt "a".toList) "<!x <p [a]>")).1.content?
      1 = some (.comment ("x <p " ++ (Source.Registry.ofSalt "a".toList).bindingMark ++ ['a'])) := by
    rw [Html.parse_eq_construct, Source.Registry.ofSalt_eq Source.fingerprints_a]
    decide +kernel
  refine ⟨_, _, hd, hc, ?_⟩
  rw [Ne, serialize_comment_iff hd hc, Decidable.not_not,
    Source.Registry.ofSalt_eq Source.fingerprints_a]
  decide

end Document

end AmpMarkup
