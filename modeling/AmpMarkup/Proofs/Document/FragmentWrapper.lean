import AmpMarkup.Proofs.Document.FragmentRoundTrip
import AmpMarkup.Proofs.Source.PlainText

/-! The document around a fragment up to the content of its body. What is before that content goes
through encoding, reading and building in one way, whatever the content is. -/

namespace AmpMarkup

open Html (Token State)
open Source (Fragment Registry Piece NoBrace startTagSource endTag)

variable {r : Registry}

namespace Document

/-- The source up to the content of the body with void elements closed. -/
def openingClosed : Text :=
  startTagSource "html" [] ++ (headFragment.closedSource ++ startTagSource "body" [])

theorem map_keptName_headFragment (r : Registry) :
    headFragment.map r.keptName id = headFragment := by
  have hattributes : (encodingAttributes.map fun a =>
      (⟨r.keptName a.name, a.value.map id⟩ : Attribute)) = encodingAttributes.map id :=
    List.map_congr_left fun a ha => by
      rw [(isBareName_of_mem a ha).keptName_eq, Option.map_id]
      rfl
  rw [List.map_id] at hattributes
  rw [headFragment, Fragment.map, Fragment.map, Fragment.map, hattributes]
  rfl

/-! ### Encoding -/

/-- The pieces up to the content of the body. -/
def openingPieces : List Piece :=
  .tag ⟨"html", []⟩ :: (headFragment.pieces ++ [.tag ⟨"body", []⟩])

theorem pieces_opening (k : Text) :
    Source.pieces (openingSource ++ k) = openingPieces ++ Source.pieces k := by
  obtain ⟨hhtml, -⟩ := isTag_of_mem "html" (by decide)
  obtain ⟨hbody, -⟩ := isTag_of_mem "body" (by decide)
  rw [openingSource, List.append_assoc, List.append_assoc,
    Source.pieces_startTag hhtml canonicalAttributes_nil,
    Fragment.pieces_source readable_headFragment,
    Source.pieces_startTag hbody canonicalAttributes_nil, openingPieces, List.cons_append,
    List.append_assoc]
  rfl

theorem flatMap_encodedSource_opening (r : Registry) :
    openingPieces.flatMap (·.encodedSource r) = openingSource := by
  have hspan : Source.encodeSpan r [] = [] :=
    Source.encodeSpan_attributes canonicalAttributes_nil
  rw [openingPieces, List.flatMap_cons, List.flatMap_append,
    Fragment.flatMap_pieces readable_headFragment, map_keptName_headFragment, List.flatMap_cons,
    List.flatMap_nil, Piece.encodedSource, Piece.encodedSource, hspan, openingSource]
  rfl

theorem encodeBindings_opening (k : Text) :
    Source.encodeBindings r (openingSource ++ k) = openingSource ++ Source.encodeBindings r k := by
  rw [Source.encodeBindings, pieces_opening, List.flatMap_append, flatMap_encodedSource_opening,
    Source.encodeBindings]

theorem noBrace_opening : ∀ c ∈ openingSource, NoBrace c :=
  Source.noBrace_of_all (by decide)

theorem closeVoidElements_opening (k : Text) :
    Source.closeVoidElements (openingSource ++ k) = openingClosed ++ Source.closeVoidElements k := by
  have hvoid : Vocabulary.isVoid "html" = false ∧ Vocabulary.isVoid "body" = false := by
    decide
  have hnormal : headFragment.Normal := ⟨trivial, trivial⟩
  have hrest : ∀ name, Source.IsTag name → Vocabulary.isVoid name = true →
      Source.startsWithEndTag name
        ((Piece.tag ⟨"body", []⟩ :: Source.pieces k).flatMap Piece.source) = false := by
    intro name _ _
    obtain ⟨hbody, -⟩ := isTag_of_mem "body" (by decide)
    exact Source.startsWithEndTag_startTag name hbody [] _
  rw [Source.closeVoidElements, pieces_opening, openingPieces, List.cons_append,
    Source.closePieces, hvoid.1, Bool.false_and, if_neg Bool.false_ne_true, List.append_assoc,
    List.singleton_append, Fragment.closePieces_pieces readable_headFragment hnormal _ hrest,
    Source.closePieces, hvoid.2, Bool.false_and, if_neg Bool.false_ne_true, openingClosed,
    Source.closeVoidElements]
  simp only [List.append_assoc]
  rfl

/-- Encoding closes the void element before the content of the body, which it encodes by itself. -/
theorem encode_opening (hr : r.WellFormed) (k : Text) :
    Source.encode r (openingSource ++ k) = openingClosed ++ Source.encode r k := by
  rw [Source.encode, encodeBindings_opening,
    Source.substituteTemplates_noBrace_append hr noBrace_opening, closeVoidElements_opening,
    Source.encode]

/-! ### Reading -/

theorem tokens_opening (k : Text) :
    Token.ofText (openingClosed ++ k) = openingTokens ++ (State.content .markup).tokens k := by
  obtain ⟨hhtml, -⟩ := isTag_of_mem "html" (by decide)
  obtain ⟨hbody, -⟩ := isTag_of_mem "body" (by decide)
  rw [Token.ofText, openingClosed, List.append_assoc, List.append_assoc,
    Html.tokens_startTag hhtml canonicalAttributes_nil,
    Html.tokens_closedSource readable_headFragment,
    Html.tokens_startTag hbody canonicalAttributes_nil]
  simp [openingTokens, headFragment, Fragment.tokens]

end Document

end AmpMarkup
