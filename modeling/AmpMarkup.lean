import AmpMarkup.Dom.Reachable
import AmpMarkup.Main
import AmpMarkup.Proofs.Source.StandIn
import AmpMarkup.Proofs.Source.Symbol
import AmpMarkup.Proofs.Source.AttributeSpan
import AmpMarkup.Proofs.Source.Bracketed
import AmpMarkup.Proofs.Source.Template
import AmpMarkup.Proofs.Source.VoidClosing
import AmpMarkup.Proofs.Source.RoundTrip
import AmpMarkup.Proofs.Document.HeadAndBody
import AmpMarkup.Proofs.Dom.Growth
import AmpMarkup.Proofs.Html.OpenElements
import AmpMarkup.Proofs.Html.OpenBody
import AmpMarkup.Proofs.Html.Skeleton
import AmpMarkup.Proofs.Html.Preservation
import AmpMarkup.Proofs.Html.Completion
import AmpMarkup.Proofs.Source.Fragment
import AmpMarkup.Proofs.Source.FragmentScan
import AmpMarkup.Proofs.Source.FragmentEncoding
import AmpMarkup.Proofs.Source.FragmentClosing
import AmpMarkup.Proofs.Html.FragmentTokens
import AmpMarkup.Proofs.Dom.Extension
import AmpMarkup.Proofs.Html.FragmentTree
import AmpMarkup.Proofs.Document.FragmentRoundTrip
import AmpMarkup.Proofs.Source.SymbolScan
import AmpMarkup.Proofs.Source.UniformEncoding
import AmpMarkup.Proofs.Html.WordTokens
import AmpMarkup.Proofs.Source.Likeness
import AmpMarkup.Proofs.Html.TokenLikeness
import AmpMarkup.Proofs.Html.LikeReading
import AmpMarkup.Proofs.Dom.Likeness
import AmpMarkup.Proofs.Html.Growth
import AmpMarkup.Proofs.Document.ScriptRoundTrip
import AmpMarkup.Proofs.Dom.Ordered
import AmpMarkup.Proofs.Dom.TextOrder
import AmpMarkup.Proofs.Html.Moves
import AmpMarkup.Proofs.Html.RuleMoves
import AmpMarkup.Proofs.Html.TagEnd
import AmpMarkup.Proofs.Html.TextOfTokens
import AmpMarkup.Proofs.Source.TagEnd
import AmpMarkup.Proofs.Document.SaltIndependence
import AmpMarkup.Proofs.Dom.Links
import AmpMarkup.Proofs.Dom.Forest
import AmpMarkup.Proofs.Rules.Loading
import AmpMarkup.Proofs.Validation.CandidateChoice
import AmpMarkup.Proofs.Validation.FormatRestriction
import AmpMarkup.Proofs.Document.TopLevel
import AmpMarkup.Proofs.Css.AtRule
import AmpMarkup.Proofs.Html.VoidEndTags
import AmpMarkup.Proofs.Dom.Branching
import AmpMarkup.Proofs.Html.ClosedElements
import AmpMarkup.Proofs.Document.FragmentWrapper
import AmpMarkup.Proofs.Document.BodyConfinement
import AmpMarkup.Proofs.Document.StyleText
import AmpMarkup.Proofs.Html.TagNames
import AmpMarkup.Proofs.Html.TagRoundTrip
import AmpMarkup.Proofs.Html.Rereading
import AmpMarkup.Proofs.Css.Lexemes
import AmpMarkup.Proofs.Validation.Parts
import AmpMarkup.Proofs.Validation.Accounting
import AmpMarkup.Proofs.Text.Replacement
import AmpMarkup.Proofs.Source.ByteScan
import AmpMarkup.Proofs.Source.ByteSpan
import AmpMarkup.Proofs.Source.Slices
import AmpMarkup.Proofs.Source.SaltSeparation
import AmpMarkup.Proofs.Source.Reclosing
import AmpMarkup.Proofs.Source.MarkedEnd
import AmpMarkup.Proofs.Document.Comment
import AmpMarkup.Proofs.Html.Transition
import AmpMarkup.Proofs.Html.CommentText
import AmpMarkup.Proofs.Html.SourceTag
import AmpMarkup.Proofs.Html.TagOrigin
import AmpMarkup.Proofs.Html.ContentEnd
import AmpMarkup.Proofs.Source.ContentExtent
import AmpMarkup.Proofs.Html.Settling
import AmpMarkup.Proofs.Dom.DocumentOrder
import AmpMarkup.Proofs.Dom.Placement
import AmpMarkup.Proofs.Dom.Siblings
import AmpMarkup.Proofs.Dom.WrittenForm
import AmpMarkup.Proofs.Dom.ExplicitEndTags
import AmpMarkup.Proofs.Dom.AttributeHistory
import AmpMarkup.Proofs.Dom.PathIdentity
import AmpMarkup.Proofs.Validation.UniqueSpecs
import AmpMarkup.Proofs.Lookup
import AmpMarkup.Proofs.Validation.Conformance
import AmpMarkup.Proofs.Rules.Representation
import AmpMarkup.Proofs.Validation.Extensions
import AmpMarkup.Proofs.Validation.AttributeOrder
import AmpMarkup.Proofs.Rules.Faults
import AmpMarkup.Proofs.Css.Spelling
import AmpMarkup.Proofs.Json.RoundTrip
import AmpMarkup.Proofs.Json.Records
import AmpMarkup.Proofs.Rules.SchemaRoundTrip
import AmpMarkup.Proofs.Pattern.Matches
import AmpMarkup.Proofs.Pattern.Continuation
import AmpMarkup.Proofs.Pattern.Parts
import AmpMarkup.Proofs.Pattern.Steps
import AmpMarkup.Proofs.Pattern.Anchoring
import AmpMarkup.Proofs.Rules.ContentPattern
