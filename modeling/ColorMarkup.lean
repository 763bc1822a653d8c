import ColorMarkup.Document.Reading
import ColorMarkup.Pass
import ColorMarkup.Proofs.Removal
import ColorMarkup.Strip
import ColorMarkup.Proofs.LegacyRemoval
import ColorMarkup.Proofs.Gradient
import ColorMarkup.Proofs.SpansAt
import ColorMarkup.Proofs.TraceReading
import ColorMarkup.Proofs.ColoredText
import ColorMarkup.Proofs.ColoredDocument
import ColorMarkup.Proofs.ShownText
import ColorMarkup.Proofs.ClosingNames
import ColorMarkup.Proofs.WrittenTags
import ColorMarkup.Proofs.VisibleText
import ColorMarkup.Proofs.Reassertion
import ColorMarkup.Proofs.SpanLayout
import ColorMarkup.Proofs.AtomReading
import ColorMarkup.Proofs.StructuredPasses
import ColorMarkup.Proofs.PassOrder
import ColorMarkup.Proofs.ConvertedText
import ColorMarkup.Proofs.FormattedGradient
import ColorMarkup.Proofs.Segments
import ColorMarkup.Proofs.GradientReading
import ColorMarkup.Proofs.DecorationRuns
import ColorMarkup.Proofs.CarriedEscapes
import ColorMarkup.Proofs.PaintedEvents
import ColorMarkup.Proofs.ResetTag
import ColorMarkup.Proofs.TokenGrammar
import ColorMarkup.Proofs.LegacyDecorations
import ColorMarkup.Proofs.InsertedColors
import ColorMarkup.Proofs.PaintedDecorations
import ColorMarkup.Proofs.EscapedText
import ColorMarkup.Proofs.GradientStops
import ColorMarkup.Proofs.GradientSteps
import ColorMarkup.Proofs.JointTags
import ColorMarkup.Proofs.MarkupReplacement
import ColorMarkup.Proofs.CodePlaces
import ColorMarkup.Proofs.TagGrammar
import ColorMarkup.Proofs.KeptText
