import LessonText.Lesson.Playback
import LessonText.Main
import LessonText.Pattern.Reach
import LessonText.Proofs.Reading
import LessonText.Proofs.Printing
import LessonText.Proofs.Conservation
import LessonText.Proofs.Pattern.Scan
import LessonText.Proofs.Pattern.Direct
import LessonText.Proofs.Pattern.Bound
import LessonText.Proofs.Pattern.Applying
import LessonText.Proofs.Pattern.Framed
import LessonText.Proofs.MathML.Attribute
import LessonText.Proofs.MathML.Harmless
import LessonText.Proofs.Hazard
import LessonText.Proofs.Warden.Key
import LessonText.Proofs.Warden.Ledger
import LessonText.Proofs.Warden.Draft
import LessonText.Proofs.Warden.Custody
import LessonText.Proofs.Warden.Restoring
import LessonText.Proofs.Markup.Edits
import LessonText.Proofs.Markup.Safety
import LessonText.Proofs.Markup.Places
import LessonText.Proofs.Pattern.Lazy
import LessonText.Proofs.Markup.Sharp
import LessonText.Proofs.Markup.Blocks
import LessonText.Proofs.Markup.Runs
import LessonText.Proofs.Markup.Rewriting
import LessonText.Proofs.Markup.Equations
import LessonText.Proofs.Markup.Spans
import LessonText.Proofs.Markup.Links
import LessonText.Proofs.Markup.Emphasis
import LessonText.Proofs.Markup.Passes
import LessonText.Proofs.Markup.Drained
import LessonText.Proofs.Markup.Changes
import LessonText.Proofs.Markup.OneLine
import LessonText.Proofs.Markup.Agreement
import LessonText.Proofs.Markup.Making
import LessonText.Proofs.Markup.Elements
import LessonText.Proofs.Markup.Kinds
import LessonText.Proofs.Markup.Rendered
import LessonText.Proofs.Markup.SpanGrammar
import LessonText.Proofs.Item.Match
import LessonText.Proofs.Item.Markup
import LessonText.Proofs.Item.Rules
import LessonText.Proofs.Markup.BlockKinds
import LessonText.Proofs.Markup.BlockSteps
import LessonText.Proofs.Markup.BlockGrammar
import LessonText.Proofs.Item.Sentences
import LessonText.Proofs.Item.Values
import LessonText.Proofs.Reader.Asking
import LessonText.Proofs.Headers
import LessonText.Proofs.Reader.Leading
import LessonText.Proofs.Text.Hidden
import LessonText.Proofs.Playback
import LessonText.Proofs.LineEnds
import LessonText.Proofs.Continuing
import LessonText.Proofs.Item.Words
import LessonText.Proofs.Item.Shown
import LessonText.Proofs.Reader.Fragments
import LessonText.Proofs.Item.Gapped
import LessonText.Proofs.Item.Tags
import LessonText.Proofs.Markup.Linewise
import LessonText.Proofs.Markup.EquationTags
import LessonText.Proofs.Markup.GreekWords
import LessonText.Proofs.MathML.Brackets
import LessonText.Proofs.Markup.References
import LessonText.Proofs.Markup.Nesting
import LessonText.Proofs.Markup.Signs
import LessonText.Proofs.Metadata
import LessonText.Proofs.Text.Entities
import LessonText.Proofs.MathML.Opaque
import LessonText.Proofs.MarkerLines
import LessonText.Proofs.Text.PlainText
import LessonText.Proofs.Item.FirstWord
import LessonText.Proofs.Item.Emoji
import LessonText.Proofs.Command.Verbosity
import LessonText.Proofs.Reader.Whole
import LessonText.Proofs.Page.Tags
import LessonText.Proofs.Page.Equations
import LessonText.Proofs.Page.Custody
import LessonText.Proofs.Page.Rules
import LessonText.Proofs.Page.Source
import LessonText.Proofs.Page.Output
