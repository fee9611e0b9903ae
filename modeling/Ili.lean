import Ili.Environment.Navigation
import Ili.Environment.Resolve
import Ili.Layout.Render
import Ili.Lint
import Ili.Outline
import Ili.Proofs.Grammar.Bare
import Ili.Proofs.Grammar.Blocks
import Ili.Proofs.Grammar.Bodies
import Ili.Proofs.Grammar.Fullness
import Ili.Proofs.Grammar.Lossless
import Ili.Proofs.Grammar.Progress
import Ili.Proofs.Grammar.Regular
import Ili.Proofs.Layout.Asked
import Ili.Proofs.Layout.Attachment
import Ili.Proofs.Layout.Canonical
import Ili.Proofs.Layout.Conservation
import Ili.Proofs.Layout.Ending
import Ili.Proofs.Layout.Idempotence
import Ili.Proofs.Layout.Joints
import Ili.Proofs.Layout.Kept
import Ili.Proofs.Layout.Legible
import Ili.Proofs.Layout.Printed
import Ili.Proofs.Layout.ReadBack
import Ili.Proofs.Layout.Settled
import Ili.Proofs.Layout.Unclosed
import Ili.Proofs.Layout.Weld
import Ili.Proofs.Layout.Words
import Ili.Proofs.Token.Cut
import Ili.Proofs.Token.Endings
import Ili.Proofs.Token.Reading
import Ili.Proofs.Token.Spelling
import Ili.Proofs.Catalog.Growth
import Ili.Proofs.Catalog.Likeness
import Ili.Proofs.Catalog.Meaning
import Ili.Proofs.Catalog.Forest
import Ili.Proofs.Catalog.MemberOrder
import Ili.Proofs.Catalog.Trivia
import Ili.Proofs.Catalog.WellFormed
import Ili.Proofs.Environment.Bound
import Ili.Proofs.Environment.Reports
import Ili.Proofs.Environment.ImportOrder
import Ili.Proofs.Environment.Navigation
import Ili.Proofs.Environment.Repetition
import Ili.Proofs.Environment.FileOrder
import Ili.Proofs.Environment.MemberOrder
import Ili.Proofs.Grammar.Productions
import Ili.Proofs.Grammar.Renaming
import Ili.Proofs.Grammar.Paths
import Ili.Proofs.Catalog.Spans
import Ili.Proofs.Environment.Cancellation
import Ili.Proofs.Environment.Directory
import Ili.Proofs.Token.Comments
import Ili.Proofs.Grammar.Recovery
import Ili.Proofs.Grammar.Loops
import Ili.Proofs.Catalog.ContentOrder
import Ili.Proofs.Layout.Separators
import Ili.Proofs.Layout.Aligned
import Ili.Proofs.Catalog.References
import Ili.Proofs.Catalog.Nesting
import Ili.Proofs.Catalog.Attributed
import Ili.Proofs.Catalog.Cardinalities
import Ili.Proofs.Layout.OptionOrder
import Ili.Proofs.Environment.Search
import Ili.Proofs.Environment.QualifiedNames
import Ili.Proofs.Environment.Leaves
import Ili.Proofs.Environment.Dropped
import Ili.Proofs.Layout.Widths
import Ili.Proofs.Catalog.Displays
