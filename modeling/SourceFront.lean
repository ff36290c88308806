import SourceFront.Main
import SourceFront.Tree.Map
import SourceFront.Tree.Outline
import SourceFront.Tree.Expressions
import SourceFront.Proofs.Region
import SourceFront.Proofs.Soundness
import SourceFront.Proofs.Relayout
import SourceFront.Proofs.Completeness
import SourceFront.Proofs.Tokenization
import SourceFront.Proofs.Reporting
import SourceFront.Proofs.Concatenation
import SourceFront.Proofs.Height
import SourceFront.Proofs.Cutoff
import SourceFront.Proofs.Layer
import SourceFront.Proofs.Confinement
import SourceFront.Proofs.Malformed
import SourceFront.Proofs.MalformedLoop
import SourceFront.Proofs.Strewn.Basic
import SourceFront.Proofs.Strewn.Rules
import SourceFront.Proofs.Strewn.Item
import SourceFront.Proofs.Strewn
import SourceFront.Proofs.Balance
import SourceFront.Proofs.Placement
import SourceFront.Proofs.Enclosure
import SourceFront.Proofs.Excerpt
import SourceFront.Proofs.Omission
import SourceFront.Proofs.Comparison
import SourceFront.Proofs.Directory
import SourceFront.Proofs.Quoting
import SourceFront.Proofs.SingleLine
import SourceFront.Proofs.LineColumn
import SourceFront.Proofs.Collection
import SourceFront.Proofs.Streaming
import SourceFront.Proofs.RecordedOrder
import SourceFront.Proofs.Barrier
import SourceFront.Proofs.CommandLine
import SourceFront.Proofs.ExitStatus
import SourceFront.Proofs.StructuralForm
import SourceFront.Proofs.Rendering
import SourceFront.Proofs.Cursor.Frames
