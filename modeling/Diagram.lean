import Diagram.Document.Codec
import Diagram.Editor.Address
import Diagram.Main
import Diagram.Proofs.Alignment
import Diagram.Proofs.Arrangements
import Diagram.Proofs.Barycenters
import Diagram.Proofs.Bends
import Diagram.Proofs.Borders
import Diagram.Proofs.Cells
import Diagram.Proofs.Contexts
import Diagram.Proofs.Courses
import Diagram.Proofs.Covering
import Diagram.Proofs.Depictions
import Diagram.Proofs.Edits
import Diagram.Proofs.Engines
import Diagram.Proofs.Findings
import Diagram.Proofs.Finite
import Diagram.Proofs.Formatting
import Diagram.Proofs.Grammar
import Diagram.Proofs.Graph
import Diagram.Proofs.Hovering
import Diagram.Proofs.Joining
import Diagram.Proofs.Layered
import Diagram.Proofs.Losses
import Diagram.Proofs.Munching
import Diagram.Proofs.Origin
import Diagram.Proofs.Outlines
import Diagram.Proofs.Places
import Diagram.Proofs.Ranges
import Diagram.Proofs.Records
import Diagram.Proofs.Recovering
import Diagram.Proofs.Respacing
import Diagram.Proofs.Sessions
import Diagram.Proofs.Settling
import Diagram.Proofs.Spreading
import Diagram.Proofs.Standing
import Diagram.Proofs.Ungrouping
import Diagram.Proofs.Values
import Diagram.Proofs.WireFormat
