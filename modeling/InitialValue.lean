import InitialValue.Draft
import InitialValue.Wire.Analysis
import InitialValue.Wire.Trajectory
import InitialValue.Proofs.Parsing
import InitialValue.Proofs.Finiteness
import InitialValue.Proofs.Binary64.Packing
import InitialValue.Proofs.Evaluation
import InitialValue.Proofs.Failures
import InitialValue.Proofs.Binary64.Rounding
import InitialValue.Proofs.Infinities
import InitialValue.Proofs.Binary64.Arithmetic
import InitialValue.Proofs.Frame
import InitialValue.Proofs.Comparison
import InitialValue.Proofs.Points
import InitialValue.Proofs.Grid
import InitialValue.Proofs.Wire.Request
import InitialValue.Proofs.Wire.RoundTrip
import InitialValue.Proofs.Usability
import InitialValue.Proofs.Prefixes
import InitialValue.Proofs.Independence
import InitialValue.Proofs.Postorder
import InitialValue.Proofs.Alike
import InitialValue.Proofs.Composition
import InitialValue.Proofs.Exactness
import InitialValue.Proofs.Coordinates
import InitialValue.Proofs.Restriction
import InitialValue.Proofs.Differences
import InitialValue.Proofs.Views
import InitialValue.Proofs.Extent
import InitialValue.Proofs.Enclosure
import InitialValue.Proofs.Returns
