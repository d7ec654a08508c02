import Ownership.Sketch.Analysis
import Ownership.Toml.Document
import Ownership.Types.Script
import Ownership.Proofs.Moves.Precision
import Ownership.Proofs.Loans.Paths
import Ownership.Proofs.Checker.Progress
import Ownership.Proofs.Loops.Fixpoint
import Ownership.Proofs.Moves.Drops
import Ownership.Proofs.Loans.Twins
import Ownership.Proofs.Types.Memory
import Ownership.Proofs.Moves.Overlaps
import Ownership.Proofs.Types.Alike
import Ownership.Proofs.Checker.Inquiry
import Ownership.Proofs.Checker.Independence
import Ownership.Proofs.Moves.Copies
import Ownership.Proofs.Scope.Laminar
import Ownership.Proofs.Control.Sweeps
import Ownership.Proofs.Control.Detection
import Ownership.Proofs.Loans.Spread
import Ownership.Proofs.Loans.Dangling
import Ownership.Proofs.Loans.Together
import Ownership.Proofs.Types.Cycles
import Ownership.Proofs.Types.Equations
import Ownership.Proofs.Loans.Binders
import Ownership.Proofs.Moves.Destruction
import Ownership.Proofs.Coverage.FirstMatch
import Ownership.Proofs.Loans.Holding
import Ownership.Proofs.Loans.Values
import Ownership.Proofs.Sketch.RoundTrip
import Ownership.Proofs.Checker.Switches
import Ownership.Proofs.Sketch.Order
import Ownership.Proofs.Loans.Contiguity
import Ownership.Proofs.Types.Representation
import Ownership.Proofs.Flow.Join
import Ownership.Proofs.Checker.Naming
