import Packrat.Code.Assembly
import Packrat.Code.Listing
import Packrat.Parser
import Packrat.Tree.Text
import Packrat.Proofs.Machine.ChoiceChain
import Packrat.Proofs.Machine.Unwinding
import Packrat.Proofs.Memo.Record
import Packrat.Proofs.Peg.Code
import Packrat.Proofs.Peg.Simulation
import Packrat.Proofs.Peg.Sites
import Packrat.Proofs.Peg.Correctness
import Packrat.Proofs.Code.Finished
import Packrat.Proofs.Peg.Transparency
import Packrat.Proofs.Bindings.Settled
import Packrat.Proofs.Tree.Layout
import Packrat.Proofs.Machine.Held
import Packrat.Proofs.Machine.Backtracking
import Packrat.Proofs.Tree.Growth
import Packrat.Proofs.Tree.Vacant
import Packrat.Proofs.TreePeg.Semantics
import Packrat.Proofs.TreePeg.Code
import Packrat.Proofs.TreePeg.Simulation
import Packrat.Proofs.TreePeg.Constructs
import Packrat.Proofs.TreePeg.Sites
import Packrat.Proofs.TreePeg.Halting
import Packrat.Proofs.TreePeg.Transparency
import Packrat.Proofs.Bindings.Fingerprint
import Packrat.Proofs.Machine.Invariant
import Packrat.Proofs.Machine.Provenance
import Packrat.Proofs.Machine.Lockstep
import Packrat.Proofs.Machine.Recognition
import Packrat.Proofs.Code.Validity
import Packrat.Proofs.Machine.Bounds
import Packrat.Proofs.Machine.ChoiceWalk
import Packrat.Proofs.Machine.ChoicePops
import Packrat.Proofs.Machine.ChoiceFaults
import Packrat.Proofs.Tree.Refinement
import Packrat.Proofs.Machine.Progress
import Packrat.Proofs.Machine.Course
import Packrat.Proofs.Memo.Exact
import Packrat.Proofs.Peg.Calls
import Packrat.Proofs.Peg.Once
import Packrat.Proofs.Memo.History
import Packrat.Proofs.Memo.Images
import Packrat.Proofs.Tree.Fold
import Packrat.Proofs.Tree.Scopes
import Packrat.Proofs.Machine.Images
import Packrat.Proofs.Code.Calls
import Packrat.Proofs.Code.Checks
import Packrat.Proofs.Code.WellFormed
import Packrat.Proofs.Machine.Furthest
import Packrat.Proofs.Peg.Policies
import Packrat.Proofs.Memo.Contents
import Packrat.Proofs.Tree.FoldChain
import Packrat.Proofs.Machine.Extent
import Packrat.Proofs.Bindings.Snapshots
import Packrat.Proofs.Machine.Roots
import Packrat.Proofs.Machine.Closing
import Packrat.Proofs.Machine.Counting
import Packrat.Proofs.Tree.Undoing
import Packrat.Proofs.Machine.Accounting
import Packrat.Proofs.Input.Lines
import Packrat.Proofs.Code.Interning
import Packrat.Proofs.Options
import Packrat.Proofs.Memo.Sizing
import Packrat.Proofs.ByteSet.Members
import Packrat.Proofs.ByteSet.Text
import Packrat.Proofs.Tree.Consumption
