import PowerTower.Circuit.Reduce
import PowerTower.Circuit.Create
import PowerTower.Circuit.Arithmetic
import PowerTower.Circuit.Connect
import PowerTower.Circuit.Remove
import PowerTower.Circuit.Copy
import PowerTower.Circuit.Report
import PowerTower.Circuit.Dot
import PowerTower.Circuit.Digest
import PowerTower.Text.Blank
import PowerTower.Text.Quoted
import PowerTower.Expr.Parser
import PowerTower.Expr.Eval
import PowerTower.Samples
import PowerTower.Config.Reader
import PowerTower.Main
import PowerTower.Proofs.Terms
import PowerTower.Proofs.Worth
import PowerTower.Proofs.WellFormed
import PowerTower.Proofs.Numeral
import PowerTower.Proofs.Comparison
import PowerTower.Proofs.Traversal
import PowerTower.Proofs.Guards
import PowerTower.Proofs.Depth
import PowerTower.Proofs.Checking
import PowerTower.Proofs.Arena
import PowerTower.Proofs.Order
import PowerTower.Proofs.Carry
import PowerTower.Proofs.Search
import PowerTower.Proofs.Holders
import PowerTower.Proofs.Merge
import PowerTower.Proofs.Reduction
import PowerTower.Proofs.Canonical
import PowerTower.Proofs.Making
import PowerTower.Proofs.Markings
import PowerTower.Proofs.Connecting
import PowerTower.Proofs.Removing
import PowerTower.Proofs.Copying
import PowerTower.Proofs.Operations
import PowerTower.Proofs.Grammar
import PowerTower.Proofs.Parsing
import PowerTower.Proofs.Cloning
import PowerTower.Proofs.Joining
import PowerTower.Proofs.Scaling
import PowerTower.Proofs.Integral
import PowerTower.Proofs.Evaluation
import PowerTower.Proofs.Veil
import PowerTower.Proofs.VeiledReduction
import PowerTower.Proofs.Grounded
import PowerTower.Proofs.Frozen
import PowerTower.Proofs.Undisturbed
import PowerTower.Proofs.Ledger
import PowerTower.Proofs.Names
import PowerTower.Proofs.Refusals
import PowerTower.Proofs.Mirror
import PowerTower.Proofs.MirroredReduction
import PowerTower.Proofs.MirroredChanges
import PowerTower.Proofs.MirroredCalls
import PowerTower.Proofs.Replies
import PowerTower.Proofs.Clones
import PowerTower.Proofs.Observation
import PowerTower.Proofs.Powers
import PowerTower.Proofs.Doubling
import PowerTower.Proofs.Incrementing
import PowerTower.Proofs.Stepwise
import PowerTower.Proofs.Standing
import PowerTower.Proofs.Creating
import PowerTower.Proofs.Attaching
import PowerTower.Proofs.Smallest
import PowerTower.Proofs.Dependency
import PowerTower.Proofs.Summing
import PowerTower.Proofs.Survivors
import PowerTower.Proofs.Places
import PowerTower.Proofs.Expectation
import PowerTower.Proofs.Faults
import PowerTower.Proofs.Encoding
import PowerTower.Proofs.Leaves
import PowerTower.Proofs.Restoring
import PowerTower.Proofs.Towers
import PowerTower.Proofs.Ranks
import PowerTower.Proofs.Absorbing
import PowerTower.Proofs.Disorder
import PowerTower.Proofs.Drafts
import PowerTower.Proofs.Figures
import PowerTower.Proofs.Drawing
