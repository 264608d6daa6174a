/-!
# Configuration of a circuit

Whether the circuit checks its invariants as it goes, and how many nodes it should expect. The expected
number of nodes is a hint about storage and has no effect on any answer.
-/

namespace PowerTower

/-- The settings of a circuit. -/
structure Config where
  /-- Refuse sums that leave a single digit and edges that close a cycle, and verify after each reduction. -/
  checkInvariants : Bool := false
  /-- The number of nodes to expect. -/
  nodeCapacity : Nat := 0
deriving DecidableEq, Repr, Inhabited

namespace Config

/-- The settings of a circuit that checks itself. -/
def checked : Config := { checkInvariants := true }

/-- The settings of a circuit that trusts its caller. -/
def unchecked : Config := {}

end Config

end PowerTower
