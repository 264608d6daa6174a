import PowerTower.Circuit.Basic
import PowerTower.Traversal

/-!
# Reachability and dependency

The walks over a circuit's successor relation: which of some nodes is reached from others (`reachesAny`), which
pending nodes a list of nodes depends on (`pendingReachable`), in which order pending nodes can be reduced
(`dependencyOrder`), and whether some node lies on a cycle (`cycle?`).

A walk goes from name to name. Beyond the names it starts from it meets only names that stand in some exponent, so
it is confined to those (`mentionedNodes`) without losing any.
-/

namespace PowerTower.Circuit

variable (c : Circuit)

/-- The nodes in the exponent of a node. -/
def successorNodes (n : Node) : List Node := Terms.nodes (c.successors n)

/-- The pending nodes in the exponent of a node. -/
def pendingSuccessors (n : Node) : List Node := (c.successorNodes n).filter fun m => !c.isReducedNode m

/-- The first of `targets` that a search from `sources` meets. A node reaches itself. The search goes into the
last source and into the last successor first. -/
def reachesAny (sources targets : List Node) : Option Node :=
  let goal := Std.HashSet.ofList targets
  (Traversal.discover (fun n => (c.successorNodes n).reverse)
    (Std.HashSet.ofList (sources ++ c.mentionedNodes)) sources.reverse).find? fun n => goal.contains n

/-- The pending nodes that `roots` depend on, pending roots included, in the order of their discovery. -/
def pendingReachable (roots : List Node) : List Node :=
  if roots.all c.isReducedNode then []
  else
    let pending := (roots ++ c.mentionedNodes).filter fun n => !c.isReducedNode n
    Traversal.discover c.successorNodes (Std.HashSet.ofList pending) roots

/-- The frontier, each node once and after the nodes of the frontier that it depends on. -/
def dependencyOrder (frontier : List Node) : Except CircuitError (List Node) :=
  match Traversal.dependencyOrder c.pendingSuccessors frontier with
  | .ok sorted => .ok sorted
  | .error (.outside n) => .error (.outsideFrontier n)
  | .error (.cycle n) => .error (.cycleDetected n)

/-- A node on a cycle of the successor relation that a live node leads to. -/
def cycle? : Option Node :=
  match Traversal.orderWithin c.successorNodes (c.liveNodeList ++ c.mentionedNodes) c.liveNodeList with
  | .error (.cycle n) => some n
  | _ => none

end PowerTower.Circuit
