import PowerTower.Circuit.Call
import PowerTower.Circuit.Frontier

/-!
# Multiplying by powers

Connecting a marking `m` of pending nodes to `p` adds `p` to the exponent of each node of `m`, and so multiplies
the worth of `m` by two to the power of `p`. Entries that were there before are summed without carries. A circuit
that checks itself refuses beforehand when two equal digits would meet or when a cycle would be closed.
-/

namespace PowerTower.Circuit

/-- Adds terms to a term list, entry by entry, as far as it goes. -/
def extendTerms (strict : Bool) (ts : List Term) : List Term → Except CircuitError Unit × List Term
  | [] => (.ok (), ts)
  | (n, s) :: rest =>
    match Terms.accumulate? strict n s ts with
    | some ts => extendTerms strict ts rest
    | none => (.error (.signOverflow n), ts)

/-- Adds terms to the exponent of a node. -/
def extendExponent (addend : List Term) (target : Node) : Call CircuitError Unit :=
  fun c =>
    let (r, ts) := extendTerms c.config.checkInvariants (c.successors target) addend
    (r, c.setSuccessors target ts)

/-- The first target whose exponent holds one of the terms already. -/
def clash? (c : Circuit) (targets : List Node) (addend : List Term) : Option Node :=
  targets.find? fun n => addend.any fun t => (c.successors n).contains t

/-- Refuses targets that would get two equal digits in one entry, and edges that would close a cycle. -/
def checkEdges (c : Circuit) (targets : List Node) (addend : List Term) : Except CircuitError Unit :=
  match c.clash? targets addend with
  | some n => .error (.signOverflow n)
  | none =>
    match c.reachesAny (Terms.nodes addend) targets with
    | some n => .error (.cycleDetected n)
    | none => .ok ()

/-- Adds terms to the exponents of pending nodes. -/
def attach (targets : List Node) (addend : List Term) : Call CircuitError Unit := do
  let reduced ← Call.read fun c => targets.find? c.isReducedNode
  match reduced with
  | some n => throw (.targetAlreadyReduced n)
  | none =>
    Call.ask fun c => if c.config.checkInvariants then c.checkEdges targets addend else .ok ()
    targets.forM (extendExponent addend)

/-- Multiplies the nodes of `m` by two to the power of `p`. -/
def connect (m p : Marking) : Call CircuitError Unit := do
  Call.ask fun c => c.checkMarking m
  Call.ask fun c => c.checkMarking p
  let targets ← Call.read fun c => c.nodesOf m
  let addend ← Call.read fun c => c.termsOf p
  attach targets addend

/-- Divides the nodes of `m` by two to the power of `p`. -/
def connectInverse (m p : Marking) : Call CircuitError Unit := do
  Call.ask fun c => c.checkMarking m
  Call.ask fun c => c.checkMarking p
  let targets ← Call.read fun c => c.nodesOf m
  let addend ← Call.read fun c => Terms.flip (c.termsOf p)
  attach targets addend

end PowerTower.Circuit
