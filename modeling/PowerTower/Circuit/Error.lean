import PowerTower.Node

/-!
# What a circuit refuses

`CircuitError` lists the ways a call can be refused, and `Violation` the ways a circuit can be found broken by
its own check. `CircuitError.message` and `Violation.message` hold the wording.
-/

namespace PowerTower

/-- The list of terms in which a fault was found. -/
inductive TermOwner where
  | successors (of : Node)
  | marking (id : Nat)
deriving DecidableEq, Repr

/-- The written form of the owner of a term list. -/
def TermOwner.render : TermOwner → String
  | successors n => s!"successors of {n.render}"
  | marking id => s!"marking m{id}"

/-- A broken invariant. -/
inductive Violation where
  /-- A place that holds no node carries a rank. -/
  | freeSlotRanked (index : Nat)
  /-- A term list holds a node with digit zero. -/
  | zeroEntry (owner : TermOwner) (node : Node)
  /-- A term list holds a node twice. -/
  | repeatedEntry (owner : TermOwner) (node : Node)
  /-- A node of the reduced order does not record its position there. -/
  | rankMismatch (node : Node) (rank : Nat) (recorded : Option Nat)
  /-- A reduced node refers to a pending one. -/
  | pendingSuccessor (node successor : Node)
  /-- There are ranked places outside the reduced order. -/
  | rankCount (ranked length : Nat)
  /-- Two neighbours of the reduced order do not increase. -/
  | notIncreasing (low high : Node)
  /-- A node's doubling flag does not tell the truth about its upper neighbour. -/
  | staleFlag (node : Node)
  /-- The last reduced node claims that its double follows. -/
  | topDoubles (node : Node)
  /-- The first reduced node is a fraction. -/
  | negativeExponent (node : Node)
deriving DecidableEq, Repr

/-- A rank as it is written in a report. -/
def renderRank : Option Nat → String
  | some r => s!"Some({r})"
  | none => "None"

/-- The report on a broken invariant. -/
def Violation.message : Violation → String
  | freeSlotRanked i => s!"free slot {i} still has a rank"
  | zeroEntry o n => s!"{o.render}: zero entry for {n.render}"
  | repeatedEntry o n => s!"{o.render}: {n.render} appears twice"
  | rankMismatch n r k => s!"{n.render} is listed at rank {r} but records {renderRank k}"
  | pendingSuccessor n s => s!"reduced {n.render} references non-reduced {s.render}"
  | rankCount k l => s!"{k} ranked slots but a reduced prefix of {l}"
  | notIncreasing l h => s!"reduced order is not increasing at {l.render} < {h.render}"
  | staleFlag n => s!"stale BV flag on {n.render}"
  | topDoubles n => s!"top node {n.render} claims a double"
  | negativeExponent n => s!"smallest reduced node {n.render} has a negative exponent"

/-- Why a circuit refuses a call. -/
inductive CircuitError where
  /-- An operation on reduced markings met a pending node. -/
  | notReduced
  /-- A reduced node cannot get new successors. -/
  | targetAlreadyReduced (node : Node)
  /-- The successor relation has, or would get, a cycle through the node. -/
  | cycleDetected (node : Node)
  /-- Two equal digits meet at the node. -/
  | signOverflow (node : Node)
  /-- The handle was issued by another circuit. -/
  | foreignCircuit (expected found : CircuitId)
  /-- The node was removed or merged into an equal one. -/
  | staleNode (node : Node)
  /-- A node that is reduced already was listed for reduction. -/
  | alreadyReduced (node : Node)
  /-- A listed node depends on a pending node that is not listed. -/
  | outsideFrontier (node : Node)
  /-- A list of nodes and a list of signs differ in length. -/
  | lengthMismatch (nodes signs : Nat)
  /-- The circuit was found broken. -/
  | invariantViolated (violation : Violation)
deriving DecidableEq, Repr

/-- The wording of a refusal. -/
def CircuitError.message : CircuitError → String
  | notReduced => "marking is not reduced"
  | targetAlreadyReduced n => s!"can only connect non-reduced nodes; {n.render} is reduced"
  | cycleDetected n => s!"cycle detected through node {n.render}"
  | signOverflow n => s!"sign overflow at node {n.render}"
  | foreignCircuit e f => s!"handle belongs to circuit {f.render}, expected {e.render}"
  | staleNode n => s!"node {n.render} no longer exists"
  | alreadyReduced n => s!"node {n.render} is already reduced"
  | outsideFrontier n => s!"node {n.render} is neither reduced nor part of the frontier"
  | lengthMismatch n s => s!"{n} nodes but {s} signs"
  | invariantViolated v => s!"invariant violated: {v.message}"

end PowerTower
