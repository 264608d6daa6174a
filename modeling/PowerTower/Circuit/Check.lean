import PowerTower.Circuit.Compare
import PowerTower.Circuit.Frontier

/-!
# Checking a circuit

`check` looks for broken invariants and reports the first: term lists that mention missing nodes, zero digits
or a node twice; ranks that disagree with the reduced order; reduced nodes that depend on pending ones; cycles;
and a reduced order that does not increase, starts with a fraction or has a wrong doubling flag.
-/

namespace PowerTower.Circuit

variable (c : Circuit)

/-- Reports a broken invariant. -/
def violated (v : Violation) : Except CircuitError Unit := .error (.invariantViolated v)

/-- A term list mentions live nodes, each once and with a digit other than zero. `seen` holds the nodes that
were mentioned before. -/
def checkTerms (owner : TermOwner) (seen : List Node) : List Term → Except CircuitError Unit
  | [] => .ok ()
  | (n, s) :: ts => do
    c.checkNode n
    if s.isZero then violated (.zeroEntry owner n)
    else if n ∈ seen then violated (.repeatedEntry owner n)
    else checkTerms owner (n :: seen) ts

/-- A live place has a proper exponent, and a free one has no rank. -/
def checkSlot (i : Nat) : Except CircuitError Unit :=
  if (c.slotAt i).live then c.checkTerms (.successors (c.nodeAt i)) [] (c.slotAt i).successors
  else if (c.slotAt i).rank.isSome then violated (.freeSlotRanked i)
  else .ok ()

/-- A marking has proper terms. -/
def checkCell (i : Nat) : Except CircuitError Unit := c.checkTerms (.marking i) [] (c.cellAt i).terms

/-- A reduced node is live, records its rank and depends on reduced nodes only. -/
def checkRank (entry : Node × Nat) : Except CircuitError Unit := do
  let (n, rank) := entry
  c.checkNode n
  if c.rank? n ≠ some rank then violated (.rankMismatch n rank (c.rank? n))
  else match (c.successorNodes n).find? fun m => !c.isReducedNode m with
    | some m => violated (.pendingSuccessor n m)
    | none => .ok ()

/-- The number of places that carry a rank. -/
def rankedCount : Nat := c.slots.toList.countP fun s => s.rank.isSome

/-- No other place carries a rank. -/
def checkRankCount : Except CircuitError Unit :=
  if c.rankedCount ≠ c.order.size then violated (.rankCount c.rankedCount c.order.size) else .ok ()

/-- The successor relation has no cycle. -/
def checkAcyclic : Except CircuitError Unit :=
  match c.cycle? with
  | some n => .error (.cycleDetected n)
  | none => .ok ()

/-- Two neighbours of the reduced order increase, and the flag of the lower one is right. -/
def checkNeighbours (low high : Node) : Except CircuitError Unit := do
  if (← c.compareTerms (c.successors low) (c.successors high) 0) ≠ .lt then
    violated (.notIncreasing low high)
  else if (c.slot low).doubles ≠ ((← c.compareTerms (c.successors high) (c.successors low) 1) = .eq) then
    violated (.staleFlag low)
  else .ok ()

/-- All neighbours of a stretch of the reduced order are right. -/
def checkIncreasing : List Node → Except CircuitError Unit
  | low :: high :: rest => do
    c.checkNeighbours low high
    checkIncreasing (high :: rest)
  | _ => .ok ()

/-- The last reduced node claims no double. -/
def checkTop : Except CircuitError Unit :=
  match c.order.back? with
  | some top => if (c.slot top).doubles then violated (.topDoubles top) else .ok ()
  | none => .ok ()

/-- The first reduced node is not a fraction. -/
def checkBottom : Except CircuitError Unit :=
  match c.order[0]? with
  | some first => do
    if (← c.compareTerms (c.successors first) [] 0) = .lt then violated (.negativeExponent first) else .ok ()
  | none => .ok ()

/-- The first broken invariant, if there is one. -/
def check : Except CircuitError Unit := do
  (List.range c.slots.size).forM c.checkSlot
  c.liveMarkingIds.forM c.checkCell
  c.order.toList.zipIdx.forM c.checkRank
  c.checkRankCount
  c.checkAcyclic
  c.checkIncreasing c.order.toList
  c.checkTop
  c.checkBottom

end PowerTower.Circuit
