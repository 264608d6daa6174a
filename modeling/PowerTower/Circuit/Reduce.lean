import Std.Data.HashMap
import PowerTower.Circuit.Carry
import PowerTower.Circuit.Check

/-!
# Reduction

Reduction takes pending nodes into the reduced order, each after the nodes it depends on. A node is looked up in
the order by its exponent (`search`). If no node there has the same worth, it is inserted; otherwise it is
merged: every pending exponent and every live marking that mentions it gets the equal node in its stead, with
carries where that one is mentioned already, and its own place is freed.

* `reduceFrontier` : reduces a list of pending nodes that is closed under pending successors;
* `reduce`, `reduceMarkings`, `reduceNodes` : all pending nodes, those that some markings depend on, and an
  explicit list.
-/

namespace PowerTower

/-- A pending exponent or a live marking, as one that mentions nodes. -/
inductive Holder where
  | node (n : Node)
  | marking (id : Nat)
deriving DecidableEq, Repr

/-- The outcome of looking up a worth in the reduced order. -/
inductive Spot where
  /-- The node of this rank has it. -/
  | taken (rank : Nat)
  /-- A node that has it belongs at this rank. -/
  | vacant (rank : Nat)
deriving DecidableEq, Repr

namespace Circuit

/-! ## Looking up a worth -/

/-- Halves a stretch of ranks until one is left. `order` compares the node of a rank with what is looked for. -/
def narrow {ε : Type} (order : Nat → Except ε Ordering) (base size : Nat) : Except ε Nat :=
  if size ≤ 1 then .ok base
  else
    let half := size / 2
    match order (base + half) with
    | .error e => .error e
    | .ok .gt => narrow order base (size - half)
    | .ok _ => narrow order (base + half) (size - half)
termination_by size

/-- Compares the exponent of the reduced node of a rank with another exponent. -/
def compareAt (c : Circuit) (exponent : List Term) (rank : Nat) : Except CircuitError Ordering :=
  match c.order[rank]? with
  | some n => c.compareTerms (c.successors n) exponent 0
  | none => .error .notReduced

/-- Looks up a worth, given by its exponent, in the reduced order. -/
def search (c : Circuit) (exponent : List Term) : Except CircuitError Spot :=
  if c.order.size = 0 then .ok (.vacant 0)
  else do
    let rank ← narrow (c.compareAt exponent) 0 c.order.size
    match ← c.compareAt exponent rank with
    | .eq => return .taken rank
    | .lt => return .vacant (rank + 1)
    | .gt => return .vacant rank

/-! ## Who mentions a node -/

/-- Enters a holder for each node of a list that is in the frontier. -/
def mention (frontier : Std.HashSet Node) (holder : Holder) (table : Std.HashMap Node (Array Holder))
    (nodes : List Node) : Std.HashMap Node (Array Holder) :=
  nodes.foldl (fun table n => if n ∈ frontier then table.alter n fun hs => some ((hs.getD #[]).push holder)
    else table) table

/-- For each node of the frontier the pending nodes, in the order of their places, and then the live markings,
oldest first, that mention it. -/
def referrers (c : Circuit) (frontier : List Node) : Std.HashMap Node (Array Holder) :=
  let members := Std.HashSet.ofList frontier
  let table := c.pendingNodes.foldl (fun table n => mention members (.node n) table (c.successorNodes n)) {}
  c.liveMarkingIds.foldl
    (fun table i => mention members (.marking i) table (Terms.nodes (c.cellAt i).terms)) table

/-- The terms of a holder. -/
def heldBy (c : Circuit) : Holder → List Term
  | .node n => c.successors n
  | .marking i => (c.cellAt i).terms

/-- Gives a holder other terms. -/
def setHeld (h : Holder) (ts : List Term) (c : Circuit) : Circuit :=
  match h with
  | .node n => c.setSuccessors n ts
  | .marking i => c.setTerms i ts

/-! ## One node -/

/-- Puts `survivor` in the stead of `duplicate` in the terms of a holder, which is without terms while they
change. -/
def redirect (duplicate survivor : Node) (c : Circuit) (h : Holder) : Circuit :=
  let terms := c.heldBy h
  match Terms.digit? duplicate terms with
  | none => c
  | some sign =>
    let (ts, c) := (c.setHeld h []).absorb (Terms.erase duplicate terms) survivor sign
    c.setHeld h ts

/-- Puts `survivor` in the stead of `duplicate` everywhere and frees `duplicate`. -/
def merge (duplicate survivor : Node) (holders : List Holder) (c : Circuit) : Circuit :=
  (holders.foldl (redirect duplicate survivor) c).freeNode duplicate

/-- Refreshes the doubling flag of the node below a rank. -/
def refreshBelow (rank : Nat) (c : Circuit) : Circuit :=
  match rank with
  | 0 => c
  | r + 1 => match c.order[r]? with
    | some below => c.refreshDoubles below
    | none => c

/-- Takes a node into the reduced order. -/
def insertReduced (n : Node) (rank : Nat) (c : Circuit) : Circuit :=
  ((c.place n rank).refreshBelow rank).refreshDoubles n

/-- Merges a node with the reduced node of the same worth, or inserts it if there is none. -/
def reduceNode (holders : Std.HashMap Node (Array Holder)) (n : Node) : Call CircuitError Unit :=
  fun c => match c.search (c.successors n) with
    | .error e => (.error e, c)
    | .ok (.taken rank) => match c.order[rank]? with
      | some survivor => (.ok (), c.merge n survivor (holders.getD n #[]).toList)
      | none => (.ok (), c)
    | .ok (.vacant rank) => (.ok (), c.insertReduced n rank)

/-! ## A frontier -/

/-- Reduces pending nodes that depend on no others, in an order of dependency. -/
def reduceFrontier (frontier : List Node) : Call CircuitError Unit := do
  let sorted ← Call.ask fun c => c.dependencyOrder frontier
  if sorted.isEmpty then return ()
  let holders ← Call.read fun c => c.referrers sorted
  sorted.forM (reduceNode holders)

/-- Reduces a frontier and, in a circuit that checks itself, checks what came out. -/
def runReduce (frontier : List Node) : Call CircuitError Unit := do
  reduceFrontier frontier
  Call.ask fun c => if c.config.checkInvariants then c.check else .ok ()

/-- Reduces all pending nodes. -/
def reduce : Call CircuitError Unit := do
  let frontier ← Call.read fun c => c.pendingNodes
  runReduce frontier

/-- The nodes of some markings of this circuit. -/
def rootsOf (c : Circuit) : List Marking → Except CircuitError (List Node)
  | [] => .ok []
  | m :: ms => do
    c.checkMarking m
    let rest ← rootsOf c ms
    return c.nodesOf m ++ rest

/-- Reduces the nodes that some markings depend on. -/
def reduceMarkings (ms : List Marking) : Call CircuitError Unit := do
  let roots ← Call.ask fun c => c.rootsOf ms
  let frontier ← Call.read fun c => c.pendingReachable roots
  runReduce frontier

/-- Accepts own pending nodes. -/
def checkPending (c : Circuit) (n : Node) : Except CircuitError Unit := do
  c.checkNode n
  if c.isReducedNode n then throw (.alreadyReduced n)

/-- Accepts own markings whose pending nodes are all listed. -/
def checkCovered (c : Circuit) (listed : List Node) (m : Marking) : Except CircuitError Unit := do
  c.checkMarking m
  match (c.nodesOf m).find? fun n => !listed.contains n && !c.isReducedNode n with
  | some n => throw (.outsideFrontier n)
  | none => return ()

/-- Reduces the listed nodes. The markings are those that the caller wants reduced by it. -/
def reduceNodes (ns : List Node) (ms : List Marking) : Call CircuitError Unit := do
  Call.ask fun c => ns.forM c.checkPending
  Call.ask fun c => ms.forM (c.checkCovered ns)
  runReduce ns

end Circuit

end PowerTower
