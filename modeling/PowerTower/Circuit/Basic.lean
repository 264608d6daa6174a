import PowerTower.Config
import PowerTower.Circuit.Error

/-!
# Power circuits

A power circuit is a store of nodes. A node is worth two to the power of the signed sum of its successors, so
a node without successors is worth one. Some nodes are *reduced*: they stand in `order`, smallest first, and
record their position there as their rank. The others are *pending*.

A marking is a term list kept by the circuit, so that the circuit can change it when nodes merge or go
away. It is held through handles; it is live while at least one handle remains.

* `slot`, `rank?`, `successors`, `termsOf` : look-ups, total, by the place that a name points to;
* `checkNode`, `checkMarking` : whether a name or a handle is this circuit's own and still good;
* `modifySlot`, `modifyCell` : change one place, with what they do to the look-ups.
-/

namespace PowerTower

/-- A place of the store. -/
structure Slot where
  /-- How often a node of this place has been freed. -/
  generation : UInt32 := 0
  /-- Whether the place holds a node. -/
  live : Bool := false
  /-- The position in the reduced order, for reduced nodes. -/
  rank : Option Nat := none
  /-- Set when the next reduced node is worth exactly twice this one. -/
  doubles : Bool := false
  /-- The exponent. -/
  successors : List Term := []
deriving DecidableEq, Repr, Inhabited

/-- A marking as the circuit keeps it. -/
structure Cell where
  terms : List Term
  /-- The number of handles given out and not yet returned. -/
  handles : Nat
deriving DecidableEq, Repr, Inhabited

/-- A handle of a marking. -/
structure Marking where
  circuit : CircuitId
  id : Nat
deriving DecidableEq, Repr, Inhabited

/-- A power circuit. -/
structure Circuit where
  id : CircuitId
  config : Config := {}
  /-- The store, by node index. -/
  slots : Array Slot := #[]
  /-- The places that are free again, the last freed first. -/
  free : List Nat := []
  /-- The number of nodes made less the number of names freed, as a word. It counts the live nodes as long as
  no name is freed twice. -/
  liveNodes : UInt64 := 0
  /-- The reduced nodes, by rank. -/
  order : Array Node := #[]
  /-- All markings ever made, by number. -/
  cells : Array Cell := #[]
deriving DecidableEq, Repr, Inhabited

namespace Circuit

/-- A circuit without nodes and markings. -/
def empty (id : CircuitId) (config : Config := {}) : Circuit := { id, config }

variable (c : Circuit)

/-! ## Looking up nodes -/

/-- The place at an index; outside the store, a place that never held a node. -/
def slotAt (i : Nat) : Slot := c.slots[i]?.getD {}

/-- The place a name points to, whatever its generation. -/
def slot (n : Node) : Slot := c.slotAt n.index

/-- The name of the node at an index. -/
def nodeAt (i : Nat) : Node := ⟨c.id, i, (c.slotAt i).generation⟩

/-- The position in the reduced order. -/
def rank? (n : Node) : Option Nat := (c.slot n).rank

/-- Whether the node is reduced. -/
def isReducedNode (n : Node) : Bool := (c.rank? n).isSome

/-- The exponent of a node. -/
def successors (n : Node) : List Term := (c.slot n).successors

/-- Whether all nodes of a term list are reduced. -/
def termsReduced (ts : List Term) : Bool := ts.all fun t => c.isReducedNode t.1

/-- Whether a place holds a node that is not reduced. -/
def isPendingAt (i : Nat) : Bool := (c.slotAt i).live && (c.slotAt i).rank.isNone

/-- The indices that hold a node, in order. -/
def liveIndices : List Nat := (List.range c.slots.size).filter fun i => (c.slotAt i).live

/-- The live nodes, in the order of their places. -/
def liveNodeList : List Node := c.liveIndices.map c.nodeAt

/-- The names that stand in some exponent. The node of a name may be gone, as a reduced node keeps its exponent
when another one merges; its name still leads to its place. -/
def mentionedNodes : List Node := c.slots.toList.flatMap fun s => Terms.nodes s.successors

/-- The nodes that are not reduced, in the order of their places. -/
def pendingNodes : List Node := ((List.range c.slots.size).filter c.isPendingAt).map c.nodeAt

/-- Reduced nodes by rank, then the pending ones. -/
def nodes : List Node := c.order.toList ++ c.pendingNodes

/-! ## Looking up markings -/

/-- The marking with a number. -/
def cellAt (i : Nat) : Cell := c.cells[i]?.getD ⟨[], 0⟩

/-- The terms of a marking of this circuit. -/
def termsOf (m : Marking) : List Term := (c.cellAt m.id).terms

/-- The nodes of a marking of this circuit. -/
def nodesOf (m : Marking) : List Node := Terms.nodes (c.termsOf m)

/-- The digit of a node in a marking of this circuit. -/
def digitOf (m : Marking) (n : Node) : Sign := Terms.digit n (c.termsOf m)

/-- The numbers of the markings that have a handle, in the order of their creation. -/
def liveMarkingIds : List Nat := (List.range c.cells.size).filter fun i => 0 < (c.cellAt i).handles

/-- Handles of the markings that are live. -/
def markings : List Marking := c.liveMarkingIds.map (Marking.mk c.id)

/-- The number of a marking and its terms. -/
def renderMarking (m : Marking) : String := s!"m{m.id}" ++ Terms.render (c.termsOf m)

/-! ## Own and foreign names -/

/-- Accepts the nodes of this circuit that exist. -/
def checkNode (n : Node) : Except CircuitError Unit :=
  if n.circuit ≠ c.id then .error (.foreignCircuit c.id n.circuit)
  else if (c.slot n).live ∧ (c.slot n).generation = n.generation then .ok ()
  else .error (.staleNode n)

/-- Accepts the markings of this circuit. -/
def checkMarking (m : Marking) : Except CircuitError Unit :=
  if m.circuit = c.id then .ok () else .error (.foreignCircuit c.id m.circuit)

/-! ## Queries -/

/-- Whether a marking has reduced nodes only. -/
def isReduced (m : Marking) : Except CircuitError Bool := do
  c.checkMarking m
  return c.termsReduced (c.termsOf m)

/-- The rank of a node, if it is reduced. -/
def orderOf (n : Node) : Except CircuitError (Option Nat) := do
  c.checkNode n
  return c.rank? n

/-- Whether a node is reduced. -/
def isNodeReduced (n : Node) : Except CircuitError Bool := do
  return (← c.orderOf n).isSome

/-- The reduced node of a rank. -/
def reducedNode? (rank : Nat) : Option Node := c.order[rank]?

/-- The number of reduced nodes. -/
def reducedLength : Nat := c.order.size

/-- The exponent of a node. -/
def successorTerms (n : Node) : Except CircuitError (List Term) := do
  c.checkNode n
  return c.successors n

/-! ## Changing one place -/

/-- Changes the place at an index. -/
def modifySlot (i : Nat) (f : Slot → Slot) : Circuit := { c with slots := c.slots.modify i f }

/-- Gives a node another exponent. -/
def setSuccessors (n : Node) (ts : List Term) : Circuit :=
  c.modifySlot n.index fun s => { s with successors := ts }

/-- Changes the marking with a number. -/
def modifyCell (i : Nat) (f : Cell → Cell) : Circuit := { c with cells := c.cells.modify i f }

/-- Gives the marking with a number other terms. -/
def setTerms (i : Nat) (ts : List Term) : Circuit := c.modifyCell i fun k => { k with terms := ts }

theorem slotAt_modifySlot (i j : Nat) (f : Slot → Slot) :
    (c.modifySlot i f).slotAt j = if i = j ∧ j < c.slots.size then f (c.slotAt j) else c.slotAt j := by
  unfold slotAt modifySlot
  by_cases hij : i = j
  · subst hij
    by_cases h : i < c.slots.size <;> simp [h, Array.getElem_modify]
  · simp [hij, Array.getElem?_modify]

theorem cellAt_modifyCell (i j : Nat) (f : Cell → Cell) :
    (c.modifyCell i f).cellAt j = if i = j ∧ j < c.cells.size then f (c.cellAt j) else c.cellAt j := by
  unfold cellAt modifyCell
  by_cases hij : i = j
  · subst hij
    by_cases h : i < c.cells.size <;> simp [h, Array.getElem_modify]
  · simp [hij, Array.getElem?_modify]

theorem slotAt_modifyCell (i j : Nat) (f : Cell → Cell) : (c.modifyCell i f).slotAt j = c.slotAt j := rfl

theorem cellAt_modifySlot (i j : Nat) (f : Slot → Slot) : (c.modifySlot i f).cellAt j = c.cellAt j := rfl

end Circuit

end PowerTower
