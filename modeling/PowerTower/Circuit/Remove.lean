import Std.Data.HashSet
import PowerTower.Circuit.Carry

/-!
# Removing nodes

Removing a marking takes its nodes out of the circuit, and out of every exponent and every live marking. Where
one of them was reduced, the exponents of other reduced nodes may change, so the reduced order is given up: only
the node of worth one stays in it, unless that one goes too.
-/

namespace PowerTower.Circuit

/-- The least rank among some nodes. -/
def lowestRank? (c : Circuit) (ns : List Node) : Option Nat := (ns.filterMap c.rank?).min?

/-- Cuts the reduced order off after `keep` nodes and clears all doubling flags. -/
def demote (keep : Nat) (c : Circuit) : Circuit :=
  let c := (c.order.toList.drop keep).foldl (fun c n => c.setRank n none) c
  { c with order := c.order.take keep, slots := c.slots.map fun s => { s with doubles := false } }

/-- Gives up the reduced order where one of the nodes is in it. -/
def demoteFor (doomed : List Node) (c : Circuit) : Circuit :=
  match c.lowestRank? doomed with
  | some lowest => c.demote (if lowest = 0 then 0 else 1)
  | none => c

/-- Takes nodes out of all exponents and all live markings. -/
def forget (gone : Std.HashSet Node) (c : Circuit) : Circuit :=
  let keep (ts : List Term) : List Term := ts.filter fun t => !gone.contains t.1
  { c with
    slots := c.slots.map fun s => if s.live then { s with successors := keep s.successors } else s
    cells := c.cells.map fun k => if 0 < k.handles then { k with terms := keep k.terms } else k }

/-- Takes nodes out of the circuit. -/
def removeNodes (doomed : List Node) (c : Circuit) : Circuit :=
  if doomed.isEmpty then c
  else
    (doomed.foldl (fun c n => c.freeNode n) (c.demoteFor doomed)).forget (Std.HashSet.ofList doomed)

/-- Takes the nodes of a marking out of the circuit. -/
def remove (m : Marking) : Call CircuitError Unit := do
  Call.ask fun c => c.checkMarking m
  Call.change fun c => ((), c.removeNodes (c.nodesOf m))

end PowerTower.Circuit
