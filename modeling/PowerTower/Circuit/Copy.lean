import PowerTower.Circuit.Arena

/-!
# Copying a circuit

A copy has the same nodes at the same places, and the same reduced order, under a number of its own. Of the
markings it takes those that are to be kept, numbered anew from zero.
-/

namespace PowerTower

/-- The same terms in another circuit. -/
def Terms.rehome (id : CircuitId) (ts : List Term) : List Term := ts.map fun t => (t.1.rehome id, t.2)

namespace Circuit

/-- The nodes of a circuit under another number, without markings. -/
def rehomed (c : Circuit) (id : CircuitId) : Circuit :=
  { c with
    id
    slots := c.slots.map fun s => { s with successors := Terms.rehome id s.successors }
    order := c.order.map fun n => n.rehome id
    cells := #[] }

/-- Makes markings of some term lists, in order. -/
def newMarkings : List (List Term) → Circuit → List Marking × Circuit
  | [], c => ([], c)
  | ts :: rest, c =>
    let (m, c) := c.newMarking ts
    let (ms, c) := newMarkings rest c
    (m :: ms, c)

/-- A copy under a number of its own, and the kept markings there. -/
def copy (c : Circuit) (id : CircuitId) (keep : List Marking) :
    Except CircuitError (Circuit × List Marking) := do
  keep.forM c.checkMarking
  let (ms, copy) := newMarkings (keep.map fun m => Terms.rehome id (c.termsOf m)) (c.rehomed id)
  return (copy, ms)

end Circuit

end PowerTower
