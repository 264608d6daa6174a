import PowerTower.Circuit.Call

/-!
# Making and freeing nodes and markings

A freed place is the next one to be used again, with its generation one higher; otherwise a new node gets
a new place at the end. Markings are numbered in the order of their creation, and a number is never used
again.

`holding` keeps a marking for the length of a computation and returns its handle afterwards, whether or
not the computation was refused. `handingOut` makes it the result, and returns its handle only after a refusal.
-/

namespace PowerTower.Circuit

/-- Makes a pending node with the given exponent. -/
def alloc (successors : List Term) (c : Circuit) : Node × Circuit :=
  match c.free with
  | i :: free =>
    let c := { c with free, liveNodes := c.liveNodes + 1 }
    let c := c.modifySlot i fun s => { s with live := true, successors }
    (c.nodeAt i, c)
  | [] =>
    let i := c.slots.size
    let c := { c with slots := c.slots.push { live := true, successors }, liveNodes := c.liveNodes + 1 }
    (c.nodeAt i, c)

/-- Frees the place that a name leads to. The name of the node that was there is stale from now on. -/
def freeNode (n : Node) (c : Circuit) : Circuit :=
  let c := c.modifySlot n.index fun s => { generation := s.generation + 1 }
  { c with free := n.index :: c.free, liveNodes := c.liveNodes - 1 }

/-- Makes a marking, with one handle. -/
def newMarking (terms : List Term) (c : Circuit) : Marking × Circuit :=
  (⟨c.id, c.cells.size⟩, { c with cells := c.cells.push ⟨terms, 1⟩ })

/-- One more handle of the same marking. -/
def retain (m : Marking) (c : Circuit) : Circuit :=
  c.modifyCell m.id fun k => { k with handles := k.handles + 1 }

/-- Returns a handle. -/
def release (m : Marking) (c : Circuit) : Circuit :=
  c.modifyCell m.id fun k => { k with handles := k.handles - 1 }

/-- Runs `body` and returns the handle `m` afterwards, whether or not `body` was refused. -/
def holding {ε α : Type} (m : Marking) (body : Call ε α) : Call ε α := fun c =>
  let (r, c) := body c
  (r, c.release m)

/-- Runs `body` and answers with the handle `m`, which is returned if `body` was refused. -/
def handingOut {ε : Type} (m : Marking) (body : Call ε Unit) : Call ε Marking := fun c =>
  match body c with
  | (.ok (), c) => (.ok m, c)
  | (.error e, c) => (.error e, c.release m)

end PowerTower.Circuit
