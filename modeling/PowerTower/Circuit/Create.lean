import PowerTower.Circuit.Carry

/-!
# Making nodes and markings

* `createMarking` : the marking of an integer, written with the reduced nodes of its binary digits;
* `markNodes`, `markSigned` : a marking of given nodes, with plus or with given digits;
* `createNode`, `cloneNode` : a node with the exponent of a marking or of another node;
* `cloneMarking`, `copyMarking` : a marking of fresh twins of the nodes, or of the nodes themselves.
-/

namespace PowerTower.Circuit

/-- The terms of a number in binary, smallest first: `power` is the reduced node of its unit. The double of
the node of each digit is made on the way to the next. -/
def binaryTerms (sign : Sign) (bits : Nat) (power : Node) (c : Circuit) : List Term × Circuit :=
  let here := if bits % 2 = 1 then [(power, sign)] else []
  if bits / 2 = 0 then (here, c)
  else
    let (next, c) := c.double power
    let (above, c) := binaryTerms sign (bits / 2) next c
    (here ++ above, c)
termination_by bits

/-- The terms of an integer. -/
def integerTerms (v : Int) (c : Circuit) : List Term × Circuit :=
  if v = 0 then ([], c)
  else
    let (unit, c) := c.ensureUnit
    binaryTerms (Sign.of v) v.natAbs unit c

/-- The marking of an integer. -/
def createMarking (v : Int) : Call CircuitError Marking :=
  Call.change fun c =>
    let (ts, c) := integerTerms v c
    c.newMarking ts

/-- Adds up signed nodes of this circuit, entry by entry. -/
def sumSigned (c : Circuit) (ts : List Term) : List Term → Except CircuitError (List Term)
  | [] => .ok ts
  | (n, s) :: rest => do
    c.checkNode n
    match Terms.accumulate? c.config.checkInvariants n s ts with
    | some ts => sumSigned c ts rest
    | none => throw (.signOverflow n)

/-- The marking that is the sum of the nodes, each with its digit. -/
def markSigned (ns : List Node) (ss : List Sign) : Call CircuitError Marking := do
  if ns.length ≠ ss.length then throw (.lengthMismatch ns.length ss.length)
  let ts ← Call.ask fun c => c.sumSigned [] (ns.zip ss)
  Call.change fun c => c.newMarking ts

/-- The marking that is the sum of the nodes. -/
def markNodes (ns : List Node) : Call CircuitError Marking := markSigned ns (ns.map fun _ => .plus)

/-- A pending node with the terms of a marking as its exponent. -/
def createNode (m : Marking) : Call CircuitError Node := do
  Call.ask fun c => c.checkMarking m
  Call.change fun c => c.alloc (c.termsOf m)

/-- A pending node with the exponent of another node. -/
def cloneNode (n : Node) : Call CircuitError Node := do
  Call.ask fun c => c.checkNode n
  Call.change fun c => c.alloc (c.successors n)

/-- The same digits on fresh pending twins of the nodes. -/
def cloneTerms : List Term → Circuit → List Term × Circuit
  | [], c => ([], c)
  | (n, s) :: ts, c =>
    let (twin, c) := c.alloc (c.successors n)
    let (twins, c) := cloneTerms ts c
    ((twin, s) :: twins, c)

/-- A marking of fresh pending twins. -/
def cloneMarking (m : Marking) : Call CircuitError Marking := do
  Call.ask fun c => c.checkMarking m
  Call.change fun c =>
    let (ts, c) := cloneTerms (c.termsOf m) c
    c.newMarking ts

/-- Another marking with the same terms. -/
def copyMarking (m : Marking) : Call CircuitError Marking := do
  Call.ask fun c => c.checkMarking m
  Call.change fun c => c.newMarking (c.termsOf m)

/-- A marking of the exponent of a node. -/
def successorMarking (n : Node) : Call CircuitError Marking := do
  Call.ask fun c => c.checkNode n
  Call.change fun c => c.newMarking (c.successors n)

end PowerTower.Circuit
