import PowerTower.Circuit.Arena
import PowerTower.Circuit.Compare

/-!
# Doubles and carries

Adding a node to a reduced term list that mentions it already may carry: two equal digits become one digit of
the double, the reduced node worth twice as much. The double may not exist yet. It is the node whose exponent
is one more, and adding that one is again an addition to a reduced term list, now one level down.

* `place` : puts a node into the reduced order, `refreshDoubles` : sets a doubling flag truthfully;
* `ensureUnit` : the reduced node of worth one;
* `absorbWith` : the chain of carries through a term list, given the doubles;
* `doubleWithin` : the double of a reduced node, with room for so many doubles under construction at one time;
* `stackLimit` : more doubles than are ever under construction at one time;
* `double`, `absorb`, `incrementTerms` : the same, with room for one double for each place of the store and for
  `stackLimit` more. A carry that has to wait for a double waits for that of a direct successor, so the doubles under
  construction lie on a path of successors, and a path without a cycle is no longer than there are places. Where a new
  node comes to the place of one that is still mentioned there may be a cycle, and then the doubles under construction
  can wait for each other until memory is full.
-/

namespace PowerTower.Circuit

/-- Writes a node's position into its place. -/
def setRank (n : Node) (r : Option Nat) (c : Circuit) : Circuit :=
  c.modifySlot n.index fun s => { s with rank := r }

/-- Writes a node's doubling flag. -/
def setDoubles (n : Node) (b : Bool) (c : Circuit) : Circuit :=
  c.modifySlot n.index fun s => { s with doubles := b }

/-- Writes the position of every reduced node from rank `start` on into its place. -/
def renumber (start : Nat) (c : Circuit) : Circuit :=
  (List.range' start (c.order.size - start)).foldl
    (fun c r => match c.order[r]? with
      | some n => c.setRank n (some r)
      | none => c) c

/-- Puts a node into the reduced order. -/
def place (n : Node) (rank : Nat) (c : Circuit) : Circuit :=
  renumber rank { c with order := c.order.insertIdxIfInBounds rank n }

/-- Whether the reduced node above `n` is worth exactly twice as much. -/
def isDoubled (n : Node) (rank : Nat) (c : Circuit) : Bool :=
  match c.order[rank + 1]? with
  | some next => match c.compareTerms (c.successors next) (c.successors n) 1 with
    | .ok o => o = .eq
    | .error _ => false
  | none => false

/-- Sets the doubling flag of a reduced node to the truth. -/
def refreshDoubles (n : Node) (c : Circuit) : Circuit :=
  match c.rank? n with
  | some rank => c.setDoubles n (c.isDoubled n rank)
  | none => c

/-- The first reduced node, if it is a node without successors. -/
def unit? (c : Circuit) : Option Node :=
  match c.order[0]? with
  | some first => if (c.successors first).isEmpty then some first else none
  | none => none

/-- The reduced node of worth one, made if there is none. -/
def ensureUnit (c : Circuit) : Node × Circuit :=
  match c.unit? with
  | some first => (first, c)
  | none =>
    let (unit, c) := c.alloc []
    (unit, (c.place unit 0).refreshDoubles unit)

/-- The reduced node above `n`, where the doubling flag says that it is the double. -/
def knownDouble? (n : Node) (c : Circuit) : Option Node :=
  if (c.slot n).doubles then
    match c.rank? n with
    | some rank => c.order[rank + 1]?
    | none => none
  else none

/-- Adds `sign · node` to a term list. Two equal digits leave no entry, and their carry goes to the double of
the node. Each carry takes an entry away, so the chain is no longer than the list. -/
def absorbWith (double : Node → Circuit → Option (Node × Circuit))
    (terms : List Term) (node : Node) (sign : Sign) (c : Circuit) : Option (List Term × Circuit) :=
  match _ : Terms.digit? node terms with
  | none => some (terms ++ [(node, sign)], c)
  | some old =>
    let (sum, carry) := old.addWithCarry sign
    if carry = .zero then
      some (if sum = .zero then Terms.erase node terms else Terms.set node sum terms, c)
    else
      match double node c with
      | none => none
      | some (next, c) => absorbWith double (Terms.erase node terms) next carry c
termination_by terms.length
decreasing_by exact Terms.length_erase_lt (by assumption)

/-- Enters the double of `target`, with the given exponent, right above it. While the exponent was put together
the double may have come into being, and then it is taken. -/
def finishDouble (target : Node) (exponent : List Term) (c : Circuit) : Node × Circuit :=
  match c.knownDouble? target with
  | some next => (next, c)
  | none =>
    let rank := match c.rank? target with
      | some r => r + 1
      | none => c.order.size
    let (twin, c) := c.alloc exponent
    (twin, ((c.place twin rank).setDoubles target true).refreshDoubles twin)

/-- The double of a reduced node, while at most `room` doubles are under construction at one time. There is no
answer when more are needed. -/
def doubleWithin : Nat → Node → Circuit → Option (Node × Circuit)
  | 0, node, c => (c.knownDouble? node).map (·, c)
  | room + 1, node, c =>
    match c.knownDouble? node with
    | some next => some (next, c)
    | none =>
      let (unit, c) := c.ensureUnit
      match absorbWith (doubleWithin room) (c.successors node) unit .plus c with
      | none => none
      | some (exponent, c) => some (c.finishDouble node exponent)

/-- More doubles than are ever under construction at one time: each takes more than two bytes, and no memory has more
than `2 ^ 64` bytes. -/
def stackLimit : Nat := 1 <<< 63

/-- The reduced node worth twice a reduced node, made if there is none. There is no answer where doubles wait for each
other without an end, and a run does not come back from there. -/
def double? (node : Node) (c : Circuit) : Option (Node × Circuit) := doubleWithin (stackLimit + c.slots.size) node c

/-- The reduced node worth twice a reduced node, made if there is none. The node itself stands for the answer that a run
never gives. -/
def double (node : Node) (c : Circuit) : Node × Circuit := (c.double? node).getD (node, c)

/-- Adds `sign · node`, where the node is reduced, to a term list. The list itself stands for the answer that a run
never gives, because it does not come back from one of the doubles. -/
def absorb (terms : List Term) (node : Node) (sign : Sign) (c : Circuit) : List Term × Circuit :=
  (absorbWith (fun n c => c.double? n) terms node sign c).getD (terms, c)

/-- One more than a reduced term list. -/
def incrementTerms (terms : List Term) (c : Circuit) : List Term × Circuit :=
  let (unit, c) := c.ensureUnit
  c.absorb terms unit .plus

end PowerTower.Circuit
