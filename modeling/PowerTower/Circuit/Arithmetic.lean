import PowerTower.Circuit.Carry

/-!
# Arithmetic of markings

Each operation makes a new marking and leaves its arguments alone. `add` sums entry by entry, without carries: a
circuit that checks itself refuses a sum in which two equal digits meet. `increment` carries where the marking
is reduced, and otherwise adds a node of worth one.
-/

namespace PowerTower.Circuit

/-- The marking of opposite worth. -/
def invert (m : Marking) : Call CircuitError Marking := do
  Call.ask fun c => c.checkMarking m
  Call.change fun c => c.newMarking (Terms.flip (c.termsOf m))

/-- Adds up terms, entry by entry. -/
def sumTerms (strict : Bool) (ts : List Term) : List Term → Except CircuitError (List Term)
  | [] => .ok ts
  | (n, s) :: rest =>
    match Terms.accumulate? strict n s ts with
    | some ts => sumTerms strict ts rest
    | none => .error (.signOverflow n)

/-- The sum of two markings. -/
def add (a b : Marking) : Call CircuitError Marking := do
  Call.ask fun c => c.checkMarking a
  Call.ask fun c => c.checkMarking b
  let ts ← Call.ask fun c => sumTerms c.config.checkInvariants (c.termsOf a) (c.termsOf b)
  Call.change fun c => c.newMarking ts

/-- The terms that two markings share, digit included. -/
def intersect (a b : Marking) : Call CircuitError Marking := do
  Call.ask fun c => c.checkMarking a
  Call.ask fun c => c.checkMarking b
  Call.change fun c => c.newMarking ((c.termsOf a).filter fun t => c.digitOf b t.1 = t.2)

/-- A node of worth one that no marking mentions: reduced if nothing is reduced yet, and otherwise fresh. -/
def looseUnit (c : Circuit) : Node × Circuit :=
  if c.order.isEmpty then c.ensureUnit else c.alloc []

/-- The terms of a marking and one more. -/
def incremented (ts : List Term) (c : Circuit) : List Term × Circuit :=
  if c.termsReduced ts then c.incrementTerms ts
  else
    let (one, c) := c.looseUnit
    (ts ++ [(one, .plus)], c)

/-- The marking of one more. -/
def increment (m : Marking) : Call CircuitError Marking := do
  Call.ask fun c => c.checkMarking m
  Call.change fun c =>
    let (ts, c) := incremented (c.termsOf m) c
    c.newMarking ts

end PowerTower.Circuit
