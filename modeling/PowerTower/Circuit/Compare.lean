import PowerTower.Circuit.Basic

/-!
# Comparing reduced term lists

Reduced nodes stand in the order of their worth, and all of them are powers of two. A reduced term list is
therefore a numeral whose places are the ranks: neighbouring ranks differ by a factor of two where the lower
one has its doubling flag set, and by at least four otherwise. Since the digits are at most one, everything
below a place is worth less than two units of it, and two numerals are compared from the top down with a
single small carry.

* `digits` : a term list as digits, highest rank first;
* `difference` : the digits of one numeral less those of another;
* `weigh` : the sign of such a list of digits;
* `compareTerms` : compares `lhs` with `rhs + bias`, where `bias` is added at rank zero.
-/

namespace PowerTower

/-- A place and the digit there. -/
abbrev Digit := Nat × Int

namespace Digits

/-- The digits of one descending numeral less those of another. Of each side at most one digit is taken at a
time, so the result descends too. -/
def difference : List Digit → List Digit → List Digit
  | [], [] => []
  | (r, d) :: xs, [] => (r, d) :: difference xs []
  | [], (s, e) :: ys => (s, -e) :: difference [] ys
  | (r, d) :: xs, (s, e) :: ys =>
    if r = s then (r, d - e) :: difference xs ys
    else if s < r then (r, d) :: difference xs ((s, e) :: ys)
    else (s, -e) :: difference ((r, d) :: xs) ys
termination_by xs ys => xs.length + ys.length

/-- Adds a number at rank zero of a descending numeral. -/
def addBias (bias : Int) : List Digit → List Digit
  | [] => if bias = 0 then [] else [(0, bias)]
  | [(0, d)] => [(0, d + bias)]
  | x :: xs => x :: addBias bias xs

end Digits

namespace Circuit

variable (c : Circuit)

/-- The digits of a term list, highest rank first. Only reduced nodes have a place. -/
def digits (ts : List Term) : Except CircuitError (List Digit) := do
  let ds ← ts.mapM fun t => match c.rank? t.1 with
    | some r => .ok (r, t.2.toInt)
    | none => .error .notReduced
  return ds.mergeSort fun x y => y.1 ≤ x.1

/-- Whether the reduced node of a rank has its doubling flag set. -/
def doublesAt (rank : Nat) : Bool :=
  match c.order[rank]? with
  | some n => (c.slot n).doubles
  | none => false

/-- The number of units of `rank` in a unit of the place before it, or a lower bound of it. -/
def scale (previous : Option Nat) (rank : Nat) : Int :=
  if previous = some (rank + 1) ∧ c.doublesAt rank then 2 else 4

/-- The sign of a descending list of digits. `carry` counts units of the place `previous`. -/
def weigh (previous : Option Nat) (carry : Int) : List Digit → Ordering
  | [] => compare carry 0
  | (rank, d) :: ds =>
    let units := d + c.scale previous rank * carry
    if 1 < units then .gt
    else if units < -1 then .lt
    else weigh (some rank) units ds

/-- Compares `lhs` with `rhs + bias`. Both lists have to be reduced. -/
def compareTerms (lhs rhs : List Term) (bias : Int) : Except CircuitError Ordering := do
  let xs ← c.digits lhs
  let ys ← c.digits rhs
  return c.weigh none 0 (Digits.difference xs (Digits.addBias bias ys))

/-- Compares two reduced markings by their worth. -/
protected def compare (a b : Marking) : Except CircuitError Ordering := do
  c.checkMarking a
  c.checkMarking b
  c.compareTerms (c.termsOf a) (c.termsOf b) 0

/-- Whether two reduced markings have the same worth. -/
def equal (a b : Marking) : Except CircuitError Bool := do
  return (← c.compare a b) = .eq

/-- The node of least rank in a term list, the first of them if there are several. -/
def lowest : List Term → Option Node
  | [] => none
  | (n, _) :: ts =>
    match lowest ts with
    | none => some n
    | some m => if (c.rank? m).getD 0 < (c.rank? n).getD 0 then some m else some n

/-- The smallest node of a reduced marking. -/
def smallestNode (m : Marking) : Except CircuitError (Option Node) := do
  c.checkMarking m
  if c.termsReduced (c.termsOf m) then return c.lowest (c.termsOf m) else throw .notReduced

end Circuit

end PowerTower
