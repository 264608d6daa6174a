import PowerTower.Expr.Basic
import PowerTower.Circuit.Arithmetic
import PowerTower.Circuit.Connect
import PowerTower.Circuit.Create
import PowerTower.Circuit.Reduce

/-!
# Evaluating expressions

`evaluate` makes the reduced marking of an expression in a circuit. Sums are taken of clones of their operands,
which share no nodes, so nothing carries until the reduction at the end merges the clones. The exponent of a power
is reduced as soon as it is there, because only then its sign can be told.

The markings that are made on the way are held while they are needed, and no longer: reduction changes the terms
of every marking that is live.
-/

namespace PowerTower

/-- Why an expression has no marking. -/
inductive EvalError where
  /-- The circuit refused a call. -/
  | circuit (e : CircuitError)
  /-- Two to a negative power. -/
  | negativeExponent
deriving DecidableEq, Repr

/-- The wording of a failed evaluation. -/
def EvalError.message : EvalError → String
  | circuit e => e.message
  | negativeExponent => "exponent of 2^(...) is negative"

/-- Evaluation in a circuit. -/
abbrev Evaluation := Call EvalError

/-- A plain call on the circuit as a step of an evaluation. -/
def Evaluation.call {α : Type} (x : Call CircuitError α) : Evaluation α := x.mapError .circuit

open Circuit Evaluation

namespace Expr

/-- The sum or the difference of two markings. -/
def combine (a b : Marking) : AddOp → Evaluation Marking
  | .plus => do
    let x ← call (cloneMarking a)
    holding x do
      let y ← call (cloneMarking b)
      holding y (call (add x y))
  | .minus => do
    let x ← call (cloneMarking a)
    holding x do
      let y ← call (cloneMarking b)
      let z ← holding y (call (invert y))
      holding z (call (add x z))

/-- Two to the power of a marking that is not negative. -/
def raiseUnit (exponent : Marking) : Evaluation Marking := do
  let unit ← call (createMarking 1)
  holding unit do
    let top ← call (cloneMarking unit)
    handingOut top (call (connect top exponent))

/-- Two to the power of a marking. -/
def powerOf (exponent : Marking) : Evaluation Marking := do
  call (reduceMarkings [exponent])
  let zero ← call (createMarking 0)
  holding zero do
    let order ← call (Call.ask fun c => c.compare exponent zero)
    if order = .lt then throw .negativeExponent
    raiseUnit exponent

mutual

/-- The marking of an expression, not yet reduced. -/
def build : Expr → Evaluation Marking
  | .int v => call (createMarking v)
  | .neg e => do
    let m ← build e
    holding m (call (invert m))
  | .sum first rest => do
    let total ← build first
    buildSummands rest total
  | .power e => do
    let exponent ← build e
    holding exponent (powerOf exponent)

/-- The marking of a total and further summands, not yet reduced. The handle of the total is given back. -/
def buildSummands : List (AddOp × Expr) → Marking → Evaluation Marking
  | [], total => return total
  | (op, e) :: rest, total => do
    let next ← holding total do
      let term ← build e
      holding term (combine total term op)
    buildSummands rest next

end

/-- The reduced marking of an expression. -/
def evaluate (e : Expr) : Evaluation Marking := do
  let m ← build e
  handingOut m (call reduce)

end Expr

end PowerTower
