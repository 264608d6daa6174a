/-!
# Expressions

Integer expressions with sums, differences, negation and powers of two.
-/

namespace PowerTower

/-- The operator in front of a summand. -/
inductive AddOp where
  | plus
  | minus
deriving DecidableEq, Repr

/-- The mark of an operator. -/
def AddOp.symbol : AddOp → String
  | plus => "+"
  | minus => "-"

/-- An expression. -/
inductive Expr where
  /-- An integer. -/
  | int (v : Int)
  /-- The opposite. -/
  | neg (e : Expr)
  /-- A first summand and the others with their operators, summed from left to right. -/
  | sum (first : Expr) (rest : List (AddOp × Expr))
  /-- Two to a power. -/
  | power (exponent : Expr)
deriving Repr

mutual

/-- The tree of an expression in brackets. -/
def Expr.render : Expr → String
  | .int v => toString v
  | .neg e => s!"(neg {e.render})"
  | .sum first rest => s!"(sum {first.render}{renderSummands rest})"
  | .power e => s!"(pow2 {e.render})"

/-- The further summands of a sum, each after its operator. -/
def renderSummands : List (AddOp × Expr) → String
  | [] => ""
  | (op, e) :: rest => s!" {op.symbol} {e.render}" ++ renderSummands rest

end

end PowerTower
