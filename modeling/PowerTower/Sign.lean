/-!
# Signs

The three digits of a signed-digit numeral, written `-`, `0` and `+`. Adding two of them gives a digit of
the same place and a carry into the place of twice the worth: `x + y = sum + 2 · carry`.
-/

namespace PowerTower

/-- A digit: minus one, zero or one. -/
inductive Sign where
  | minus
  | zero
  | plus
deriving DecidableEq, Repr, Inhabited, Hashable

namespace Sign

/-- The number a digit stands for. -/
def toInt : Sign → Int
  | minus => -1
  | zero => 0
  | plus => 1

/-- The digit of opposite worth. -/
def neg : Sign → Sign
  | minus => plus
  | zero => zero
  | plus => minus

instance : Neg Sign := ⟨neg⟩

/-- The full adder of signed digits: the digit that stays in place, then the one that is carried. -/
def addWithCarry : Sign → Sign → Sign × Sign
  | zero, y => (y, zero)
  | x, zero => (x, zero)
  | plus, minus => (zero, zero)
  | minus, plus => (zero, zero)
  | plus, plus => (zero, plus)
  | minus, minus => (zero, minus)

/-- Whether the digit is worth nothing. -/
def isZero (s : Sign) : Bool := s = zero

/-- The sign of an integer. -/
def of (v : Int) : Sign :=
  if 0 < v then plus else if v < 0 then minus else zero

/-- Less, equal and greater read as minus, zero and plus. -/
def ofOrdering : Ordering → Sign
  | .lt => minus
  | .eq => zero
  | .gt => plus

/-- Digits are ordered by their worth. -/
def cmp (x y : Sign) : Ordering := compare x.toInt y.toInt

instance : Ord Sign := ⟨cmp⟩

/-- The mark written in front of a node. -/
def symbol : Sign → String
  | minus => "-"
  | zero => "0"
  | plus => "+"

/-- The name of the digit. -/
def name : Sign → String
  | minus => "Minus"
  | zero => "Zero"
  | plus => "Plus"

/-- The digit a cell holds before anything is added to it. -/
def start : Sign := zero

theorem toInt_neg (s : Sign) : (-s).toInt = -s.toInt := by cases s <;> rfl

theorem neg_neg (s : Sign) : -(-s) = s := by cases s <;> rfl

theorem addWithCarry_toInt (x y : Sign) :
    x.toInt + y.toInt = (x.addWithCarry y).1.toInt + 2 * (x.addWithCarry y).2.toInt := by
  cases x <;> cases y <;> rfl

/-- What is carried leaves nothing behind. -/
theorem sum_eq_zero_of_carry {x y : Sign} (h : (x.addWithCarry y).2 ≠ zero) :
    (x.addWithCarry y).1 = zero := by
  cases x <;> cases y <;> simp_all [addWithCarry]

theorem toInt_inj {x y : Sign} (h : x.toInt = y.toInt) : x = y := by
  cases x <;> cases y <;> simp_all [toInt]

end Sign

end PowerTower
