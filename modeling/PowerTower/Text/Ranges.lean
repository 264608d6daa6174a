/-!
# Sets of characters

A set of characters is given by the ranges of its code points, first and last included.
-/

namespace PowerTower.Text

/-- A set of characters, as ranges of code points. -/
abbrev Ranges := List (Nat × Nat)

/-- Whether a character is in one of the ranges. -/
def Ranges.mem (rs : Ranges) (ch : Char) : Bool := rs.any fun r => r.1 ≤ ch.toNat && ch.toNat ≤ r.2

end PowerTower.Text
