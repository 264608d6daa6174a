import PowerTower.Text.Ranges

/-!
# Blanks

The property White_Space: what may stand between two symbols.
-/

namespace PowerTower.Text

/-- The ranges of the blanks. -/
def blanks : Ranges := [
  (0x9, 0xD), (0x20, 0x20), (0x85, 0x85), (0xA0, 0xA0), (0x1680, 0x1680), (0x2000, 0x200A), (0x2028, 0x2029),
  (0x202F, 0x202F), (0x205F, 0x205F), (0x3000, 0x3000)]

/-- Whether a character is a blank. -/
def isBlank (ch : Char) : Bool := blanks.mem ch

end PowerTower.Text
