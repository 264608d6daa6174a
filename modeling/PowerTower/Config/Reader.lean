import PowerTower.Config
import PowerTower.Config.Json

/-!
# Reading configurations

A configuration is a JSON object whose members are named after the settings, or an array that gives them in order.
What is left out keeps its default. Other members are skipped; a setting that is given twice and an array that is
too long are refused.
-/

namespace PowerTower

namespace Config

/-- A truth value. -/
def bool? : Json → Option Bool
  | .bool b => some b
  | _ => none

/-- What has no room in 64 bits. -/
def sizeLimit : Nat := 18446744073709551616

/-- A number of 64 bits. -/
def size? : Json → Option Nat
  | .number (some n) => if n < sizeLimit then some n else none
  | _ => none

/-- The settings that are given so far. -/
structure Given where
  checkInvariants : Option Bool := none
  nodeCapacity : Option Nat := none

/-- The settings with defaults for those that are not given. -/
def Given.complete (g : Given) : Config where
  checkInvariants := g.checkInvariants.getD ({} : Config).checkInvariants
  nodeCapacity := g.nodeCapacity.getD ({} : Config).nodeCapacity

/-- Takes one member of an object in. -/
def Given.add? (g : Given) (key : Option String) (v : Json) : Option Given :=
  match key with
  | none => none
  | some "check_invariants" =>
    if g.checkInvariants.isSome then none else (bool? v).map fun b => { g with checkInvariants := some b }
  | some "node_capacity" =>
    if g.nodeCapacity.isSome then none else (size? v).map fun n => { g with nodeCapacity := some n }
  | some _ => some g

/-- The settings that a JSON value gives. -/
def ofJson? : Json → Option Config
  | .object members => (members.foldlM (fun g m => Given.add? g m.1 m.2) {}).map Given.complete
  | .array [] => some {}
  | .array [b] => do return { checkInvariants := ← bool? b }
  | .array [b, n] => do return { checkInvariants := ← bool? b, nodeCapacity := ← size? n }
  | _ => none

/-- The settings that a text gives. -/
def parse? (text : String) : Option Config := do ofJson? (← Json.parse? text)

end Config

end PowerTower
