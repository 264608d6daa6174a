import PowerTower.Circuit.Connect
import PowerTower.Circuit.Create
import PowerTower.Circuit.Reduce

/-!
# Sample data

`tower` puts one storey on a marking, and `spread` lists integers of up to so many bits that look random but
are always the same.
-/

namespace PowerTower.Samples

open Circuit

/-- The reduced marking of two to the power of a marking. -/
def tower (exponent : Marking) : Call CircuitError Marking := do
  let unit ← createMarking 1
  holding unit do
    let top ← cloneMarking unit
    handingOut top do
      connect top exponent
      reduceMarkings [top]

/-- The next state of the generator. -/
def nextState (s : UInt64) : UInt64 :=
  let s := s ^^^ (s <<< 13)
  let s := s ^^^ (s >>> 7)
  s ^^^ (s <<< 17)

/-- The integer that is read off a state: at least the negative of two to the power of `bits`, and less than that
power. -/
def sample (bits : Nat) (s : UInt64) : Int := (s.toNat % 1 <<< (bits + 1) : Nat) - (1 <<< bits : Nat)

/-- So many integers, from a state on. -/
def spreadFrom (bits : Nat) : Nat → UInt64 → List Int
  | 0, _ => []
  | k + 1, s => sample bits (nextState s) :: spreadFrom bits k (nextState s)

/-- So many integers of up to so many bits. -/
def spread (count bits : Nat) : List Int := spreadFrom bits count 0x9E3779B97F4A7C15

end PowerTower.Samples
