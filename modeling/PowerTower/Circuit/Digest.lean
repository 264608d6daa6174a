import PowerTower.Circuit.Basic
import PowerTower.Digest.Blake3

/-!
# The digest of the reduced nodes

`encoding` writes the reduced nodes as bytes: a tag, their number, and for each of them in order the number of
entries of its exponent and then the entries by rank, each with its rank and a byte for its sign. Numbers are 64
bits wide, the lowest byte first. Places, generations and the circuit's number are left out, so circuits
whose reduced nodes are connected alike have the same digest.
-/

namespace PowerTower

/-- What every encoding starts with. -/
def encodingTag : List UInt8 := "power-circuit:reduced-prefix:v1".toUTF8.toList

/-- The lowest bytes of a number, the lowest of all first. -/
def lowBytes : Nat → Nat → List UInt8
  | 0, _ => []
  | k + 1, n => n.toUInt8 :: lowBytes k (n / 256)

/-- A number in 64 bits, the lowest byte first. -/
def bytes64 (n : Nat) : List UInt8 := lowBytes 8 n

/-- The byte of a sign, in two's complement. -/
def Sign.byte : Sign → UInt8
  | .minus => 0xFF
  | .zero => 0
  | .plus => 1

/-- A byte as two hexadecimal digits. -/
def hexByte (b : UInt8) : List Char := [Nat.digitChar (b.toNat / 16), Nat.digitChar (b.toNat % 16)]

/-- Bytes as hexadecimal digits. -/
def hexText (bytes : List UInt8) : String := String.ofList (bytes.flatMap hexByte)

namespace Circuit

variable (c : Circuit)

/-- An entry of a reduced node's exponent, by rank. -/
def rankEntry (owner : Node) (t : Term) : Except CircuitError (Nat × Sign) := do
  match ← c.orderOf t.1 with
  | some rank => return (rank, t.2)
  | none => throw (.invariantViolated (.pendingSuccessor owner t.1))

/-- Entries stand by rank, and those of one rank by sign. -/
def entryLE (x y : Nat × Sign) : Bool := x.1 < y.1 || (x.1 == y.1 && x.2.toInt ≤ y.2.toInt)

/-- The entries of a reduced node's exponent, by rank. -/
def rankEntries (n : Node) : Except CircuitError (List (Nat × Sign)) := do
  let entries ← (← c.successorTerms n).mapM (c.rankEntry n)
  return entries.mergeSort entryLE

/-- The bytes of a list of entries. -/
def encodeEntries (entries : List (Nat × Sign)) : List UInt8 :=
  bytes64 entries.length ++ entries.flatMap fun e => bytes64 e.1 ++ [e.2.byte]

/-- The reduced nodes as bytes. -/
def encoding : Except CircuitError (List UInt8) := do
  let nodes ← c.order.toList.mapM c.rankEntries
  return encodingTag ++ bytes64 c.order.size ++ nodes.flatMap encodeEntries

/-- The digest of the reduced nodes. -/
def digest : Except CircuitError (List UInt8) := do
  return Blake3.hash (← c.encoding)

end Circuit

end PowerTower
