import PowerTower.Sign

/-!
# Nodes and term lists

A node is named by its circuit, its place in the circuit's store and a generation, which tells apart the
nodes that held the place one after the other. A term is a node with a digit; a list of terms without
repeated nodes stands for the signed sum of its nodes.

The list operations here look at names alone: `digit` reads the digit of a node, and `accumulate?` adds one
digit to a list without carrying.
-/

namespace PowerTower

/-- The number of a circuit. -/
structure CircuitId where
  number : Nat
deriving DecidableEq, Repr, Inhabited, Hashable

/-- The written form of a circuit's number. -/
def CircuitId.render (i : CircuitId) : String := s!"pc{i.number}"

/-- The name of a node. Generations are 32-bit words, and wrap. -/
structure Node where
  circuit : CircuitId
  index : Nat
  generation : UInt32
deriving DecidableEq, Repr, Inhabited, Hashable

/-- A node is written with its generation from the second holder of a place on. -/
def Node.render (n : Node) : String :=
  if n.generation = 0 then s!"n{n.index}" else s!"n{n.index}@{n.generation}"

/-- The node at the same place of another circuit. -/
def Node.rehome (n : Node) (i : CircuitId) : Node := { n with circuit := i }

/-- A node with its digit. -/
abbrev Term := Node × Sign

namespace Term

/-- The digit and then the node. -/
def render (t : Term) : String := t.2.symbol ++ t.1.render

/-- The term of opposite worth. -/
def flip (t : Term) : Term := (t.1, -t.2)

end Term

namespace Terms

/-- The nodes of a term list, in order. -/
def nodes (ts : List Term) : List Node := ts.map (·.1)

/-- The digit the list holds for a node, if it mentions the node. -/
def digit? (n : Node) : List Term → Option Sign
  | [] => none
  | (m, s) :: ts => if m = n then some s else digit? n ts

/-- The digit of a node; nodes that are not mentioned count zero. -/
def digit (n : Node) (ts : List Term) : Sign := (digit? n ts).getD .zero

/-- The list without its first entry for the node. -/
def erase (n : Node) : List Term → List Term
  | [] => []
  | (m, s) :: ts => if m = n then ts else (m, s) :: erase n ts

/-- The list with another digit in its first entry for the node. -/
def set (n : Node) (s : Sign) : List Term → List Term
  | [] => []
  | (m, t) :: ts => if m = n then (m, s) :: ts else (m, t) :: set n s ts

/-- The terms of opposite worth. -/
def flip (ts : List Term) : List Term := ts.map Term.flip

/-- Terms separated by one space, in brackets. -/
def render (ts : List Term) : String := "[" ++ " ".intercalate (ts.map Term.render) ++ "]"

/-- Adds a digit to the entry of a node. Nothing carries: two equal digits leave no entry, and where
`strict` they are refused (`none`). -/
def accumulate? (strict : Bool) (n : Node) (s : Sign) (ts : List Term) : Option (List Term) :=
  if s = .zero then some ts
  else match digit? n ts with
    | none => some (ts ++ [(n, s)])
    | some old =>
      let (sum, carry) := old.addWithCarry s
      if carry ≠ .zero ∧ strict then none
      else some (if sum = .zero then erase n ts else set n sum ts)

theorem length_erase_lt {n : Node} {ts : List Term} {s : Sign} (h : digit? n ts = some s) :
    (erase n ts).length < ts.length := by
  induction ts with
  | nil => simp [digit?] at h
  | cons t ts ih =>
    obtain ⟨m, u⟩ := t
    by_cases hm : m = n
    · simp [erase, hm]
    · simpa [erase, hm] using ih (by simpa [digit?, hm] using h)

end Terms

end PowerTower
