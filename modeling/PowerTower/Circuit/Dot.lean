import PowerTower.Circuit.Basic

/-!
# Drawings of circuits

`drawing` draws a circuit as a directed graph: every live node, every entry of an exponent, and up to nine
markings as boxes in colours of their own, with an edge to each node of their terms; further markings are left
out. Nodes are named by their places, which live nodes do not share, and reduced ones are labelled with their ranks.
`toDot` writes the drawing down in the DOT format.
-/

namespace PowerTower

/-- The colours of the markings of a drawing. -/
def highlightColours : List String :=
  ["#e41a1c", "#377eb8", "#4daf4a", "#984ea3", "#ff7f00", "#a65628", "#f781bf", "#999999", "#66c2a5"]

/-- A part of a drawing. -/
inductive Figure where
  /-- A node with its rank. -/
  | node (n : Node) (rank : Option Nat)
  /-- An entry of an exponent. -/
  | edge (source target : Nat) (sign : Sign)
  /-- The box of the marking with a number, as the `k`-th of the drawing. -/
  | box (k : Nat) (colour : String) (marking : Nat)
  /-- A term of the `k`-th marking of the drawing. -/
  | pointer (k : Nat) (colour : String) (target : Nat) (sign : Sign)
deriving DecidableEq, Repr

/-- The mark on an edge. -/
def Sign.edgeLabel (s : Sign) : String := if s = .minus then "-" else "+"

/-- The label of a node. -/
def rankLabel : Option Nat → String
  | some rank => s!"R{rank}"
  | none => ""

/-- A part of a drawing as a line of DOT. -/
def Figure.line : Figure → String
  | node n rank => s!"  n{n.index} [label=\"{rankLabel rank}\", tooltip=\"{n.render}\"];"
  | edge i j s => s!"  n{i} -> n{j} [label=\"{s.edgeLabel}\"];"
  | box k colour i => s!"  h{k} [shape=box, color=\"{colour}\", fontcolor=\"{colour}\", label=\"m{i}\"];"
  | pointer k colour j s => s!"  h{k} -> n{j} [color=\"{colour}\", label=\"{s.edgeLabel}\"];"

/-- The lines before the parts of a drawing. -/
def dotHead : List String := ["digraph power_circuit \x7b", "  rankdir=BT;", "  node [shape=circle, fontsize=10];"]

/-- The line after the parts of a drawing. -/
def dotFoot : String := "\x7d"

namespace Circuit

variable (c : Circuit)

/-- A node as a figure. -/
def drawNode (n : Node) : Except CircuitError Figure := do
  return .node n (← c.orderOf n)

/-- The entries of a node's exponent as figures. -/
def drawExponent (n : Node) : Except CircuitError (List Figure) := do
  return (← c.successorTerms n).map fun t => .edge n.index t.1.index t.2

/-- A marking as figures: its box, then its terms. -/
def drawMarking (entry : Marking × String × Nat) : Except CircuitError (List Figure) := do
  let (m, colour, k) := entry
  c.checkMarking m
  return .box k colour m.id :: (c.termsOf m).map fun t => .pointer k colour t.1.index t.2

/-- The drawing of a circuit in which some markings are shown. -/
def drawing (highlights : List Marking) : Except CircuitError (List Figure) := do
  let nodes ← c.nodes.mapM c.drawNode
  let edges ← c.nodes.mapM c.drawExponent
  let boxes ← (highlights.zip highlightColours.zipIdx).mapM c.drawMarking
  return nodes ++ edges.flatten ++ boxes.flatten

/-- The drawing of a circuit in which some markings are shown, in DOT. -/
def toDot (highlights : List Marking) : Except CircuitError String := do
  let figures ← c.drawing highlights
  return String.join ((dotHead ++ figures.map Figure.line ++ [dotFoot]).map (· ++ "\n"))

end Circuit

end PowerTower
