import PowerTower.Circuit.Basic

/-!
# Counts and listings

`stats` counts what is live in a circuit. `render` lists it: the reduced nodes by rank, with a star where the
doubling flag is set, then the pending nodes, then the live markings.
-/

namespace PowerTower

/-- What is live in a circuit. -/
structure Stats where
  nodes : Nat
  reducedNodes : Nat
  markings : Nat
  /-- The entries of all exponents. -/
  edges : Nat
deriving DecidableEq, Repr

/-- The counts in one line. -/
def Stats.render (s : Stats) : String :=
  s!"{s.nodes} nodes ({s.reducedNodes} reduced), {s.markings} markings, {s.edges} edges"

/-- Fills a text with spaces on the right. -/
def padRight (width : Nat) (text : String) : String :=
  text ++ String.ofList (List.replicate (width - text.length) ' ')

namespace Circuit

variable (c : Circuit)

/-- The number of entries in the exponents of live nodes. -/
def edgeCount : Nat := (c.slots.toList.filter (·.live)).foldl (fun k s => k + s.successors.length) 0

/-- Counts what is live. -/
def stats : Stats where
  nodes := c.liveNodes.toNat
  reducedNodes := c.order.size
  markings := c.liveMarkingIds.length
  edges := c.edgeCount

/-- A line of the listing for a reduced node. -/
def renderRanked (entry : Node × Nat) : String :=
  let (n, rank) := entry
  let flag := if (c.slot n).doubles then "*" else " "
  s!"  #{padRight 4 (toString rank)}{flag} {padRight 8 n.render} {Terms.render (c.successors n)}\n"

/-- A line of the listing for a pending node. -/
def renderPending (n : Node) : String :=
  s!"  --     {padRight 8 n.render} {Terms.render (c.successors n)}\n"

/-- A line of the listing for a marking. -/
def renderCell (i : Nat) : String :=
  let name := s!"m{i}"
  s!"  {padRight 14 name} {Terms.render (c.cellAt i).terms}\n"

/-- The listing of a circuit. -/
def render : String :=
  String.join (s!"circuit {c.id.render}: {c.stats.render}\n" ::
    c.order.toList.zipIdx.map c.renderRanked ++ c.pendingNodes.map c.renderPending ++
    c.liveMarkingIds.map c.renderCell)

end Circuit

end PowerTower
