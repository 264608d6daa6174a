import Mathlib
import PowerTower.Circuit.Report
import PowerTower.Proofs.Figures
import PowerTower.Proofs.WellFormed

/-!
# What the text of a drawing reads

The text of a drawing is read here line by line, and what the lines read is written out, without the functions that
write them. A node is declared by a line that starts with its name, and an edge is a line that joins two names by an
arrow. Which node, entry or marking stands behind a line is said by the sections of the text, in their order, and the
same can be told from a line wherever it stands.

* `linesOf` : the lines of a text;
* `NodeLine`, `EdgeLine`, `MarkingLines` : what the line of a node reads, that of an entry of its exponent, and the
  lines of a marking;
* `Depicts` : the three sections, and what each of them lists;
* `Declares`, `Joins`, `Readable` : what can be told from a line alone;
* `eq_node_of_declares`, `eq_edge_of_joins`, `eq_pointer_of_joins` : the parts whose lines declare a node or join two
  names.
-/

namespace PowerTower

/-! ## Lines -/

/-- The lines of a text. What follows the last line break is the last line, even if nothing does. -/
def linesOf (text : String) : List String := (text.toList.splitOn '\n').map String.ofList

/-- Lines that have no break in them, each ended by one, are the lines of their text. By induction on the lines. -/
theorem linesOf_join {lines : List String} (h : ∀ line ∈ lines, '\n' ∉ line.toList) :
    linesOf (String.join (lines.map (· ++ "\n"))) = lines ++ [""] := by
  have hsplit : (String.join (lines.map (· ++ "\n"))).toList.splitOn '\n' = lines.map String.toList ++ [[]] := by
    rw [String.toList_join, List.splitOn_eq_splitOnP]
    induction lines with
    | nil => simp
    | cons line lines ih =>
      obtain ⟨hline, hlines⟩ := List.forall_mem_cons.1 h
      have hsingle : List.splitOnP (fun x => x == '\n') line.toList = [line.toList] :=
        List.splitOnP_eq_singleton fun x hx => beq_false_of_ne fun heq => hline (heq ▸ hx)
      have hbreak : (line ++ "\n").toList = line.toList ++ ['\n'] := by rw [String.toList_append]; rfl
      rw [List.map_cons, List.flatMap_cons, hbreak, List.append_assoc, List.singleton_append,
        List.splitOnP_append_cons _ _ (by decide), hsingle, ih hlines]
      rfl
  rw [linesOf, hsplit]
  simp [Function.comp_def]

/-- A line declares a name: it reads the name, and then a list of attributes. -/
def Declares (line name : String) : Prop := ∃ rest : String, line = s!"  {name} [{rest}"

/-- A line joins two names. -/
def Joins (line source target : String) : Prop := ∃ rest : String, line = s!"  {source} -> {target} [{rest}"

/-! ## Sections -/

/-- The mark of a sign. -/
inductive Marked : Sign → String → Prop
  | plus : Marked .plus "+"
  | minus : Marked .minus "-"

/-- How a node is written in full: its generation is left out for the first node of a place. -/
inductive Titled (n : Node) : String → Prop
  | first : n.generation = 0 → Titled n s!"n{n.index}"
  | later : n.generation ≠ 0 → Titled n s!"n{n.index}@{n.generation}"

/-- The line of an entry of the exponent of a node. -/
inductive EdgeLine (n : Node) : Term → String → Prop
  | entry {m : Node} {s : Sign} {mark : String} : Marked s mark →
      EdgeLine n (m, s) s!"  n{n.index} -> n{m.index} [label=\"{mark}\"];"

/-- The line of a term of the `k`-th marking of a drawing. -/
inductive TermLine (k : ℕ) (colour : String) : Term → String → Prop
  | entry {m : Node} {s : Sign} {mark : String} : Marked s mark →
      TermLine k colour (m, s) s!"  h{k} -> n{m.index} [color=\"{colour}\", label=\"{mark}\"];"

/-- The lines of a drawing, section by section. -/
def dotLines (nodeLines edgeLines : List String) (markingLines : List (List String)) : List String :=
  ["digraph power_circuit \x7b", "  rankdir=BT;", "  node [shape=circle, fontsize=10];"] ++
    (nodeLines ++ (edgeLines ++ markingLines.flatten)) ++ ["\x7d"]

namespace Circuit

/-- The line of a node: a reduced one is labelled with its position in the order, and a pending one is not labelled. -/
inductive NodeLine (c : Circuit) (n : Node) : String → Prop
  | reduced {r : ℕ} {title : String} : c.order[r]? = some n → Titled n title →
      NodeLine c n s!"  n{n.index} [label=\"R{r}\", tooltip=\"{title}\"];"
  | pending {title : String} : c.Pending n → Titled n title →
      NodeLine c n s!"  n{n.index} [label=\"\", tooltip=\"{title}\"];"

/-- The lines of the `k`-th marking of a drawing: its box, and one for each of its terms, in the colour of the box. -/
inductive MarkingLines (c : Circuit) (k : ℕ) (m : Marking) : List String → Prop
  | box {colour : String} {lines : List String} : highlightColours[k]? = some colour →
      List.Forall₂ (TermLine k colour) (c.termsOf m) lines →
      MarkingLines c k m
        (s!"  h{k} [shape=box, color=\"{colour}\", fontcolor=\"{colour}\", label=\"m{m.id}\"];" :: lines)

/-- What the sections of a drawing list: each live node, the reduced ones first and by rank, each entry of their
exponents, and the first nine of the markings that are shown. -/
structure Depicts (c : Circuit) (shown : List Marking) (nodes : List Node) (nodeLines edgeLines : List String)
    (markingLines : List (List String)) : Prop where
  live : ∀ n, n ∈ nodes ↔ c.Live n
  once : nodes.Nodup
  reducedFirst : ∃ pending, nodes = c.order.toList ++ pending ∧ ∀ n ∈ pending, c.Pending n
  declared : List.Forall₂ c.NodeLine nodes nodeLines
  entries : List.Forall₂ (fun e => EdgeLine e.1 e.2) (nodes.flatMap fun n => (c.successors n).map (n, ·)) edgeLines
  edgeCount : edgeLines.length = c.stats.edges
  markings : List.Forall₂ (fun e => c.MarkingLines e.2 e.1) (shown.take 9).zipIdx markingLines

/-- What can be told from the lines of a drawing alone. No line is there twice. Each live node is declared by one line,
and different nodes by different names. A line that joins the names of two nodes is one of the lines of entries, and
what is joined is declared. -/
structure Readable (c : Circuit) (lines edgeLines : List String) : Prop where
  once : lines.Nodup
  declared : ∀ n, c.Live n → ∃! line, line ∈ lines ∧ Declares line s!"n{n.index}"
  named : ∀ m n, c.Live m → c.Live n → s!"n{m.index}" = s!"n{n.index}" → m = n
  joined : ∀ line ∈ lines, ∀ i j : ℕ, Joins line s!"n{i}" s!"n{j}" → line ∈ edgeLines ∧
    (∃ d ∈ lines, Declares d s!"n{i}") ∧ ∃ d ∈ lines, Declares d s!"n{j}"
  pointed : ∀ line ∈ lines, ∀ k j : ℕ, Joins line s!"h{k}" s!"n{j}" →
    (∃ d ∈ lines, Declares d s!"h{k}") ∧ ∃ d ∈ lines, Declares d s!"n{j}"

end Circuit

/-! ## What a line tells -/

section

variable {f : Figure} {line name target : String} {x : Char} {i j k : ℕ} {rest : List Char} {fs : List Figure}

theorem node_name (i : ℕ) : (s!"n{i}").toList = 'n' :: decimal i := by
  rw [String.toList_append]
  rfl

theorem box_name (k : ℕ) : (s!"h{k}").toList = 'h' :: decimal k := by
  rw [String.toList_append]
  rfl

theorem declares_iff (hname : name.toList = x :: decimal k) :
    Declares line name ↔ ∃ rest, Opens line x k ('[' :: rest) := by
  have hbegin (rest : String) : (s!"  {name} [{rest}").toList =
      ' ' :: ' ' :: x :: (decimal k ++ ' ' :: '[' :: rest.toList) := by
    show ("  " ++ name ++ " [" ++ rest).toList = _
    simp [hname]
  constructor
  · rintro ⟨rest, rfl⟩
    exact ⟨rest.toList, hbegin rest⟩
  · rintro ⟨rest, hrest⟩
    refine ⟨String.ofList rest, ?_⟩
    rw [← String.toList_inj, hbegin, String.toList_ofList]
    exact hrest

theorem Joins.opens (h : Joins line name target) (hname : name.toList = x :: decimal k) :
    ∃ rest, Opens line x k ("-> ".toList ++ (target.toList ++ ' ' :: rest)) := by
  obtain ⟨rest, rfl⟩ := h
  refine ⟨'[' :: rest.toList, ?_⟩
  show ("  " ++ name ++ " -> " ++ target ++ " [" ++ rest).toList = _
  simp [hname]

/-- What declares a node is the line of a node. -/
theorem eq_node_of_declares (h : Declares f.line s!"n{i}") : ∃ n rank, f = .node n rank ∧ n.index = i := by
  obtain ⟨rest, hrest⟩ := (declares_iff (node_name i)).1 h
  obtain ⟨hletter, hnumber, hbody⟩ := f.opens_line.inj hrest
  cases f with
  | node n rank => exact ⟨n, rank, rfl, hnumber⟩
  | edge => simp [Figure.body_edge] at hbody
  | box => cases hletter
  | pointer => cases hletter

/-- What joins two nodes is the line of an entry. -/
theorem eq_edge_of_joins (h : Joins f.line s!"n{i}" s!"n{j}") : ∃ s, f = .edge i j s := by
  obtain ⟨rest, hrest⟩ := h.opens (node_name i)
  obtain ⟨hletter, hnumber, hbody⟩ := f.opens_line.inj hrest
  rw [node_name] at hbody
  cases f with
  | edge source target s =>
    obtain rfl : source = i := hnumber
    rw [Figure.body_edge] at hbody
    obtain ⟨rfl, -⟩ := decimal_cut (by decide) (by decide)
      (List.append_cancel_left (show "-> n".toList ++ _ = "-> n".toList ++ _ from hbody))
    exact ⟨s, rfl⟩
  | node => simp [Figure.body_node] at hbody
  | box => cases hletter
  | pointer => cases hletter

/-- What joins the box of a marking and a node is the line of a term. -/
theorem eq_pointer_of_joins (h : Joins f.line s!"h{k}" s!"n{j}") : ∃ colour s, f = .pointer k colour j s := by
  obtain ⟨rest, hrest⟩ := h.opens (box_name k)
  obtain ⟨hletter, hnumber, hbody⟩ := f.opens_line.inj hrest
  rw [node_name] at hbody
  cases f with
  | pointer k' colour target s =>
    obtain rfl : k' = k := hnumber
    rw [Figure.body_pointer] at hbody
    obtain ⟨rfl, -⟩ := decimal_cut (by decide) (by decide)
      (List.append_cancel_left (show "-> n".toList ++ _ = "-> n".toList ++ _ from hbody))
    exact ⟨colour, s, rfl⟩
  | box => simp [Figure.body_box] at hbody
  | node => cases hletter
  | edge => cases hletter

theorem declares_node (n : Node) (rank : Option ℕ) : Declares (Figure.node n rank).line s!"n{n.index}" :=
  (declares_iff (node_name n.index)).2 ⟨_, Figure.opens_line (.node n rank)⟩

theorem declares_box (k : ℕ) (colour : String) (i : ℕ) : Declares (Figure.box k colour i).line s!"h{k}" :=
  (declares_iff (box_name k)).2 ⟨_, Figure.opens_line (.box k colour i)⟩

theorem not_opens_frame (h : line ∈ dotHead ++ [dotFoot]) : ¬ Opens line x k rest := by
  intro hopens
  obtain ⟨d, hd, hdigit⟩ := hopens.isDigit
  have hframe : ∀ line ∈ dotHead ++ [dotFoot], (line.toList[3]?.all fun d => !d.isDigit) = true := by decide
  have hall := hframe line h
  rw [hd] at hall
  simp [hdigit] at hall

end

end PowerTower
