import Mathlib
import PowerTower.Circuit.Dot

/-!
# The lines of a drawing

Every part of a drawing is written as a line, and the line tells which part it is: numbers end where the digits end,
colours have one length, and labels and names of nodes end before a quotation mark.

* `decimal_cut`, `Node.render_cut`, … : what a field was written from can be told from a text that starts with the
  field;
* `Figure.Legible` : the parts that can be told apart, those with a sign and with one of the colours;
* `Figure.line_inj` : different parts have different lines;
* `Figure.newline_notMem_line` : and no line has a break in it.
-/

namespace PowerTower

variable {k m n : ℕ} {x y : Char} {xs ys : List Char} {s t : Sign} {a b : String} {p q : Node}
  {r u : Option ℕ} {f g : Figure}
  {i : CircuitId}

/-! ## Numbers -/

/-- The decimal digits of a number. -/
def decimal (n : ℕ) : List Char := (toString n).toList

theorem decimal_eq : decimal n = Nat.toDigits 10 n := by
  rw [decimal, Nat.toString_eq_ofList_toDigits, String.toList_ofList]

theorem decimal_inj (h : decimal m = decimal n) : m = n := by
  have hnumber := congrArg (fun ds => Nat.ofDigitChars 10 ds 0) h
  simpa [decimal_eq] using hnumber

theorem isDigit_of_mem_decimal (h : x ∈ decimal n) : x.isDigit = true := by
  rw [decimal_eq] at h
  exact Nat.isDigit_of_mem_toDigits (by decide) (by decide) h

theorem decimal_ne_nil : decimal n ≠ [] := by
  rw [decimal_eq]
  exact Nat.toDigits_ne_nil

theorem takeWhile_decimal (hx : x.isDigit = false) : (decimal n ++ x :: xs).takeWhile Char.isDigit = decimal n := by
  rw [List.takeWhile_append_of_pos fun _ => isDigit_of_mem_decimal,
    List.takeWhile_cons_of_neg (by simp [hx]), List.append_nil]

/-- A number ends where its digits end. -/
theorem decimal_cut (hx : x.isDigit = false) (hy : y.isDigit = false)
    (h : decimal m ++ x :: xs = decimal n ++ y :: ys) :
    m = n ∧ x :: xs = y :: ys := by
  have hdigits := congrArg (List.takeWhile Char.isDigit) h
  rw [takeWhile_decimal hx, takeWhile_decimal hy] at hdigits
  obtain rfl := decimal_inj hdigits
  exact ⟨rfl, List.append_cancel_left h⟩

/-- Places have different names. -/
theorem dotName_inj (h : s!"n{m}" = s!"n{n}") : m = n := by
  have hchars := congrArg String.toList h
  simp only [String.toList_append] at hchars
  exact decimal_inj (List.append_cancel_left hchars)

/-! ## Other fields -/

theorem edgeLabel_cut (hs : s ≠ .zero) (ht : t ≠ .zero) (h : s.edgeLabel.toList ++ xs = t.edgeLabel.toList ++ ys) :
    s = t ∧ xs = ys := by
  cases s <;> cases t <;> simp_all [Sign.edgeLabel]

theorem colour_cut (ha : a ∈ highlightColours) (hb : b ∈ highlightColours) (h : a.toList ++ xs = b.toList ++ ys) :
    a = b ∧ xs = ys := by
  have hlength : ∀ colour ∈ highlightColours, colour.toList.length = 7 := by decide
  obtain ⟨hcolour, hrest⟩ := List.append_inj h ((hlength a ha).trans (hlength b hb).symm)
  exact ⟨String.toList_inj.1 hcolour, hrest⟩

theorem rankLabel_some (k : ℕ) : (rankLabel (some k)).toList = 'R' :: decimal k := by
  simp only [rankLabel, String.toList_append]
  rfl

theorem rankLabel_cut (h : (rankLabel r).toList ++ '"' :: xs = (rankLabel u).toList ++ '"' :: ys) :
    r = u ∧ xs = ys := by
  cases r with
  | none =>
    cases u with
    | none => exact ⟨rfl, (List.cons.inj h).2⟩
    | some k =>
      rw [rankLabel_some] at h
      simp [rankLabel] at h
  | some j =>
    cases u with
    | none =>
      rw [rankLabel_some] at h
      simp [rankLabel] at h
    | some k =>
      rw [rankLabel_some, rankLabel_some] at h
      obtain ⟨rfl, hrest⟩ := decimal_cut (by decide) (by decide) (List.cons.inj h).2
      exact ⟨rfl, (List.cons.inj hrest).2⟩

/-- The generation as it is written after a place: nothing for the first holder. -/
def generationMark (n : Node) : List Char := if n.generation = 0 then [] else '@' :: decimal n.generation.toNat

theorem Node.render_toList (n : Node) : n.render.toList = 'n' :: (decimal n.index ++ generationMark n) := by
  unfold Node.render generationMark
  split_ifs
  · simp only [String.toList_append, List.append_nil]
    rfl
  · simp only [String.toList_append, List.append_assoc]
    rfl

theorem generationMark_cut (h : generationMark p ++ '"' :: xs = generationMark q ++ '"' :: ys) :
    p.generation = q.generation ∧ xs = ys := by
  unfold generationMark at h
  split_ifs at h with hp hq hq
  · exact ⟨hp.trans hq.symm, (List.cons.inj h).2⟩
  · cases (List.cons.inj h).1
  · cases (List.cons.inj h).1
  · obtain ⟨hgeneration, hrest⟩ := decimal_cut (by decide) (by decide) (List.cons.inj h).2
    exact ⟨UInt32.toNat_inj.1 hgeneration, (List.cons.inj hrest).2⟩

/-- The written form of a node tells all but its circuit. -/
theorem Node.render_cut (hcircuit : p.circuit = q.circuit)
    (h : p.render.toList ++ '"' :: xs = q.render.toList ++ '"' :: ys)
    (hindex : p.index = q.index) : p = q ∧ xs = ys := by
  simp only [Node.render_toList, hindex, List.cons_append, List.append_assoc] at h
  obtain ⟨hgeneration, hrest⟩ := generationMark_cut (List.append_cancel_left (List.cons.inj h).2)
  cases p
  cases q
  simp_all

/-! ## Lines -/

/-- How the lines of parts begin: with a letter and a number, which end at a blank. -/
def Opens (line : String) (x : Char) (k : ℕ) (rest : List Char) : Prop :=
  line.toList = ' ' :: ' ' :: x :: (decimal k ++ ' ' :: rest)

theorem Opens.inj {line : String} (h : Opens line x m xs) (h' : Opens line y n ys) : x = y ∧ m = n ∧ xs = ys := by
  unfold Opens at h h'
  rw [h] at h'
  simp only [List.cons.injEq, true_and] at h'
  obtain ⟨hletter, hnumber⟩ := h'
  obtain ⟨hnumber, hrest⟩ := decimal_cut (by decide) (by decide) hnumber
  exact ⟨hletter, hnumber, (List.cons.inj hrest).2⟩

/-- Behind the letter there is a digit. -/
theorem Opens.isDigit {line : String} (h : Opens line x n xs) : ∃ d, line.toList[3]? = some d ∧ d.isDigit = true := by
  obtain ⟨d, ds, hdigits⟩ : ∃ d ds, decimal n = d :: ds := List.exists_cons_of_ne_nil decimal_ne_nil
  unfold Opens at h
  rw [hdigits] at h
  exact ⟨d, by rw [h]; rfl, isDigit_of_mem_decimal (hdigits ▸ List.mem_cons_self)⟩

namespace Figure

/-- A part of a drawing of the circuit with this number, with signs and colours that are written differently. -/
def Legible (i : CircuitId) : Figure → Prop
  | node n _ => n.circuit = i
  | edge _ _ s => s ≠ .zero
  | box _ colour _ => colour ∈ highlightColours
  | pointer _ colour _ s => colour ∈ highlightColours ∧ s ≠ .zero

/-- The letter that a line starts with: nodes and boxes are numbered by themselves. -/
def letter : Figure → Char
  | node _ _ | edge _ _ _ => 'n'
  | box _ _ _ | pointer _ _ _ _ => 'h'

/-- The number of the node or the box that a line starts with. -/
def number : Figure → ℕ
  | node n _ => n.index
  | edge source _ _ => source
  | box k _ _ => k
  | pointer k _ _ _ => k

/-- The rest of a line. -/
def body : Figure → List Char
  | node n rank => "[label=\"".toList ++ ((rankLabel rank).toList ++ '"' :: (", tooltip=\"".toList ++
      (n.render.toList ++ '"' :: "];".toList)))
  | edge _ target s =>
    "-> n".toList ++ (decimal target ++ ' ' :: ("[label=\"".toList ++ (s.edgeLabel.toList ++ "\"];".toList)))
  | box _ colour marking => "[shape=box, color=\"".toList ++ (colour.toList ++ ("\", fontcolor=\"".toList ++
      (colour.toList ++ ("\", label=\"m".toList ++ (decimal marking ++ '"' :: "];".toList)))))
  | pointer _ colour target s => "-> n".toList ++ (decimal target ++ ' ' :: ("[color=\"".toList ++
      (colour.toList ++ ("\", label=\"".toList ++ (s.edgeLabel.toList ++ "\"];".toList)))))

theorem body_node : (node p r).body = "[label=\"".toList ++ ((rankLabel r).toList ++ '"' :: (", tooltip=\"".toList ++
    (p.render.toList ++ '"' :: "];".toList))) := rfl

theorem body_edge : (edge m n s).body = "-> n".toList ++ (decimal n ++ ' ' :: ("[label=\"".toList ++
    (s.edgeLabel.toList ++ "\"];".toList))) := rfl

theorem body_box : (box k a n).body = "[shape=box, color=\"".toList ++ (a.toList ++ ("\", fontcolor=\"".toList ++
    (a.toList ++ ("\", label=\"m".toList ++ (decimal n ++ '"' :: "];".toList))))) := rfl

theorem body_pointer : (pointer k a n s).body = "-> n".toList ++ (decimal n ++ ' ' :: ("[color=\"".toList ++
    (a.toList ++ ("\", label=\"".toList ++ (s.edgeLabel.toList ++ "\"];".toList))))) := rfl

theorem opens_line (f : Figure) : Opens f.line f.letter f.number f.body := by
  unfold Opens
  cases f <;>
  · simp only [line, String.toList_append, List.append_assoc]
    rfl

/-- Behind the same letter and the same number, what follows tells the part. -/
theorem body_inj (hf : f.Legible i) (hg : g.Legible i) (hletter : f.letter = g.letter) (hnumber : f.number = g.number)
    (h : f.body = g.body) : f = g := by
  cases f with
  | node p r =>
    cases g with
    | node q u =>
      rw [body_node, body_node] at h
      obtain ⟨rfl, hnode⟩ := rankLabel_cut (List.append_cancel_left h)
      obtain ⟨rfl, -⟩ := Node.render_cut (hf.trans hg.symm) (List.append_cancel_left hnode) hnumber
      rfl
    | edge => simp [body_node, body_edge] at h
    | box => cases hletter
    | pointer => cases hletter
  | edge j target s =>
    cases g with
    | edge j' target' t =>
      obtain rfl : j = j' := hnumber
      rw [body_edge, body_edge] at h
      obtain ⟨rfl, hlabel⟩ := decimal_cut (by decide) (by decide) (List.append_cancel_left h)
      obtain ⟨rfl, -⟩ := edgeLabel_cut hf hg (List.append_cancel_left (List.cons.inj hlabel).2)
      rfl
    | node => simp [body_node, body_edge] at h
    | box => cases hletter
    | pointer => cases hletter
  | box k colour marking =>
    cases g with
    | box k' colour' marking' =>
      obtain rfl : k = k' := hnumber
      rw [body_box, body_box] at h
      obtain ⟨rfl, hmarking⟩ := colour_cut hf hg (List.append_cancel_left h)
      have hmarking := List.append_cancel_left (List.append_cancel_left (List.append_cancel_left hmarking))
      obtain ⟨rfl, -⟩ := decimal_cut (by decide) (by decide) hmarking
      rfl
    | pointer => simp [body_box, body_pointer] at h
    | node => cases hletter
    | edge => cases hletter
  | pointer k colour target s =>
    cases g with
    | pointer k' colour' target' t =>
      obtain rfl : k = k' := hnumber
      rw [body_pointer, body_pointer] at h
      obtain ⟨rfl, hcolour⟩ := decimal_cut (by decide) (by decide) (List.append_cancel_left h)
      obtain ⟨rfl, hlabel⟩ := colour_cut hf.1 hg.1 (List.append_cancel_left (List.cons.inj hcolour).2)
      obtain ⟨rfl, -⟩ := edgeLabel_cut hf.2 hg.2 (List.append_cancel_left hlabel)
      rfl
    | box => simp [body_box, body_pointer] at h
    | node => cases hletter
    | edge => cases hletter

/-- Different parts have different lines. -/
theorem line_inj (hf : f.Legible i) (hg : g.Legible i) (h : f.line = g.line) : f = g := by
  obtain ⟨hletter, hnumber, hbody⟩ := (opens_line f).inj (h ▸ opens_line g)
  exact body_inj hf hg hletter hnumber hbody

/-! ### No breaks -/

theorem count_decimal (n : ℕ) : (decimal n).count '\n' = 0 :=
  List.count_eq_zero.2 fun h => absurd (isDigit_of_mem_decimal h) (by decide)

theorem count_rankLabel (r : Option ℕ) : (rankLabel r).toList.count '\n' = 0 := by
  cases r with
  | none => rfl
  | some k => rw [rankLabel_some, List.count_cons_of_ne (by decide), count_decimal]

theorem count_render (n : Node) : n.render.toList.count '\n' = 0 := by
  rw [Node.render_toList, List.count_cons_of_ne (by decide), List.count_append, count_decimal, generationMark]
  split_ifs
  · rfl
  · rw [List.count_cons_of_ne (by decide), count_decimal]

theorem count_edgeLabel (s : Sign) : s.edgeLabel.toList.count '\n' = 0 := by cases s <;> decide

theorem count_colour (h : a ∈ highlightColours) : a.toList.count '\n' = 0 := by
  have hcount : ∀ colour ∈ highlightColours, colour.toList.count '\n' = 0 := by decide
  exact hcount a h

theorem newline_notMem_line (hf : f.Legible i) : '\n' ∉ f.line.toList := by
  rw [← List.count_eq_zero, opens_line f]
  cases f with
  | node p r =>
    simp only [letter, number, body_node, List.count_cons, List.count_append, count_decimal,
      count_rankLabel, count_render]
    decide
  | edge j target s =>
    simp only [letter, number, body_edge, List.count_cons, List.count_append, count_decimal, count_edgeLabel]
    decide
  | box k colour marking =>
    simp only [letter, number, body_box, List.count_cons, List.count_append, count_decimal, count_colour hf]
    decide
  | pointer k colour target s =>
    simp only [letter, number, body_pointer, List.count_cons, List.count_append, count_decimal, count_colour hf.1,
      count_edgeLabel]
    decide

end Figure

end PowerTower
