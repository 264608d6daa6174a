import Std.Data.HashSet

/-!
# Walking a graph

Graphs are given by the list of the successors of a node, `next`, and walks are confined to a finite set.

* `discover` : the nodes of `unseen` that are reached from a stack, in the order of their discovery;
* `dependencyOrder` : an order of `roots` in which a node comes after its successors, or else the first
  obstacle: a successor outside the roots, or a node on a cycle;
* `orderWithin` : the same where successors outside the roots are let in as long as they are in a given list.
-/

namespace PowerTower.Traversal

variable {α : Type} [DecidableEq α] [Hashable α]

theorem size_erase_lt {s : Std.HashSet α} {n : α} (h : n ∈ s) : (s.erase n).size < s.size := by
  have hs : s.size ≠ 0 := by
    intro h0
    have he : s.isEmpty = true := by simp [Std.HashSet.isEmpty_eq_size_eq_zero, h0]
    have := Std.HashSet.isEmpty_eq_false_iff_exists_mem.2 ⟨n, h⟩
    simp_all
  have := Std.HashSet.size_erase (m := s) (k := n)
  simp only [h, ↓reduceIte] at this
  omega

/-- The nodes of `unseen` that are reached from `stack` through nodes of `unseen`, in preorder. -/
def discover (next : α → List α) (unseen : Std.HashSet α) : List α → List α
  | [] => []
  | n :: rest =>
    if n ∈ unseen then n :: discover next (unseen.erase n) (next n ++ rest)
    else discover next unseen rest
termination_by stack => (unseen.size, stack.length)
decreasing_by
  · exact Prod.Lex.left _ _ (size_erase_lt (by assumption))
  · exact Prod.Lex.right _ (by simp)

/-- What keeps a set of nodes from being put in order. -/
inductive Obstacle (α : Type) where
  /-- A node that others depend on and that is not in the set. -/
  | outside (node : α)
  /-- A node on a cycle. -/
  | cycle (node : α)
deriving Repr, DecidableEq

/-- The nodes put in order so far. -/
structure Progress (α : Type) [DecidableEq α] [Hashable α] where
  finished : Std.HashSet α := {}
  /-- The finished nodes in order. -/
  sorted : Array α := #[]

/-- Adds a node whose successors are all finished. -/
def Progress.finish (p : Progress α) (n : α) : Progress α :=
  { finished := p.finished.insert n, sorted := p.sorted.push n }

/-- How many nodes of a list are not on the path. -/
def offPath (path : List α) : List α → Nat
  | [] => 0
  | m :: ms => (if m ∈ path then 0 else 1) + offPath path ms

omit [Hashable α] in
theorem offPath_cons_le (path : List α) (n : α) (ms : List α) : offPath (n :: path) ms ≤ offPath path ms := by
  induction ms with
  | nil => simp [offPath]
  | cons m ms ih =>
    by_cases h : m ∈ path
    · simpa [offPath, h] using ih
    · simp only [offPath, h, List.mem_cons]
      split <;> simp <;> omega

omit [Hashable α] in
theorem offPath_cons_lt {path ms : List α} {n : α} (hm : n ∈ ms) (hp : n ∉ path) :
    offPath (n :: path) ms < offPath path ms := by
  induction ms with
  | nil => simp at hm
  | cons m ms ih =>
    by_cases h : m = n
    · subst h
      have := offPath_cons_le path m ms
      simp only [offPath, List.mem_cons, hp]
      simp
      omega
    · have hlt := ih (by simpa [Ne.symm h] using hm)
      simp only [offPath, List.mem_cons, h, false_or]
      omega

/-- Puts the nodes of a list in order, each after its successors. `path` leads from a root to the list, and no
node outside `members` is let in. -/
def settle (next : α → List α) (members : Std.HashSet α) (path : List α) (progress : Progress α) :
    List α → Except (Obstacle α) (Progress α)
  | [] => .ok progress
  | n :: rest =>
    if n ∈ progress.finished then settle next members path progress rest
    else if n ∈ members then
      if n ∈ path then .error (.cycle n)
      else
        match settle next members (n :: path) progress (next n) with
        | .error e => .error e
        | .ok progress => settle next members path (progress.finish n) rest
    else .error (.outside n)
termination_by l => (offPath path members.toList, l.length)
decreasing_by
  · exact Prod.Lex.right _ (by simp)
  · exact Prod.Lex.left _ _ (offPath_cons_lt (Std.HashSet.mem_toList.2 (by assumption)) (by assumption))
  · exact Prod.Lex.right _ (by simp)

/-- The roots and what they depend on, each once and each after its successors, where no node outside `members`
is let in. -/
def orderWithin (next : α → List α) (members roots : List α) : Except (Obstacle α) (List α) :=
  match settle next (Std.HashSet.ofList members) [] {} roots with
  | .error e => .error e
  | .ok progress => .ok progress.sorted.toList

/-- The roots, each once and each after its successors. -/
def dependencyOrder (next : α → List α) (roots : List α) : Except (Obstacle α) (List α) :=
  orderWithin next roots roots

end PowerTower.Traversal
