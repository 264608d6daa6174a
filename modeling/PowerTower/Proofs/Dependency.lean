import Mathlib
import PowerTower.Proofs.Making

/-!
# The order of a frontier

Exponents may lead around in a circle where a circuit does not look out for that. Even so, what `dependencyOrder`
answers to a list of pending nodes depends on the graph alone.

* `OnCycle` : a node of a set that leads back to itself through the set;
* `Ordered` : the orders of a frontier in which nothing stands before what it depends on;
* `OrderAnswer`, `orderAnswer_dependencyOrder` : the three answers, and that there is no other;
* `OrderAnswer.exists_ok_iff` : which frontiers are put in order;
* `reduce_of_onCycle` : a reduction of all pending nodes is refused if some of them form a cycle.
-/

namespace PowerTower.Circuit

open Traversal

variable {c : Circuit} {frontier sorted : List Node} {m n : Node} {S : Node → Prop}
  {x : Except CircuitError (List Node)}

/-! ## Cycles -/

/-- A walk through the nodes of a set leads from the node back to itself. -/
def OnCycle (c : Circuit) (S : Node → Prop) (n : Node) : Prop := Relation.TransGen (Step c.successorNodes S) n n

theorem OnCycle.mem (h : c.OnCycle S n) : S n := by
  rcases Relation.TransGen.head'_iff.1 h with ⟨k, hstep, -⟩
  exact hstep.1

/-- Among pending nodes only the pending successors lead on. -/
theorem step_pendingSuccessors_iff (hS : ∀ n, S n → c.Pending n) :
    Step c.pendingSuccessors S m n ↔ Step c.successorNodes S m n := by
  refine and_congr_right fun _ => and_congr_right fun hn => ?_
  rw [mem_pendingSuccessors]
  apply and_iff_left
  rw [isReducedNode, (hS n hn).2]
  rfl

theorem onCycle_iff (hS : ∀ n, S n → c.Pending n) :
    c.OnCycle S n ↔ Relation.TransGen (Step c.pendingSuccessors S) n n := by
  have hsteps : Step c.pendingSuccessors S = Step c.successorNodes S := by
    funext a b
    exact propext (step_pendingSuccessors_iff hS)
  rw [OnCycle, hsteps]

/-! ## The answers -/

/-- Each node of the frontier stands once, after the pending nodes in its exponent. -/
structure Ordered (c : Circuit) (frontier sorted : List Node) : Prop where
  nodup : sorted.Nodup
  mem : ∀ n, n ∈ sorted ↔ n ∈ frontier
  after : ∀ l n r, sorted = l ++ n :: r → ∀ m, c.Below m n → c.Pending m → m ∈ l

/-- What is answered to a list of pending nodes. -/
inductive OrderAnswer (c : Circuit) (frontier : List Node) : Except CircuitError (List Node) → Prop
  /-- The list is closed and without cycles, and it is put in order. -/
  | ordered {sorted : List Node} (closed : c.Closed frontier) (no_cycle : ∀ n, ¬ c.OnCycle (· ∈ frontier) n)
    (ordered : c.Ordered frontier sorted) : OrderAnswer c frontier (.ok sorted)
  /-- A listed node depends on a pending node that is not listed. -/
  | outside {n p : Node} (pending : c.Pending n) (unlisted : n ∉ frontier) (listed : p ∈ frontier)
      (below : c.Below n p) :
    OrderAnswer c frontier (.error (.outsideFrontier n))
  /-- A listed node depends on itself, through listed nodes. -/
  | cycle {n : Node} (cycle : c.OnCycle (· ∈ frontier) n) : OrderAnswer c frontier (.error (.cycleDetected n))

theorem ordered_of_dependencyOrder (h : c.dependencyOrder frontier = .ok sorted) : c.Ordered frontier sorted := by
  obtain ⟨hsorted, hmem⟩ := sorted_of_dependencyOrder h
  refine ⟨hsorted.nodup, hmem, ?_⟩
  rintro l n r rfl m hbelow hpending
  apply hsorted.mem_left
  apply mem_pendingSuccessors.2
  exact ⟨hbelow, by simp [isReducedNode, hpending.2]⟩

/-- No cycle goes through a list that is put in order. -/
theorem not_onCycle_of_dependencyOrder (hpending : ∀ n ∈ frontier, c.Pending n)
    (h : c.dependencyOrder frontier = .ok sorted) : ¬ c.OnCycle (· ∈ frontier) n := by
  intro hcycle
  obtain ⟨hsorted, hmem⟩ := sorted_of_dependencyOrder h
  have hacc := hsorted.acc ((hmem n).2 hcycle.mem)
  apply not_transGen_of_acc hacc
  have hsteps := (onCycle_iff hpending).1 hcycle
  exact Relation.transGen_swap.1 (Relation.TransGen.mono (fun _ _ hab => hab.2.2) _ _ hsteps)

/-- Whatever the graph of live nodes is, the answer is one of the three. -/
theorem orderAnswer_dependencyOrder (hentries : ∀ n, c.Live n → ∀ m, c.Below m n → c.Live m)
    (hpending : ∀ n ∈ frontier, c.Pending n) : OrderAnswer c frontier (c.dependencyOrder frontier) := by
  cases ho : Traversal.dependencyOrder c.pendingSuccessors frontier with
  | ok sorted =>
    have hok : c.dependencyOrder frontier = .ok sorted := by rw [dependencyOrder, ho]
    rw [hok]
    exact .ordered (closed_of_dependencyOrder hpending hok) (fun n => not_onCycle_of_dependencyOrder hpending hok)
      (ordered_of_dependencyOrder hok)
  | error obstacle =>
    cases obstacle with
    | outside n =>
      have herror : c.dependencyOrder frontier = .error (.outsideFrontier n) := by rw [dependencyOrder, ho]
      rw [herror]
      obtain ⟨hunlisted, hroot | ⟨p, hp, hn⟩⟩ := orderWithin_outside ho
      · exact absurd hroot hunlisted
      · obtain ⟨hbelow, hnot⟩ := mem_pendingSuccessors.1 hn
        have hlive : c.Live n := hentries p (hpending p hp).1 n hbelow
        exact .outside ⟨hlive, by simpa [isReducedNode] using hnot⟩ hunlisted hp hbelow
    | cycle n =>
      have herror : c.dependencyOrder frontier = .error (.cycleDetected n) := by rw [dependencyOrder, ho]
      rw [herror]
      obtain ⟨hcycle, -⟩ := orderWithin_cycle ho
      exact .cycle ((onCycle_iff hpending).2 hcycle)

/-- A list of pending nodes is put in order exactly if it is closed and no cycle goes through it. -/
theorem OrderAnswer.exists_ok_iff (h : OrderAnswer c frontier x) :
    (∃ sorted, x = .ok sorted) ↔ c.Closed frontier ∧ ∀ n, ¬ c.OnCycle (· ∈ frontier) n := by
  cases h with
  | @ordered sorted closed no_cycle _ => exact ⟨fun _ => ⟨closed, no_cycle⟩, fun _ => ⟨sorted, rfl⟩⟩
  | outside pending unlisted listed below =>
    constructor
    · rintro ⟨sorted, hs⟩
      cases hs
    · rintro ⟨hclosed, -⟩
      exact absurd (hclosed.below _ listed _ below pending) unlisted
  | cycle cycle =>
    constructor
    · rintro ⟨sorted, hs⟩
      cases hs
    · rintro ⟨-, hno⟩
      exact absurd cycle (hno _)

/-! ## All pending nodes -/

/-- If there is a cycle of pending nodes, then a reduction of all of them names one on a cycle, and changes nothing. -/
theorem reduce_of_onCycle (hentries : ∀ n, c.Live n → ∀ m, c.Below m n → c.Live m) (hn : c.OnCycle c.Pending n) :
    ∃ k, c.OnCycle c.Pending k ∧ reduce.run c = (.error (.cycleDetected k), c) := by
  have hanswer := orderAnswer_dependencyOrder hentries (closed_pendingNodes (c := c)).pending
  generalize ho : c.dependencyOrder c.pendingNodes = x at hanswer
  cases hanswer with
  | ordered _ no_cycle _ =>
    rw [← mem_pendingNodes_eq] at hn
    exact absurd hn (no_cycle n)
  | outside pending unlisted _ _ => exact absurd (mem_pendingNodes.2 pending) unlisted
  | @cycle k cycle =>
    rw [mem_pendingNodes_eq] at cycle
    have hrun : reduce.run c = (runReduce c.pendingNodes).run c := rfl
    exact ⟨k, cycle, hrun.trans (runReduce_of_refused ho)⟩

/-- In any circuit whose live nodes mention live nodes, a list of pending nodes is put in order if and only if it is
closed and no cycle goes through it, and then each node comes once and after what it depends on. Otherwise the answer
names a pending node that is missing, or one on a cycle. So a reduction of all pending nodes is refused where some of
them form a cycle. -/
theorem dependencyOrder_is_exact (hentries : ∀ n, c.Live n → ∀ m, c.Below m n → c.Live m) :
    (∀ frontier, (∀ n ∈ frontier, c.Pending n) →
      ((∃ sorted, c.dependencyOrder frontier = .ok sorted) ↔
        c.Closed frontier ∧ ∀ n, ¬ c.OnCycle (· ∈ frontier) n) ∧
      OrderAnswer c frontier (c.dependencyOrder frontier)) ∧
    ((∃ n, c.OnCycle c.Pending n) →
      ∃ k, c.OnCycle c.Pending k ∧ reduce.run c = (.error (.cycleDetected k), c)) := by
  constructor
  · intro frontier hpending
    have hanswer := orderAnswer_dependencyOrder hentries hpending
    exact ⟨hanswer.exists_ok_iff, hanswer⟩
  · rintro ⟨n, hn⟩
    exact reduce_of_onCycle hentries hn

/-- The number one, its double, and two pending nodes that stand in each other's exponents. -/
def roundTrip : Circuit :=
  let c := ({ onlyUnit with config := .unchecked }.alloc [(⟨⟨0⟩, 0, 0⟩, .plus)]).2
  let c := (c.alloc [(⟨⟨0⟩, 3, 0⟩, .plus), (⟨⟨0⟩, 1, 0⟩, .plus)]).2
  (c.alloc [(⟨⟨0⟩, 2, 0⟩, .minus)]).2

theorem live_of_below_roundTrip : ∀ n, roundTrip.Live n → ∀ m, roundTrip.Below m n → roundTrip.Live m := by
  have hplaces : ∀ i < roundTrip.slots.size, ∀ m ∈ roundTrip.successorNodes (roundTrip.nodeAt i), roundTrip.Live m := by
    decide
  exact forall_live hplaces

/-- The two nodes form a cycle of any set that they are in. -/
theorem onCycle_roundTrip (hfirst : S ⟨⟨0⟩, 2, 0⟩) (hsecond : S ⟨⟨0⟩, 3, 0⟩) : roundTrip.OnCycle S ⟨⟨0⟩, 2, 0⟩ :=
  .tail (.single ⟨hfirst, hsecond, by decide⟩) ⟨hsecond, hfirst, by decide⟩

/-- The double is put in order, also where it is listed twice. The two nodes are not, neither alone nor together, and
while they are there no reduction of all nodes gets through. -/
theorem reduce_roundTrip : (∀ n, roundTrip.Live n → ∀ m, roundTrip.Below m n → roundTrip.Live m) ∧
    (∃ sorted, roundTrip.dependencyOrder [⟨⟨0⟩, 1, 0⟩, ⟨⟨0⟩, 1, 0⟩] = .ok sorted) ∧
    (¬ ∃ sorted, roundTrip.dependencyOrder [⟨⟨0⟩, 2, 0⟩, ⟨⟨0⟩, 1, 0⟩] = .ok sorted) ∧
    (¬ ∃ sorted, roundTrip.dependencyOrder [⟨⟨0⟩, 2, 0⟩, ⟨⟨0⟩, 3, 0⟩, ⟨⟨0⟩, 2, 0⟩, ⟨⟨0⟩, 1, 0⟩] = .ok sorted) ∧
    ∃ k, roundTrip.OnCycle roundTrip.Pending k ∧ reduce.run roundTrip = (.error (.cycleDetected k), roundTrip) := by
  obtain ⟨hanswers, hreduce⟩ := dependencyOrder_is_exact live_of_below_roundTrip
  refine ⟨live_of_below_roundTrip, ?_, ?_, ?_, hreduce ⟨_, onCycle_roundTrip (by decide) (by decide)⟩⟩
  · have hpending : ∀ n ∈ [⟨⟨0⟩, 1, 0⟩, ⟨⟨0⟩, 1, 0⟩], roundTrip.Pending n := by decide
    -- the only node in the exponent is the unit, which is reduced
    have hbelow : ∀ n ∈ [⟨⟨0⟩, 1, 0⟩, ⟨⟨0⟩, 1, 0⟩], ∀ m ∈ roundTrip.successorNodes n, ¬ roundTrip.Pending m := by decide
    refine (hanswers _ hpending).1.2 ⟨⟨hpending, fun n hn m hm hp => absurd hp (hbelow n hn m hm)⟩, fun n hcycle => ?_⟩
    rcases Relation.TransGen.head'_iff.1 hcycle with ⟨k, ⟨hn, hk, hstep⟩, -⟩
    exact hbelow n hn k hstep (hpending k hk)
  · intro hok
    obtain ⟨hclosed, -⟩ := (hanswers _ (by decide)).1.1 hok
    have hlisted := hclosed.below ⟨⟨0⟩, 2, 0⟩ (by decide) ⟨⟨0⟩, 3, 0⟩ (by decide) (by decide)
    exact absurd hlisted (by decide)
  · intro hok
    obtain ⟨-, hno⟩ := (hanswers _ (by decide)).1.1 hok
    exact hno ⟨⟨0⟩, 2, 0⟩ (onCycle_roundTrip (by decide) (by decide))

end PowerTower.Circuit
