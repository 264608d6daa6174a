import Mathlib
import PowerTower.Proofs.Doubling

/-!
# Ranks of successors

An exponent is a signed sum, and small numbers can be written with large powers: one is four less two less one. The
exponents of reduced nodes are not written so. The exponent of a node is less than the node is worth, and a power above
it would not be made up for by the powers below, unless with the one that is the node itself.

* `Graded.rank_lt_of_below` : the successors of a reduced node stand at lower ranks;
* `Graded.sorted_order` : so the reduced order can be read from the bottom up;
* `Graded.eq_first` : only the first reduced node has no successors;
* `successors_stand_at_lower_ranks` : all of these, for a well-formed circuit.
-/

namespace PowerTower.Circuit

open Traversal

variable {c : Circuit} {m n u : Node} {r s : ℕ}

theorem Graded.rank_lt_of_below (hg : c.Graded) (hl : c.Linked) (hr : c.order[r]? = some n) (hs : c.order[s]? = some m)
    (hb : c.Below m n) : s < r := by
  have hworth : c.worth m < c.worth n := hg.worth_lt_of_below hl (hl.reduced_of_getElem? hr) hb
  by_contra hle
  exact (hg.worth_le hr hs (not_lt.1 hle)).not_gt hworth

/-- Whatever node of the order comes next, its successors are among those before it. By induction on the number of nodes
that have been read. -/
theorem Graded.sorted_take (hg : c.Graded) (hl : c.Linked) (k : ℕ) (hk : k ≤ c.order.size) :
    Sorted c.successorNodes (c.order.toList.take k) := by
  induction k with
  | zero => exact .nil
  | succ k ih =>
    have hn : c.order[k]? = some c.order[k] := Array.getElem?_eq_getElem hk
    have hmem : ∀ m, m ∈ c.order.toList.take k ↔ ∃ s : ℕ, s < k ∧ c.order[s]? = some m := fun m => by
      simp only [List.mem_iff_getElem?, List.getElem?_take, Array.getElem?_toList]
      refine exists_congr fun s => ?_
      split_ifs with hs <;> simp [hs]
    rw [List.take_add_one, Array.getElem?_toList, hn, Option.toList_some]
    refine .snoc (ih (Nat.le_of_succ_le hk)) (fun hin => ?_) fun m hm => (hmem m).2 ?_
    · obtain ⟨s, hs, heq⟩ := (hmem _).1 hin
      exact hs.ne (hl.rank_unique heq hn)
    · obtain ⟨s, hs⟩ := hl.exists_getElem? (hl.closed _ (hl.reduced_of_getElem? hn) m hm)
      exact ⟨s, hg.rank_lt_of_below hl hn hs hm, hs⟩

theorem Graded.sorted_order (hg : c.Graded) (hl : c.Linked) : Sorted c.successorNodes c.order.toList := by
  have h := hg.sorted_take hl c.order.size le_rfl
  rwa [List.take_of_length_le (by simp)] at h

/-- Without successors a node is worth one, and no two reduced nodes are worth the same. -/
theorem Graded.eq_first (hg : c.Graded) (hl : c.Linked) (h0 : c.order[0]? = some u) (hn : c.Reduced n)
    (hnil : c.successors n = []) : n = u :=
  hg.eq_of_worth_eq hl hn (hl.reduced_of_getElem? h0)
    ((worth_of_successors_eq_nil hnil).trans (hg.worth_first hl h0).symm)

/-- The successors of a reduced node stand at lower ranks, so that the reduced nodes in their order come each after its
successors. The node of rank zero is worth one, and no other reduced node is without successors. -/
theorem successors_stand_at_lower_ranks (h : c.WellFormed) :
    (∀ (r s : ℕ) (m n : Node), c.order[r]? = some n → c.order[s]? = some m → c.Below m n → s < r) ∧
    Sorted c.successorNodes c.order.toList ∧
    (c.order.size ≠ 0 → ∃ u, c.order[0]? = some u ∧ c.successors u = [] ∧ c.worth u = 1 ∧
      ∀ n, c.Reduced n → c.successors n = [] → n = u) := by
  refine ⟨fun r s m n hr hs hb => h.rank_lt_of_below h.toLinked hr hs hb, h.sorted_order h.toLinked, fun hsize => ?_⟩
  have h0 := Array.getElem?_eq_getElem (Nat.pos_of_ne_zero hsize)
  exact ⟨_, h0, h.successors_first h.toLinked h0, h.worth_first h.toLinked h0,
    fun n hn hnil => h.eq_first h.toLinked h0 hn hnil⟩

/-- Eight is at rank two, and its exponent mentions the ranks zero and one. -/
theorem ranks_below_eight : withoutFour.WellFormed ∧ withoutFour.order.size ≠ 0 ∧
    withoutFour.Below ⟨⟨0⟩, 1, 0⟩ ⟨⟨0⟩, 2, 0⟩ ∧ 1 < 2 ∧ Sorted withoutFour.successorNodes withoutFour.order.toList ∧
    withoutFour.worth ⟨⟨0⟩, 0, 0⟩ = 1 := by
  obtain ⟨hlt, hsorted, hfirst⟩ := successors_stand_at_lower_ranks wellFormed_withoutFour
  have hbelow : withoutFour.Below ⟨⟨0⟩, 1, 0⟩ ⟨⟨0⟩, 2, 0⟩ := by decide
  obtain ⟨u, hu, -, hone, -⟩ := hfirst (by decide)
  obtain rfl : (⟨⟨0⟩, 0, 0⟩ : Node) = u := Option.some.inj hu
  exact ⟨wellFormed_withoutFour, by decide, hbelow, hlt 2 1 _ _ rfl rfl hbelow, hsorted, hone⟩

end PowerTower.Circuit
