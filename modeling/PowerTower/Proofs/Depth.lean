import Mathlib
import PowerTower.Proofs.Traversal
import PowerTower.Proofs.WellFormed

/-!
# Cycles and depth

* `cycle?_eq_none_iff`, `cycle?_eq_some` : the search for a cycle finds one if there is one, and finds nothing else;
* `Within k n` : no walk down from `n` meets more than `k` nodes;
* `Acyclic.within`, `Linked.within` : without a cycle no walk meets more nodes than there are places.
-/

namespace PowerTower.Circuit

open Traversal

variable {c : Circuit} {m n : Node}

/-! ## The search for a cycle -/

theorem mem_mentionedNodes (h : c.Below m n) : m ∈ c.mentionedNodes := by
  unfold Below successorNodes successors slot slotAt at h
  cases hs : c.slots[n.index]? with
  | none => simp [hs] at h
  | some s =>
    rw [hs, Option.getD_some] at h
    exact List.mem_flatMap.2 ⟨s, Array.mem_toList_iff.2 (Array.mem_of_getElem? hs), h⟩

theorem transGen_below_of_step {S : Node → Prop} (h : Relation.TransGen (Step c.successorNodes S) m n) :
    Relation.TransGen c.Below n m :=
  Relation.transGen_swap.1 (Relation.TransGen.mono (fun _ _ hab => hab.2.2) _ _ h)

theorem reflTransGen_below_of_next (h : Relation.ReflTransGen (fun a b => b ∈ c.successorNodes a) m n) :
    Relation.ReflTransGen c.Below n m :=
  Relation.reflTransGen_swap.1 h

theorem acyclic_of_cycle?_eq_none (h : c.cycle? = none) : c.Acyclic := by
  refine acyclic_of_acc fun n hn => ?_
  unfold cycle? at h
  split at h
  · cases h
  · next hnot =>
    cases ho : orderWithin c.successorNodes (c.liveNodeList ++ c.mentionedNodes) c.liveNodeList with
    | ok sorted =>
      obtain ⟨hs, hroots, -⟩ := orderWithin_ok ho
      exact hs.acc (hroots n (mem_liveNodeList.2 hn))
    | error e =>
      cases e with
      | cycle k => exact absurd ho (hnot k)
      | outside k =>
        -- every name that is met is a root or stands in some exponent
        obtain ⟨hk, hroot | ⟨a, -, hka⟩⟩ := orderWithin_outside ho
        · exact absurd (List.mem_append_left _ hroot) hk
        · exact absurd (List.mem_append_right _ (mem_mentionedNodes hka)) hk

/-- Where exponents mention live nodes only, the node that is found lies on a cycle of live nodes. -/
theorem cycle?_eq_some (hl : ∀ n, c.Live n → ∀ m, c.Below m n → c.Live m) (h : c.cycle? = some n) :
    c.Live n ∧ Relation.TransGen c.Below n n := by
  unfold cycle? at h
  split at h
  · next k hk =>
    obtain rfl := Option.some.inj h
    obtain ⟨hc, r, hr, hreach⟩ := orderWithin_cycle hk
    refine ⟨?_, transGen_below_of_step hc⟩
    have hr := mem_liveNodeList.1 hr
    clear hk hc h
    induction hreach with
    | refl => exact hr
    | tail _ hb ih => exact hl _ ih _ hb
  · cases h

theorem cycle?_eq_none_iff (hl : ∀ n, c.Live n → ∀ m, c.Below m n → c.Live m) : c.cycle? = none ↔ c.Acyclic := by
  refine ⟨acyclic_of_cycle?_eq_none, fun h => ?_⟩
  cases hc : c.cycle? with
  | none => rfl
  | some n =>
    obtain ⟨hn, hcycle⟩ := cycle?_eq_some hl hc
    exact absurd hcycle (h n hn)

/-! ## Depth -/

/-- No walk down from a node meets more than so many nodes. -/
def Within (c : Circuit) : ℕ → Node → Prop
  | 0, _ => False
  | k + 1, n => ∀ m, c.Below m n → Within c k m

theorem Within.succ {k : ℕ} (h : c.Within k n) : c.Within (k + 1) n := by
  induction k generalizing n with
  | zero => exact h.elim
  | succ k ih => exact fun m hm => ih (h m hm)

theorem Within.mono {j k : ℕ} (h : c.Within j n) (hjk : j ≤ k) : c.Within k n := by
  induction hjk with
  | refl => exact h
  | step _ ih => exact ih.succ

theorem within_of_sorted {l : List Node} (h : Sorted c.successorNodes l) (hn : n ∈ l) : c.Within l.length n := by
  induction h generalizing n with
  | nil => simp at hn
  | @snoc l k _ _ after ih =>
    rw [List.length_append, List.length_singleton]
    rcases List.mem_append.1 hn with hn | hn
    · exact (ih hn).succ
    · rw [List.mem_singleton.1 hn]
      exact fun m hm => ih (after m hm)

theorem length_liveNodeList_le : c.liveNodeList.length ≤ c.slots.size := by
  rw [liveNodeList, List.length_map, liveIndices]
  exact (List.length_filter_le _ _).trans (by simp)

/-- Without a cycle the nodes can be listed each after its successors, and the list is no longer than the store. -/
theorem Acyclic.within (h : c.Acyclic) (hl : ∀ n, c.Live n → ∀ m, c.Below m n → c.Live m) (hn : c.Live n) :
    c.Within c.slots.size n := by
  have hcycle : ∀ n ∈ c.liveNodeList,
      ¬ Relation.TransGen (Step c.successorNodes (· ∈ c.liveNodeList)) n n := fun n hn hc =>
    h n (mem_liveNodeList.1 hn) (transGen_below_of_step hc)
  obtain ⟨sorted, hs⟩ := exists_orderWithin_ok (fun n (hn : n ∈ c.liveNodeList) => hn)
    (fun n hn m hm => mem_liveNodeList.2 (hl n (mem_liveNodeList.1 hn) m hm)) hcycle
  obtain ⟨hsorted, hroots, hlive⟩ := orderWithin_ok hs
  have hlength : sorted.length ≤ c.slots.size :=
    (List.subperm_of_subset hsorted.nodup hlive).length_le.trans length_liveNodeList_le
  exact (within_of_sorted hsorted (hroots n (mem_liveNodeList.2 hn))).mono hlength

theorem Linked.within (h : c.Linked) (hn : c.Live n) : c.Within c.slots.size n :=
  h.acyclic.within (fun _ hn _ hm => h.live_of_below hn hm) hn

end PowerTower.Circuit
