import Mathlib
import PowerTower.Proofs.Numeral
import PowerTower.Proofs.WellFormed

/-!
# Comparing by worth

In a graded circuit the worths of the reduced nodes are units in the sense of `Units` wherever the doubling flags are
true, so that reduced term lists are compared by their worth.

`compareTerms_of_flags` asks for true flags only where two neighbouring ranks are both mentioned. Reduction compares
before it has refreshed the flags around a node that is new in the order, and needs it in this form.
-/

namespace PowerTower.Circuit

variable {c : Circuit} {m n : Node} {lhs rhs ts : List Term} {bias : ℤ} {r : ℕ}

/-- The worth of the reduced node of a rank; above the last rank, one. -/
noncomputable def unitAt (c : Circuit) (r : ℕ) : ℝ :=
  match c.order[r]? with
  | some n => c.worth n
  | none => 1

/-- The ranks that a comparison meets. -/
def Mentioned (c : Circuit) (lhs rhs : List Term) (bias : ℤ) (r : ℕ) : Prop :=
  r ∈ (Terms.nodes lhs).map c.rankOf ∨ r ∈ (Terms.nodes rhs).map c.rankOf ∨ bias ≠ 0 ∧ r = 0

theorem unitAt_eq (h : c.order[r]? = some n) : c.unitAt r = c.worth n := by
  simp [unitAt, h]

theorem Linked.unitAt_rankOf (hl : c.Linked) (hn : c.Reduced n) : c.unitAt (c.rankOf n) = c.worth n := by
  obtain ⟨r, hr⟩ := hl.exists_getElem? hn
  rw [rankOf, hl.rank?_of_getElem? hr]
  exact unitAt_eq hr

theorem Linked.rankOf_lt (hl : c.Linked) (hn : c.Reduced n) : c.rankOf n < c.order.size := by
  obtain ⟨r, hr⟩ := hl.exists_getElem? hn
  rw [rankOf, hl.rank?_of_getElem? hr]
  exact (Array.getElem?_eq_some_iff.1 hr).1

theorem Linked.rankOf_inj (hl : c.Linked) (hm : c.Reduced m) (hn : c.Reduced n) (h : c.rankOf m = c.rankOf n) :
    m = n := by
  obtain ⟨i, hi⟩ := hl.exists_getElem? hm
  obtain ⟨j, hj⟩ := hl.exists_getElem? hn
  rw [rankOf, rankOf, hl.rank?_of_getElem? hi, hl.rank?_of_getElem? hj, Option.getD_some, Option.getD_some] at h
  rw [h] at hi
  exact Option.some.inj (hi.symm.trans hj)

theorem Proper.reduced_of_termsReduced (h : c.Proper ts) (hr : c.termsReduced ts = true) :
    ∀ n ∈ Terms.nodes ts, c.Reduced n := by
  intro n hn
  obtain ⟨s, hs⟩ := Terms.mem_nodes.1 hn
  exact ⟨h.live n hn, List.all_eq_true.1 hr (n, s) hs⟩

theorem termsReduced_of_forall (h : ∀ n ∈ Terms.nodes ts, c.Reduced n) : c.termsReduced ts = true :=
  List.all_eq_true.2 fun t ht => (h t.1 (Terms.mem_nodes_of_mem ht)).2

theorem Linked.nodup_rankOf (hl : c.Linked) (h : c.Proper ts) (hr : ∀ n ∈ Terms.nodes ts, c.Reduced n) :
    ((Terms.nodes ts).map c.rankOf).Nodup :=
  h.nodup.map_on fun m hm n hn he => hl.rankOf_inj (hr m hm) (hr n hn) he

theorem Linked.lt_size_of_mentioned (hl : c.Linked) (hlhs : ∀ n ∈ Terms.nodes lhs, c.Reduced n)
    (hrhs : ∀ n ∈ Terms.nodes rhs, c.Reduced n) (h : c.Mentioned lhs rhs bias r) : r = 0 ∨ r < c.order.size := by
  rcases h with h | h | h
  · obtain ⟨n, hn, rfl⟩ := List.mem_map.1 h
    exact .inr (hl.rankOf_lt (hlhs n hn))
  · obtain ⟨n, hn, rfl⟩ := List.mem_map.1 h
    exact .inr (hl.rankOf_lt (hrhs n hn))
  · exact .inl h.2

/-- The worths are units as far as the flags are true. -/
theorem Graded.units (hg : c.Graded) (hl : c.Linked) {R : ℕ → Prop} (hR : ∀ r, R r → r = 0 ∨ r < c.order.size)
    (hf : ∀ r, R r → R (r + 1) → c.FlagTrue r) : c.Units c.unitAt R := by
  -- a rank that another one stands above is that of a reduced node
  have node : ∀ {r}, r < c.order.size → ∃ n, c.order[r]? = some n ∧ c.Legal n := fun {r} h =>
    ⟨c.order[r], Array.getElem?_eq_getElem h, hg.legal _ (hl.reduced_of_getElem? (Array.getElem?_eq_getElem h))⟩
  have size : ∀ {r s}, R s → r < s → s < c.order.size := fun hs hrs => (hR _ hs).resolve_left (by omega)
  refine ⟨fun r hr => ?_, fun r hr hs hd => ?_, fun r s hr hs hrs hd => ?_⟩
  · unfold unitAt
    split
    · next n hn => exact worth_pos (hl.acc (hl.reduced_of_getElem? hn).1)
    · exact one_pos
  · obtain ⟨n, hn, -⟩ := node ((Nat.lt_succ_self r).trans (size hs (Nat.lt_succ_self r)))
    have hflag : (c.slot n).doubles = true := by simpa [doublesAt, hn] using hd
    obtain ⟨m, hm, hw⟩ := (hf r hr hs n hn).1 hflag
    rw [unitAt_eq hm, unitAt_eq hn, hw]
  · obtain ⟨m, hm, hlm⟩ := node (size hs hrs)
    obtain ⟨n, hn, hln⟩ := node (hrs.trans (size hs hrs))
    rw [unitAt_eq hm, unitAt_eq hn]
    refine hln.four_mul_worth_le hlm ?_
    rcases Nat.eq_or_lt_of_le (Nat.succ_le_of_lt hrs) with rfl | hgap
    · have htwo := hln.two_mul_worth_le hlm (hg.worth_lt hn hm hrs)
      refine htwo.lt_of_ne fun he => hd ⟨rfl, ?_⟩
      have hflag := (hf r hr hs n hn).2 ⟨m, hm, he.symm⟩
      simpa [doublesAt, hn] using hflag
    · obtain ⟨k, hk, hlk⟩ := node (hgap.trans (size hs hrs))
      have hone := hln.two_mul_worth_le hlk (hg.worth_lt hn hk (Nat.lt_succ_self r))
      exact hone.trans_lt (hg.worth_lt hk hm hgap)

/-- Reduced lists are compared by their worth, if the flags are true where two neighbouring ranks are mentioned. -/
theorem compareTerms_of_flags (hl : c.Linked) (hg : c.Graded) (hlhs : c.Proper lhs) (hrhs : c.Proper rhs)
    (hlr : ∀ n ∈ Terms.nodes lhs, c.Reduced n) (hrr : ∀ n ∈ Terms.nodes rhs, c.Reduced n) (hb : |bias| ≤ 1)
    (hf : ∀ r, c.Mentioned lhs rhs bias r → c.Mentioned lhs rhs bias (r + 1) → c.FlagTrue r) :
    c.compareTerms lhs rhs bias = .ok (compare (c.termsWorth lhs) (c.termsWorth rhs + bias)) := by
  have hunits := hg.units hl (R := c.Mentioned lhs rhs bias)
    (fun r hr => hl.lt_size_of_mentioned hlr hrr hr) hf
  have hsum : ∀ ts : List Term, (∀ n ∈ Terms.nodes ts, c.Reduced n) →
      Terms.sum (fun n => c.unitAt (c.rankOf n)) ts = c.termsWorth ts :=
    fun ts h => Terms.sum_congr fun n hn => hl.unitAt_rankOf (h n hn)
  have hzero : c.unitAt 0 = 1 := by
    unfold unitAt
    split
    · next n hn => exact hg.worth_first hl hn
    · rfl
  rw [hunits.compareTerms_eq (termsReduced_of_forall hlr) (termsReduced_of_forall hrr) (hl.nodup_rankOf hlhs hlr)
    (hl.nodup_rankOf hrhs hrr) (fun n hn => .inl (List.mem_map_of_mem hn))
    (fun n hn => .inr (.inl (List.mem_map_of_mem hn))) hb (fun h => .inr (.inr ⟨h, rfl⟩)),
    hsum lhs hlr, hsum rhs hrr, hzero, mul_one]

theorem Consistent.compareTerms_eq (h : c.Consistent) (hlhs : c.Proper lhs) (hrhs : c.Proper rhs)
    (hlr : ∀ n ∈ Terms.nodes lhs, c.Reduced n) (hrr : ∀ n ∈ Terms.nodes rhs, c.Reduced n) (hb : |bias| ≤ 1) :
    c.compareTerms lhs rhs bias = .ok (compare (c.termsWorth lhs) (c.termsWorth rhs + bias)) :=
  compareTerms_of_flags h.toLinked h.toGraded hlhs hrhs hlr hrr hb fun r _ _ => h.flags r

end PowerTower.Circuit
