import Mathlib
import PowerTower.Proofs.Doubling
import PowerTower.Proofs.Incrementing

/-!
# The smallest node

Signed digits write one number in several ways, but all of them begin at the same place: the least power of two that is
mentioned divides the number, and twice that power does not.

* `Terms.Powers.exists_sum_eq_mul_odd` : a sum of distinct powers is an odd multiple of the least of them;
* `dividingPowers`, `isGreatest_dividingPowers` : the powers of two that divide an integer, and the greatest of them;
* `exists_lowest` : the node of a list that has the least rank;
* `TwoPart`, `WellFormed.twoPart` : what the smallest node of a reduced marking is worth;
* `smallestNode_is_two_part` : so it depends only on what the marking is worth.
-/

namespace PowerTower

namespace Terms

variable {w : Node → ℝ} {a : Node → ℕ} {n : Node} {ts : List Term}

/-- The least power stands once, and all others are multiples of twice that power. -/
theorem Powers.exists_sum_eq_mul_odd (h : Powers w a ts) (hn : n ∈ nodes ts) (hmin : ∀ m ∈ nodes ts, a n ≤ a m) :
    ∃ z : ℤ, sum w ts = 2 ^ a n * (2 * z + 1 : ℤ) := by
  obtain ⟨s, hs⟩ := mem_nodes.1 hn
  have hsub := erase_sublist n ts
  have hrest : ∀ m ∈ nodes (erase n ts), a n + 1 ≤ a m := fun m hm => by
    have hm' : m ∈ nodes ts := (hsub.map _).subset hm
    refine (hmin m hm').lt_of_ne fun heq => ?_
    exact h.not_mem_erase (h.distinct n hn m hm' heq ▸ hm)
  obtain ⟨z, hz⟩ := exists_sum_eq_mul (h.sublist hsub).worth hrest
  have hsum : sum w ts = 2 ^ (a n + 1) * z + s.toInt * 2 ^ a n := by
    rw [← hz, sum_erase (digit?_eq_some_of_mem h.nodup hs), h.worth n hn]
    ring
  have hnonzero : s ≠ .zero := h.nonzero _ hs
  cases s with
  | minus =>
    refine ⟨z - 1, hsum.trans ?_⟩
    simp only [Sign.toInt]
    push_cast
    ring
  | zero => exact absurd rfl hnonzero
  | plus =>
    refine ⟨z, hsum.trans ?_⟩
    simp only [Sign.toInt]
    push_cast
    ring

end Terms

/-- The powers of two that divide an integer. -/
def dividingPowers (v : ℤ) : Set ℝ := {p | ∃ k : ℕ, (2 : ℤ) ^ k ∣ v ∧ p = (2 ^ k : ℤ)}

/-- Of an odd multiple of a power of two that power is the greatest that divides it. -/
theorem isGreatest_dividingPowers (e : ℕ) (z : ℤ) : IsGreatest (dividingPowers (2 ^ e * (2 * z + 1))) (2 ^ e) := by
  refine ⟨⟨e, dvd_mul_right _ _, by norm_cast⟩, ?_⟩
  rintro _ ⟨k, hk, rfl⟩
  push_cast
  refine pow_le_pow_right₀ (by norm_num) (not_lt.1 fun hlt => ?_)
  have hdvd : (2 : ℤ) ^ e * 2 ∣ 2 ^ e * (2 * z + 1) := (pow_succ (2 : ℤ) e ▸ pow_dvd_pow 2 hlt).trans hk
  have htwo := (mul_dvd_mul_iff_left (by positivity : (2 : ℤ) ^ e ≠ 0)).1 hdvd
  omega

namespace Circuit

variable {c : Circuit} {a b m : Marking} {k n : Node} {ts : List Term} {v : ℤ}

/-! ## The node of least rank -/

theorem exists_lowest (hne : ts ≠ []) :
    ∃ n ∈ Terms.nodes ts, c.lowest ts = some n ∧ ∀ m ∈ Terms.nodes ts, c.rankOf n ≤ c.rankOf m := by
  induction ts with
  | nil => exact absurd rfl hne
  | cons t ts ih =>
    obtain ⟨n, s⟩ := t
    by_cases hts : ts = []
    · subst hts
      exact ⟨n, by simp, rfl, by simp⟩
    · obtain ⟨m, hm, hlow, hmin⟩ := ih hts
      rw [lowest, hlow]
      by_cases hlt : c.rankOf m < c.rankOf n
      · refine ⟨m, by simp [hm], if_pos hlt, List.forall_mem_cons.2 ⟨hlt.le, hmin⟩⟩
      · refine ⟨n, by simp, if_neg hlt, List.forall_mem_cons.2 ⟨le_rfl, fun k hk => ?_⟩⟩
        exact (not_lt.1 hlt).trans (hmin k hk)

/-- What has the least rank has the least exponent. -/
theorem WellFormed.exponentOf_le (h : c.WellFormed) (hk : c.Reduced k) (hn : c.Reduced n)
    (hle : c.rankOf n ≤ c.rankOf k) : c.exponentOf n ≤ c.exponentOf k := by
  have hworth : ¬ c.worth k < c.worth n := (h.grounded.rankOf_lt_iff hk hn).not.1 hle.not_gt
  exact not_lt.1 (((h.legal k hk).exponentOf_lt_iff (h.legal n hn)).not.2 hworth)

/-! ## Answers -/

theorem smallestNode_eq_error_iff (hlive : m.circuit = c.id → ∀ n ∈ c.nodesOf m, c.Live n) :
    c.smallestNode m = .error .notReduced ↔ m.circuit = c.id ∧ ∃ n ∈ c.nodesOf m, c.Pending n := by
  by_cases hown : m.circuit = c.id
  · rw [smallestNode, checkMarking_eq_ok_iff.2 hown, and_iff_right hown]
    cases hr : c.termsReduced (c.termsOf m) with
    | true =>
      apply iff_of_false
      · rintro ⟨⟩
      · rintro ⟨n, hn, hp⟩
        obtain ⟨s, hs⟩ := Terms.mem_nodes.1 hn
        exact hp.not_reduced ⟨hp.1, List.all_eq_true.1 hr (n, s) hs⟩
    | false =>
      refine iff_of_true rfl ?_
      obtain ⟨t, ht, hpending⟩ := List.all_eq_false.1 hr
      have hmem := Terms.mem_nodes_of_mem ht
      exact ⟨t.1, hmem, hlive hown t.1 hmem, by simpa [isReducedNode] using hpending⟩
  · rw [smallestNode, checkMarking, if_neg hown]
    apply iff_of_false
    · rintro ⟨⟩
    · rintro ⟨h, -⟩
      exact hown h

/-- The smallest node of a marking, which is worth the greatest power of two that divides an integer. -/
structure TwoPart (c : Circuit) (m : Marking) (v : ℤ) (n : Node) : Prop where
  answer : c.smallestNode m = .ok (some n)
  mem : n ∈ c.nodesOf m
  greatest : IsGreatest (dividingPowers v) (c.worth n)
  /-- No other reduced node is worth that power. -/
  unique : ∀ k, c.Reduced k → IsGreatest (dividingPowers v) (c.worth k) → k = n

theorem WellFormed.twoPart (h : c.WellFormed) (hm : c.Solid m) (hne : c.termsOf m ≠ [])
    (hv : c.termsWorth (c.termsOf m) = v) : ∃ n, TwoPart c m v n := by
  obtain ⟨n, hn, hlow, hmin⟩ := exists_lowest hne
  have hr := hm.reduced n hn
  have hpowers := h.powers h.toLinked (h.markings m.id hm.held) hm.reduced
  obtain ⟨z, hz⟩ := hpowers.exists_sum_eq_mul_odd hn fun k hk => h.exponentOf_le (hm.reduced k hk) hr (hmin k hk)
  obtain rfl : v = 2 ^ c.exponentOf n * (2 * z + 1) := by
    have hreal : (v : ℝ) = 2 ^ c.exponentOf n * (2 * z + 1 : ℤ) := hv.symm.trans hz
    exact_mod_cast hreal
  have hgreatest := isGreatest_dividingPowers (c.exponentOf n) z
  rw [← (h.legal n hr).worth_eq] at hgreatest
  exact ⟨n, (smallestNode_of_reduced (checkMarking_eq_ok_iff.2 hm.own) hm.reduced).trans
    (congrArg _ hlow), hn, hgreatest,
    fun k hk hg => h.eq_of_worth_eq h.toLinked hk hr (hg.unique hgreatest)⟩

/-- A reduced marking is worth nothing if and only if it has no entries. -/
theorem WellFormed.worth_eq_zero_iff (h : c.WellFormed) (hm : c.Solid m) :
    c.termsWorth (c.termsOf m) = 0 ↔ c.termsOf m = [] := by
  constructor
  · intro hzero
    by_contra hne
    exact (h.powers h.toLinked (h.markings m.id hm.held) hm.reduced).sum_ne_zero hne hzero
  · intro hnil
    rw [hnil]
    rfl

/-- What a reduced marking is worth decides which node is its smallest. -/
theorem WellFormed.smallestNode_congr (h : c.WellFormed) (ha : c.Solid a) (hb : c.Solid b)
    (heq : c.termsWorth (c.termsOf a) = c.termsWorth (c.termsOf b)) : c.smallestNode a = c.smallestNode b := by
  by_cases hnil : c.termsOf a = []
  · have hnil' : c.termsOf b = [] := (h.worth_eq_zero_iff hb).1 (heq ▸ (h.worth_eq_zero_iff ha).2 hnil)
    rw [smallestNode_of_reduced (checkMarking_eq_ok_iff.2 ha.own) ha.reduced,
      smallestNode_of_reduced (checkMarking_eq_ok_iff.2 hb.own) hb.reduced, hnil, hnil']
  · have hnil' : c.termsOf b ≠ [] := fun hb' => hnil ((h.worth_eq_zero_iff ha).1 (heq ▸ (h.worth_eq_zero_iff hb).2 hb'))
    obtain ⟨v, hv⟩ := exists_int_termsWorth fun n hn => h.legal n (ha.reduced n hn)
    obtain ⟨n, hn⟩ := h.twoPart ha hnil hv
    obtain ⟨k, hk⟩ := h.twoPart hb hnil' (heq ▸ hv)
    rw [hn.answer, hk.answer, hk.unique n (ha.reduced n hn.mem) hn.greatest]

/-- A reduced marking is worth an integer, and nothing only where it has no entries. Its smallest node is worth the
greatest power of two that divides that integer, so that reduced markings that compare equal have the same smallest
node, however they are written. Only markings with pending nodes are refused for not being reduced. -/
theorem smallestNode_is_two_part (h : c.WellFormed) :
    (∀ m, c.Solid m → ∃ v : ℤ, c.termsWorth (c.termsOf m) = v ∧ (v = 0 ↔ c.termsOf m = []) ∧
      (c.termsOf m = [] → c.smallestNode m = .ok none) ∧ (c.termsOf m ≠ [] → ∃ n, TwoPart c m v n)) ∧
    (∀ a b, c.Solid a → c.Solid b → c.compare a b = .ok .eq → c.smallestNode a = c.smallestNode b) ∧
    ∀ m, c.Held m → (c.smallestNode m = .error .notReduced ↔ m.circuit = c.id ∧ ∃ n ∈ c.nodesOf m, c.Pending n) := by
  refine ⟨fun m hm => ?_, fun a b ha hb heq => ?_, fun m hm => smallestNode_eq_error_iff (hm.live h.tied)⟩
  · obtain ⟨v, hv⟩ := exists_int_termsWorth fun n hn => h.legal n (hm.reduced n hn)
    refine ⟨v, hv, ?_, fun hnil => ?_, fun hne => h.twoPart hm hne hv⟩
    · rw [← h.worth_eq_zero_iff hm, hv, Int.cast_eq_zero]
    · rw [smallestNode_of_reduced (checkMarking_eq_ok_iff.2 hm.own) hm.reduced, hnil]
      rfl
  · rw [h.compare_of_solid ha hb, Except.ok.injEq, compare_eq_iff_eq] at heq
    exact h.smallestNode_congr ha hb heq

/-- Seven, once as eight less one, and once as one less two and eight. -/
def sevenTwice : Circuit :=
  let c := (withoutFour.newMarking [(⟨⟨0⟩, 2, 0⟩, .plus), (⟨⟨0⟩, 0, 0⟩, .minus)]).2
  (c.newMarking [(⟨⟨0⟩, 1, 0⟩, .minus), (⟨⟨0⟩, 2, 0⟩, .plus), (⟨⟨0⟩, 0, 0⟩, .plus)]).2

theorem wellFormed_sevenTwice : sevenTwice.WellFormed := by
  refine (wellFormed_withoutFour.newMarking ⟨⟨by decide, by decide⟩, by decide⟩).newMarking ⟨⟨by decide, by decide⟩, ?_⟩
  exact fun n hn => by revert n; decide

/-- The markings of seven have different entries and the same smallest node, the unit. -/
theorem smallest_of_sevens : sevenTwice.WellFormed ∧ sevenTwice.Solid ⟨⟨0⟩, 0⟩ ∧ sevenTwice.Solid ⟨⟨0⟩, 1⟩ ∧
    sevenTwice.compare ⟨⟨0⟩, 0⟩ ⟨⟨0⟩, 1⟩ = .ok .eq ∧ sevenTwice.termsOf ⟨⟨0⟩, 0⟩ ≠ sevenTwice.termsOf ⟨⟨0⟩, 1⟩ ∧
    sevenTwice.smallestNode ⟨⟨0⟩, 0⟩ = .ok (some ⟨⟨0⟩, 0, 0⟩) ∧
    sevenTwice.smallestNode ⟨⟨0⟩, 1⟩ = sevenTwice.smallestNode ⟨⟨0⟩, 0⟩ := by
  have hfirst : sevenTwice.Solid ⟨⟨0⟩, 0⟩ := ⟨rfl, by decide, by decide⟩
  have hsecond : sevenTwice.Solid ⟨⟨0⟩, 1⟩ := ⟨rfl, by decide, by decide⟩
  have hequal : sevenTwice.compare ⟨⟨0⟩, 0⟩ ⟨⟨0⟩, 1⟩ = .ok .eq := by cbv
  obtain ⟨-, hsame, -⟩ := smallestNode_is_two_part wellFormed_sevenTwice
  exact ⟨wellFormed_sevenTwice, hfirst, hsecond, hequal, by decide, by cbv, (hsame _ _ hfirst hsecond hequal).symm⟩

end Circuit

end PowerTower
