import Mathlib
import PowerTower.Circuit.Reduce
import PowerTower.Proofs.Checking

/-!
# Looking up a worth

`narrow` halves a stretch of ranks. It always ends at one of them, and where the comparisons do not decrease, it ends at
the last rank that does not compare greater, or at the first rank if all do (`exists_narrow`). So a worth is looked up
exactly in a consistent circuit (`Consistent.search`), and in a linked one there is at least an answer
(`Linked.search`).
-/

namespace PowerTower.Circuit

open Guards

variable {c : Circuit} {m n : Node} {ts : List Term} {r : ℕ}

/-- The answer of a search that ends at a rank. -/
def spotAt (r : ℕ) : Ordering → Spot
  | .eq => .taken r
  | .lt => .vacant (r + 1)
  | .gt => .vacant r

/-- How the exponent at a rank compares with a given one. Past the order it counts as greater. -/
noncomputable def exponentOrder (c : Circuit) (ts : List Term) (r : ℕ) : Ordering :=
  match c.order[r]? with
  | some n => compare (c.termsWorth (c.successors n)) (c.termsWorth ts)
  | none => .gt

theorem exponentOrder_of_getElem? (h : c.order[r]? = some n) :
    c.exponentOrder ts r = compare (c.termsWorth (c.successors n)) (c.termsWorth ts) := by
  simp only [exponentOrder, h]

theorem exponentOrder_of_none (h : c.order[r]? = none) : c.exponentOrder ts r = .gt := by
  simp only [exponentOrder, h]

/-- A stretch of ranks that is left to look at. -/
theorem exists_narrow {ε : Type} (order : ℕ → Except ε Ordering) (o : ℕ → Ordering) (base : ℕ) {bound size : ℕ}
    (horder : ∀ i < bound, order i = .ok (o i)) (hsize : 1 ≤ size) (hbound : base + size ≤ bound) :
    ∃ r, narrow order base size = .ok r ∧ r < bound ∧
      ((∀ i j, i ≤ j → o i = .gt → o j = .gt) → base = 0 ∨ o base ≠ .gt → (∀ i, base + size ≤ i → o i = .gt) →
        (r = 0 ∨ o r ≠ .gt) ∧ ∀ i, r < i → o i = .gt) := by
  fun_induction narrow order base size with
  | case1 base size h =>
    refine ⟨base, rfl, by omega, fun _ hbase habove => ⟨hbase, fun i hi => habove i (by omega)⟩⟩
  | case2 base size h half e he =>
    rw [horder _ (by omega)] at he
    cases he
  | case3 base size h half hgt ih =>
    obtain ⟨r, hr, hlt, hspec⟩ := ih (by omega) (by omega)
    refine ⟨r, hr, hlt, fun hmono hbase habove => hspec hmono hbase fun i hi => ?_⟩
    rw [horder _ (by omega)] at hgt
    exact hmono (base + half) i (by omega) (Except.ok.inj hgt)
  | case4 base size h half x hx hle ih =>
    obtain ⟨r, hr, hlt, hspec⟩ := ih (by omega) (by omega)
    refine ⟨r, hr, hlt, fun hmono _ habove => hspec hmono (.inr fun he => ?_) fun i hi => habove i (by omega)⟩
    rw [horder _ (by omega)] at hle
    exact hx (Except.ok.inj (hle.symm.trans (congrArg _ he)))

/-- The answer of a search in an order of ranks. -/
theorem search_eq {o : ℕ → Ordering} (h : ∀ i < c.order.size, c.compareAt ts i = .ok (o i)) :
    (∃ r < c.order.size, c.search ts = .ok (.taken r) ∧ o r = .eq) ∨
      ∃ r ≤ c.order.size, c.search ts = .ok (.vacant r) ∧
        ((∀ i j, i ≤ j → o i = .gt → o j = .gt) → (∀ i j, i ≤ j → o j = .lt → o i = .lt) →
          (∀ i < r, o i = .lt) ∧ ∀ i, r ≤ i → i < c.order.size → o i = .gt) := by
  by_cases h0 : c.order.size = 0
  · exact .inr ⟨0, Nat.zero_le _, by simp [search, h0], fun _ _ => ⟨by simp, fun i _ hi => by omega⟩⟩
  · obtain ⟨r, hr, hlt, hspec⟩ := exists_narrow (c.compareAt ts)
      (fun i => if i < c.order.size then o i else .gt) 0 (fun i hi => by rw [h i hi, if_pos hi])
      (Nat.pos_of_ne_zero h0) (Nat.zero_add _).le
    have hsearch : c.search ts = .ok (spotAt r (o r)) := by
      rw [search, if_neg h0, hr]
      show (c.compareAt ts r >>= _) = _
      rw [h r hlt]
      cases o r <;> rfl
    have hmono : (∀ i j, i ≤ j → o i = .gt → o j = .gt) →
        (r = 0 ∨ o r ≠ .gt) ∧ ∀ i, r < i → i < c.order.size → o i = .gt := fun hgt => by
      have := hspec (fun i j hij hi => ?_) (.inl rfl)
        fun i hi => by simp [Nat.not_lt.2 ((Nat.zero_add _).symm.trans_le hi)]
      · simp only [hlt, ↓reduceIte] at this
        exact ⟨this.1, fun i hi hs => by simpa [hs] using this.2 i hi⟩
      · split_ifs with hj
        · exact hgt i j hij (by simpa [hij.trans_lt hj] using hi)
        · rfl
    cases ho : o r with
    | eq => exact .inl ⟨r, hlt, by rw [hsearch, ho, spotAt], ho⟩
    | lt =>
      refine .inr ⟨r + 1, hlt, by rw [hsearch, ho, spotAt], fun hgt hlo => ⟨fun i hi => ?_, fun i hi hs => ?_⟩⟩
      · exact hlo i r (by omega) ho
      · exact (hmono hgt).2 i hi hs
    | gt =>
      refine .inr ⟨r, hlt.le, by rw [hsearch, ho, spotAt], fun hgt hlo => ⟨fun i hi => ?_, fun i hi hs => ?_⟩⟩
      · have := (hmono hgt).1.resolve_right (by simp [ho])
        omega
      · exact hgt r i hi ho

/-- A reduced exponent is looked up with an answer in the order. -/
theorem Linked.search (hl : c.Linked) (hts : c.Proper ts) (hr : ∀ n ∈ Terms.nodes ts, c.Reduced n) :
    (∃ r < c.order.size, c.search ts = .ok (.taken r)) ∨ ∃ r ≤ c.order.size, c.search ts = .ok (.vacant r) := by
  have hcompare : ∀ i < c.order.size, ∃ x, c.compareAt ts i = .ok x := fun i hi => by
    have hn := Array.getElem?_eq_getElem hi
    have hred := hl.reduced_of_getElem? hn
    rw [compareAt, hn]
    exact ⟨_, hl.compareTerms_eq (fitting_flagUnits c) ((Nat.zero_le i).trans_lt hi) (hl.exponents _ hred.1) hts
      (hl.closed _ hred) hr (by simp)⟩
  choose! o ho using hcompare
  rcases search_eq ho with ⟨r, hr, hs, -⟩ | ⟨r, hr, hs, -⟩
  · exact .inl ⟨r, hr, hs⟩
  · exact .inr ⟨r, hr, hs⟩

/-- Exponents do not decrease along the order. -/
theorem Consistent.exponent_le (hc : c.Consistent) {i j : ℕ} (hi : c.order[i]? = some m) (hj : c.order[j]? = some n)
    (hij : i ≤ j) : c.termsWorth (c.successors m) ≤ c.termsWorth (c.successors n) := by
  rw [← not_lt, ← worth_lt_iff (hc.acc (hc.reduced_of_getElem? hj).1) (hc.acc (hc.reduced_of_getElem? hi).1), not_lt]
  exact hc.worth_le hi hj hij

theorem Consistent.exponentOrder_gt (hc : c.Consistent) {i j : ℕ} (hij : i ≤ j) (hi : c.exponentOrder ts i = .gt) :
    c.exponentOrder ts j = .gt := by
  cases hn : c.order[j]? with
  | none => exact exponentOrder_of_none hn
  | some n =>
    have hm := Array.getElem?_eq_getElem (hij.trans_lt (Array.getElem?_eq_some_iff.1 hn).1)
    rw [exponentOrder_of_getElem? hm, compare_gt_iff_gt] at hi
    rw [exponentOrder_of_getElem? hn, compare_gt_iff_gt]
    exact hi.trans_le (hc.exponent_le hm hn hij)

theorem Consistent.exponentOrder_lt (hc : c.Consistent) {i j : ℕ} (hij : i ≤ j) (hj : c.exponentOrder ts j = .lt) :
    c.exponentOrder ts i = .lt := by
  cases hn : c.order[j]? with
  | none => simp [exponentOrder_of_none hn] at hj
  | some n =>
    have hm := Array.getElem?_eq_getElem (hij.trans_lt (Array.getElem?_eq_some_iff.1 hn).1)
    rw [exponentOrder_of_getElem? hn, compare_lt_iff_lt] at hj
    rw [exponentOrder_of_getElem? hm, compare_lt_iff_lt]
    exact (hc.exponent_le hm hn hij).trans_lt hj

/-- A reduced exponent is looked up exactly. -/
theorem Consistent.search (hc : c.Consistent) (hts : c.Proper ts) (hr : ∀ n ∈ Terms.nodes ts, c.Reduced n) :
    (∃ r n, c.search ts = .ok (.taken r) ∧ c.order[r]? = some n ∧ c.termsWorth (c.successors n) = c.termsWorth ts) ∨
      ∃ r ≤ c.order.size, c.search ts = .ok (.vacant r) ∧
        (∀ i n, i < r → c.order[i]? = some n → c.termsWorth (c.successors n) < c.termsWorth ts) ∧
        ∀ i n, r ≤ i → c.order[i]? = some n → c.termsWorth ts < c.termsWorth (c.successors n) := by
  have hcompare : ∀ i < c.order.size, c.compareAt ts i = .ok (c.exponentOrder ts i) := fun i hi => by
    have hn := Array.getElem?_eq_getElem hi
    have hred := hc.reduced_of_getElem? hn
    rw [exponentOrder_of_getElem? hn, compareAt, hn]
    simpa using hc.compareTerms_eq (hc.exponents _ hred.1) hts (hc.closed _ hred) hr (show |(0 : ℤ)| ≤ 1 by simp)
  rcases search_eq hcompare with ⟨r, hr, hs, ho⟩ | ⟨r, hr, hs, hspec⟩
  · have hn := Array.getElem?_eq_getElem hr
    rw [exponentOrder_of_getElem? hn, compare_eq_iff_eq] at ho
    exact .inl ⟨r, _, hs, hn, ho⟩
  · obtain ⟨hbelow, habove⟩ := hspec (fun i j => hc.exponentOrder_gt) fun i j => hc.exponentOrder_lt
    refine .inr ⟨r, hr, hs, fun i n hi hn => ?_, fun i n hi hn => ?_⟩
    · have := hbelow i hi
      rwa [exponentOrder_of_getElem? hn, compare_lt_iff_lt] at this
    · have := habove i hi (Array.getElem?_eq_some_iff.1 hn).1
      rwa [exponentOrder_of_getElem? hn, compare_gt_iff_gt] at this

end PowerTower.Circuit
