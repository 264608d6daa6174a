import Mathlib
import PowerTower.Proofs.WellFormed

/-!
# Sums of distinct powers of two

The nodes of a reduced term list are worth distinct powers of two, so that the list is a numeral with the digits minus
one, zero and one.

* `Terms.Powers` : the nodes of a term list are worth distinct powers of two;
* `Powers.abs_sum_lt`, `Powers.two_pow_le_abs_sum` : what stands below a power is worth less, and what does not stand
  below it is worth at least as much, unless there is nothing;
* `Powers.lt_of_sum_eq` : a number is not written with powers above two to itself, unless with that one;
* `Graded.worth_lt_of_below` : a reduced node depends on smaller ones only.
-/

namespace PowerTower

namespace Terms

variable {w : Node → ℝ} {a : Node → ℕ} {n : Node} {s : Sign} {ts us : List Term} {e k : ℕ}

/-- The nodes of the list are worth distinct powers of two, the exponents of which are `a`. -/
structure Powers (w : Node → ℝ) (a : Node → ℕ) (ts : List Term) : Prop extends Proper ts where
  worth : ∀ n ∈ nodes ts, w n = 2 ^ a n
  distinct : ∀ m ∈ nodes ts, ∀ n ∈ nodes ts, a m = a n → m = n

theorem Powers.sublist (h : Powers w a us) (hs : ts.Sublist us) : Powers w a ts where
  toProper := h.toProper.sublist hs
  worth := fun n hn => h.worth n ((hs.map _).subset hn)
  distinct := fun m hm n hn => h.distinct m ((hs.map _).subset hm) n ((hs.map _).subset hn)

theorem abs_toInt_le (s : Sign) : |(s.toInt : ℝ)| ≤ 1 := by cases s <;> simp [Sign.toInt]

theorem abs_toInt (h : s ≠ .zero) : |(s.toInt : ℝ)| = 1 := by cases s <;> simp_all [Sign.toInt]

theorem abs_sum_le (hw : ∀ n ∈ nodes ts, w n = 2 ^ a n) :
    |sum w ts| ≤ (((nodes ts).map fun n => 2 ^ a n).sum : ℕ) := by
  induction ts with
  | nil => simp
  | cons t ts ih =>
    have ht : |(t.2.toInt : ℝ) * w t.1| ≤ 2 ^ a t.1 := by
      rw [abs_mul, hw t.1 (by simp), abs_of_pos (show (0 : ℝ) < 2 ^ a t.1 by positivity)]
      exact mul_le_of_le_one_left (by positivity) (abs_toInt_le t.2)
    have hrest := ih fun n hn => hw n (by simp [hn])
    rw [sum_cons, nodes_cons, List.map_cons, List.sum_cons]
    push_cast at hrest ⊢
    exact (abs_add_le _ _).trans (add_le_add ht hrest)

/-- Distinct powers below two to the `k` sum up to less than two to the `k`. -/
theorem Powers.abs_sum_lt (h : Powers w a ts) (hlt : ∀ n ∈ nodes ts, a n < k) : |sum w ts| < 2 ^ k := by
  have hnodup : ((nodes ts).map a).Nodup := h.nodup.map_on h.distinct
  have hgeom : ∑ i ∈ ((nodes ts).map a).toFinset, 2 ^ i < 2 ^ k :=
    Nat.geomSum_lt le_rfl fun i hi => by
      obtain ⟨n, hn, rfl⟩ := List.mem_map.1 (List.mem_toFinset.1 hi)
      exact hlt n hn
  rw [List.sum_toFinset _ hnodup, List.map_map] at hgeom
  exact (abs_sum_le h.worth).trans_lt (by exact_mod_cast hgeom)

theorem exists_sum_eq_mul (hw : ∀ n ∈ nodes ts, w n = 2 ^ a n) (hle : ∀ n ∈ nodes ts, k ≤ a n) :
    ∃ z : ℤ, sum w ts = 2 ^ k * z := by
  induction ts with
  | nil => exact ⟨0, by simp⟩
  | cons t ts ih =>
    obtain ⟨z, hz⟩ := ih (fun n hn => hw n (by simp [hn])) fun n hn => hle n (by simp [hn])
    obtain ⟨j, hj⟩ := Nat.exists_eq_add_of_le (hle t.1 (by simp))
    refine ⟨t.2.toInt * 2 ^ j + z, ?_⟩
    rw [sum_cons, hz, hw t.1 (by simp), hj]
    push_cast
    ring

/-- The greatest power outweighs all others. -/
theorem Powers.sum_ne_zero (h : Powers w a ts) (hne : ts ≠ []) : sum w ts ≠ 0 := by
  obtain ⟨t, ht⟩ := List.exists_mem_of_ne_nil ts hne
  obtain ⟨n, hn, hmax⟩ := (nodes ts).toFinset.exists_max_image a ⟨t.1, List.mem_toFinset.2 (mem_nodes_of_mem ht)⟩
  rw [List.mem_toFinset] at hn
  obtain ⟨s, hs⟩ := mem_nodes.1 hn
  have hsub := erase_sublist n ts
  have hrest : |sum w (erase n ts)| < 2 ^ a n := (h.sublist hsub).abs_sum_lt fun m hm => by
    have hm' : m ∈ nodes ts := (hsub.map _).subset hm
    refine (hmax m (List.mem_toFinset.2 hm')).lt_of_ne fun heq => ?_
    exact h.not_mem_erase (h.distinct m hm' n hn heq ▸ hm)
  intro hzero
  rw [sum_erase (digit?_eq_some_of_mem h.nodup hs), hzero, zero_sub, abs_neg, abs_mul, abs_toInt (h.nonzero _ hs),
    one_mul, h.worth n hn, abs_of_pos (by positivity)] at hrest
  exact lt_irrefl _ hrest

/-- Distinct powers from two to the `k` on sum up to two to the `k` or more. -/
theorem Powers.two_pow_le_abs_sum (h : Powers w a ts) (hne : ts ≠ []) (hle : ∀ n ∈ nodes ts, k ≤ a n) :
    2 ^ k ≤ |sum w ts| := by
  obtain ⟨z, hz⟩ := exists_sum_eq_mul h.worth hle
  have hz0 : z ≠ 0 := by
    rintro rfl
    exact h.sum_ne_zero hne (by simpa using hz)
  have hone : (1 : ℝ) ≤ |(z : ℝ)| := by exact_mod_cast Int.one_le_abs hz0
  rw [hz, abs_mul, abs_of_pos (show (0 : ℝ) < 2 ^ k by positivity)]
  exact le_mul_of_one_le_right (by positivity) hone

theorem sum_filter_add (p : Node → Bool) (ts : List Term) :
    sum w (ts.filter fun t => p t.1) + sum w (ts.filter fun t => !p t.1) = sum w ts := by
  induction ts with
  | nil => simp
  | cons t ts ih =>
    cases hp : p t.1 with
    | true =>
      simp only [List.filter_cons, hp, Bool.not_true, Bool.false_eq_true, ↓reduceIte, sum_cons]
      linarith
    | false =>
      simp only [List.filter_cons, hp, Bool.not_false, Bool.false_eq_true, ↓reduceIte, sum_cons]
      linarith

/-- A number `e` that is written without two to the `e` is written with smaller powers only: greater ones would not be
made up for by these. -/
theorem Powers.lt_of_sum_eq (h : Powers w a ts) (hsum : sum w ts = e) (hne : ∀ n ∈ nodes ts, a n ≠ e) :
    ∀ n ∈ nodes ts, a n < e := by
  let low := ts.filter fun t => decide (a t.1 < e)
  let high := ts.filter fun t => !decide (a t.1 < e)
  have hlow : |sum w low| < 2 ^ e := (h.sublist List.filter_sublist).abs_sum_lt fun n hn => by
    obtain ⟨t, ht, rfl⟩ := List.mem_map.1 hn
    simpa using (List.mem_filter.1 ht).2
  have hmem : ∀ n ∈ nodes high, n ∈ nodes ts ∧ ¬ a n < e := fun n hn => by
    obtain ⟨t, ht, rfl⟩ := List.mem_map.1 hn
    obtain ⟨ht, hp⟩ := List.mem_filter.1 ht
    exact ⟨mem_nodes_of_mem ht, by simpa using hp⟩
  have hsplit : sum w low + sum w high = e := (sum_filter_add (fun n => decide (a n < e)) ts).trans hsum
  have hnil : high = [] := by
    by_contra hhigh
    have hge : 2 ^ (e + 1) ≤ |sum w high| := (h.sublist List.filter_sublist).two_pow_le_abs_sum hhigh fun n hn => by
      have := hne n (hmem n hn).1
      have := (hmem n hn).2
      omega
    have hle : (e : ℝ) < 2 ^ e := by exact_mod_cast Nat.lt_two_pow_self
    have habs : |sum w high| ≤ e + |sum w low| := by
      rw [show sum w high = e - sum w low by linarith]
      exact (abs_sub _ _).trans (by rw [Nat.abs_cast])
    rw [pow_succ] at hge
    linarith
  intro n hn
  by_contra hlt
  obtain ⟨t, ht, rfl⟩ := List.mem_map.1 hn
  have : t ∈ high := List.mem_filter.2 ⟨ht, by simpa using hlt⟩
  rw [hnil] at this
  cases this

end Terms

namespace Circuit

variable {c : Circuit} {m n : Node} {ts : List Term}

/-- The exponent of a legal node, as a natural number. -/
noncomputable def exponentOf (c : Circuit) (n : Node) : ℕ := ⌊c.termsWorth (c.successors n)⌋₊

theorem Legal.termsWorth_eq (h : c.Legal n) : c.termsWorth (c.successors n) = c.exponentOf n := by
  obtain ⟨e, he, -⟩ := h.exists_exponent
  rw [exponentOf, he, Nat.floor_natCast]

theorem Legal.worth_eq (h : c.Legal n) : c.worth n = 2 ^ c.exponentOf n := by
  obtain ⟨e, he, hw⟩ := h.exists_exponent
  rw [exponentOf, he, Nat.floor_natCast, hw]

theorem Legal.exponentOf_lt_iff (hm : c.Legal m) (hn : c.Legal n) :
    c.exponentOf m < c.exponentOf n ↔ c.worth m < c.worth n := by
  rw [hm.worth_eq, hn.worth_eq, pow_lt_pow_iff_right₀ (by norm_num)]

/-- The nodes of a reduced list are worth distinct powers of two. -/
theorem Graded.powers (hg : c.Graded) (hl : c.Linked) (hts : c.Proper ts) (hr : ∀ n ∈ Terms.nodes ts, c.Reduced n) :
    Terms.Powers c.worth c.exponentOf ts where
  toProper := hts.toProper
  worth := fun n hn => (hg.legal n (hr n hn)).worth_eq
  distinct := fun m hm n hn he => hg.eq_of_worth_eq hl (hr m hm) (hr n hn) (by
    rw [(hg.legal m (hr m hm)).worth_eq, (hg.legal n (hr n hn)).worth_eq, he])

/-- The exponent of a reduced node is less than its worth, and so is written with smaller powers or with that of the
node itself, which would be a cycle. -/
theorem Graded.worth_lt_of_below (hg : c.Graded) (hl : c.Linked) (hn : c.Reduced n) (hm : c.Below m n) :
    c.worth m < c.worth n := by
  have hlegal := hg.legal n hn
  have hr := hl.closed n hn
  have hpowers := hg.powers hl (hl.exponents n hn.1) hr
  have hne : ∀ k, c.Below k n → c.exponentOf k ≠ c.exponentOf n := fun k hk he => by
    have hsame : k = n := hg.eq_of_worth_eq hl (hr k hk) hn (by
      rw [(hg.legal k (hr k hk)).worth_eq, hlegal.worth_eq, he])
    exact hl.acyclic n hn.1 (.single (hsame ▸ hk))
  exact ((hg.legal m (hr m hm)).exponentOf_lt_iff hlegal).1 (hpowers.lt_of_sum_eq hlegal.termsWorth_eq hne m hm)

theorem Graded.worth_le_of_reaches (hg : c.Graded) (hl : c.Linked) (hn : c.Reduced n)
    (h : Relation.ReflTransGen c.Below m n) : c.worth m ≤ c.worth n := by
  induction h using Relation.ReflTransGen.head_induction_on with
  | refl => exact le_rfl
  | head hb hreach ih => exact (hg.worth_lt_of_below hl (hl.tied.reduced_of_reaches hn hreach) hb).le.trans ih

end Circuit

end PowerTower
