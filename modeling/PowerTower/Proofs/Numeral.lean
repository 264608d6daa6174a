import Mathlib
import PowerTower.Circuit.Compare
import PowerTower.Proofs.Terms

/-!
# Weighing numerals

A numeral is a descending list of digits. `Digits.value W` is the number it stands for, where the unit of rank `r` is
worth `W r`. The units need not be those of a circuit: it is enough that they agree with the doubling flags
(`Units`), a step from a rank to the next one being a factor of two where the flag of the lower one is set, and every
other step at least a factor of four.

`weigh` then finds the sign of the number (`weigh_eq_compare`). What lies below a place is worth less than two of its
units (`abs_value_lt`), so that a carry of two units or more decides, and a carry of one unit decides as well as soon
as a factor of four is met.
-/

namespace PowerTower

namespace Digits

/-- The number that a list of digits stands for, with units `W`. -/
noncomputable def value (W : ℕ → ℝ) (ds : List Digit) : ℝ := (ds.map fun d => (d.2 : ℝ) * W d.1).sum

/-- The ranks of a list of digits. -/
def ranks (ds : List Digit) : List ℕ := ds.map Prod.fst

/-- Higher ranks stand before lower ones, and none stands twice. -/
def Descending (ds : List Digit) : Prop := (ranks ds).Pairwise fun r s => s < r

/-- The digits of rank `r` are at most `b r`. -/
def Bounded (b : ℕ → ℤ) (ds : List Digit) : Prop := ∀ d ∈ ds, -b d.1 ≤ d.2 ∧ d.2 ≤ b d.1

variable {W : ℕ → ℝ} {xs ys : List Digit}

@[simp] theorem value_nil : value W [] = 0 := rfl

@[simp] theorem value_cons (d : Digit) (ds : List Digit) : value W (d :: ds) = d.2 * W d.1 + value W ds := by
  simp [value]

theorem value_perm {ds es : List Digit} (h : ds.Perm es) : value W ds = value W es := (h.map _).sum_eq

@[simp] theorem ranks_nil : ranks [] = [] := rfl

@[simp] theorem ranks_cons (d : Digit) (ds : List Digit) : ranks (d :: ds) = d.1 :: ranks ds := rfl

theorem descending_cons {d : Digit} {ds : List Digit} :
    Descending (d :: ds) ↔ (∀ r ∈ ranks ds, r < d.1) ∧ Descending ds := by
  simp [Descending]

theorem bounded_cons {b : ℕ → ℤ} {d : Digit} {ds : List Digit} :
    Bounded b (d :: ds) ↔ (-b d.1 ≤ d.2 ∧ d.2 ≤ b d.1) ∧ Bounded b ds := by
  simp [Bounded]

/-! ## The difference of two numerals -/

theorem value_difference (xs ys : List Digit) : value W (difference xs ys) = value W xs - value W ys := by
  fun_induction difference xs ys with
  | case1 => simp
  | case2 r d xs ih => simp [ih]
  | case3 s e ys ih =>
    simp only [value_cons, ih, value_nil]
    push_cast
    ring
  | case4 d xs s e ys ih =>
    simp only [value_cons, ih]
    push_cast
    ring
  | case5 r d xs s e ys _ _ ih =>
    rw [value_cons, ih, value_cons _ xs]
    ring
  | case6 r d xs s e ys _ _ ih =>
    rw [value_cons, ih, value_cons _ ys]
    push_cast
    ring

theorem mem_ranks_difference {r : ℕ} (h : r ∈ ranks (difference xs ys)) : r ∈ ranks xs ∨ r ∈ ranks ys := by
  fun_induction difference xs ys with
  | case1 => simp at h
  | case2 | case3 | case4 | case5 | case6 => grind [ranks_cons]

theorem Bounded.difference {a b : ℕ → ℤ} (ha : ∀ r, 0 ≤ a r) (hb : ∀ r, 0 ≤ b r) (hx : Bounded a xs)
    (hy : Bounded b ys) : Bounded (fun r => a r + b r) (difference xs ys) := by
  fun_induction Digits.difference xs ys with
  | case1 => simp [Bounded]
  | case2 | case3 | case4 | case5 | case6 => grind [bounded_cons]

theorem Descending.difference (hx : Descending xs) (hy : Descending ys) : Descending (difference xs ys) := by
  -- what stands below a rank on both sides stands below it in the difference
  have below : ∀ {k : ℕ} {xs ys : List Digit}, (∀ r ∈ ranks xs, r < k) → (∀ r ∈ ranks ys, r < k) →
      ∀ r ∈ ranks (Digits.difference xs ys), r < k :=
    fun hx hy r hr => (mem_ranks_difference hr).elim (hx r) (hy r)
  fun_induction Digits.difference xs ys with
  | case1 => exact hx
  | case2 r d xs ih =>
    rw [descending_cons] at hx ⊢
    exact ⟨below hx.1 (by simp), ih hx.2 hy⟩
  | case3 s e ys ih =>
    rw [descending_cons] at hy ⊢
    exact ⟨below (by simp) hy.1, ih hx hy.2⟩
  | case4 d xs s e ys ih =>
    rw [descending_cons] at hx hy ⊢
    exact ⟨below hx.1 hy.1, ih hx.2 hy.2⟩
  | case5 r d xs s e ys _ hlt ih =>
    have hy' := descending_cons.1 hy
    rw [descending_cons] at hx ⊢
    refine ⟨below hx.1 fun k hk => ?_, ih hx.2 hy⟩
    rcases List.mem_cons.1 hk with rfl | hk
    · exact hlt
    · exact (hy'.1 k hk).trans hlt
  | case6 r d xs s e ys hne hnlt ih =>
    have hx' := descending_cons.1 hx
    have hlt : r < s := by omega
    rw [descending_cons] at hy ⊢
    refine ⟨below (fun k hk => ?_) hy.1, ih hx hy.2⟩
    rcases List.mem_cons.1 hk with rfl | hk
    · exact hlt
    · exact (hx'.1 k hk).trans hlt

/-! ## A number added at rank zero -/

theorem value_addBias (bias : ℤ) (xs : List Digit) : value W (addBias bias xs) = value W xs + bias * W 0 := by
  fun_induction addBias bias xs with
  | case1 h => simp [h]
  | case2 _ => simp
  | case3 d =>
    simp only [value_cons, value_nil]
    push_cast
    ring
  | case4 x xs _ ih =>
    rw [value_cons, value_cons, ih]
    ring

theorem mem_ranks_addBias {bias : ℤ} {r : ℕ} (h : r ∈ ranks (addBias bias xs)) :
    r ∈ ranks xs ∨ bias ≠ 0 ∧ r = 0 := by
  fun_induction addBias bias xs with
  | case1 | case2 | case3 | case4 => grind [ranks_cons, ranks_nil]

theorem Descending.addBias {bias : ℤ} (h : Descending xs) : Descending (addBias bias xs) := by
  fun_induction Digits.addBias bias xs with
  | case1 => exact h
  | case2 => simp [Descending]
  | case3 => simp [Descending]
  | case4 x xs hx ih =>
    rw [descending_cons] at h ⊢
    have hpos : 0 < x.1 := by
      cases xs with
      | nil => exact Nat.pos_of_ne_zero fun h0 => hx x.2 (Prod.ext h0 rfl) rfl
      | cons y ys => exact Nat.zero_lt_of_lt (h.1 y.1 (by simp))
    refine ⟨fun r hr => ?_, ih h.2⟩
    rcases mem_ranks_addBias hr with hr | ⟨-, rfl⟩
    · exact h.1 r hr
    · exact hpos

theorem Bounded.addBias {bias : ℤ} {b : ℕ → ℤ} (hb : ∀ r, 0 ≤ b r) (h : Bounded b xs) :
    Bounded (fun r => b r + if r = 0 then |bias| else 0) (addBias bias xs) := by
  have hle := le_abs_self bias
  have hge := neg_abs_le bias
  fun_induction Digits.addBias bias xs with
  | case1 | case2 | case3 | case4 => grind [bounded_cons, Bounded]

end Digits

namespace Circuit

/-- Units that agree with the doubling flags on some ranks. -/
structure Units (c : Circuit) (W : ℕ → ℝ) (R : ℕ → Prop) : Prop where
  pos : ∀ r, R r → 0 < W r
  double : ∀ r, R r → R (r + 1) → c.doublesAt r = true → W (r + 1) = 2 * W r
  quadruple : ∀ r s, R r → R s → r < s → ¬ (s = r + 1 ∧ c.doublesAt r = true) → 4 * W r ≤ W s

/-- The bound of the digits that are weighed: the difference of two digits, and one more at rank zero. -/
def digitBound (r : ℕ) : ℤ := if r = 0 then 3 else 2

open Digits

variable {c : Circuit} {W : ℕ → ℝ} {R : ℕ → Prop} {r s : ℕ}

theorem Units.two_mul_le (h : c.Units W R) (hr : R r) (hs : R s) (hlt : r < s) : 2 * W r ≤ W s := by
  have hpos := h.pos r hr
  by_cases hd : s = r + 1 ∧ c.doublesAt r = true
  · obtain ⟨rfl, hd⟩ := hd
    exact (h.double r hr hs hd).ge
  · linarith [h.quadruple r s hr hs hlt hd]

/-- What lies below a place is worth less than two of its units. -/
theorem Units.abs_value_lt (h : c.Units W R) (hs : R s) {ds : List Digit} (hd : Descending ds)
    (hb : Bounded digitBound ds) (hR : ∀ r ∈ ranks ds, R r ∧ r < s) : |value W ds| < 2 * W s := by
  induction ds generalizing s with
  | nil => simpa using h.pos s hs
  | cons d ds ih =>
    obtain ⟨r, k⟩ := d
    rw [descending_cons] at hd
    rw [bounded_cons] at hb
    obtain ⟨⟨hr, hlt⟩, hR⟩ := List.forall_mem_cons.1 hR
    have htwo := h.two_mul_le hr hs hlt
    have hpos := h.pos r hr
    have hk : |(k : ℝ) * W r| = |(k : ℝ)| * W r := by rw [abs_mul, abs_of_pos hpos]
    obtain ⟨hlo, hhi⟩ := hb.1
    rw [value_cons]
    -- at rank zero the digit may be three, but nothing follows it
    by_cases h0 : r = 0
    · subst h0
      have hnil : ds = [] := by
        cases ds with
        | nil => rfl
        | cons e ds => exact absurd (hd.1 e.1 (by simp)) (Nat.not_lt_zero _)
      have hk3 : |(k : ℝ)| ≤ 3 := by
        rw [abs_le]
        simp only [digitBound, ↓reduceIte] at hlo hhi
        exact ⟨by exact_mod_cast hlo, by exact_mod_cast hhi⟩
      rw [hnil, value_nil, add_zero, hk]
      nlinarith
    · have hrest := ih hr hd.2 hb.2 fun t ht => ⟨(hR t ht).1, hd.1 t ht⟩
      have hk2 : |(k : ℝ)| ≤ 2 := by
        rw [abs_le]
        simp only [digitBound, h0, ↓reduceIte] at hlo hhi
        exact ⟨by exact_mod_cast hlo, by exact_mod_cast hhi⟩
      calc |(k : ℝ) * W r + value W ds| ≤ |(k : ℝ) * W r| + |value W ds| := abs_add_le _ _
        _ < 2 * W r + 2 * W r := by
          rw [hk]
          nlinarith
        _ ≤ 2 * W s := by linarith

/-- Two units of a place decide, and so do minus two. -/
theorem decide_units (c : Circuit) {u : ℤ} {w v : ℝ} {ds : List Digit} (hw : 0 < w) (hv : |v| < 2 * w)
    (hrest : |u| ≤ 1 → c.weigh (some r) u ds = compare (u * w + v) 0) :
    (if 1 < u then .gt else if u < -1 then .lt else c.weigh (some r) u ds) = compare (u * w + v) 0 := by
  obtain ⟨hlo, hhi⟩ := abs_lt.1 hv
  split_ifs with hgt hlt
  · have hu : (2 : ℝ) ≤ u := by exact_mod_cast hgt
    exact (compare_gt_iff_gt.2 (by nlinarith)).symm
  · have hu : (u : ℝ) ≤ -2 := by exact_mod_cast (show u ≤ -2 by omega)
    exact (compare_lt_iff_lt.2 (by nlinarith)).symm
  · exact hrest (abs_le.2 ⟨by omega, by omega⟩)

/-- A unit that is at least four units of a digit's rank outweighs everything from that digit down. Its four units and
the digit are two or more, unless the digit is the last. -/
theorem Units.carry_decides (h : c.Units W R) {w : ℝ} {k : ℤ} (hr : R r) {ds : List Digit}
    (hd : (∀ s ∈ ranks ds, s < r) ∧ Descending ds) (hb : (-digitBound r ≤ k ∧ k ≤ digitBound r) ∧ Bounded digitBound ds)
    (hR : ∀ s ∈ ranks ds, R s) (hw : 4 * W r ≤ w) :
    |k * W r + value W ds| < w ∧ -3 ≤ k ∧ k ≤ 3 ∧ (-2 ≤ k ∧ k ≤ 2 ∨ ds = []) := by
  obtain ⟨hlo, hhi⟩ := hb.1
  have hpos := h.pos r hr
  have hrest := h.abs_value_lt hr hd.2 hb.2 fun s hs => ⟨hR s hs, hd.1 s hs⟩
  obtain ⟨hv1, hv2⟩ := abs_lt.1 hrest
  by_cases h0 : r = 0
  · have hnil : ds = [] := by
      cases ds with
      | nil => rfl
      | cons e ds => exact absurd (hd.1 e.1 (by simp)) (by omega)
    simp only [digitBound, h0, ↓reduceIte] at hlo hhi
    have hlo' : (-3 : ℝ) ≤ k := by exact_mod_cast hlo
    have hhi' : (k : ℝ) ≤ 3 := by exact_mod_cast hhi
    refine ⟨?_, hlo, hhi, .inr hnil⟩
    rw [hnil, value_nil, add_zero, abs_lt]
    exact ⟨by nlinarith, by nlinarith⟩
  · simp only [digitBound, h0, ↓reduceIte] at hlo hhi
    have hlo' : (-2 : ℝ) ≤ k := by exact_mod_cast hlo
    have hhi' : (k : ℝ) ≤ 2 := by exact_mod_cast hhi
    refine ⟨?_, by omega, by omega, .inl ⟨hlo, hhi⟩⟩
    rw [abs_lt]
    exact ⟨by nlinarith, by nlinarith⟩

theorem compare_intCast_mul (u : ℤ) {w : ℝ} (hw : 0 < w) : compare u 0 = compare (u * w) (0 : ℝ) := by
  rcases lt_trichotomy u 0 with hu | rfl | hu
  · rw [compare_lt_iff_lt.2 hu, compare_lt_iff_lt.2]
    exact mul_neg_of_neg_of_pos (by exact_mod_cast hu) hw
  · simp
  · rw [compare_gt_iff_gt.2 hu, compare_gt_iff_gt.2]
    exact mul_pos (by exact_mod_cast hu) hw

/-- A digit below a place that is worth exactly two of its units: the carry is counted in these units. -/
theorem Units.weigh_cons_of_doubled (h : c.Units W R) {p : ℕ} {carry k : ℤ} {ds : List Digit} (hp : R p) (hr : R r)
    (hflag : p = r + 1 ∧ c.doublesAt r = true) (hrest : |value W ds| < 2 * W r)
    (hstep : ∀ u : ℤ, |u| ≤ 1 → c.weigh (some r) u ds = compare (u * W r + value W ds) 0) :
    c.weigh (some p) carry ((r, k) :: ds) = compare (carry * W p + value W ((r, k) :: ds)) 0 := by
  obtain ⟨rfl, hdouble⟩ := hflag
  have hscale : c.scale (some (r + 1)) r = 2 := by rw [scale, if_pos ⟨rfl, hdouble⟩]
  have hunits : (carry : ℝ) * W (r + 1) + k * W r = ((k + c.scale (some (r + 1)) r * carry : ℤ) : ℝ) * W r := by
    rw [hscale, h.double r hr hp hdouble]
    push_cast
    ring
  rw [weigh, value_cons, ← add_assoc, hunits]
  exact decide_units c (h.pos r hr) hrest (hstep _)

/-- A digit below a place that is worth four of its units or more: a carry other than zero decides. -/
theorem Units.weigh_cons_of_gap (h : c.Units W R) {p : ℕ} {carry k : ℤ} (hc : |carry| ≤ 1) (hr : R r) {ds : List Digit}
    (hd : (∀ s ∈ ranks ds, s < r) ∧ Descending ds) (hb : (-digitBound r ≤ k ∧ k ≤ digitBound r) ∧ Bounded digitBound ds)
    (hR : ∀ s ∈ ranks ds, R s) (hscale : c.scale (some p) r = 4) (hquad : 4 * W r ≤ W p)
    (hstep : ∀ u : ℤ, |u| ≤ 1 → c.weigh (some r) u ds = compare (u * W r + value W ds) 0) :
    c.weigh (some p) carry ((r, k) :: ds) = compare (carry * W p + value W ((r, k) :: ds)) 0 := by
  obtain ⟨hw, hlo, hhi, hlast⟩ := h.carry_decides hr hd hb hR hquad
  obtain ⟨hw1, hw2⟩ := abs_lt.1 hw
  rw [weigh, value_cons, hscale]
  obtain rfl | rfl | rfl : carry = 0 ∨ carry = 1 ∨ carry = -1 := by
    have := abs_le.1 hc
    omega
  · have hrest := h.abs_value_lt hr hd.2 hb.2 fun s hs => ⟨hR s hs, hd.1 s hs⟩
    simp only [mul_zero, add_zero, Int.cast_zero, zero_mul, zero_add]
    exact decide_units c (h.pos r hr) hrest (hstep _)
  · have htotal : compare (((1 : ℤ) : ℝ) * W p + (k * W r + value W ds)) 0 = .gt :=
      compare_gt_iff_gt.2 (by push_cast; linarith)
    rw [htotal]
    split_ifs with h1 h2
    · rfl
    · omega
    · obtain rfl := hlast.resolve_left (by omega)
      obtain rfl : k = -3 := by omega
      rfl
  · have htotal : compare (((-1 : ℤ) : ℝ) * W p + (k * W r + value W ds)) 0 = .lt :=
      compare_lt_iff_lt.2 (by push_cast; linarith)
    rw [htotal]
    split_ifs with h1 h2
    · omega
    · rfl
    · obtain rfl := hlast.resolve_left (by omega)
      obtain rfl : k = 3 := by omega
      rfl

/-- Weighing with a carry from the place `p` finds the sign of the whole. -/
theorem Units.weigh_eq_compare (h : c.Units W R) {p : ℕ} (hp : R p) {carry : ℤ} (hc : |carry| ≤ 1)
    {ds : List Digit} (hd : Descending ds) (hb : Bounded digitBound ds) (hR : ∀ r ∈ ranks ds, R r ∧ r < p) :
    c.weigh (some p) carry ds = compare (carry * W p + value W ds) 0 := by
  induction ds generalizing p carry with
  | nil =>
    rw [weigh, value_nil, add_zero]
    exact compare_intCast_mul carry (h.pos p hp)
  | cons d ds ih =>
    obtain ⟨r, k⟩ := d
    rw [descending_cons] at hd
    rw [bounded_cons] at hb
    obtain ⟨⟨hr, hlt⟩, hR⟩ := List.forall_mem_cons.1 hR
    have hbelow : ∀ t ∈ ranks ds, R t ∧ t < r := fun t ht => ⟨(hR t ht).1, hd.1 t ht⟩
    have hstep : ∀ u : ℤ, |u| ≤ 1 → c.weigh (some r) u ds = compare (u * W r + value W ds) 0 :=
      fun u hu => ih hr hu hd.2 hb.2 hbelow
    by_cases hflag : p = r + 1 ∧ c.doublesAt r = true
    · exact h.weigh_cons_of_doubled hp hr hflag (h.abs_value_lt hr hd.2 hb.2 hbelow) hstep
    · have hscale : c.scale (some p) r = 4 := by
        rw [scale, if_neg]
        rintro ⟨he, hf⟩
        exact hflag ⟨Option.some.inj he, hf⟩
      exact h.weigh_cons_of_gap hc hr hd hb (fun t ht => (hR t ht).1) hscale (h.quadruple r p hr hp hlt hflag) hstep

/-- Weighing finds the sign of the number that a numeral stands for. -/
theorem Units.weigh_none_eq_compare (h : c.Units W R) {ds : List Digit} (hd : Descending ds)
    (hb : Bounded digitBound ds) (hR : ∀ r ∈ ranks ds, R r) : c.weigh none 0 ds = compare (value W ds) 0 := by
  cases ds with
  | nil => simp [weigh]
  | cons d ds =>
    obtain ⟨r, k⟩ := d
    rw [descending_cons] at hd
    rw [bounded_cons] at hb
    obtain ⟨hr, hR⟩ := List.forall_mem_cons.1 hR
    have hbelow : ∀ t ∈ ranks ds, R t ∧ t < r := fun t ht => ⟨hR t ht, hd.1 t ht⟩
    rw [weigh, value_cons, mul_zero, add_zero]
    exact decide_units c (h.pos r hr) (h.abs_value_lt hr hd.2 hb.2 hbelow) fun hu =>
      h.weigh_eq_compare hr hu hd.2 hb.2 hbelow

/-! ## Comparing term lists -/

/-- The rank that a name leads to, where it leads to one. -/
def rankOf (c : Circuit) (n : Node) : ℕ := (c.rank? n).getD 0

/-- The digits of a term list in the order of its entries. -/
def looseDigits (c : Circuit) (ts : List Term) : List Digit := ts.map fun t => (c.rankOf t.1, t.2.toInt)

variable {ts lhs rhs : List Term} {bias : ℤ}

theorem mapM_rank (ts : List Term) :
    (ts.mapM fun t => match c.rank? t.1 with
      | some r => Except.ok (r, t.2.toInt)
      | none => .error CircuitError.notReduced) =
      if c.termsReduced ts then .ok (c.looseDigits ts) else .error .notReduced := by
  induction ts with
  | nil => rfl
  | cons t ts ih =>
    rw [List.mapM_cons, ih]
    cases hr : c.rank? t.1 with
    | none => simp [termsReduced, isReducedNode, hr, bind, Except.bind]
    | some r =>
      by_cases hts : c.termsReduced ts = true
      · have hall : c.termsReduced (t :: ts) = true := by simpa [termsReduced, isReducedNode, hr] using hts
        simp [hts, hall, bind, Except.bind, pure, Except.pure, looseDigits, rankOf, hr]
      · have hall : ¬ c.termsReduced (t :: ts) = true := by simpa [termsReduced, isReducedNode, hr] using hts
        simp [hts, hall, bind, Except.bind]

theorem digits_eq (c : Circuit) (ts : List Term) :
    c.digits ts = if c.termsReduced ts then .ok ((c.looseDigits ts).mergeSort fun x y => y.1 ≤ x.1)
      else .error .notReduced := by
  refine (congrArg (· >>= fun ds => pure (ds.mergeSort fun x y => y.1 ≤ x.1)) (mapM_rank ts)).trans ?_
  split_ifs <;> rfl

theorem value_looseDigits (W : ℕ → ℝ) (ts : List Term) :
    value W (c.looseDigits ts) = Terms.sum (fun n => W (c.rankOf n)) ts := by
  simp [value, looseDigits, Terms.sum, Function.comp_def]

theorem ranks_looseDigits (ts : List Term) : ranks (c.looseDigits ts) = (Terms.nodes ts).map c.rankOf := by
  simp [ranks, looseDigits, Terms.nodes, Function.comp_def]

theorem bounded_sort (ts : List Term) :
    Bounded (fun _ => 1) ((c.looseDigits ts).mergeSort fun x y => y.1 ≤ x.1) := by
  intro d hd
  obtain ⟨t, -, rfl⟩ := List.mem_map.1 (List.mem_mergeSort.1 hd)
  cases t.2 <;> simp [Sign.toInt]

theorem mem_ranks_sort {r : ℕ} :
    r ∈ ranks ((c.looseDigits ts).mergeSort fun x y => y.1 ≤ x.1) ↔ r ∈ (Terms.nodes ts).map c.rankOf := by
  rw [← ranks_looseDigits]
  simp [ranks]

theorem descending_sort (h : ((Terms.nodes ts).map c.rankOf).Nodup) :
    Descending ((c.looseDigits ts).mergeSort fun x y => y.1 ≤ x.1) := by
  let above : Digit → Digit → Bool := fun x y => decide (y.1 ≤ x.1)
  have htrans : ∀ x y z, above x y = true → above y z = true → above x z = true := fun x y z hxy hyz => by
    simp only [above, decide_eq_true_eq] at *
    omega
  have htotal : ∀ x y, (above x y || above y x) = true := fun x y => by
    simp only [above, Bool.or_eq_true, decide_eq_true_eq]
    omega
  have hsorted := List.pairwise_mergeSort htrans htotal (c.looseDigits ts)
  have hnodup : (ranks ((c.looseDigits ts).mergeSort fun x y => y.1 ≤ x.1)).Nodup := by
    refine (List.Perm.nodup_iff ?_).1 h
    rw [← ranks_looseDigits]
    exact ((List.mergeSort_perm _ _).map _).symm
  rw [ranks, List.nodup_iff_pairwise_ne, List.pairwise_map] at hnodup
  rw [Descending, ranks, List.pairwise_map]
  refine (hsorted.and hnodup).imp fun ⟨hle, hne⟩ => ?_
  simp only [above, decide_eq_true_eq] at hle
  omega

theorem compare_sub_zero (x y : ℝ) : compare (x - y) 0 = compare x y := by
  rcases lt_trichotomy x y with h | rfl | h
  · rw [compare_lt_iff_lt.2 h, compare_lt_iff_lt.2 (sub_neg.2 h)]
  · simp
  · rw [compare_gt_iff_gt.2 h, compare_gt_iff_gt.2 (sub_pos.2 h)]

/-- Reduced term lists are compared by what they stand for, in all units that agree with the flags on the ranks that
the comparison meets. -/
theorem Units.compareTerms_eq (h : c.Units W R) (hl : c.termsReduced lhs = true) (hr : c.termsReduced rhs = true)
    (hln : ((Terms.nodes lhs).map c.rankOf).Nodup) (hrn : ((Terms.nodes rhs).map c.rankOf).Nodup)
    (hlR : ∀ n ∈ Terms.nodes lhs, R (c.rankOf n)) (hrR : ∀ n ∈ Terms.nodes rhs, R (c.rankOf n))
    (hb : |bias| ≤ 1) (hbR : bias ≠ 0 → R 0) :
    c.compareTerms lhs rhs bias = .ok (compare (Terms.sum (fun n => W (c.rankOf n)) lhs)
      (Terms.sum (fun n => W (c.rankOf n)) rhs + bias * W 0)) := by
  unfold compareTerms
  rw [digits_eq, digits_eq, if_pos hl, if_pos hr]
  show Except.ok (c.weigh none 0 _) = _
  congr 1
  rw [h.weigh_none_eq_compare ((descending_sort hln).difference (descending_sort hrn).addBias)]
  · rw [value_difference, value_addBias, value_perm (List.mergeSort_perm _ _), value_perm (List.mergeSort_perm _ _),
      value_looseDigits, value_looseDigits]
    exact compare_sub_zero _ _
  · refine fun d hd => ?_
    have := (bounded_sort lhs).difference (b := fun r => 1 + if r = 0 then |bias| else 0) (by simp)
      (fun r => by split_ifs <;> positivity) ((bounded_sort rhs).addBias (by simp)) d hd
    unfold digitBound
    simp only at this
    split_ifs at this ⊢ <;> omega
  · intro r hr
    rcases mem_ranks_difference hr with hr | hr
    · obtain ⟨n, hn, rfl⟩ := List.mem_map.1 (mem_ranks_sort.1 hr)
      exact hlR n hn
    · rcases mem_ranks_addBias hr with hr | ⟨h0, rfl⟩
      · obtain ⟨n, hn, rfl⟩ := List.mem_map.1 (mem_ranks_sort.1 hr)
        exact hrR n hn
      · exact hbR h0

theorem compareTerms_eq_error (h : ¬ (c.termsReduced lhs = true ∧ c.termsReduced rhs = true)) :
    c.compareTerms lhs rhs bias = .error .notReduced := by
  unfold compareTerms
  rw [digits_eq, digits_eq]
  by_cases hl : c.termsReduced lhs = true
  · have hr : ¬ c.termsReduced rhs = true := fun hr => h ⟨hl, hr⟩
    rw [if_pos hl, if_neg hr]
    rfl
  · rw [if_neg hl]
    rfl

end Circuit

end PowerTower
