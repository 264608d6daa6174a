import Mathlib
import PowerTower.Proofs.Comparison
import PowerTower.Proofs.Depth
import PowerTower.Proofs.Guards

/-!
# What the check of a circuit stands for

The first checks accept exactly the linked circuits (`checkStructure_eq_ok_iff`). The last ones compare exponents, and
the comparison reads ranks and doubling flags, which they are about to check. That they cannot be fooled rests on
`Fitting`: units that agree with the flags. Some units fit whatever the flags are, and where the checks pass, the units
that the exponents give in fitting units fit again (`Fitting.raise`). After as many rounds as the circuit is deep the
units are the worths (`raise_iterate`), so the worths fit.
-/

namespace PowerTower.Circuit

open Guards

variable {c : Circuit} {m n : Node} {ts : List Term} {r : ℕ}

/-! ## Term lists, places and markings -/

theorem checkTerms_eq_ok_iff {owner : TermOwner} {seen : List Node} :
    c.checkTerms owner seen ts = .ok () ↔ c.Proper ts ∧ ∀ n ∈ Terms.nodes ts, n ∉ seen := by
  induction ts generalizing seen with
  | nil => simpa [checkTerms] using ⟨Terms.proper_nil, by simp⟩
  | cons t ts ih =>
    obtain ⟨n, s⟩ := t
    have hproper : c.Proper ((n, s) :: ts) ↔ c.Live n ∧ s ≠ .zero ∧ n ∉ Terms.nodes ts ∧ c.Proper ts := by
      constructor
      · intro h
        have hnodup := h.nodup
        rw [Terms.nodes_cons, List.nodup_cons] at hnodup
        exact ⟨h.live n (by simp), h.nonzero (n, s) (by simp), hnodup.1, h.sublist (List.sublist_cons_self _ _)⟩
      · rintro ⟨hl, hs, hn, h⟩
        refine ⟨⟨?_, ?_⟩, ?_⟩
        · rw [Terms.nodes_cons, List.nodup_cons]
          exact ⟨hn, h.nodup⟩
        · exact List.forall_mem_cons.2 ⟨hs, h.nonzero⟩
        · exact List.forall_mem_cons.2 ⟨hl, h.live⟩
    rw [checkTerms, unit_bind_eq_ok, hproper, Terms.nodes_cons, List.forall_mem_cons]
    have hzero : s.isZero = true ↔ s = .zero := by simp [Sign.isZero]
    split_ifs with hz hs
    · simp [violated, hzero.1 hz]
    · simp [violated, hs]
    · rw [hzero] at hz
      simp only [ih, List.mem_cons, not_or, live_iff_checkNode]
      constructor
      · rintro ⟨hl, hp, hseen⟩
        exact ⟨⟨hl, hz, fun hn => (hseen n hn).1 rfl, hp⟩, hs, fun m hm => (hseen m hm).2⟩
      · rintro ⟨⟨hl, -, hn, hp⟩, -, hseen⟩
        exact ⟨hl, hp, fun m hm => ⟨fun he => hn (he ▸ hm), hseen m hm⟩⟩

theorem checkTerms_nil_eq_ok_iff {owner : TermOwner} : c.checkTerms owner [] ts = .ok () ↔ c.Proper ts := by
  rw [checkTerms_eq_ok_iff]
  simp

theorem forM_checkSlot_eq_ok_iff : (List.range c.slots.size).forM c.checkSlot = .ok () ↔
    (∀ n, c.Live n → c.Proper (c.successors n)) ∧ ∀ i, (c.slotAt i).live = false → (c.slotAt i).rank = none := by
  have hslot : ∀ i, c.checkSlot i = .ok () ↔ ((c.slotAt i).live = true → c.Proper (c.slotAt i).successors) ∧
      ((c.slotAt i).live = false → (c.slotAt i).rank = none) := by
    intro i
    unfold checkSlot
    cases hl : (c.slotAt i).live <;> cases hr : (c.slotAt i).rank <;> simp [violated, checkTerms_nil_eq_ok_iff]
  simp only [forM_eq_ok, hslot, List.mem_range]
  constructor
  · refine fun h => ⟨fun n hn => (h n.index hn.index_lt).1 hn.2.1, fun i hi => ?_⟩
    by_cases hlt : i < c.slots.size
    · exact (h i hlt).2 hi
    · simp [slotAt, Array.getElem?_eq_none (Nat.le_of_not_lt hlt)]
  · exact fun h i _ => ⟨fun hi => h.1 _ (live_nodeAt hi), h.2 i⟩

theorem lt_size_of_handles {i : ℕ} (h : 0 < (c.cellAt i).handles) : i < c.cells.size := by
  by_contra hi
  simp [cellAt, Array.getElem?_eq_none (Nat.le_of_not_lt hi)] at h

theorem mem_liveMarkingIds {i : ℕ} : i ∈ c.liveMarkingIds ↔ 0 < (c.cellAt i).handles := by
  simp only [liveMarkingIds, List.mem_filter, List.mem_range, decide_eq_true_eq]
  exact ⟨fun h => h.2, fun h => ⟨lt_size_of_handles h, h⟩⟩

theorem forM_checkCell_eq_ok_iff : c.liveMarkingIds.forM c.checkCell = .ok () ↔
    ∀ i, 0 < (c.cellAt i).handles → c.Proper (c.cellAt i).terms := by
  simp only [forM_eq_ok, checkCell, checkTerms_nil_eq_ok_iff, mem_liveMarkingIds]

/-! ## Ranks -/

theorem forM_checkRank_eq_ok_iff : c.order.toList.zipIdx.forM c.checkRank = .ok () ↔
    ∀ r n, c.order[r]? = some n → c.Live n ∧ c.rank? n = some r ∧ ∀ m, c.Below m n → c.isReducedNode m = true := by
  have hrank : ∀ r n, c.checkRank (n, r) = .ok () ↔
      c.Live n ∧ c.rank? n = some r ∧ ∀ m, c.Below m n → c.isReducedNode m = true := by
    intro r n
    simp only [checkRank, live_iff_checkNode, unit_bind_eq_ok, and_congr_right_iff]
    intro _
    by_cases hk : c.rank? n = some r
    · simp only [hk, ne_eq, not_true_eq_false, ↓reduceIte, true_and]
      cases hf : (c.successorNodes n).find? fun m => !c.isReducedNode m with
      | none => simpa [Below] using List.find?_eq_none.1 hf
      | some m =>
        have hm := List.find?_some hf
        have hmem := List.mem_of_find?_eq_some hf
        simp only [violated, reduceCtorEq, false_iff]
        exact fun h => by simp [h m hmem] at hm
    · simp [hk, violated]
  simp only [forM_eq_ok, Prod.forall, hrank, List.mem_zipIdx_iff_getElem?, Array.getElem?_toList]
  exact forall_comm

/-- The ranked places. -/
def rankedIndices (c : Circuit) : List ℕ := (List.range c.slots.size).filter fun i => (c.slotAt i).rank.isSome

theorem mem_rankedIndices {i : ℕ} : i ∈ c.rankedIndices ↔ (c.slotAt i).rank.isSome = true := by
  simp only [rankedIndices, List.mem_filter, List.mem_range, and_iff_right_iff_imp]
  intro h
  by_contra hi
  simp [slotAt, Array.getElem?_eq_none (Nat.le_of_not_lt hi)] at h

/-- The store, place by place. -/
theorem slots_toList : c.slots.toList = (List.range c.slots.size).map c.slotAt := by
  refine List.ext_getElem (by simp) fun i h1 h2 => ?_
  simp [slotAt, Array.getElem?_eq_getElem (show i < c.slots.size by simpa using h1)]

theorem rankedCount_eq_length : c.rankedCount = c.rankedIndices.length := by
  rw [rankedCount, slots_toList, List.countP_map, List.countP_eq_length_filter, rankedIndices]
  rfl

/-- Nodes that record their ranks are listed once, and at places of their own. -/
theorem nodup_indices (h : ∀ r n, c.order[r]? = some n → c.Live n ∧ c.rank? n = some r) :
    (c.order.toList.map Node.index).Nodup := by
  rw [List.nodup_iff_getElem?_ne_getElem?]
  intro i j hij hj heq
  simp only [List.length_map, Array.length_toList] at hj
  have hi := h i _ (Array.getElem?_eq_getElem (hij.trans hj))
  have hj' := h j _ (Array.getElem?_eq_getElem hj)
  have hindex : (c.order[i]).index = c.order[j].index := by
    simpa [Array.getElem?_eq_getElem hj, Array.getElem?_eq_getElem (hij.trans hj)] using heq
  rw [hi.1.eq_of_index hj'.1 hindex, hj'.2] at hi
  exact hij.ne' (Option.some.inj hi.2)

theorem indices_subset (h : ∀ r n, c.order[r]? = some n → c.Live n ∧ c.rank? n = some r) :
    c.order.toList.map Node.index ⊆ c.rankedIndices := by
  intro i hi
  obtain ⟨n, hn, rfl⟩ := List.mem_map.1 hi
  obtain ⟨r, hr⟩ := Array.mem_iff_getElem?.1 (Array.mem_toList_iff.1 hn)
  have hrank := (h r n hr).2
  unfold rank? slot at hrank
  simp [mem_rankedIndices, hrank]

/-- Where the listed nodes record their ranks, the ranks agree with the list exactly if there are as many of
them as listed nodes. -/
theorem rankedCount_eq_size_iff (h : ∀ r n, c.order[r]? = some n → c.Live n ∧ c.rank? n = some r)
    (hdead : ∀ i, (c.slotAt i).live = false → (c.slotAt i).rank = none) :
    c.rankedCount = c.order.size ↔ ∀ r n, c.order[r]? = some n ↔ c.Live n ∧ c.rank? n = some r := by
  have hperm := List.subperm_of_subset (nodup_indices h) (indices_subset h)
  rw [rankedCount_eq_length]
  constructor
  · refine fun heq r n => ⟨h r n, fun ⟨hl, hr⟩ => ?_⟩
    have hall := hperm.perm_of_length_le (by simp [heq])
    have hn : n.index ∈ c.order.toList.map Node.index := by
      unfold rank? slot at hr
      simp [hall.mem_iff, mem_rankedIndices, hr]
    obtain ⟨m, hm, hindex⟩ := List.mem_map.1 hn
    obtain ⟨k, hk⟩ := Array.mem_iff_getElem?.1 (Array.mem_toList_iff.1 hm)
    obtain ⟨hml, hmk⟩ := h k m hk
    obtain rfl := hml.eq_of_index hl hindex
    rwa [Option.some.inj (hr.symm.trans hmk)]
  · intro hall
    refine le_antisymm ?_ (by simpa using hperm.length_le)
    have hback : c.rankedIndices ⊆ c.order.toList.map Node.index := by
      intro i hi
      rw [mem_rankedIndices] at hi
      obtain ⟨r, hr⟩ := Option.isSome_iff_exists.1 hi
      have hlive : (c.slotAt i).live = true := by
        by_contra hd
        simp [hdead i (by simpa using hd)] at hr
      have hn := (hall r (c.nodeAt i)).2 ⟨live_nodeAt hlive, hr⟩
      exact List.mem_map.2 ⟨c.nodeAt i, Array.mem_toList_iff.2 (Array.mem_of_getElem? hn), rfl⟩
    have hranked : c.rankedIndices.Nodup := List.nodup_range.filter _
    simpa using (List.subperm_of_subset hranked hback).length_le

theorem checkRankCount_eq_ok_iff : c.checkRankCount = .ok () ↔ c.rankedCount = c.order.size := by
  unfold checkRankCount
  split_ifs with h <;> simp_all [violated]

theorem checkAcyclic_eq_ok_iff : c.checkAcyclic = .ok () ↔ c.cycle? = none := by
  unfold checkAcyclic
  cases c.cycle? <;> simp

/-- The checks that do not compare. -/
def checkStructure (c : Circuit) : Except CircuitError Unit := do
  (List.range c.slots.size).forM c.checkSlot
  c.liveMarkingIds.forM c.checkCell
  c.order.toList.zipIdx.forM c.checkRank
  c.checkRankCount
  c.checkAcyclic

/-- The checks that compare. -/
def checkOrder (c : Circuit) : Except CircuitError Unit := do
  c.checkIncreasing c.order.toList
  c.checkTop
  c.checkBottom

theorem check_eq : c.check = (do c.checkStructure; c.checkOrder) := by
  simp only [check, checkStructure, checkOrder, bind_assoc]

theorem checkStructure_eq_ok_iff : c.checkStructure = .ok () ↔ c.Linked := by
  simp only [checkStructure, unit_bind_eq_ok, forM_checkSlot_eq_ok_iff, forM_checkCell_eq_ok_iff,
    forM_checkRank_eq_ok_iff, checkRankCount_eq_ok_iff, checkAcyclic_eq_ok_iff]
  constructor
  · rintro ⟨⟨hexp, hdead⟩, hmark, hrank, hcount, hcycle⟩
    have hranked := (rankedCount_eq_size_iff (fun r n h => ⟨(hrank r n h).1, (hrank r n h).2.1⟩) hdead).1 hcount
    refine ⟨hexp, hmark, acyclic_of_cycle?_eq_none hcycle, hranked, hdead, fun n hn m hm => ?_⟩
    obtain ⟨r, hr⟩ := hn.exists_rank
    exact ⟨(hexp n hn.1).live m hm, (hrank r n ((hranked r n).2 ⟨hn.1, hr⟩)).2.2 m hm⟩
  · intro h
    refine ⟨⟨h.exponents, h.unranked⟩, h.markings, fun r n hr => ?_, ?_, ?_⟩
    · have hn := h.reduced_of_getElem? hr
      exact ⟨hn.1, h.rank?_of_getElem? hr, fun m hm => (h.closed n hn m hm).2⟩
    · exact (rankedCount_eq_size_iff (fun r n => (h.ranked r n).1) h.unranked).2 h.ranked
    · exact (cycle?_eq_none_iff fun _ hn _ hm => h.live_of_below hn hm).2 h.acyclic

/-! ## Fitting units -/

/-- Units of the ranks that start at one, are natural powers of two and agree with the doubling flags. -/
structure Fitting (c : Circuit) (V : ℕ → ℝ) : Prop where
  zero : V 0 = 1
  pow : ∀ r < c.order.size, ∃ e : ℕ, V r = 2 ^ e
  double : ∀ r, r + 1 < c.order.size → c.doublesAt r = true → V (r + 1) = 2 * V r
  quadruple : ∀ r, r + 1 < c.order.size → c.doublesAt r = false → 4 * V r ≤ V (r + 1)

/-- The exponent of a node, where the reduced nodes are worth the units of their ranks. -/
noncomputable def exponentIn (c : Circuit) (V : ℕ → ℝ) (n : Node) : ℝ :=
  Terms.sum (fun m => V (c.rankOf m)) (c.successors n)

/-- The units that the exponents of the reduced nodes give. -/
noncomputable def raise (c : Circuit) (V : ℕ → ℝ) (r : ℕ) : ℝ :=
  match c.order[r]? with
  | some n => powerOfTwo (c.exponentIn V n)
  | none => 1

/-- What the checks that compare stand for, in given units. -/
structure Ascending (c : Circuit) (V : ℕ → ℝ) : Prop where
  increasing : ∀ r low high, c.order[r]? = some low → c.order[r + 1]? = some high →
    c.exponentIn V low < c.exponentIn V high ∧
      ((c.slot low).doubles = true ↔ c.exponentIn V high = c.exponentIn V low + 1)
  top : ∀ n, c.order.back? = some n → (c.slot n).doubles = false
  bottom : ∀ n, c.order[0]? = some n → 0 ≤ c.exponentIn V n

variable {V : ℕ → ℝ}

theorem raise_eq (h : c.order[r]? = some n) : c.raise V r = 2 ^ c.exponentIn V n := by
  simp [raise, powerOfTwo, h]

/-- Two for a rank with its flag set, and four for another. -/
def flagUnits (c : Circuit) : ℕ → ℕ
  | 0 => 1
  | r + 1 => if c.doublesAt r then 2 * flagUnits c r else 4 * flagUnits c r

theorem flagUnits_of_doubled (hd : c.doublesAt r = true) : c.flagUnits (r + 1) = 2 * c.flagUnits r := by
  rw [flagUnits, if_pos hd]

theorem flagUnits_of_not_doubled (hd : c.doublesAt r = false) : c.flagUnits (r + 1) = 4 * c.flagUnits r := by
  rw [flagUnits, if_neg (by simp [hd])]

theorem exists_flagUnits_eq_pow (c : Circuit) (r : ℕ) : ∃ e, c.flagUnits r = 2 ^ e := by
  induction r with
  | zero => exact ⟨0, rfl⟩
  | succ r ih =>
    obtain ⟨e, he⟩ := ih
    cases hd : c.doublesAt r with
    | true => exact ⟨e + 1, by rw [flagUnits_of_doubled hd, he, pow_succ']⟩
    | false => exact ⟨e + 2, by rw [flagUnits_of_not_doubled hd, he]; ring⟩

theorem fitting_flagUnits (c : Circuit) : c.Fitting fun r => c.flagUnits r where
  zero := by simp [flagUnits]
  pow r _ := by
    obtain ⟨e, he⟩ := c.exists_flagUnits_eq_pow r
    exact ⟨e, by simp [he]⟩
  double r _ hd := by simp [flagUnits_of_doubled hd]
  quadruple r _ hd := by simp [flagUnits_of_not_doubled hd]

theorem Fitting.pos (h : c.Fitting V) (hr : r < c.order.size) : 0 < V r := by
  obtain ⟨e, he⟩ := h.pow r hr
  rw [he]
  positivity

theorem Fitting.two_mul_le (h : c.Fitting V) (hr : r + 1 < c.order.size) : 2 * V r ≤ V (r + 1) := by
  have hpos := h.pos ((Nat.lt_succ_self r).trans hr)
  cases hd : c.doublesAt r with
  | true => exact (h.double r hr hd).ge
  | false => linarith [h.quadruple r hr hd]

theorem Fitting.units (h : c.Fitting V) : c.Units V (· < c.order.size) := by
  have mono : ∀ {r s}, r ≤ s → s < c.order.size → V r ≤ V s := by
    intro r s hrs
    induction hrs with
    | refl => exact fun _ => le_rfl
    | step _ ih =>
      intro hs
      have hpos := h.pos ((Nat.lt_succ_self _).trans hs)
      linarith [ih ((Nat.lt_succ_self _).trans hs), h.two_mul_le hs]
  refine ⟨fun r hr => h.pos hr, fun r _ hs hd => h.double r hs hd, fun r s hr hs hrs hd => ?_⟩
  rcases Nat.eq_or_lt_of_le (Nat.succ_le_of_lt hrs) with rfl | hgap
  · exact h.quadruple r hs (by simpa using hd)
  · have h1 := h.two_mul_le (r := r) (by omega)
    have h2 := h.two_mul_le (r := r + 1) (by omega)
    linarith [mono (Nat.succ_le_of_lt hgap) hs]

/-- Reduced lists are compared in all fitting units alike. -/
theorem Linked.compareTerms_eq (hl : c.Linked) (hV : c.Fitting V) (h0 : 0 < c.order.size) {lhs rhs : List Term}
    {bias : ℤ} (hlhs : c.Proper lhs) (hrhs : c.Proper rhs) (hlr : ∀ n ∈ Terms.nodes lhs, c.Reduced n)
    (hrr : ∀ n ∈ Terms.nodes rhs, c.Reduced n) (hb : |bias| ≤ 1) :
    c.compareTerms lhs rhs bias = .ok (compare (Terms.sum (fun m => V (c.rankOf m)) lhs)
      (Terms.sum (fun m => V (c.rankOf m)) rhs + bias)) := by
  have := hV.units.compareTerms_eq (termsReduced_of_forall hlr) (termsReduced_of_forall hrr)
    (hl.nodup_rankOf hlhs hlr) (hl.nodup_rankOf hrhs hrr) (fun n hn => hl.rankOf_lt (hlr n hn))
    (fun n hn => hl.rankOf_lt (hrr n hn)) hb fun _ => h0
  rwa [hV.zero, mul_one] at this

theorem Linked.compareTerms_exponents (hl : c.Linked) (hV : c.Fitting V) (hm : c.Reduced m) (hn : c.Reduced n)
    {bias : ℤ} (hb : |bias| ≤ 1) : c.compareTerms (c.successors m) (c.successors n) bias =
      .ok (compare (c.exponentIn V m) (c.exponentIn V n + bias)) :=
  hl.compareTerms_eq hV ((Nat.zero_le _).trans_lt (hl.rankOf_lt hm)) (hl.exponents m hm.1) (hl.exponents n hn.1)
    (hl.closed m hm) (hl.closed n hn) hb

/-! ## The checks that compare -/

theorem checkNeighbours_eq_ok_iff (hl : c.Linked) (hV : c.Fitting V) (hm : c.Reduced m) (hn : c.Reduced n) :
    c.checkNeighbours m n = .ok () ↔ c.exponentIn V m < c.exponentIn V n ∧
      ((c.slot m).doubles = true ↔ c.exponentIn V n = c.exponentIn V m + 1) := by
  have hless := hl.compareTerms_exponents hV hm hn (show |(0 : ℤ)| ≤ 1 by simp)
  have hdouble := hl.compareTerms_exponents hV hn hm (show |(1 : ℤ)| ≤ 1 by simp)
  rw [Int.cast_zero, add_zero] at hless
  rw [Int.cast_one] at hdouble
  have hlt : compare (c.exponentIn V m) (c.exponentIn V n) = .lt ↔ c.exponentIn V m < c.exponentIn V n :=
    compare_lt_iff_lt
  have heq : compare (c.exponentIn V n) (c.exponentIn V m + 1) = .eq ↔ c.exponentIn V n = c.exponentIn V m + 1 :=
    compare_eq_iff_eq
  simp only [checkNeighbours, bind_eq_ok, hless, hdouble, Except.ok.injEq, exists_eq_left', ← hlt, ← heq]
  split_ifs with h1
  · simp [violated, h1]
  · have h1 : compare (c.exponentIn V m) (c.exponentIn V n) = .lt := by simpa using h1
    simp only [bind_eq_ok, Except.ok.injEq, exists_eq_left', h1, true_and]
    split_ifs with h2
    · simpa [violated] using h2
    · simpa using h2

theorem checkIncreasing_eq_ok_iff (l : List Node) : c.checkIncreasing l = .ok () ↔
    ∀ r low high, l[r]? = some low → l[r + 1]? = some high → c.checkNeighbours low high = .ok () := by
  induction l with
  | nil => simp [checkIncreasing]
  | cons a l ih =>
    cases l with
    | nil => simp [checkIncreasing]
    | cons b l =>
      rw [checkIncreasing, unit_bind_eq_ok, ih]
      constructor
      · rintro ⟨hab, h⟩ r low high hlow hhigh
        cases r with
        | zero => simp_all
        | succ r => exact h r low high (by simpa using hlow) (by simpa using hhigh)
      · exact fun h => ⟨h 0 a b rfl rfl, fun r low high hlow hhigh =>
          h (r + 1) low high (by simpa using hlow) (by simpa using hhigh)⟩

theorem checkTop_eq_ok_iff : c.checkTop = .ok () ↔ ∀ n, c.order.back? = some n → (c.slot n).doubles = false := by
  unfold checkTop
  cases c.order.back? with
  | none => simp
  | some n => cases h : (c.slot n).doubles <;> simp [violated, h]

theorem checkBottom_eq_ok_iff (hl : c.Linked) (hV : c.Fitting V) :
    c.checkBottom = .ok () ↔ ∀ n, c.order[0]? = some n → 0 ≤ c.exponentIn V n := by
  unfold checkBottom
  cases h0 : c.order[0]? with
  | none => simp
  | some n =>
    have hn := hl.reduced_of_getElem? h0
    have hcompare := hl.compareTerms_eq hV (Array.getElem?_eq_some_iff.1 h0).1 (hl.exponents n hn.1)
      proper_nil (hl.closed n hn) (by simp) (show |(0 : ℤ)| ≤ 1 by simp)
    rw [Terms.sum_nil, Int.cast_zero, add_zero] at hcompare
    have hlt : compare (c.exponentIn V n) 0 = .lt ↔ c.exponentIn V n < 0 := compare_lt_iff_lt
    simp only [bind_eq_ok, hcompare, Except.ok.injEq, exists_eq_left', Option.some.injEq, forall_eq', ← not_lt]
    rw [← hlt]
    unfold exponentIn
    split_ifs with h <;> simp [violated, h]

theorem checkOrder_eq_ok_iff (hl : c.Linked) (hV : c.Fitting V) : c.checkOrder = .ok () ↔ c.Ascending V := by
  simp only [checkOrder, unit_bind_eq_ok, checkIncreasing_eq_ok_iff, checkTop_eq_ok_iff,
    checkBottom_eq_ok_iff hl hV, Array.getElem?_toList]
  constructor
  · rintro ⟨hinc, htop, hbottom⟩
    exact ⟨fun r low high hlow hhigh => (checkNeighbours_eq_ok_iff hl hV (hl.reduced_of_getElem? hlow)
      (hl.reduced_of_getElem? hhigh)).1 (hinc r low high hlow hhigh), htop, hbottom⟩
  · exact fun h => ⟨fun r low high hlow hhigh => (checkNeighbours_eq_ok_iff hl hV (hl.reduced_of_getElem? hlow)
      (hl.reduced_of_getElem? hhigh)).2 (h.increasing r low high hlow hhigh), h.top, h.bottom⟩

/-! ## Units that fit again -/

theorem Fitting.exists_int (h : c.Fitting V) (hl : c.Linked) (hn : c.Reduced n) : ∃ k : ℤ, c.exponentIn V n = k :=
  Terms.exists_int_sum fun m hm => h.pow _ (hl.rankOf_lt (hl.closed n hn m hm))

theorem Ascending.lt (h : c.Ascending V) {i j : ℕ} (hi : c.order[i]? = some m) (hj : c.order[j]? = some n)
    (hij : i < j) : c.exponentIn V m < c.exponentIn V n := by
  induction hij generalizing n with
  | refl => exact (h.increasing i m n hi hj).1
  | @step j hij ih =>
    have hlt : j < c.order.size := (Nat.lt_succ_self j).trans (Array.getElem?_eq_some_iff.1 hj).1
    have hmid := Array.getElem?_eq_getElem hlt
    exact (ih hmid).trans (h.increasing j _ n hmid hj).1

theorem Ascending.nonneg (h : c.Ascending V) (hr : c.order[r]? = some n) : 0 ≤ c.exponentIn V n := by
  rcases Nat.eq_zero_or_pos r with rfl | hpos
  · exact h.bottom n hr
  · have hlt : 0 < c.order.size := hpos.trans (Array.getElem?_eq_some_iff.1 hr).1
    have hfirst := Array.getElem?_eq_getElem hlt
    exact (h.bottom _ hfirst).trans (h.lt hfirst hr hpos).le

/-- A node without successors stands first, since its exponent is zero. -/
theorem Ascending.exponentIn_first (h : c.Ascending V) (hl : c.Linked) (h0 : c.order[0]? = some n) :
    c.exponentIn V n = 0 := by
  have hn := hl.reduced_of_getElem? h0
  obtain ⟨m, hm, hs⟩ := exists_below_without_successors (hl.acc hn.1)
  obtain ⟨j, hj⟩ := hl.exists_getElem? (hl.tied.reduced_of_reaches hn hm)
  have hzero : c.exponentIn V m = 0 := by simp [exponentIn, hs]
  rcases Nat.eq_zero_or_pos j with rfl | hpos
  · rwa [Option.some.inj (h0.symm.trans hj)]
  · exact absurd (h.bottom n h0) (not_le.2 (hzero ▸ h.lt h0 hj hpos))

theorem Ascending.exists_nat (h : c.Ascending V) (hV : c.Fitting V) (hl : c.Linked) (hr : c.order[r]? = some n) :
    ∃ e : ℕ, c.exponentIn V n = e := by
  obtain ⟨k, hk⟩ := hV.exists_int hl (hl.reduced_of_getElem? hr)
  have hnonneg := h.nonneg hr
  rw [hk] at hnonneg
  lift k to ℕ using by exact_mod_cast hnonneg
  exact ⟨k, by simpa using hk⟩

theorem Fitting.raise (hV : c.Fitting V) (hl : c.Linked) (h : c.Ascending V) : c.Fitting (c.raise V) := by
  have next : ∀ r, r + 1 < c.order.size → ∃ low high, c.order[r]? = some low ∧ c.order[r + 1]? = some high ∧
      ∃ a b : ℕ, c.raise V r = 2 ^ a ∧ c.raise V (r + 1) = 2 ^ b ∧ a < b ∧ (c.doublesAt r = true ↔ b = a + 1) := by
    intro r hr
    have hlow := Array.getElem?_eq_getElem (show r < c.order.size by omega)
    have hhigh := Array.getElem?_eq_getElem hr
    obtain ⟨a, ha⟩ := h.exists_nat hV hl hlow
    obtain ⟨b, hb⟩ := h.exists_nat hV hl hhigh
    obtain ⟨hlt, hflag⟩ := h.increasing r _ _ hlow hhigh
    rw [ha, hb] at hlt hflag
    refine ⟨_, _, hlow, hhigh, a, b, ?_, ?_, by exact_mod_cast hlt, ?_⟩
    · rw [raise_eq hlow, ha, Real.rpow_natCast]
    · rw [raise_eq hhigh, hb, Real.rpow_natCast]
    · rw [doublesAt, hlow]
      exact hflag.trans (by exact_mod_cast Iff.rfl)
  refine ⟨?_, fun r hr => ?_, fun r hr hd => ?_, fun r hr hd => ?_⟩
  · cases hn : c.order[0]? with
    | none => simp [Circuit.raise, hn]
    | some n => rw [raise_eq hn, h.exponentIn_first hl hn, Real.rpow_zero]
  · have hn := Array.getElem?_eq_getElem hr
    obtain ⟨e, he⟩ := h.exists_nat hV hl hn
    exact ⟨e, by rw [raise_eq hn, he, Real.rpow_natCast]⟩
  · obtain ⟨-, -, -, -, a, b, ha, hb, -, hflag⟩ := next r hr
    rw [ha, hb, hflag.1 hd, pow_succ']
  · obtain ⟨-, -, -, -, a, b, ha, hb, hlt, hflag⟩ := next r hr
    have hgap : a + 2 ≤ b := by
      have : b ≠ a + 1 := fun he => by simp [hflag.2 he] at hd
      omega
    rw [ha, hb]
    calc (4 : ℝ) * 2 ^ a = 2 ^ (a + 2) := by ring
      _ ≤ 2 ^ b := pow_le_pow_right₀ (by norm_num) hgap

/-- After as many rounds as a node is deep, its rank has its worth for a unit. -/
theorem raise_iterate (hl : c.Linked) (V : ℕ → ℝ) {k : ℕ} (hn : c.Reduced n) (hk : c.Within k n) :
    c.raise^[k] V (c.rankOf n) = c.worth n := by
  induction k generalizing n with
  | zero => exact hk.elim
  | succ k ih =>
    obtain ⟨r, hr⟩ := hl.exists_getElem? hn
    rw [Function.iterate_succ_apply', rankOf, hl.rank?_of_getElem? hr, Option.getD_some, raise_eq hr,
      worth_eq (hl.acc hn.1)]
    exact congrArg _ (Terms.sum_congr fun m hm => ih (hl.closed n hn m hm) (hk m hm))

/-! ## The worths fit -/

theorem exponentIn_eq_termsWorth (hl : c.Linked) (hV : ∀ n, c.Reduced n → V (c.rankOf n) = c.worth n)
    (hn : c.Reduced n) : c.exponentIn V n = c.termsWorth (c.successors n) :=
  Terms.sum_congr fun m hm => hV m (hl.closed n hn m hm)

theorem worth_eq_rpow_exponentIn (hl : c.Linked) (hV : ∀ n, c.Reduced n → V (c.rankOf n) = c.worth n)
    (hn : c.Reduced n) : c.worth n = 2 ^ c.exponentIn V n := by
  rw [exponentIn_eq_termsWorth hl hV hn, worth_eq (hl.acc hn.1)]

theorem Ascending.consistent (h : c.Ascending V) (hV : c.Fitting V) (hl : c.Linked)
    (hw : ∀ n, c.Reduced n → V (c.rankOf n) = c.worth n) : c.Consistent := by
  have legal : ∀ n, Acc c.Below n → c.Reduced n → c.Legal n := by
    intro n hacc
    induction hacc with
    | intro n _ ih =>
      intro hn
      obtain ⟨r, hr⟩ := hl.exists_getElem? hn
      obtain ⟨e, he⟩ := h.exists_nat hV hl hr
      exact .intro e (fun m hm => ih m hm (hl.closed n hn m hm)) (by rw [← exponentIn_eq_termsWorth hl hw hn, he])
  have hworth : ∀ {r n}, c.order[r]? = some n → c.worth n = 2 ^ c.exponentIn V n := fun hr =>
    worth_eq_rpow_exponentIn hl hw (hl.reduced_of_getElem? hr)
  refine { toLinked := hl, legal := fun n hn => legal n (hl.acc hn.1) hn, increasing := ?_, flags := ?_ }
  · refine pairwise_order_iff.2 fun i j m n hij hi hj => ?_
    rw [hworth hi, hworth hj]
    exact Real.rpow_lt_rpow_of_exponent_lt (by norm_num) (h.lt hi hj hij)
  · intro r n hr
    cases hnext : c.order[r + 1]? with
    | none =>
      have hlast : r = c.order.size - 1 := by
        have := (Array.getElem?_eq_some_iff.1 hr).1
        have := Array.getElem?_eq_none_iff.1 hnext
        omega
      simp [h.top n (by rw [Array.back?_eq_getElem?, ← hlast, hr])]
    | some m =>
      simp only [Option.some.injEq, exists_eq_left', (h.increasing r n m hr hnext).2, hworth hr, hworth hnext]
      exact (rpow_eq_two_mul_iff _ _).symm

theorem Consistent.fitting_unitAt (h : c.Consistent) : c.Fitting c.unitAt := by
  refine ⟨?_, fun r hr => ?_, fun r hr hd => ?_, fun r hr hd => ?_⟩
  · unfold unitAt
    split
    · next n hn => exact h.worth_first h.toLinked hn
    · rfl
  · have hn := Array.getElem?_eq_getElem hr
    rw [unitAt_eq hn]
    exact (h.legal _ (h.reduced_of_getElem? hn)).exists_pow
  · have hn := Array.getElem?_eq_getElem (show r < c.order.size by omega)
    have hm := Array.getElem?_eq_getElem hr
    rw [doublesAt, hn] at hd
    obtain ⟨k, hk, hw⟩ := (h.flags r _ hn).1 hd
    rw [unitAt_eq hn, unitAt_eq hk, hw]
  · have hunits := h.units h.toLinked (R := (· < c.order.size)) (fun _ hr => .inr hr) fun r _ _ => h.flags r
    exact hunits.quadruple r (r + 1) (by omega) hr (Nat.lt_succ_self r) (by simp [hd])

theorem Consistent.ascending_unitAt (h : c.Consistent) : c.Ascending c.unitAt := by
  have hw : ∀ n, c.Reduced n → c.unitAt (c.rankOf n) = c.worth n := fun n hn => h.unitAt_rankOf hn
  have hworth : ∀ {r n}, c.order[r]? = some n → c.worth n = 2 ^ c.exponentIn c.unitAt n := fun hr =>
    worth_eq_rpow_exponentIn h.toLinked hw (h.reduced_of_getElem? hr)
  refine ⟨fun r low high hlow hhigh => ⟨?_, ?_⟩, fun n hn => ?_, fun n hn => ?_⟩
  · have := h.worth_lt hlow hhigh (Nat.lt_succ_self r)
    rw [hworth hlow, hworth hhigh] at this
    exact (Real.rpow_lt_rpow_left_iff (by norm_num)).1 this
  · rw [h.flags r low hlow, hhigh]
    simp only [Option.some.injEq, exists_eq_left', hworth hlow, hworth hhigh]
    exact rpow_eq_two_mul_iff _ _
  · rw [Array.back?_eq_getElem?] at hn
    have hflag := h.flags _ n hn
    have hsize := (Array.getElem?_eq_some_iff.1 hn).1
    rw [Array.getElem?_eq_none (show c.order.size ≤ c.order.size - 1 + 1 by omega)] at hflag
    simpa using hflag
  · simp [exponentIn, h.successors_first h.toLinked hn]

theorem checkOrder_eq_ok_iff_consistent (hl : c.Linked) : c.checkOrder = .ok () ↔ c.Consistent := by
  refine ⟨fun h => ?_, fun h => (checkOrder_eq_ok_iff hl h.fitting_unitAt).2 h.ascending_unitAt⟩
  have hascend : ∀ V, c.Fitting V → c.Ascending V := fun V hV => (checkOrder_eq_ok_iff hl hV).1 h
  have hfit : ∀ k, c.Fitting (c.raise^[k] fun r => c.flagUnits r) := by
    intro k
    induction k with
    | zero => exact fitting_flagUnits c
    | succ k ih =>
      rw [Function.iterate_succ_apply']
      exact ih.raise hl (hascend _ ih)
  exact (hascend _ (hfit c.slots.size)).consistent (hfit _) hl fun n hn => raise_iterate hl _ hn (hl.within hn.1)

/-! ## What the check answers -/

/-- A guard that is refused, if at all, for a broken invariant. -/
def OnlyViolated {α : Type} (x : Except CircuitError α) : Prop := ∀ e, x = .error e → ∃ v, e = .invariantViolated v

theorem onlyViolated_ok {α : Type} (a : α) : OnlyViolated (.ok a) := fun _ h => nomatch h

theorem onlyViolated_violated (v : Violation) : OnlyViolated (violated v) := fun _ h => ⟨v, (Except.error.inj h).symm⟩

theorem OnlyViolated.bind {α β : Type} {x : Except CircuitError α} {f : α → Except CircuitError β}
    (hx : OnlyViolated x) (hf : ∀ a, x = .ok a → OnlyViolated (f a)) : OnlyViolated (x >>= f) := by
  intro e h
  rcases bind_eq_error.1 h with h | ⟨a, ha, h⟩
  · exact hx e h
  · exact hf a ha e h

theorem Linked.onlyViolated_checkNeighbours (hl : c.Linked) (hm : c.Reduced m) (hn : c.Reduced n) :
    OnlyViolated (c.checkNeighbours m n) := by
  have hcompare : ∀ {j k bias}, c.Reduced j → c.Reduced k → |bias| ≤ 1 →
      OnlyViolated (c.compareTerms (c.successors j) (c.successors k) bias) := fun hj hk hb => by
    rw [hl.compareTerms_exponents (fitting_flagUnits c) hj hk hb]
    exact onlyViolated_ok _
  refine (hcompare hm hn (by simp)).bind fun o _ => ?_
  split_ifs
  · exact onlyViolated_violated _
  · refine (hcompare hn hm (by simp)).bind fun o _ => ?_
    split_ifs
    · exact onlyViolated_violated _
    · exact onlyViolated_ok _

theorem Linked.onlyViolated_checkIncreasing (hl : c.Linked) {l : List Node} (h : ∀ n ∈ l, c.Reduced n) :
    OnlyViolated (c.checkIncreasing l) := by
  induction l with
  | nil => exact onlyViolated_ok _
  | cons a l ih =>
    cases l with
    | nil => exact onlyViolated_ok _
    | cons b l =>
      rw [checkIncreasing]
      exact (hl.onlyViolated_checkNeighbours (h a (by simp)) (h b (by simp))).bind fun _ _ =>
        ih fun n hn => h n (List.mem_cons_of_mem _ hn)

theorem Linked.onlyViolated_checkBottom (hl : c.Linked) : OnlyViolated c.checkBottom := by
  unfold checkBottom
  split
  · next n h0 =>
    have hn := hl.reduced_of_getElem? h0
    rw [hl.compareTerms_eq (fitting_flagUnits c) (Array.getElem?_eq_some_iff.1 h0).1 (hl.exponents n hn.1)
      proper_nil (hl.closed n hn) (by simp) (by simp)]
    refine (onlyViolated_ok _).bind fun o _ => ?_
    split_ifs
    · exact onlyViolated_violated _
    · exact onlyViolated_ok _
  · exact onlyViolated_ok _

theorem onlyViolated_checkTop : OnlyViolated c.checkTop := by
  unfold checkTop
  split
  · split_ifs
    · exact onlyViolated_violated _
    · exact onlyViolated_ok _
  · exact onlyViolated_ok _

/-- The check of a linked circuit finds broken invariants only. -/
theorem Linked.onlyViolated_check (hl : c.Linked) : OnlyViolated c.check := by
  rw [check_eq, checkStructure_eq_ok_iff.2 hl]
  refine (onlyViolated_ok ()).bind fun _ _ => ?_
  exact (hl.onlyViolated_checkIncreasing fun n hn => hl.mem_order.1 hn).bind fun _ _ =>
    onlyViolated_checkTop.bind fun _ _ => hl.onlyViolated_checkBottom

theorem check_eq_ok_iff_consistent : c.check = .ok () ↔ c.Consistent := by
  rw [check_eq, unit_bind_eq_ok, checkStructure_eq_ok_iff]
  exact ⟨fun ⟨hl, h⟩ => (checkOrder_eq_ok_iff_consistent hl).1 h,
    fun h => ⟨h.toLinked, (checkOrder_eq_ok_iff_consistent h.toLinked).2 h⟩⟩

theorem checkNode_ne_cycleDetected : c.checkNode m ≠ .error (.cycleDetected n) := by
  unfold checkNode
  split_ifs <;> simp

theorem checkTerms_ne_cycleDetected {owner : TermOwner} {seen : List Node} :
    c.checkTerms owner seen ts ≠ .error (.cycleDetected n) := by
  induction ts generalizing seen with
  | nil => simp [checkTerms]
  | cons t ts ih =>
    obtain ⟨m, s⟩ := t
    intro h
    rw [checkTerms, bind_eq_error] at h
    rcases h with h | ⟨_, -, h⟩
    · exact checkNode_ne_cycleDetected h
    · split_ifs at h
      · simp [violated] at h
      · simp [violated] at h
      · exact ih h

theorem checkSlot_ne_cycleDetected {i : ℕ} : c.checkSlot i ≠ .error (.cycleDetected n) := by
  unfold checkSlot
  split_ifs
  · exact checkTerms_ne_cycleDetected
  · simp [violated]
  · simp

theorem checkRank_ne_cycleDetected {entry : Node × ℕ} : c.checkRank entry ≠ .error (.cycleDetected n) := by
  intro h
  rw [checkRank, bind_eq_error] at h
  rcases h with h | ⟨_, -, h⟩
  · exact checkNode_ne_cycleDetected h
  · split_ifs at h
    · simp [violated] at h
    · split at h <;> simp [violated] at h

/-- A report of a cycle comes from the search for one, and all exponents are proper then. -/
theorem cycle?_of_checkStructure (h : c.checkStructure = .error (.cycleDetected n)) :
    (∀ m, c.Live m → c.Proper (c.successors m)) ∧ c.cycle? = some n := by
  simp only [checkStructure, bind_eq_error] at h
  rcases h with h | ⟨_, hslots, h | ⟨_, -, h | ⟨_, -, h | ⟨_, -, h⟩⟩⟩⟩
  · obtain ⟨i, -, hi⟩ := exists_of_forM_eq_error h
    exact absurd hi checkSlot_ne_cycleDetected
  · obtain ⟨i, -, hi⟩ := exists_of_forM_eq_error h
    exact absurd hi checkTerms_ne_cycleDetected
  · obtain ⟨entry, -, he⟩ := exists_of_forM_eq_error h
    exact absurd he checkRank_ne_cycleDetected
  · unfold checkRankCount at h
    split_ifs at h
    simp [violated] at h
  · refine ⟨(forM_checkSlot_eq_ok_iff.1 hslots).1, ?_⟩
    unfold checkAcyclic at h
    split at h
    · next k hk =>
      cases h
      exact hk
    · cases h

theorem cycle?_of_check (h : c.check = .error (.cycleDetected n)) :
    (∀ m, c.Live m → c.Proper (c.successors m)) ∧ c.cycle? = some n := by
  cases hs : c.checkStructure with
  | error e =>
    rw [check_eq, hs] at h
    obtain rfl : e = .cycleDetected n := by simpa [bind, Except.bind] using h
    exact cycle?_of_checkStructure hs
  | ok _ =>
    obtain ⟨v, hv⟩ := (checkStructure_eq_ok_iff.1 hs).onlyViolated_check _ h
    cases hv

/-- The check accepts exactly the consistent circuits, whatever the state of the circuit, and a node that it reports for
a cycle lies on one. -/
theorem check_sound_and_complete (c : Circuit) :
    (c.check = .ok () ↔ c.Consistent) ∧
      ∀ n, c.check = .error (.cycleDetected n) → c.Live n ∧ Relation.TransGen c.Below n n :=
  ⟨check_eq_ok_iff_consistent, fun _ h =>
    let ⟨hexp, hc⟩ := cycle?_of_check h
    cycle?_eq_some (fun k hk j hj => (hexp k hk).live j hj) hc⟩

end PowerTower.Circuit
