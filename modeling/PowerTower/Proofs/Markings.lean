import Mathlib
import PowerTower.Proofs.Making

/-!
# Comparing markings

* `Counts`, `Marks`, `WellFormed.createMarking` : the marking of an integer is reduced and worth that integer, and goes
  on to be so while others are made;
* `compareTerms_eq_compare_worth` : term lists and markings are compared by their worth if they are reduced, and refused
  otherwise;
* `compare_created` : created markings are ordered like the integers.
-/

namespace PowerTower.Circuit

variable {c d : Circuit} {a b m : Marking} {n : Node} {ts : List Term} {v w : ℤ}

/-! ## Created markings -/

/-- A live marking of this circuit that is reduced and worth an integer. -/
structure Marks (c : Circuit) (m : Marking) (v : ℤ) : Prop where
  own : m.circuit = c.id
  live : 0 < (c.cellAt m.id).handles
  reduced : ∀ n ∈ c.nodesOf m, c.Reduced n
  worth : c.termsWorth (c.termsOf m) = v

/-- A live marking of this circuit that is worth an integer. -/
structure Counts (c : Circuit) (m : Marking) (v : ℤ) : Prop where
  own : m.circuit = c.id
  held : 0 < (c.cellAt m.id).handles
  worth : c.termsWorth (c.termsOf m) = v

theorem Marks.counts (h : c.Marks m v) : c.Counts m v := ⟨h.own, h.live, h.worth⟩

/-- A marking is reduced as soon as its pending nodes are, and keeps its worth. -/
theorem Counts.marks {done : List Node} (h : c.Counts m v) (hr : Reduces c done d) (hp : Preserves c done d)
    (hpending : ∀ n ∈ c.nodesOf m, c.Pending n → n ∈ done) : d.Marks m v where
  own := h.own.trans hr.id.symm
  live := by
    rw [hr.handles m.id]
    exact h.held
  reduced := hr.reduced_of_held h.held hpending
  worth := (hp.markings m.id h.held).trans h.worth

theorem Marks.carried (h : c.Marks m v) (hl : c.Linked) (hd : c.Carried d) : d.Marks m v := by
  have hcell : d.cellAt m.id = c.cellAt m.id := by rw [cellAt, hd.grows.cells, cellAt]
  have hterms : d.termsOf m = c.termsOf m := congrArg Cell.terms hcell
  refine ⟨h.own.trans hd.grows.id.symm, by rw [hcell]; exact h.live, fun n hn => ?_, ?_⟩
  · rw [nodesOf, hterms] at hn
    exact hd.grows.reduced (h.reduced n hn)
  · rw [hterms, ← h.worth]
    exact Terms.sum_congr fun n hn => hd.grows.worth_eq hl (h.reduced n hn).1

theorem Marks.newMarking (h : c.Marks m v) : (c.newMarking ts).2.Marks m v := by
  have hcell : (c.newMarking ts).2.cellAt m.id = c.cellAt m.id := by
    rw [newMarking_cellAt, if_neg (lt_size_of_handles h.live).ne]
  have hterms : (c.newMarking ts).2.termsOf m = c.termsOf m := congrArg Cell.terms hcell
  refine ⟨h.own, by rw [hcell]; exact h.live, fun n hn => ?_, ?_⟩
  · rw [nodesOf, hterms] at hn
    exact h.reduced n hn
  · rw [hterms]
    exact h.worth

theorem marks_newMarking (hr : ∀ n ∈ Terms.nodes ts, c.Reduced n) (hw : c.termsWorth ts = v) :
    (c.newMarking ts).2.Marks (c.newMarking ts).1 v := by
  have hcell : (c.newMarking ts).2.cellAt (c.newMarking ts).1.id = ⟨ts, 1⟩ := by
    rw [newMarking_cellAt]
    exact if_pos rfl
  have hterms : (c.newMarking ts).2.termsOf (c.newMarking ts).1 = ts := congrArg Cell.terms hcell
  refine ⟨rfl, by rw [hcell]; exact Nat.one_pos, fun n hn => ?_, ?_⟩
  · rw [nodesOf, hterms] at hn
    exact hr n hn
  · rw [hterms]
    exact hw

/-- The marking of an integer is made, and those made before go on to be worth what they are worth. -/
theorem WellFormed.createMarking (h : c.WellFormed) (v : ℤ) : ∃ m d, (createMarking v).run c = (.ok m, d) ∧
    d.WellFormed ∧ d.Marks m v ∧ ∀ k w, c.Marks k w → d.Marks k w := by
  obtain ⟨hcarried, hproper, hreduced, hworth⟩ := h.integerTerms v
  exact ⟨_, _, rfl, (hcarried.wellFormed h).newMarking hproper, marks_newMarking hreduced hworth,
    fun k w hk => (hk.carried h.toLinked hcarried).newMarking⟩

/-- Two integers, one after the other. -/
def createTwo (v w : ℤ) : Call CircuitError (Marking × Marking) := do
  return (← Circuit.createMarking v, ← Circuit.createMarking w)

theorem WellFormed.createTwo (h : c.WellFormed) (v w : ℤ) : ∃ a b d, (createTwo v w).run c = (.ok (a, b), d) ∧
    d.WellFormed ∧ d.Marks a v ∧ d.Marks b w := by
  obtain ⟨a, d, hrun, hd, ha, -⟩ := h.createMarking v
  obtain ⟨b, e, hrun', he, hb, hkept⟩ := hd.createMarking w
  refine ⟨a, b, e, ?_, he, hkept a v ha, hb⟩
  rw [Circuit.createTwo, Call.run_bind_ok hrun, Call.run_bind_ok hrun']
  rfl

/-! ## Comparison -/

/-- In a well-formed circuit two term lists over live nodes are compared by their worth, `bias` added to the second one,
exactly if both are reduced; and so are two live markings. -/
theorem compareTerms_eq_compare_worth (h : c.WellFormed) :
    (∀ lhs rhs : List Term, ∀ bias : ℤ, c.Proper lhs → c.Proper rhs → |bias| ≤ 1 →
      c.compareTerms lhs rhs bias =
        if (∀ n ∈ Terms.nodes lhs ++ Terms.nodes rhs, c.isReducedNode n = true) then
          .ok (compare (c.termsWorth lhs) (c.termsWorth rhs + bias))
        else .error .notReduced) ∧
    ∀ a b : Marking, a.circuit = c.id → b.circuit = c.id → 0 < (c.cellAt a.id).handles →
      0 < (c.cellAt b.id).handles →
      c.compare a b =
        if (∀ n ∈ c.nodesOf a ++ c.nodesOf b, c.isReducedNode n = true) then
          .ok (compare (c.termsWorth (c.termsOf a)) (c.termsWorth (c.termsOf b)))
        else .error .notReduced := by
  have key : ∀ lhs rhs : List Term, ∀ bias : ℤ, c.Proper lhs → c.Proper rhs → |bias| ≤ 1 →
      c.compareTerms lhs rhs bias =
        if (∀ n ∈ Terms.nodes lhs ++ Terms.nodes rhs, c.isReducedNode n = true) then
          .ok (compare (c.termsWorth lhs) (c.termsWorth rhs + bias))
        else .error .notReduced := by
    intro lhs rhs bias hl hr hb
    split_ifs with hall
    · exact h.compareTerms_eq hl hr (fun n hn => ⟨hl.live n hn, hall n (by simp [hn])⟩)
        (fun n hn => ⟨hr.live n hn, hall n (by simp [hn])⟩) hb
    · refine compareTerms_eq_error fun ⟨h1, h2⟩ => hall fun n hn => ?_
      rcases List.mem_append.1 hn with hn | hn
      · exact (hl.reduced_of_termsReduced h1 n hn).2
      · exact (hr.reduced_of_termsReduced h2 n hn).2
  refine ⟨key, fun a b ha hb hla hlb => ?_⟩
  have := key (c.termsOf a) (c.termsOf b) 0 (h.markings _ hla) (h.markings _ hlb) (by simp)
  rw [Int.cast_zero, add_zero] at this
  rw [Circuit.compare, checkMarking, checkMarking, if_pos ha, if_pos hb]
  exact this

/-- The markings of five and three. -/
theorem compare_of_five_and_three : ∃ a b d, (createTwo 5 3).run (empty ⟨0⟩ .checked) = (.ok (a, b), d) ∧
    d.WellFormed ∧ d.compare a b = .ok .gt := by
  obtain ⟨a, b, d, hrun, hd, ha, hb⟩ := (wellFormed_empty ⟨0⟩ .checked).createTwo 5 3
  refine ⟨a, b, d, hrun, hd, ?_⟩
  have hreduced : ∀ n ∈ d.nodesOf a ++ d.nodesOf b, d.isReducedNode n = true := fun n hn =>
    (List.mem_append.1 hn).elim (fun hn => (ha.reduced n hn).2) fun hn => (hb.reduced n hn).2
  rw [(compareTerms_eq_compare_worth hd).2 a b ha.own hb.own ha.live hb.live, if_pos hreduced, ha.worth, hb.worth]
  exact congrArg _ (compare_gt_iff_gt.2 (by norm_num))

theorem compare_intCast (v w : ℤ) : compare (v : ℝ) (w : ℝ) = compare v w := by
  rw [← cmp_eq_compare, ← cmp_eq_compare]
  exact Int.cast_strictMono.cmp_map_eq v w

theorem WellFormed.compare_of_marks (h : c.WellFormed) (ha : c.Marks a v) (hb : c.Marks b w) :
    c.compare a b = .ok (compare v w) := by
  have heq := h.compareTerms_eq (h.markings _ ha.live) (h.markings _ hb.live) ha.reduced hb.reduced
    (show |(0 : ℤ)| ≤ 1 by simp)
  have hsum : c.termsWorth (c.cellAt b.id).terms = w := hb.worth
  rw [hsum, Int.cast_zero, add_zero] at heq
  rw [Circuit.compare, checkMarking_eq_ok_iff.2 ha.own, checkMarking_eq_ok_iff.2 hb.own, ← compare_intCast, ← ha.worth]
  exact heq

/-- Created markings are ordered like the integers that they were made of. -/
theorem compare_created (h : c.WellFormed) (v w : ℤ) : ∃ a b d, (createTwo v w).run c = (.ok (a, b), d) ∧
    d.compare a b = .ok (compare v w) := by
  obtain ⟨a, b, d, hrun, hd, ha, hb⟩ := h.createTwo v w
  exact ⟨a, b, d, hrun, hd.compare_of_marks ha hb⟩

end PowerTower.Circuit
