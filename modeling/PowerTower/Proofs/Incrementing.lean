import Mathlib
import PowerTower.Proofs.Doubling
import PowerTower.Proofs.Undisturbed

/-!
# Adding one

* `FreshUnit`, `WellFormed.freshUnit_looseUnit` : a new node of worth one, and nothing else;
* `OneMore`, `WellFormed.oneMore_of_reduced`, `WellFormed.oneMore_looseUnit` : reduced terms grow by carries, and others
  by a unit of their own;
* `Incremented` : a new marking that is worth one more, and nothing that was there before is changed;
* `increment_adds_one` : the same together with what comes in: reduced nodes if the marking is reduced, and one unit
  otherwise.
-/

namespace PowerTower.Circuit

open Guards

variable {c d : Circuit} {k m : Marking} {n u : Node} {a b : Marking} {ts us : List Term}

/-! ## A unit of its own -/

/-- A new node without successors, and nothing else. -/
structure FreshUnit (c : Circuit) (u : Node) (d : Circuit) : Prop where
  new : ¬ c.Live u
  successors : d.successors u = []
  live : ∀ n, d.Live n ↔ c.Live n ∨ n = u
  untouched : c.Untouched d

theorem FreshUnit.worth (h : FreshUnit c u d) : d.worth u = 1 := worth_of_successors_eq_nil h.successors

theorem FreshUnit.newMarking (h : FreshUnit c u d) (ts : List Term) : FreshUnit c u (d.newMarking ts).2 :=
  ⟨h.new, h.successors, h.live, h.untouched.trans untouched_newMarking⟩

theorem WellFormed.freshUnit_alloc (h : c.WellFormed) : FreshUnit c (c.alloc []).1 (c.alloc []).2 :=
  ⟨h.toStored.not_live_alloc [], h.toStored.alloc_successors_new [], fun _ => h.toStored.alloc_live_iff [],
    h.alloc_untouched []⟩

/-- The unit is made pending, or as the first reduced node. -/
theorem WellFormed.freshUnit_looseUnit (h : c.WellFormed) : FreshUnit c c.looseUnit.1 c.looseUnit.2 := by
  unfold Circuit.looseUnit
  split_ifs with hempty
  · obtain ⟨hcarried, -, hsuccessors⟩ := h.sound.ensureUnit
    have hu : c.unit? = none := by simp [unit?, Array.isEmpty_iff.1 hempty]
    refine ⟨?_, hsuccessors, fun _ => h.sound.live_ensureUnit hu, hcarried.grows.untouched⟩
    rw [ensureUnit_of_isEmpty hempty]
    exact h.toStored.not_live_alloc []
  · exact h.freshUnit_alloc

theorem WellFormed.looseUnit_cells (h : c.WellFormed) : c.looseUnit.2.cells = c.cells := by
  unfold Circuit.looseUnit
  split_ifs
  · exact h.sound.ensureUnit.1.grows.cells
  · exact alloc_cells

/-! ## Terms of one more -/

/-- Terms that are worth one more, in a circuit where nothing is changed but for what comes in. -/
structure OneMore (c : Circuit) (ts us : List Term) (d : Circuit) : Prop where
  wellFormed : d.WellFormed
  untouched : c.Untouched d
  cells : d.cells = c.cells
  proper : d.Proper us
  worth : d.termsWorth us = c.termsWorth ts + 1

theorem incremented_of_reduced (h : c.termsReduced ts = true) :
    Circuit.incremented ts c = c.incrementTerms ts := if_pos h

theorem incremented_of_not_reduced (h : c.termsReduced ts = false) :
    Circuit.incremented ts c = (ts ++ [(c.looseUnit.1, .plus)], c.looseUnit.2) := if_neg (by simp [h])

/-- Reduced terms grow by carries, and no pending node comes in. -/
theorem WellFormed.oneMore_of_reduced (h : c.WellFormed) (hts : c.Proper ts) (hr : ∀ n ∈ Terms.nodes ts, c.Reduced n) :
    OneMore c ts (c.incrementTerms ts).1 (c.incrementTerms ts).2 ∧
      (∀ n ∈ Terms.nodes (c.incrementTerms ts).1, (c.incrementTerms ts).2.Reduced n) ∧
      ∀ n, (c.incrementTerms ts).2.Pending n ↔ c.Pending n := by
  obtain ⟨hcarried, hproper, hreduced, hsum⟩ := h.sound.incrementTerms hts hr
  have hgrows := hcarried.grows
  exact ⟨⟨hcarried.wellFormed h, hgrows.untouched, hgrows.cells, hproper, hsum h.toConsistent⟩,
    hreduced, hgrows.pending⟩

/-- To all terms a unit of their own can be added. -/
theorem WellFormed.oneMore_looseUnit (h : c.WellFormed) (hts : c.Proper ts) :
    OneMore c ts (ts ++ [(c.looseUnit.1, .plus)]) c.looseUnit.2 := by
  obtain ⟨hd, -, hproper⟩ := h.looseUnit hts
  have hfresh := h.freshUnit_looseUnit
  have hold : Terms.sum c.looseUnit.2.worth ts = c.termsWorth ts := hfresh.untouched.termsWorth_eq h.toLinked hts.live
  refine ⟨hd, hfresh.untouched, h.looseUnit_cells, hproper, ?_⟩
  rw [termsWorth, Terms.sum_append, hold, Terms.sum_cons, Terms.sum_nil, hfresh.worth]
  simp

/-! ## The marking of one more -/

theorem isReduced_eq (hm : m.circuit = c.id) : c.isReduced m = .ok (c.termsReduced (c.termsOf m)) := by
  rw [isReduced, checkMarking_eq_ok_iff.2 hm]
  rfl

theorem Untouched.isReducedNode_eq (h : c.Untouched d) (hn : c.Live n) : d.isReducedNode n = c.isReducedNode n := by
  rcases reduced_or_pending hn with hr | hp
  · rw [isReducedNode, (h.reduced hr).2]
    exact hr.2.symm
  · rw [isReducedNode, isReducedNode, ((h.pending n hn).2 hp).2, hp.2]

theorem Untouched.termsReduced_eq (h : c.Untouched d) (hts : ∀ n ∈ Terms.nodes ts, c.Live n) :
    d.termsReduced ts = c.termsReduced ts := by
  rw [Bool.eq_iff_iff, termsReduced, termsReduced, List.all_eq_true, List.all_eq_true]
  exact forall₂_congr fun t ht => by rw [h.isReducedNode_eq (hts t.1 (Terms.mem_nodes_of_mem ht))]

theorem Untouched.solid (h : c.Untouched d) (hm : c.Solid m) : d.Solid m where
  own := hm.own.trans h.id.symm
  held := by
    rw [h.cells m.id hm.held]
    exact hm.held
  reduced := fun n hn => by
    rw [nodesOf, h.termsOf_eq hm.held] at hn
    exact h.reduced (hm.reduced n hn)

theorem Untouched.value_eq (h : c.Untouched d) (hc : c.WellFormed) (hm : c.Solid m) :
    d.termsWorth (d.termsOf m) = c.termsWorth (c.termsOf m) := by
  rw [h.termsOf_eq hm.held]
  exact h.termsWorth_eq hc.toLinked (hc.markings m.id hm.held).live

theorem WellFormed.compare_of_solid (h : c.WellFormed) (ha : c.Solid a) (hb : c.Solid b) :
    c.compare a b = .ok (compare (c.termsWorth (c.termsOf a)) (c.termsWorth (c.termsOf b))) :=
  (Frozen.refl c).compare_worth h.grounded h.grounded ha hb

/-- `k` is a new marking that is worth one more than `m`. What was there before is still there: nodes, exponents,
pending nodes, reduced nodes and all other markings. -/
structure Incremented (c : Circuit) (m k : Marking) (d : Circuit) : Prop where
  wellFormed : d.WellFormed
  untouched : c.Untouched d
  own : k.circuit = d.id
  held : 0 < (d.cellAt k.id).handles
  new : ¬ 0 < (c.cellAt k.id).handles
  cells : ∀ i, i ≠ k.id → d.cellAt i = c.cellAt i
  worth : d.termsWorth (d.termsOf k) = c.termsWorth (c.termsOf m) + 1

theorem OneMore.incremented (h : OneMore c (c.termsOf m) ts d) :
    Incremented c m (d.newMarking ts).1 (d.newMarking ts).2 where
  wellFormed := h.wellFormed.newMarking h.proper
  untouched := h.untouched.trans untouched_newMarking
  own := rfl
  held := newMarking_handles d ts
  new := h.untouched.newMarking_new ts
  cells := fun i hi => (newMarking_cellAt_of_ne hi).trans (cellAt_of_cells_eq h.cells i)
  worth := by
    rw [newMarking_termsOf]
    exact h.worth

theorem run_increment (hown : m.circuit = c.id) (heq : Circuit.incremented (c.termsOf m) c = (us, d)) :
    (increment m).run c = (.ok (d.newMarking us).1, (d.newMarking us).2) := by
  obtain ⟨rfl, rfl⟩ : us = (Circuit.incremented (c.termsOf m) c).1 ∧ d = (Circuit.incremented (c.termsOf m) c).2 := by
    rw [heq]
    exact ⟨rfl, rfl⟩
  exact run_own hown

/-- The successor of a reduced marking is reduced and greater, and no pending node comes in for it. -/
theorem WellFormed.increment_of_reduced (h : c.WellFormed) (hown : m.circuit = c.id)
    (hheld : 0 < (c.cellAt m.id).handles)
    (hr : ∀ n ∈ c.nodesOf m, c.Reduced n) : ∃ k d, (increment m).run c = (.ok k, d) ∧ Incremented c m k d ∧
      (∀ n ∈ d.nodesOf k, d.Reduced n) ∧ (∀ n, d.Pending n ↔ c.Pending n) ∧ d.compare m k = .ok .lt := by
  have hsolid : c.Solid m := ⟨hown, hheld, hr⟩
  have hts : c.Proper (c.termsOf m) := h.markings m.id hheld
  obtain ⟨hmore, hreduced, hpending⟩ := h.oneMore_of_reduced hts hr
  generalize hus : c.incrementTerms (c.termsOf m) = r at hmore hreduced hpending
  have hinc := hmore.incremented
  have hu := hinc.untouched
  have hk : ∀ n ∈ (r.2.newMarking r.1).2.nodesOf (r.2.newMarking r.1).1, (r.2.newMarking r.1).2.Reduced n :=
      fun n hn => by
    rw [nodesOf, newMarking_termsOf] at hn
    exact hreduced n hn
  have heq : Circuit.incremented (c.termsOf m) c = r := (incremented_of_reduced (termsReduced_of_forall hr)).trans hus
  refine ⟨_, _, run_increment hown heq, hinc, hk, hpending, ?_⟩
  rw [hinc.wellFormed.compare_of_solid (hu.solid hsolid) ⟨hinc.own, hinc.held, hk⟩, hinc.worth, hu.value_eq h hsolid]
  exact congrArg _ (compare_lt_iff_lt.2 (lt_add_one _))

/-- The successor of a marking that is not reduced has one more entry, for a new node of worth one. -/
theorem WellFormed.increment_of_not_reduced (h : c.WellFormed) (hown : m.circuit = c.id)
    (hheld : 0 < (c.cellAt m.id).handles) (hr : c.termsReduced (c.termsOf m) = false) :
    ∃ k d, (increment m).run c = (.ok k, d) ∧ Incremented c m k d ∧
      ∃ u, FreshUnit c u d ∧ d.termsOf k = c.termsOf m ++ [(u, .plus)] := by
  have hmore := h.oneMore_looseUnit (h.markings m.id hheld)
  exact ⟨_, _, run_increment hown (incremented_of_not_reduced hr), hmore.incremented, _,
    h.freshUnit_looseUnit.newMarking _,
    newMarking_termsOf _ _⟩

/-- Every marking has a successor. That of a reduced marking is reduced, greater, and no pending node comes in for it;
that of another marking is not reduced, and has one more entry, for a new node of worth one. -/
theorem increment_adds_one (h : c.WellFormed) (hown : m.circuit = c.id) (hheld : 0 < (c.cellAt m.id).handles) :
    ∃ k d, (increment m).run c = (.ok k, d) ∧ Incremented c m k d ∧ d.isReduced k = c.isReduced m ∧
      (c.isReduced m = .ok true → (∀ n, d.Pending n ↔ c.Pending n) ∧ d.compare m k = .ok .lt) ∧
      (c.isReduced m = .ok false → ∃ u, FreshUnit c u d ∧ d.termsOf k = c.termsOf m ++ [(u, .plus)]) := by
  have hts : c.Proper (c.termsOf m) := h.markings m.id hheld
  rw [isReduced_eq hown]
  cases hr : c.termsReduced (c.termsOf m) with
  | true =>
    obtain ⟨k, d, hrun, hinc, hk, hrest⟩ := h.increment_of_reduced hown hheld (hts.reduced_of_termsReduced hr)
    refine ⟨k, d, hrun, hinc, ?_, fun _ => hrest, fun hf => by simp at hf⟩
    rw [isReduced_eq hinc.own, termsReduced_of_forall hk]
  | false =>
    obtain ⟨k, d, hrun, hinc, u, hfresh, hk⟩ := h.increment_of_not_reduced hown hheld hr
    refine ⟨k, d, hrun, hinc, ?_, fun hf => by simp at hf, fun _ => ⟨u, hfresh, hk⟩⟩
    rw [isReduced_eq hinc.own, hk, termsReduced, List.all_append]
    exact congrArg Except.ok (Bool.and_eq_false_imp.2 fun hall => by
      rw [← termsReduced, hinc.untouched.termsReduced_eq hts.live, hr] at hall
      cases hall)

/-- The marking of one is incremented to two, with the double of the unit. -/
theorem increment_of_one : onlyUnit.WellFormed ∧ onlyUnit.isReduced ⟨⟨0⟩, 0⟩ = .ok true ∧
    ∃ k d, (increment ⟨⟨0⟩, 0⟩).run onlyUnit = (.ok k, d) ∧ d.isReduced k = .ok true ∧
      d.termsWorth (d.termsOf k) = 2 ∧ d.compare ⟨⟨0⟩, 0⟩ k = .ok .lt := by
  have hreduced : onlyUnit.isReduced ⟨⟨0⟩, 0⟩ = .ok true := by cbv
  obtain ⟨k, d, hrun, hinc, hk, hcarry, -⟩ := increment_adds_one wellFormed_onlyUnit (m := ⟨⟨0⟩, 0⟩) rfl (by decide)
  have hone : onlyUnit.worth ⟨⟨0⟩, 0, 0⟩ = 1 := worth_of_successors_eq_nil rfl
  have hterms : onlyUnit.termsOf ⟨⟨0⟩, 0⟩ = [(⟨⟨0⟩, 0, 0⟩, .plus)] := rfl
  refine ⟨wellFormed_onlyUnit, hreduced, k, d, hrun, hk.trans hreduced, ?_, (hcarry hreduced).2⟩
  rw [hinc.worth, hterms, termsWorth, Terms.sum_cons, Terms.sum_nil, hone]
  norm_num

end PowerTower.Circuit
