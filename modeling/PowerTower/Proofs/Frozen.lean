import Mathlib
import PowerTower.Proofs.Grounded

/-!
# What does not change

* `Frozen` : reduced nodes stay reduced and keep their exponents, and reduced markings keep their terms;
* `Frozen.order_sublist` : then they keep their order, whatever comes in between;
* `Solid`, `Frozen.compare_eq`, `Frozen.smallestNode_eq` : and what is asked about reduced markings is answered as
  before, though ranks and flags may have changed;
* `frozen_alloc`, `frozen_newMarking`, …, `Along.frozen` : changes that leave all that is reduced alone.
-/

namespace PowerTower.Circuit

variable {B : ℕ → Bool} {c d e : Circuit} {a b m : Marking} {k n : Node} {lhs rhs ts : List Term} {done : List Node}
  {bias : ℤ} {i : ℕ}

/-- Reduced nodes stay reduced and keep their exponents, and reduced markings keep their terms. -/
structure Frozen (c d : Circuit) : Prop where
  id : d.id = c.id
  config : d.config = c.config
  extend : c.Extends d
  size : c.cells.size ≤ d.cells.size
  terms : ∀ i < c.cells.size, (∀ n ∈ Terms.nodes (c.cellAt i).terms, c.Reduced n) →
    (d.cellAt i).terms = (c.cellAt i).terms

theorem Frozen.refl (c : Circuit) : Frozen c c := ⟨rfl, rfl, .refl c, le_rfl, fun _ _ _ => rfl⟩

theorem Frozen.trans (h : Frozen c d) (h' : Frozen d e) : Frozen c e where
  id := h'.id.trans h.id
  config := h'.config.trans h.config
  extend := h.extend.trans h'.extend
  size := h.size.trans h'.size
  terms := fun i hi hr => by
    have hterms := h.terms i hi hr
    rw [h'.terms i (hi.trans_le h.size) fun n hn => (h.extend n (hr n (hterms ▸ hn))).1, hterms]

/-! ## Order -/

theorem Grounded.nodup_order (h : c.Grounded) : c.order.toList.Nodup :=
  h.increasing.imp fun hlt heq => (heq ▸ hlt).false

theorem Frozen.worth_eq (h : Frozen c d) (hc : c.Grounded) (hn : c.Reduced n) : d.worth n = c.worth n :=
  h.extend.worth_eq_of_legal hc.toTied hn (hc.legal n hn)

/-- The old reduced nodes are among the new ones, and both stand in the order of their worth. -/
theorem Frozen.order_sublist (h : Frozen c d) (hc : c.Grounded) (hd : d.Grounded) :
    c.order.toList.Sublist d.order.toList := by
  have hantisymm : Std.Antisymm fun m n => d.worth m < d.worth n := ⟨fun _ _ hlt hgt => absurd hlt hgt.not_gt⟩
  refine List.sublist_of_subperm_of_pairwise (List.subperm_of_subset hc.nodup_order fun n hn => ?_) ?_ hd.increasing
  · exact hd.toTied.mem_order.2 (h.extend n (hc.toTied.mem_order.1 hn)).1
  · refine hc.increasing.imp_of_mem fun {m n} hm hn hlt => ?_
    rwa [h.worth_eq hc (hc.toTied.mem_order.1 hm), h.worth_eq hc (hc.toTied.mem_order.1 hn)]

/-! ## Comparisons -/

/-- With all pending nodes veiled the circuit is well formed, and compares alike. -/
theorem Grounded.compareTerms_eq (h : c.Grounded) (hlhs : c.Proper lhs) (hrhs : c.Proper rhs)
    (hlr : ∀ n ∈ Terms.nodes lhs, c.Reduced n) (hrr : ∀ n ∈ Terms.nodes rhs, c.Reduced n) (hb : |bias| ≤ 1) :
    c.compareTerms lhs rhs bias = .ok (compare (c.termsWorth lhs) (c.termsWorth rhs + bias)) := by
  have hwf := h.wellFormed_veil_all
  have hsame := (h.apart []).veil_sameReduced
  have hworth : ∀ ts : List Term, (∀ n ∈ Terms.nodes ts, c.Reduced n) →
      (c.veil (c.unlisted [])).termsWorth ts = c.termsWorth ts := fun ts hr => Terms.sum_congr fun n hn =>
    hsame.extends.worth_eq_of_legal h.toTied (hr n hn) (h.legal n (hr n hn))
  rw [← veil_compareTerms, hwf.compareTerms_eq (veil_proper_iff.2 hlhs) (veil_proper_iff.2 hrhs)
    (fun n hn => veil_reduced_iff.2 (hlr n hn)) (fun n hn => veil_reduced_iff.2 (hrr n hn)) hb, hworth lhs hlr,
    hworth rhs hrr]

/-- A live marking of this circuit whose nodes are reduced. -/
structure Solid (c : Circuit) (m : Marking) : Prop where
  own : m.circuit = c.id
  held : 0 < (c.cellAt m.id).handles
  reduced : ∀ n ∈ c.nodesOf m, c.Reduced n

theorem Frozen.termsOf_eq (h : Frozen c d) (hm : c.Solid m) : d.termsOf m = c.termsOf m :=
  h.terms m.id (lt_size_of_handles hm.held) hm.reduced

theorem Frozen.reduced_of_mem (h : Frozen c d) (hm : c.Solid m) (hn : n ∈ Terms.nodes (c.termsOf m)) : d.Reduced n :=
  (h.extend n (hm.reduced n hn)).1

theorem Frozen.proper_termsOf (h : Frozen c d) (hc : c.Grounded) (hm : c.Solid m) : d.Proper (c.termsOf m) :=
  ⟨(hc.markings m.id hm.held).toProper, fun _ hn => (h.reduced_of_mem hm hn).1⟩

theorem Frozen.checkMarking_eq (h : Frozen c d) (hm : c.Solid m) : d.checkMarking m = .ok () :=
  checkMarking_eq_ok_iff.2 (hm.own.trans h.id.symm)

theorem Frozen.solid (h : Frozen c d) (hm : c.Solid m) (hheld : 0 < (d.cellAt m.id).handles) : d.Solid m where
  own := hm.own.trans h.id.symm
  held := hheld
  reduced := fun n hn => h.reduced_of_mem hm (by rwa [nodesOf, h.termsOf_eq hm] at hn)

theorem Frozen.termsWorth_eq (h : Frozen c d) (hc : c.Grounded) (hm : c.Solid m) :
    d.termsWorth (c.termsOf m) = c.termsWorth (c.termsOf m) :=
  Terms.sum_congr fun n hn => h.worth_eq hc (hm.reduced n hn)

/-- Reduced markings are still compared by what they were worth. -/
theorem Frozen.compare_worth (h : Frozen c d) (hc : c.Grounded) (hd : d.Grounded) (ha : c.Solid a) (hb : c.Solid b) :
    d.compare a b = .ok (compare (c.termsWorth (c.termsOf a)) (c.termsWorth (c.termsOf b))) := by
  have hcompare : d.compareTerms (c.termsOf a) (c.termsOf b) 0 =
      .ok (compare (d.termsWorth (c.termsOf a)) (d.termsWorth (c.termsOf b) + (0 : ℤ))) :=
    hd.compareTerms_eq (h.proper_termsOf hc ha) (h.proper_termsOf hc hb) (fun _ hn => h.reduced_of_mem ha hn)
      (fun _ hn => h.reduced_of_mem hb hn) (by simp)
  rw [Circuit.compare, h.checkMarking_eq ha, h.checkMarking_eq hb, h.termsOf_eq ha, h.termsOf_eq hb,
    ← h.termsWorth_eq hc ha, ← h.termsWorth_eq hc hb]
  rw [Int.cast_zero, add_zero] at hcompare
  exact hcompare

theorem Frozen.compare_eq (h : Frozen c d) (hc : c.Grounded) (hd : d.Grounded) (ha : c.Solid a) (hb : c.Solid b) :
    d.compare a b = c.compare a b :=
  (h.compare_worth hc hd ha hb).trans ((Frozen.refl c).compare_worth hc hc ha hb).symm

/-! ## The smallest node -/

theorem mem_nodes_of_lowest (h : c.lowest ts = some n) : n ∈ Terms.nodes ts := by
  induction ts generalizing n with
  | nil => cases h
  | cons t ts ih =>
    obtain ⟨m, s⟩ := t
    rw [lowest] at h
    cases hrest : c.lowest ts with
    | none => simp_all
    | some k =>
      have hk := ih hrest
      rw [hrest] at h
      dsimp only at h
      split_ifs at h <;> simp_all

/-- The smallest node depends only on how the ranks of the nodes compare. -/
theorem lowest_congr
    (h : ∀ m ∈ Terms.nodes ts, ∀ n ∈ Terms.nodes ts, d.rankOf m < d.rankOf n ↔ c.rankOf m < c.rankOf n) :
    d.lowest ts = c.lowest ts := by
  induction ts with
  | nil => rfl
  | cons t ts ih =>
    obtain ⟨n, s⟩ := t
    have hrest := ih fun m hm k hk => h m (by simp [hm]) k (by simp [hk])
    rw [lowest, lowest, hrest]
    cases hl : c.lowest ts with
    | none => rfl
    | some m =>
      have hm := mem_nodes_of_lowest hl
      exact if_congr (h m (by simp [hm]) n (by simp)) rfl rfl

/-- Ranks compare like worths. -/
theorem Grounded.rankOf_lt_iff (h : c.Grounded) (hk : c.Reduced k) (hn : c.Reduced n) :
    c.rankOf k < c.rankOf n ↔ c.worth k < c.worth n := by
  obtain ⟨i, hi⟩ := hk.exists_rank
  obtain ⟨j, hj⟩ := hn.exists_rank
  have hki := (h.ranked i k).2 ⟨hk.1, hi⟩
  have hnj := (h.ranked j n).2 ⟨hn.1, hj⟩
  rw [rankOf, rankOf, hi, hj, Option.getD_some, Option.getD_some]
  refine ⟨h.worth_lt hki hnj, fun hlt => ?_⟩
  by_contra hle
  exact (h.worth_le hnj hki (not_lt.1 hle)).not_gt hlt

theorem smallestNode_of_reduced (hown : c.checkMarking m = .ok ()) (hr : ∀ n ∈ c.nodesOf m, c.Reduced n) :
    c.smallestNode m = .ok (c.lowest (c.termsOf m)) := by
  rw [smallestNode, hown, termsReduced_of_forall hr]
  rfl

theorem Frozen.smallestNode_eq (h : Frozen c d) (hc : c.Grounded) (hd : d.Grounded) (hm : c.Solid m) :
    d.smallestNode m = c.smallestNode m := by
  have hlowest : d.lowest (c.termsOf m) = c.lowest (c.termsOf m) := lowest_congr fun k hk n hn => by
    rw [hd.rankOf_lt_iff (h.reduced_of_mem hm hk) (h.reduced_of_mem hm hn),
      hc.rankOf_lt_iff (hm.reduced k hk) (hm.reduced n hn), h.worth_eq hc (hm.reduced k hk),
      h.worth_eq hc (hm.reduced n hn)]
  rw [smallestNode_of_reduced (h.checkMarking_eq hm)
      (by rw [nodesOf, h.termsOf_eq hm]; exact fun _ hn => h.reduced_of_mem hm hn),
    smallestNode_of_reduced ((Frozen.refl c).checkMarking_eq hm) hm.reduced, h.termsOf_eq hm, hlowest]

/-! ## Changes that leave all that is reduced alone -/

theorem Frozen.of_cells_eq (hid : d.id = c.id) (hconfig : d.config = c.config) (hext : c.Extends d)
    (hcells : d.cells = c.cells) : Frozen c d :=
  ⟨hid, hconfig, hext, by rw [hcells], fun i _ _ => by rw [cellAt, hcells, cellAt]⟩

theorem Grounded.frozen_alloc (h : c.Grounded) (ts : List Term) : Frozen c (c.alloc ts).2 :=
  .of_cells_eq alloc_id alloc_config (h.toStored.alloc_sameReduced h.toTied ts).extends alloc_cells

theorem Pending.frozen_setSuccessors (hn : c.Pending n) (ts : List Term) : Frozen c (c.setSuccessors n ts) :=
  .of_cells_eq rfl rfl (hn.setSuccessors_sameReduced ts).extends rfl

theorem frozen_newMarking : Frozen c (c.newMarking ts).2 where
  id := rfl
  config := rfl
  extend := .refl c
  size := by simp [newMarking]
  terms := fun i hi _ => by rw [newMarking_cellAt, if_neg hi.ne]

theorem frozen_modifyCell {f : Cell → Cell} (hterms : ∀ k, (f k).terms = k.terms) : Frozen c (c.modifyCell i f) where
  id := rfl
  config := rfl
  extend := .refl c
  size := by simp [modifyCell]
  terms := fun j _ _ => by
    rw [cellAt_modifyCell]
    split_ifs
    · exact hterms _
    · rfl

/-- A step behind a veil in which some pending nodes are taken care of. Reduced markings mention none of these. -/
theorem Along.frozen (h : Along B done c d) (hc : Apart B c) (hdone : ∀ n ∈ done, c.Pending n)
    (hext : (c.veil B).Extends (d.veil B)) (hid : d.id = c.id) (hconfig : d.config = c.config) : Frozen c d where
  id := hid
  config := hconfig
  extend := (hc.veil_sameReduced.extends.trans hext).trans h.toApart.veil_sameReduced.symm.extends
  size := h.size.ge
  terms := fun i _ hr => by
    rw [h.cells i fun n hn hmem => (hdone n hn).not_reduced (hr n hmem)]

end PowerTower.Circuit
