import Mathlib
import PowerTower.Circuit.Copy
import PowerTower.Proofs.Making

/-!
# Copies

* `rehomed_live_iff`, `rehomed_below_iff`, `rehomed_worth` : a copy has the same nodes under other names, with the same
  worths;
* `WellFormed.rehomed` : it is well formed without its markings;
* `WellFormed.copy` : and with those that are kept.
-/

namespace PowerTower.Circuit

open Guards

variable {c d : Circuit} {id : CircuitId} {k m n : Node} {keep : List Marking} {ts : List Term} {i r : ℕ}

/-! ## Other names -/

theorem nodes_rehome : Terms.nodes (Terms.rehome id ts) = (Terms.nodes ts).map fun n => n.rehome id := by
  simp [Terms.nodes, Terms.rehome]

theorem sum_rehome (w : Node → ℝ) : Terms.sum w (Terms.rehome id ts) = Terms.sum (fun n => w (n.rehome id)) ts := by
  simp [Terms.sum, Terms.rehome, Function.comp_def]

theorem Live.rehome_rehome (hn : c.Live n) (id : CircuitId) : (n.rehome id).rehome c.id = n := by
  rw [← hn.1]
  rfl

theorem rehomed_slotAt (i : ℕ) : (c.rehomed id).slotAt i =
    { c.slotAt i with successors := Terms.rehome id (c.slotAt i).successors } := by
  unfold slotAt
  rw [rehomed, Array.getElem?_map]
  exact Option.getD_map (fun s : Slot => { s with successors := Terms.rehome id s.successors }) {} _

theorem rehomed_live_iff : (c.rehomed id).Live n ↔ n.circuit = id ∧ c.Live (n.rehome c.id) := by
  rw [Live, Live, slot, rehomed_slotAt]
  exact and_congr_right fun _ => (and_iff_right rfl).symm

theorem Live.rehome (hn : c.Live n) (id : CircuitId) : (c.rehomed id).Live (n.rehome id) :=
  rehomed_live_iff.2 ⟨rfl, by rwa [hn.rehome_rehome id]⟩

theorem rehomed_rank? : (c.rehomed id).rank? n = c.rank? (n.rehome c.id) := by
  rw [rank?, slot, rehomed_slotAt]
  rfl

theorem rehomed_successors : (c.rehomed id).successors n = Terms.rehome id (c.successors (n.rehome c.id)) := by
  rw [successors, slot, rehomed_slotAt]
  rfl

theorem rehomed_reduced_iff : (c.rehomed id).Reduced n ↔ n.circuit = id ∧ c.Reduced (n.rehome c.id) := by
  rw [Reduced, rehomed_live_iff, rehomed_rank?, and_assoc]
  rfl

theorem rehomed_below_iff : (c.rehomed id).Below m n ↔ ∃ k, c.Below k (n.rehome c.id) ∧ k.rehome id = m := by
  rw [Below, successorNodes, rehomed_successors, nodes_rehome, List.mem_map]
  rfl

theorem Proper.rehome (h : c.Proper ts) (id : CircuitId) : (c.rehomed id).Proper (Terms.rehome id ts) where
  nodup := by
    rw [nodes_rehome]
    refine h.nodup.map_on fun m hm n hn he => ?_
    rw [← (h.live m hm).rehome_rehome id, he, (h.live n hn).rehome_rehome]
  nonzero := fun t ht => by
    obtain ⟨u, hu, rfl⟩ := List.mem_map.1 ht
    exact h.nonzero u hu
  live := fun n hn => by
    rw [nodes_rehome] at hn
    obtain ⟨m, hm, rfl⟩ := List.mem_map.1 hn
    exact (h.live m hm).rehome id

/-! ## Worths -/

theorem Linked.rehomed_acc (hl : c.Linked) (hn : (c.rehomed id).Live n) : Acc (c.rehomed id).Below n := by
  generalize hk : n.rehome c.id = k
  have hlive : c.Live k := hk ▸ (rehomed_live_iff.1 hn).2
  have hacc := hl.acc hlive
  induction hacc generalizing n with
  | intro k _ ih =>
    refine Acc.intro n fun m hm => ?_
    obtain ⟨j, hj, rfl⟩ := rehomed_below_iff.1 hm
    rw [hk] at hj
    have hj' := hl.live_of_below hlive hj
    exact ih j hj (hj'.rehome id) (hj'.rehome_rehome id) hj'

theorem Linked.rehomed_live_of_below (hl : c.Linked) (hn : (c.rehomed id).Live n) (hm : (c.rehomed id).Below m n) :
    (c.rehomed id).Live m := by
  obtain ⟨k, hk, rfl⟩ := rehomed_below_iff.1 hm
  exact (hl.live_of_below (rehomed_live_iff.1 hn).2 hk).rehome id

/-- The copy of a node is worth what the node is worth. -/
theorem Linked.rehomed_worth (hl : c.Linked) (hn : (c.rehomed id).Live n) :
    (c.rehomed id).worth n = c.worth (n.rehome c.id) := by
  refine worth_eq_of_solution (v := fun k => c.worth (k.rehome c.id)) (fun n hn m => hl.rehomed_live_of_below hn)
    (fun n hn => ?_) hn (hl.rehomed_acc hn)
  obtain ⟨-, hn⟩ := rehomed_live_iff.1 hn
  rw [rehomed_successors, sum_rehome, worth_eq (hl.acc hn)]
  refine congrArg _ (Terms.sum_congr fun m hm => ?_)
  rw [(hl.live_of_below hn hm).rehome_rehome]

theorem Linked.rehomed_legal (hl : c.Linked) (hn : (c.rehomed id).Live n) (hlegal : c.Legal (n.rehome c.id)) :
    (c.rehomed id).Legal n := by
  have hacc := hl.rehomed_acc hn
  induction hacc with
  | intro n _ ih =>
    refine legal_of_one_le_worth (fun m hm => ?_) (hl.rehomed_acc hn)
      (by rw [hl.rehomed_worth hn]; exact hlegal.one_le_worth)
    refine ih m hm (hl.rehomed_live_of_below hn hm) ?_
    obtain ⟨k, hk, rfl⟩ := rehomed_below_iff.1 hm
    rw [(hl.live_of_below (rehomed_live_iff.1 hn).2 hk).rehome_rehome]
    exact hlegal.of_below k hk

/-! ## The copy without markings -/

theorem rehomed_order : (c.rehomed id).order[r]? = some n ↔ ∃ m, c.order[r]? = some m ∧ m.rehome id = n := by
  rw [rehomed, Array.getElem?_map, Option.map_eq_some_iff]

theorem Linked.rehomed_order_iff (hl : c.Linked) :
    (c.rehomed id).order[r]? = some n ↔ n.circuit = id ∧ c.order[r]? = some (n.rehome c.id) := by
  rw [rehomed_order]
  constructor
  · rintro ⟨m, hm, rfl⟩
    exact ⟨rfl, by rwa [(hl.reduced_of_getElem? hm).1.rehome_rehome]⟩
  · rintro ⟨rfl, hm⟩
    exact ⟨_, hm, rfl⟩

theorem Linked.rehomed (hl : c.Linked) (id : CircuitId) : (c.rehomed id).Linked where
  exponents n hn := by
    rw [rehomed_successors]
    exact (hl.exponents _ (rehomed_live_iff.1 hn).2).rehome id
  markings i hi := by simp [Circuit.rehomed, cellAt] at hi
  acyclic := acyclic_of_acc fun n => hl.rehomed_acc
  ranked r n := by rw [hl.rehomed_order_iff, hl.ranked, rehomed_live_iff, rehomed_rank?, and_assoc]
  unranked i hi := by
    rw [rehomed_slotAt] at hi ⊢
    exact hl.unranked i hi
  closed n hn m hm := by
    obtain ⟨k, hk, rfl⟩ := rehomed_below_iff.1 hm
    have hk := hl.closed _ (rehomed_reduced_iff.1 hn).2 k hk
    exact rehomed_reduced_iff.2 ⟨rfl, by rwa [hk.1.rehome_rehome]⟩

/-- Ranks are worth in the copy what they are worth. -/
theorem Linked.rehomed_order_worth (hl : c.Linked) (hr : (c.rehomed id).order[r]? = some n) :
    c.order[r]? = some (n.rehome c.id) ∧ (c.rehomed id).worth n = c.worth (n.rehome c.id) := by
  obtain ⟨hid, hr⟩ := hl.rehomed_order_iff.1 hr
  exact ⟨hr, hl.rehomed_worth (rehomed_live_iff.2 ⟨hid, (hl.reduced_of_getElem? hr).1⟩)⟩

theorem Linked.rehomed_flagTrue (hl : c.Linked) (hf : c.FlagTrue r) : (c.rehomed id).FlagTrue r := by
  intro n hn
  obtain ⟨hr, hworth⟩ := hl.rehomed_order_worth hn
  rw [slot, rehomed_slotAt, hworth]
  refine Iff.trans (hf (n.rehome c.id) hr) ?_
  constructor
  · rintro ⟨m, hm, hw⟩
    have hcopy : (c.rehomed id).order[r + 1]? = some (m.rehome id) := rehomed_order.2 ⟨m, hm, rfl⟩
    refine ⟨m.rehome id, hcopy, ?_⟩
    rw [(hl.rehomed_order_worth hcopy).2, (hl.reduced_of_getElem? hm).1.rehome_rehome, hw]
  · rintro ⟨m, hm, hw⟩
    obtain ⟨hm, hworth⟩ := hl.rehomed_order_worth hm
    exact ⟨m.rehome c.id, hm, hworth ▸ hw⟩

theorem Consistent.rehomed (hc : c.Consistent) (id : CircuitId) : (c.rehomed id).Consistent where
  toLinked := hc.toLinked.rehomed id
  legal n hn := hc.rehomed_legal hn.1 (hc.legal _ (rehomed_reduced_iff.1 hn).2)
  increasing := by
    rw [pairwise_order_iff]
    intro i j m n hij hi hj
    obtain ⟨hi, hm⟩ := hc.rehomed_order_worth hi
    obtain ⟨hj, hn⟩ := hc.rehomed_order_worth hj
    rw [hm, hn]
    exact hc.worth_lt hi hj hij
  flags r := hc.rehomed_flagTrue (hc.flags r)

theorem WellFormed.rehomed (h : c.WellFormed) (id : CircuitId) : (c.rehomed id).WellFormed where
  toConsistent := h.toConsistent.rehomed id
  toStored := h.toStored.congr rfl rfl (by simp [Circuit.rehomed]) fun i => by rw [rehomed_slotAt]

/-! ## The markings that are kept -/

theorem newMarkings_cons {tss : List (List Term)} : newMarkings (ts :: tss) c =
    ((c.newMarking ts).1 :: (newMarkings tss (c.newMarking ts).2).1, (newMarkings tss (c.newMarking ts).2).2) := rfl

theorem WellFormed.newMarkings (h : c.WellFormed) {tss : List (List Term)} (htss : ∀ ts ∈ tss, c.Proper ts) :
    (newMarkings tss c).2.WellFormed ∧ (newMarkings tss c).2.id = c.id ∧ (newMarkings tss c).2.config = c.config ∧
      (∀ i, 0 < (c.cellAt i).handles → (newMarkings tss c).2.cellAt i = c.cellAt i) ∧
      ∀ m ∈ (newMarkings tss c).1, (newMarkings tss c).2.Held m := by
  induction tss generalizing c with
  | nil => exact ⟨h, rfl, rfl, fun _ _ => rfl, by simp [Circuit.newMarkings]⟩
  | cons ts tss ih =>
    have hts := htss ts (by simp)
    obtain ⟨hwf, hid, hconfig, hcells, hheld⟩ := ih (h.newMarking hts) fun us hus =>
      (htss us (by simp [hus])).mono fun _ hn => hn
    have hnew : (c.newMarking ts).2.cellAt c.cells.size = ⟨ts, 1⟩ := by rw [newMarking_cellAt, if_pos rfl]
    rw [newMarkings_cons]
    refine ⟨hwf, hid, hconfig, fun i hi => ?_, List.forall_mem_cons.2 ⟨fun _ => ?_, hheld⟩⟩
    · have hlt := lt_size_of_handles hi
      have hold : (c.newMarking ts).2.cellAt i = c.cellAt i := by rw [newMarking_cellAt, if_neg hlt.ne]
      rw [hcells i (by rwa [hold]), hold]
    · have hcell := hcells c.cells.size (by rw [hnew]; exact Nat.one_pos)
      show 0 < ((Circuit.newMarkings tss (c.newMarking ts).2).2.cellAt c.cells.size).handles
      rw [hcell, hnew]
      exact Nat.one_pos

/-- A copy is refused for a foreign marking only; otherwise it is well formed, and its markings are live. -/
theorem WellFormed.copy (h : c.WellFormed) (hheld : ∀ m ∈ keep, c.Held m) :
    Harmless (c.copy id keep) ∧ ∀ d ms, c.copy id keep = .ok (d, ms) →
      d.WellFormed ∧ d.id = id ∧ d.config = c.config ∧ ∀ m ∈ ms, d.Held m := by
  refine ⟨(Harmless.forM fun _ _ => harmless_checkMarking).bind fun _ _ => harmless_ok _, fun d ms hcopy => ?_⟩
  rw [Circuit.copy, unit_bind_eq_ok] at hcopy
  obtain ⟨hown, hcopy⟩ := hcopy
  have hproper : ∀ ts ∈ keep.map fun m => Terms.rehome id (c.termsOf m), (c.rehomed id).Proper ts := fun ts hts => by
    obtain ⟨m, hm, rfl⟩ := List.mem_map.1 hts
    exact (h.proper_termsOf (hheld m hm) (checkMarking_eq_ok_iff.1 (forM_eq_ok.1 hown m hm))).rehome id
  obtain ⟨hwf, hid, hconfig, -, hms⟩ := (h.rehomed id).newMarkings hproper
  obtain ⟨rfl, rfl⟩ := Prod.mk.inj (Except.ok.inj hcopy)
  exact ⟨hwf, hid, hconfig, hms⟩

end PowerTower.Circuit
