import Mathlib
import PowerTower.Proofs.VeiledReduction
import PowerTower.Proofs.Operations

/-!
# Circuits on solid ground

Where a circuit trusts its caller, pending nodes may come to depend on one another in a cycle. The reduced nodes stand
on solid ground all the same, and so does each list of pending nodes that can be put in order: with the other pending
nodes veiled, the circuit is well formed.

* `Grounded` : all that makes a circuit well formed, but for the cycles;
* `Grounded.alloc`, `Grounded.setSuccessors`, … : the single changes;
* `unlisted`, `Grounded.wellFormed_veil` : the circuit with all pending nodes veiled but those that are put in order;
* `Along.grounded` : what a step leaves behind, as soon as it leaves the veiled circuit well formed.
-/

namespace PowerTower

theorem Traversal.Sorted.congr {α : Type} {next next' : α → List α} {l : List α} (h : Sorted next l)
    (heq : ∀ n ∈ l, next' n = next n) : Sorted next' l := by
  induction h with
  | nil => exact .nil
  | @snoc l n sorted fresh after ih =>
    refine .snoc (ih fun m hm => heq m (by simp [hm])) fresh fun m hm => after m ?_
    rwa [heq n (by simp)] at hm

namespace Circuit

open Traversal

variable {B : ℕ → Bool} {c d : Circuit} {m n : Node} {ts : List Term} {done sorted : List Node} {i : ℕ}

/-- Well formed, but for cycles of pending nodes. -/
structure Grounded (c : Circuit) : Prop extends Tied c, Graded c, Stored c where
  flags : ∀ r, c.FlagTrue r

theorem WellFormed.grounded (h : c.WellFormed) : c.Grounded :=
  ⟨h.tied, h.toGraded, h.toStored, h.flags⟩

theorem Grounded.wellFormed (h : c.Grounded) (hacyclic : c.Acyclic) : c.WellFormed :=
  ⟨⟨h.toTied.linked hacyclic, h.toGraded, h.flags⟩, h.toStored⟩

theorem SameReduced.grounded (h : c.SameReduced d) (hc : c.Grounded) (ht : d.Tied) (hs : d.Stored) : d.Grounded :=
  ⟨ht, h.graded hc.toTied hc.toGraded, hs, fun r => h.flagTrue hc.toTied hc.toGraded (hc.flags r)⟩

theorem SameReduced.symm (h : c.SameReduced d) : d.SameReduced c :=
  ⟨h.order.symm, fun n => (h.reduced n).symm, fun n hn => (h.slot n ((h.reduced n).1 hn)).symm⟩

/-! ## Single changes -/

theorem Grounded.alloc (h : c.Grounded) (hts : c.Proper ts) : (c.alloc ts).2.Grounded :=
  (h.toStored.alloc_sameReduced h.toTied ts).grounded h (h.toTied.alloc h.toStored hts) (h.toStored.alloc ts)

theorem Grounded.setSuccessors (h : c.Grounded) (hn : c.Pending n) (hts : c.Proper ts) :
    (c.setSuccessors n ts).Grounded :=
  (hn.setSuccessors_sameReduced ts).grounded h (h.toTied.setSuccessors hn hts) h.toStored.setSuccessors

theorem Grounded.withCells {cells : Array Cell} (h : c.Grounded)
    (hm : ∀ i, 0 < ((c.withCells cells).cellAt i).handles → c.Proper ((c.withCells cells).cellAt i).terms) :
    (c.withCells cells).Grounded :=
  withCells_sameReduced.grounded h (h.toTied.withCells hm) h.toStored.withCells

theorem Grounded.newMarking (h : c.Grounded) (hts : c.Proper ts) : (c.newMarking ts).2.Grounded :=
  h.withCells (h.toTied.newMarking_markings hts)

/-! ## The circuit behind a veil -/

theorem Apart.veil_sameReduced (h : Apart B c) : c.SameReduced (c.veil B) where
  order := rfl
  reduced := fun _ => veil_reduced_iff
  slot := fun n hn => by
    obtain ⟨r, hr⟩ := hn.exists_rank
    exact veil_slotAt_of_not (h.not_mem_of_rank hr)

theorem veil_proper_iff : (c.veil B).Proper ts ↔ c.Proper ts :=
  ⟨fun h => h.mono fun _ => veil_live_iff.1, fun h => h.mono fun _ => veil_live_iff.2⟩

theorem veil_stored_iff : (c.veil B).Stored ↔ c.Stored :=
  ⟨fun h => h.congr rfl rfl veil_size.symm fun i => (veil_frame i).1.symm,
    fun h => h.congr rfl rfl veil_size fun i => (veil_frame i).1⟩

/-- The places of the pending nodes that are not listed. -/
def unlisted (c : Circuit) (l : List Node) (i : ℕ) : Bool := c.isPendingAt i && !l.any fun n => n.index == i

theorem unlisted_iff : c.unlisted done i = true ↔
    ((c.slotAt i).live = true ∧ (c.slotAt i).rank = none) ∧ ∀ n ∈ done, n.index ≠ i := by
  simp [unlisted, isPendingAt]

theorem unlisted_of_mem (hn : n ∈ done) : c.unlisted done n.index = false :=
  Bool.eq_false_of_not_eq_true fun h => (unlisted_iff.1 h).2 n hn rfl

theorem unlisted_of_reduced (hn : c.Reduced n) : c.unlisted done n.index = false :=
  Bool.eq_false_of_not_eq_true fun h => by
    obtain ⟨r, hr⟩ := hn.exists_rank
    exact Option.some_ne_none r (hr.symm.trans (unlisted_iff.1 h).1.2)

/-- A pending node that is not behind the veil is listed. -/
theorem Pending.mem_of_unlisted (hn : c.Pending n) (hdone : ∀ m ∈ done, c.Live m)
    (h : c.unlisted done n.index = false) : n ∈ done := by
  by_contra hnot
  rw [Bool.eq_false_iff] at h
  refine h (unlisted_iff.2 ⟨⟨hn.1.2.1, hn.2⟩, fun m hm heq => hnot ?_⟩)
  rwa [← (hdone m hm).eq_of_index hn.1 heq]

theorem Grounded.apart (h : c.Grounded) (done : List Node) : Apart (c.unlisted done) c where
  pending := fun i hi => (unlisted_iff.1 hi).1
  order := fun r n hr => unlisted_of_reduced (h.toTied.reduced_of_getElem? hr)
  free := fun i hi => by
    rw [unlisted, isPendingAt, ((h.mem_free i).1 hi).2, Bool.false_and, Bool.false_and]

theorem Grounded.grounded_veil (h : c.Grounded) (done : List Node) : (c.veil (c.unlisted done)).Grounded := by
  have hsame := (h.apart done).veil_sameReduced
  refine hsame.grounded h (hsame.tied h.toTied (fun n hn => ?_) (fun i hi => ?_) fun i hi => ?_)
    (veil_stored_iff.2 h.toStored)
  · rw [veil_successors, cut_eq_filter]
    exact veil_proper_iff.2 ((h.exponents n (veil_live_iff.1 hn)).sublist List.filter_sublist)
  · exact veil_proper_iff.2 (h.markings i hi)
  · obtain ⟨hlive, -, hrank, -⟩ := veil_frame (c := c) (B := c.unlisted done) i
    rw [hrank]
    exact h.unranked i (hlive ▸ hi)

/-- From a node in order the walks end at reduced nodes, and from a node behind the veil at these or at
nodes in order. -/
theorem Grounded.wellFormed_veil (h : c.Grounded) (hsorted : Sorted c.pendingSuccessors sorted)
    (hp : ∀ n ∈ sorted, c.Pending n) : (c.veil (c.unlisted sorted)).WellFormed := by
  have hv := h.grounded_veil sorted
  have hreduced : ∀ n, c.Reduced n → Acc (c.veil (c.unlisted sorted)).Below n := fun n hn =>
    (hv.legal n (veil_reduced_iff.2 hn)).acc
  have hlisted : ∀ n ∈ sorted, Acc (c.veil (c.unlisted sorted)).Below n := fun n hn => by
    have hacc := hsorted.acc hn
    induction hacc with
    | intro n _ ih =>
      refine Acc.intro n fun m hm => ?_
      rw [Below, successorNodes, veil_successors_of_not (unlisted_of_mem hn)] at hm
      rcases reduced_or_pending (h.toTied.live_of_below (hp n hn).1 hm) with hr | hpend
      · exact hreduced m hr
      · have hnext : m ∈ c.pendingSuccessors n :=
          mem_pendingSuccessors.2 ⟨hm, by simp [isReducedNode, hpend.2]⟩
        exact ih m hnext (hsorted.mem_of_mem_next hn hnext)
  have hrest : ∀ n, c.Live n → c.unlisted sorted n.index = false → Acc (c.veil (c.unlisted sorted)).Below n :=
    fun n hn hnot => by
      rcases reduced_or_pending hn with hr | hpend
      · exact hreduced n hr
      · exact hlisted n (hpend.mem_of_unlisted (fun m hm => (hp m hm).1) hnot)
  refine hv.wellFormed (acyclic_of_acc fun n hn => ?_)
  by_cases hB : c.unlisted sorted n.index = true
  · refine Acc.intro n fun m hm => hrest m (veil_live_iff.1 (hv.toTied.live_of_below hn hm)) ?_
    rw [Below, successorNodes, veil_successors, cut, if_pos hB] at hm
    obtain ⟨t, ht, rfl⟩ := List.mem_map.1 hm
    simpa using List.of_mem_filter ht
  · exact hrest n (veil_live_iff.1 hn) (by simpa using hB)

/-- With all pending nodes veiled. -/
theorem Grounded.wellFormed_veil_all (h : c.Grounded) : (c.veil (c.unlisted [])).WellFormed :=
  h.wellFormed_veil .nil fun _ hn => absurd hn List.not_mem_nil

/-! ## After a step behind a veil -/

theorem Along.slotAt_frame (h : Along B done c d) (hi : B i = true) : (d.slotAt i).live = (c.slotAt i).live ∧
    (d.slotAt i).generation = (c.slotAt i).generation ∧
    inside B (d.slotAt i).successors = inside B (c.slotAt i).successors := by
  obtain ⟨ts, hslot, hts⟩ := h.slots i hi
  rw [hslot]
  exact ⟨rfl, rfl, hts⟩

theorem Along.live_iff (h : Along B done c d) (hid : d.id = c.id) (hn : B n.index = true) : d.Live n ↔ c.Live n := by
  obtain ⟨hlive, hgeneration, -⟩ := h.slotAt_frame hn
  rw [Live, Live, slot, slot, hlive, hgeneration, hid]

theorem Proper.of_parts (hin : c.Proper (inside B ts)) (hout : c.Proper (outside B ts)) : c.Proper ts := by
  have hperm : (inside B ts ++ outside B ts).Perm ts := List.filter_append_perm _ ts
  have hnodes : (Terms.nodes (inside B ts) ++ Terms.nodes (outside B ts)).Perm (Terms.nodes ts) := by
    rw [← Terms.nodes_append]
    exact hperm.map _
  refine ⟨⟨hnodes.nodup_iff.1 (hin.nodup.append hout.nodup fun n hn hn' => ?_), fun t ht => ?_⟩, fun n hn => ?_⟩
  · obtain ⟨t, ht, rfl⟩ := List.mem_map.1 hn
    obtain ⟨u, hu, heq⟩ := List.mem_map.1 hn'
    have hB := List.of_mem_filter ht
    have hB' := List.of_mem_filter hu
    simp only [heq, hB, Bool.not_true, Bool.false_eq_true] at hB'
  · rcases List.mem_append.1 (hperm.mem_iff.2 ht) with ht | ht
    · exact hin.nonzero t ht
    · exact hout.nonzero t ht
  · rcases List.mem_append.1 (hnodes.mem_iff.2 hn) with hn | hn
    · exact hin.live n hn
    · exact hout.live n hn

/-- The entries behind the veil are those from before, and the others are as the veiled circuit has them. -/
theorem Along.proper_successors (h : Along B done c d) (hc : c.Grounded) (hid : d.id = c.id)
    (hd : (d.veil B).WellFormed)
    (hn : d.Live n) : d.Proper (d.successors n) := by
  have hout := veil_proper_iff.1 (hd.exponents n (veil_live_iff.2 hn))
  rw [veil_successors] at hout
  by_cases hB : B n.index = true
  · rw [cut, if_pos hB] at hout
    refine .of_parts ?_ hout
    have hin : inside B (d.successors n) = inside B (c.successors n) := (h.slotAt_frame hB).2.2
    have hproper : c.Proper (inside B (c.successors n)) :=
      (hc.exponents n ((h.live_iff hid hB).1 hn)).sublist List.filter_sublist
    rw [hin]
    refine ⟨hproper.toProper, fun m hm => (h.live_iff hid ?_).2 (hproper.live m hm)⟩
    obtain ⟨t, ht, rfl⟩ := List.mem_map.1 hm
    exact (List.mem_filter.1 ht).2
  · rwa [cut, if_neg hB] at hout

theorem Along.grounded (h : Along B done c d) (hc : c.Grounded) (hid : d.id = c.id) (hd : (d.veil B).WellFormed) :
    d.Grounded := by
  have hsame := h.toApart.veil_sameReduced.symm
  refine hsame.grounded hd.grounded (hsame.tied hd.tied (fun n hn => h.proper_successors hc hid hd hn) (fun i hi => ?_)
    fun i hi => ?_) (veil_stored_iff.1 hd.toStored)
  · exact veil_proper_iff.1 (hd.markings i hi)
  · obtain ⟨hlive, -, hrank, -⟩ := veil_frame (c := d) (B := B) i
    rw [← hrank]
    exact hd.unranked i (hlive ▸ hi)

end Circuit

end PowerTower
