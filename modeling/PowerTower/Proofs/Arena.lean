import Mathlib
import PowerTower.Circuit.Reduce
import PowerTower.Proofs.WellFormed

/-!
# The store

What making and freeing nodes, changing an exponent and changing a marking do to the nodes of a circuit.

* `Extends`, `SameReduced` : no reduced node is lost or changed; none comes in either;
* `SameReduced.tied`, `SameReduced.consistent` : what a change that leaves the reduced nodes alone has to see to;
* `alloc_*`, `freeNode_*`, `setSuccessors_*`, `*_withCells` : the single changes.
-/

namespace PowerTower.Circuit

variable {c d e : Circuit} {m n : Node} {ts us : List Term} {i j r : ℕ}

/-! ## Changes that keep the reduced nodes -/

/-- The reduced nodes of `c` are reduced in `d`, with the same exponents. -/
def Extends (c d : Circuit) : Prop := ∀ n, c.Reduced n → d.Reduced n ∧ d.successors n = c.successors n

theorem Extends.refl (c : Circuit) : c.Extends c := fun _ hn => ⟨hn, rfl⟩

theorem Extends.trans (h : c.Extends d) (h' : d.Extends e) : c.Extends e := fun n hn =>
  ⟨(h' n (h n hn).1).1, ((h' n (h n hn).1).2).trans (h n hn).2⟩

theorem Extends.worth_eq_of_legal (h : c.Extends d) (ht : c.Tied) (hn : c.Reduced n) (hlegal : c.Legal n) :
    d.worth n = c.worth n := worth_congr ht.closed (fun n hn => (h n hn).2) hn hlegal.acc

theorem Extends.worth_eq (h : c.Extends d) (hl : c.Linked) (hn : c.Reduced n) : d.worth n = c.worth n :=
  worth_congr hl.closed (fun n hn => (h n hn).2) hn (hl.acc hn.1)

theorem Extends.legal (h : c.Extends d) (ht : c.Tied) (hn : c.Reduced n) (hlegal : c.Legal n) : d.Legal n :=
  legal_congr ht.closed (fun n hn => (h n hn).2) hn hlegal

/-- The reduced order and the places of the reduced nodes are the same. -/
structure SameReduced (c d : Circuit) : Prop where
  order : d.order = c.order
  reduced : ∀ n, d.Reduced n ↔ c.Reduced n
  slot : ∀ n, c.Reduced n → d.slot n = c.slot n

theorem SameReduced.extends (h : c.SameReduced d) : c.Extends d := fun n hn =>
  ⟨(h.reduced n).2 hn, congrArg Slot.successors (h.slot n hn)⟩

theorem SameReduced.tied (h : c.SameReduced d) (ht : c.Tied)
    (exponents : ∀ n, d.Live n → d.Proper (d.successors n))
    (markings : ∀ i, 0 < (d.cellAt i).handles → d.Proper (d.cellAt i).terms)
    (unranked : ∀ i, (d.slotAt i).live = false → (d.slotAt i).rank = none) : d.Tied where
  exponents := exponents
  markings := markings
  ranked := by
    intro r n
    rw [h.order, ht.ranked]
    have hrank : c.Reduced n → d.rank? n = c.rank? n := fun hn => congrArg Slot.rank (h.slot n hn)
    constructor
    · rintro ⟨hn, hr⟩
      have hn : c.Reduced n := ⟨hn, by simp [hr]⟩
      exact ⟨((h.reduced n).2 hn).1, (hrank hn).trans hr⟩
    · rintro ⟨hn, hr⟩
      have hn : c.Reduced n := (h.reduced n).1 ⟨hn, by simp [hr]⟩
      exact ⟨hn.1, (hrank hn).symm.trans hr⟩
  unranked := unranked
  closed := by
    intro n hn m hm
    have hn := (h.reduced n).1 hn
    unfold Below successorNodes at hm
    rw [(h.extends n hn).2] at hm
    exact (h.reduced m).2 (ht.closed n hn m hm)

theorem SameReduced.graded (h : c.SameReduced d) (ht : c.Tied) (hg : c.Graded) : d.Graded where
  legal := fun n hn => h.extends.legal ht ((h.reduced n).1 hn) (hg.legal n ((h.reduced n).1 hn))
  increasing := by
    rw [h.order]
    refine hg.increasing.imp_of_mem fun {m n} hm hn hlt => ?_
    have hworth : ∀ {k}, k ∈ c.order.toList → d.worth k = c.worth k := fun hk =>
      h.extends.worth_eq_of_legal ht (ht.mem_order.1 hk) (hg.legal _ (ht.mem_order.1 hk))
    rwa [hworth hm, hworth hn]

theorem SameReduced.flagTrue (h : c.SameReduced d) (ht : c.Tied) (hg : c.Graded) (hf : c.FlagTrue r) :
    d.FlagTrue r := by
  intro n hr
  have hworth : ∀ {k} {s : ℕ}, c.order[s]? = some k → d.worth k = c.worth k := fun hk =>
    h.extends.worth_eq_of_legal ht (ht.reduced_of_getElem? hk) (hg.legal _ (ht.reduced_of_getElem? hk))
  rw [h.order] at hr ⊢
  rw [h.slot n (ht.reduced_of_getElem? hr), hf n hr, hworth hr]
  refine exists_congr fun m => and_congr_right fun hm => ?_
  rw [hworth hm]

theorem SameReduced.consistent (h : c.SameReduced d) (hc : c.Consistent) (hl : d.Linked) : d.Consistent where
  toLinked := hl
  toGraded := h.graded hc.tied hc.toGraded
  flags := fun r => h.flagTrue hc.tied hc.toGraded (hc.flags r)

theorem Proper.mono (h : c.Proper ts) (hl : ∀ n, c.Live n → d.Live n) : d.Proper ts :=
  ⟨h.toProper, fun n hn => hl n (h.live n hn)⟩

/-! ## Making a node -/

/-- The place of the next node. -/
def freshIndex (c : Circuit) : ℕ :=
  match c.free with
  | i :: _ => i
  | [] => c.slots.size

theorem freshIndex_cons {free : List ℕ} (h : c.free = i :: free) : c.freshIndex = i := by
  simp [freshIndex, h]

theorem freshIndex_nil (h : c.free = []) : c.freshIndex = c.slots.size := by
  simp [freshIndex, h]

@[simp] theorem alloc_id : (c.alloc ts).2.id = c.id := by
  unfold alloc
  split <;> rfl

@[simp] theorem alloc_config : (c.alloc ts).2.config = c.config := by
  unfold alloc
  split <;> rfl

@[simp] theorem alloc_order : (c.alloc ts).2.order = c.order := by
  unfold alloc
  split <;> rfl

@[simp] theorem alloc_cells : (c.alloc ts).2.cells = c.cells := by
  unfold alloc
  split <;> rfl

theorem alloc_of_nil (h : c.free = []) : (c.alloc ts).2 =
    { c with slots := c.slots.push { live := true, successors := ts }, liveNodes := c.liveNodes + 1 } := by
  rw [Circuit.alloc, h]

theorem alloc_of_cons {free : List ℕ} (h : c.free = i :: free) : (c.alloc ts).2 =
    { c with free, liveNodes := c.liveNodes + 1 }.modifySlot i fun s => { s with live := true, successors := ts } := by
  rw [Circuit.alloc, h]

theorem alloc_free : (c.alloc ts).2.free = c.free.tail := by
  cases hfree : c.free with
  | nil =>
    rw [alloc_of_nil hfree]
    exact hfree
  | cons i free =>
    rw [alloc_of_cons hfree]
    rfl

theorem alloc_fst : (c.alloc ts).1 = (c.alloc ts).2.nodeAt c.freshIndex := by
  unfold alloc
  cases hfree : c.free with
  | nil => rw [freshIndex_nil hfree]
  | cons i free => rw [freshIndex_cons hfree]

theorem alloc_slotAt_of_ne (h : i ≠ c.freshIndex) : (c.alloc ts).2.slotAt i = c.slotAt i := by
  cases hfree : c.free with
  | nil =>
    rw [freshIndex_nil hfree] at h
    rw [alloc_of_nil hfree, slotAt, slotAt]
    simp [Array.getElem?_push, h]
  | cons j free =>
    rw [freshIndex_cons hfree] at h
    rw [alloc_of_cons hfree, slotAt_modifySlot, if_neg fun hij => h hij.1.symm]
    rfl

theorem Stored.fresh_not_live (h : c.Stored) : (c.slotAt c.freshIndex).live = false := by
  cases hf : c.free with
  | nil => simp [freshIndex_nil hf, slotAt]
  | cons i free =>
    rw [freshIndex_cons hf]
    exact ((h.mem_free i).1 (by simp [hf])).2

theorem Stored.alloc_slotAt (h : c.Stored) (ts : List Term) (i : ℕ) : (c.alloc ts).2.slotAt i =
    if i = c.freshIndex then { c.slotAt i with live := true, successors := ts } else c.slotAt i := by
  split_ifs with hi
  · subst hi
    cases hf : c.free with
    | nil =>
      rw [freshIndex_nil hf, alloc_of_nil hf]
      simp [slotAt]
    | cons k free =>
      rw [freshIndex_cons hf, alloc_of_cons hf, slotAt_modifySlot, if_pos ⟨rfl, ((h.mem_free k).1 (by simp [hf])).1⟩]
      rfl
  · exact alloc_slotAt_of_ne hi

theorem Stored.alloc_generation (h : c.Stored) (ts : List Term) (i : ℕ) :
    ((c.alloc ts).2.slotAt i).generation = (c.slotAt i).generation := by
  rw [h.alloc_slotAt]
  split_ifs <;> rfl

theorem Stored.alloc_node (h : c.Stored) (ts : List Term) : (c.alloc ts).1 = c.nodeAt c.freshIndex := by
  rw [alloc_fst, nodeAt, h.alloc_slotAt, alloc_id]
  simp [nodeAt]

theorem Stored.not_live_alloc (h : c.Stored) (ts : List Term) : ¬ c.Live (c.alloc ts).1 := by
  rw [h.alloc_node ts]
  intro hl
  have := hl.2.1
  unfold slot nodeAt at this
  simp [h.fresh_not_live] at this

theorem Stored.index_ne_fresh (h : c.Stored) (hn : c.Live n) : n.index ≠ c.freshIndex := by
  intro he
  have := hn.2.1
  unfold slot at this
  simp [he, h.fresh_not_live] at this

theorem Stored.alloc_slot_of_live (h : c.Stored) (ts : List Term) (hn : c.Live n) :
    (c.alloc ts).2.slot n = c.slot n := by
  rw [slot, h.alloc_slotAt, if_neg (h.index_ne_fresh hn), slot]

theorem Stored.alloc_slot_new (h : c.Stored) (ts : List Term) :
    (c.alloc ts).2.slot (c.alloc ts).1 = { c.slotAt c.freshIndex with live := true, successors := ts } := by
  rw [slot, h.alloc_slotAt, h.alloc_node]
  simp [nodeAt]

theorem Stored.alloc_live_iff (h : c.Stored) (ts : List Term) :
    (c.alloc ts).2.Live n ↔ c.Live n ∨ n = (c.alloc ts).1 := by
  by_cases hi : n.index = c.freshIndex
  · have hdead : ¬ c.Live n := fun hn => h.index_ne_fresh hn hi
    rw [or_iff_right hdead, h.alloc_node, Live, slot, h.alloc_slotAt, if_pos hi, alloc_id]
    obtain ⟨nc, ni, ng⟩ := n
    obtain rfl : ni = c.freshIndex := hi
    simp only [nodeAt, Node.mk.injEq, true_and, eq_comm]
  · have hne : n ≠ (c.alloc ts).1 := fun he => hi (by rw [he, h.alloc_node]; rfl)
    rw [or_iff_left hne, Live, slot, h.alloc_slotAt, if_neg hi, alloc_id]
    rfl

theorem Stored.alloc_live_of_live (h : c.Stored) (ts : List Term) (hn : c.Live n) : (c.alloc ts).2.Live n :=
  (h.alloc_live_iff ts).2 (.inl hn)

theorem Stored.alloc_pending (h : c.Stored) (ht : c.Tied) (ts : List Term) :
    (c.alloc ts).2.Pending (c.alloc ts).1 := by
  refine ⟨(h.alloc_live_iff ts).2 (.inr rfl), ?_⟩
  rw [rank?, h.alloc_slot_new]
  exact ht.unranked _ h.fresh_not_live

theorem liveIndices_length_of_perm {k : ℕ} (hk : ∀ i, (d.slotAt i).live = true ↔ (c.slotAt i).live = true ∨ i = k)
    (hnew : (c.slotAt k).live = false) : d.liveIndices.length = c.liveIndices.length + 1 := by
  have hnodup : (k :: c.liveIndices).Nodup := by
    refine List.nodup_cons.2 ⟨fun hmem => ?_, nodup_liveIndices⟩
    simp [mem_liveIndices, hnew] at hmem
  have hperm : d.liveIndices.Perm (k :: c.liveIndices) :=
    (List.perm_ext_iff_of_nodup nodup_liveIndices hnodup).2 fun i => by
      rw [mem_liveIndices, hk, List.mem_cons, mem_liveIndices, or_comm]
  simpa using hperm.length_eq

theorem Stored.alloc (h : c.Stored) (ts : List Term) : (c.alloc ts).2.Stored := by
  have hfresh := h.fresh_not_live
  have hlive : ∀ i, ((c.alloc ts).2.slotAt i).live = true ↔ (c.slotAt i).live = true ∨ i = c.freshIndex := fun i => by
    rw [h.alloc_slotAt]
    split_ifs with hi <;> simp [hi]
  have hdead : ∀ i, ((c.alloc ts).2.slotAt i).live = false ↔ (c.slotAt i).live = false ∧ i ≠ c.freshIndex := fun i => by
    have := hlive i
    cases h1 : ((c.alloc ts).2.slotAt i).live <;> cases h2 : (c.slotAt i).live <;> simp_all
  have hcount : (c.alloc ts).2.liveNodes = c.liveNodes + 1 := by
    unfold Circuit.alloc
    split <;> rfl
  refine ⟨?_, fun i => ?_, ?_⟩
  · rw [alloc_free]
    exact h.nodup_free.tail
  · rw [hdead]
    cases hf : c.free with
    | nil =>
      have hsize : (c.alloc ts).2.slots.size = c.slots.size + 1 := by rw [alloc_of_nil hf, Array.size_push]
      have hnone : ∀ i, i < c.slots.size → (c.slotAt i).live = true := fun i hi => by
        by_contra hd
        have := (h.mem_free i).2 ⟨hi, by simpa using hd⟩
        simp [hf] at this
      rw [alloc_free, hf, List.tail_nil, hsize, freshIndex_nil hf]
      simp only [List.not_mem_nil, false_iff, not_and]
      intro hi hd
      by_contra hne
      simp [hnone i (by omega)] at hd
    | cons k free =>
      have hsize : (c.alloc ts).2.slots.size = c.slots.size := by
        rw [alloc_of_cons hf]
        exact Array.size_modify
      have hmem := h.mem_free i
      have hnodup := h.nodup_free
      rw [hf, List.nodup_cons] at hnodup
      rw [hf, List.mem_cons] at hmem
      rw [alloc_free, hf, List.tail_cons, hsize, freshIndex_cons hf]
      constructor
      · intro hi
        exact ⟨(hmem.1 (.inr hi)).1, (hmem.1 (.inr hi)).2, fun he => hnodup.1 (he ▸ hi)⟩
      · rintro ⟨hi, hd, hne⟩
        exact (hmem.2 ⟨hi, hd⟩).resolve_left hne
  · rw [hcount, h.count, liveIndices_length_of_perm hlive hfresh]
    simp

theorem Stored.alloc_sameReduced (h : c.Stored) (ht : c.Tied) (ts : List Term) :
    c.SameReduced (c.alloc ts).2 where
  order := alloc_order
  reduced := by
    intro n
    have hrank : c.Live n → (c.alloc ts).2.rank? n = c.rank? n := fun hn =>
      congrArg Slot.rank (h.alloc_slot_of_live ts hn)
    constructor
    · rintro ⟨hn, hr⟩
      rcases (h.alloc_live_iff ts).1 hn with hn | rfl
      · exact ⟨hn, by rwa [← hrank hn]⟩
      · exact absurd ⟨hn, hr⟩ (h.alloc_pending ht ts).not_reduced
    · exact fun hn => ⟨h.alloc_live_of_live ts hn.1, by rw [hrank hn.1]; exact hn.2⟩
  slot := fun _ hn => h.alloc_slot_of_live ts hn.1

theorem Stored.alloc_successors (h : c.Stored) (ts : List Term) (hn : c.Live n) :
    (c.alloc ts).2.successors n = c.successors n :=
  congrArg Slot.successors (h.alloc_slot_of_live ts hn)

theorem Stored.alloc_successors_new (h : c.Stored) (ts : List Term) :
    (c.alloc ts).2.successors (c.alloc ts).1 = ts := by
  rw [successors, h.alloc_slot_new]

theorem Tied.alloc (ht : c.Tied) (h : c.Stored) (hts : c.Proper ts) : (c.alloc ts).2.Tied := by
  have hmono : ∀ n, c.Live n → (c.alloc ts).2.Live n := fun n => h.alloc_live_of_live ts
  refine (h.alloc_sameReduced ht ts).tied ht (fun n hn => ?_) (fun i hi => ?_) fun i hi => ?_
  · rcases (h.alloc_live_iff ts).1 hn with hn | rfl
    · rw [h.alloc_successors ts hn]
      exact (ht.exponents n hn).mono hmono
    · rw [h.alloc_successors_new]
      exact hts.mono hmono
  · simp only [cellAt, alloc_cells] at hi ⊢
    exact (ht.markings i hi).mono hmono
  · rw [h.alloc_slotAt] at hi ⊢
    split_ifs at hi ⊢
    exact ht.unranked i hi

/-- A new node whose exponent is proper leaves the circuit linked. -/
theorem Linked.alloc (hl : c.Linked) (h : c.Stored) (hts : c.Proper ts) : (c.alloc ts).2.Linked := by
  have hacc : ∀ n, c.Live n → Acc (c.alloc ts).2.Below n := fun n hn =>
    acc_congr (fun n hn m hm => hl.live_of_below hn hm) (fun n hn => h.alloc_successors ts hn) hn (hl.acc hn)
  refine (hl.tied.alloc h hts).linked (acyclic_of_acc fun n hn => ?_)
  rcases (h.alloc_live_iff ts).1 hn with hn | rfl
  · exact hacc n hn
  · refine Acc.intro _ fun m hm => hacc m (hts.live m ?_)
    unfold Below successorNodes at hm
    rwa [h.alloc_successors_new] at hm

theorem WellFormed.alloc (h : c.WellFormed) (hts : c.Proper ts) : (c.alloc ts).2.WellFormed where
  toConsistent := (h.alloc_sameReduced h.tied ts).consistent h.toConsistent (h.toLinked.alloc h.toStored hts)
  toStored := h.toStored.alloc ts

/-! ## Freeing a node -/

theorem Live.freeNode_slotAt (hn : c.Live n) (i : ℕ) : (c.freeNode n).slotAt i =
    if i = n.index then { generation := (c.slotAt i).generation + 1 } else c.slotAt i := by
  have : (c.freeNode n).slotAt i = (c.modifySlot n.index fun s => { generation := s.generation + 1 }).slotAt i := rfl
  rw [this, slotAt_modifySlot]
  by_cases hi : i = n.index
  · subst hi
    simp [hn.index_lt]
  · simp [hi, Ne.symm hi]

theorem Live.freeNode_live_iff (hn : c.Live n) : (c.freeNode n).Live m ↔ c.Live m ∧ m ≠ n := by
  have hid : (c.freeNode n).id = c.id := rfl
  by_cases hi : m.index = n.index
  · have hsame : c.Live m → m = n := fun hm => hm.eq_of_index hn hi
    rw [Live, slot, hn.freeNode_slotAt, if_pos hi]
    simp only [Bool.false_eq_true, false_and, and_false, false_iff, not_and, not_not]
    exact hsame
  · have hne : m ≠ n := fun he => hi (congrArg Node.index he)
    rw [Live, slot, hn.freeNode_slotAt, if_neg hi, hid]
    exact (and_iff_left hne).symm

theorem Live.freeNode_slot (hn : c.Live n) (hm : c.Live m) (hne : m ≠ n) : (c.freeNode n).slot m = c.slot m := by
  rw [slot, hn.freeNode_slotAt, if_neg fun hi => hne (hm.eq_of_index hn hi), slot]

theorem Stored.freeNode (h : c.Stored) (hn : c.Live n) : (c.freeNode n).Stored := by
  have hsize : (c.freeNode n).slots.size = c.slots.size := by simp [Circuit.freeNode, modifySlot]
  have hlive : ∀ i, (c.slotAt i).live = true ↔ ((c.freeNode n).slotAt i).live = true ∨ i = n.index := fun i => by
    rw [hn.freeNode_slotAt]
    split_ifs with hi
    · simp only [false_or, hi, iff_true]
      exact hn.2.1
    · simp [hi]
  have hnew : ((c.freeNode n).slotAt n.index).live = false := by simp [hn.freeNode_slotAt]
  have hfree : (c.freeNode n).free = n.index :: c.free := rfl
  refine ⟨?_, fun i => ?_, ?_⟩
  · rw [hfree, List.nodup_cons, h.mem_free]
    refine ⟨fun hd => ?_, h.nodup_free⟩
    have hlive := hn.2.1
    unfold slot at hlive
    simp [hd.2] at hlive
  · rw [hfree, hsize, List.mem_cons, h.mem_free, hn.freeNode_slotAt]
    by_cases hi : i = n.index
    · simp [hi, hn.index_lt]
    · simp [hi]
  · have hcount := liveIndices_length_of_perm hlive hnew
    have hword : (c.freeNode n).liveNodes = c.liveNodes - 1 := rfl
    rw [hword, h.count, hcount]
    simp

theorem Pending.freeNode_sameReduced (hn : c.Pending n) : c.SameReduced (c.freeNode n) where
  order := rfl
  reduced := by
    intro m
    have hrank : c.Live m → m ≠ n → (c.freeNode n).rank? m = c.rank? m := fun hm hne =>
      congrArg Slot.rank (hn.1.freeNode_slot hm hne)
    constructor
    · rintro ⟨hm, hr⟩
      obtain ⟨hm, hne⟩ := hn.1.freeNode_live_iff.1 hm
      exact ⟨hm, by rwa [← hrank hm hne]⟩
    · intro hm
      have hne : m ≠ n := fun he => hn.not_reduced (he ▸ hm)
      exact ⟨hn.1.freeNode_live_iff.2 ⟨hm.1, hne⟩, by rw [hrank hm.1 hne]; exact hm.2⟩
  slot := fun _ hm => hn.1.freeNode_slot hm.1 fun he => hn.not_reduced (he ▸ hm)

/-- A pending node that nothing mentions can be freed. -/
theorem Linked.freeNode (hl : c.Linked) (hn : c.Pending n) (hexp : ∀ m, c.Live m → n ∉ c.successorNodes m)
    (hmark : ∀ i, 0 < (c.cellAt i).handles → n ∉ Terms.nodes (c.cellAt i).terms) : (c.freeNode n).Linked := by
  have hlive := fun m => hn.1.freeNode_live_iff (m := m)
  have hsucc : ∀ m, c.Live m ∧ m ≠ n → (c.freeNode n).successors m = c.successors m := fun m hm =>
    congrArg Slot.successors (hn.1.freeNode_slot hm.1 hm.2)
  have hproper : ∀ ts, c.Proper ts → n ∉ Terms.nodes ts → (c.freeNode n).Proper ts := fun ts hts hnot =>
    ⟨hts.toProper, fun m hm => (hlive m).2 ⟨hts.live m hm, fun he => hnot (he ▸ hm)⟩⟩
  refine (hn.freeNode_sameReduced.tied hl.tied (fun m hm => ?_) (fun i hi => ?_) fun i hi => ?_).linked
    (acyclic_of_acc fun m hm => ?_)
  · rw [hsucc m ((hlive m).1 hm)]
    exact hproper _ (hl.exponents m ((hlive m).1 hm).1) (hexp m ((hlive m).1 hm).1)
  · exact hproper _ (hl.markings i hi) (hmark i hi)
  · rw [hn.1.freeNode_slotAt] at hi ⊢
    split_ifs at hi ⊢
    · rfl
    · exact hl.unranked i hi
  · exact acc_congr (fun m hm k hk => ⟨hl.live_of_below hm.1 hk, fun he => hexp m hm.1 (he ▸ hk)⟩) hsucc
      ((hlive m).1 hm) (hl.acc ((hlive m).1 hm).1)

/-! ## Changing the exponent of a pending node -/

theorem Live.setSuccessors_slotAt (hn : c.Live n) (ts : List Term) (i : ℕ) : (c.setSuccessors n ts).slotAt i =
    if i = n.index then { c.slotAt i with successors := ts } else c.slotAt i := by
  rw [setSuccessors, slotAt_modifySlot]
  by_cases hi : i = n.index
  · subst hi
    simp [hn.index_lt]
  · simp [hi, Ne.symm hi]

theorem setSuccessors_frame (c : Circuit) (n : Node) (ts : List Term) (i : ℕ) :
    ((c.setSuccessors n ts).slotAt i).live = (c.slotAt i).live ∧
      ((c.setSuccessors n ts).slotAt i).generation = (c.slotAt i).generation ∧
      ((c.setSuccessors n ts).slotAt i).rank = (c.slotAt i).rank := by
  rw [setSuccessors, slotAt_modifySlot]
  split_ifs <;> exact ⟨rfl, rfl, rfl⟩

theorem setSuccessors_live_iff : (c.setSuccessors n ts).Live m ↔ c.Live m := by
  obtain ⟨h1, h2, -⟩ := setSuccessors_frame c n ts m.index
  rw [Live, slot, h1, h2]
  rfl

theorem setSuccessors_rank? : (c.setSuccessors n ts).rank? m = c.rank? m :=
  (setSuccessors_frame c n ts m.index).2.2

theorem setSuccessors_pending_iff : (c.setSuccessors n ts).Pending m ↔ c.Pending m := by
  rw [Pending, setSuccessors_live_iff, setSuccessors_rank?, Pending]

theorem Live.successors_setSuccessors (hn : c.Live n) (ts : List Term) : (c.setSuccessors n ts).successors n = ts := by
  rw [successors, slot, hn.setSuccessors_slotAt, if_pos rfl]

theorem Live.slot_setSuccessors_of_ne (hn : c.Live n) (ts : List Term) (hm : c.Live m) (hne : m ≠ n) :
    (c.setSuccessors n ts).slot m = c.slot m := by
  rw [slot, hn.setSuccessors_slotAt, if_neg fun hi => hne (hm.eq_of_index hn hi), slot]

theorem Live.successors_setSuccessors_of_ne (hn : c.Live n) (ts : List Term) (hm : c.Live m) (hne : m ≠ n) :
    (c.setSuccessors n ts).successors m = c.successors m :=
  congrArg Slot.successors (hn.slot_setSuccessors_of_ne ts hm hne)

theorem Pending.setSuccessors_sameReduced (hn : c.Pending n) (ts : List Term) :
    c.SameReduced (c.setSuccessors n ts) where
  order := rfl
  reduced := fun m => by rw [Reduced, setSuccessors_live_iff, setSuccessors_rank?, Reduced]
  slot := fun _ hm => hn.1.slot_setSuccessors_of_ne ts hm.1 fun he => hn.not_reduced (he ▸ hm)

theorem liveIndices_congr (hsize : d.slots.size = c.slots.size) (hlive : ∀ i, (d.slotAt i).live = (c.slotAt i).live) :
    d.liveIndices = c.liveIndices := by
  rw [liveIndices, liveIndices, hsize]
  exact List.filter_congr fun i _ => hlive i

theorem Stored.congr (h : c.Stored) (hfree : d.free = c.free) (hcount : d.liveNodes = c.liveNodes)
    (hsize : d.slots.size = c.slots.size) (hlive : ∀ i, (d.slotAt i).live = (c.slotAt i).live) : d.Stored :=
  ⟨hfree ▸ h.nodup_free, fun i => by rw [hfree, hsize, hlive]; exact h.mem_free i,
    by rw [hcount, liveIndices_congr hsize hlive]; exact h.count⟩

theorem Stored.setSuccessors (h : c.Stored) : (c.setSuccessors n ts).Stored :=
  h.congr rfl rfl (by simp [Circuit.setSuccessors, modifySlot]) fun i => (setSuccessors_frame c n ts i).1

/-- A pending node may get another proper exponent. -/
theorem Tied.setSuccessors (ht : c.Tied) (hn : c.Pending n) (hts : c.Proper ts) : (c.setSuccessors n ts).Tied := by
  have hmono : ∀ m, c.Live m → (c.setSuccessors n ts).Live m := fun m => setSuccessors_live_iff.2
  refine (hn.setSuccessors_sameReduced ts).tied ht (fun m hm => ?_) (fun i hi => ?_) fun i hi => ?_
  · by_cases hne : m = n
    · rw [hne, hn.1.successors_setSuccessors]
      exact hts.mono hmono
    · have hm := setSuccessors_live_iff.1 hm
      rw [hn.1.successors_setSuccessors_of_ne ts hm hne]
      exact (ht.exponents m hm).mono hmono
  · exact (ht.markings i hi).mono hmono
  · obtain ⟨h1, -, h3⟩ := setSuccessors_frame c n ts i
    rw [h3]
    exact ht.unranked i (h1 ▸ hi)

/-- Pending nodes that mention only reduced nodes and nodes that they mentioned before are on no cycle. -/
theorem Linked.acyclic_of_entries (hl : c.Linked) (hreduced : ∀ m, d.Reduced m → Acc d.Below m)
    (hlive : ∀ n, d.Live n → ∀ m, d.Below m n → d.Live m) (hpending : ∀ n, d.Pending n → c.Live n)
    (hentries : ∀ n, d.Pending n → ∀ m, d.Below m n → d.Reduced m ∨ c.Below m n) : d.Acyclic := by
  have hacc : ∀ n, Acc c.Below n → d.Live n → Acc d.Below n := by
    intro n hn
    induction hn with
    | intro n _ ih =>
      intro hdn
      rcases reduced_or_pending hdn with hr | hp
      · exact hreduced n hr
      · refine Acc.intro n fun m hm => ?_
        rcases hentries n hp m hm with hr | hb
        · exact hreduced m hr
        · exact ih m hb (hlive n hdn m hm)
  refine acyclic_of_acc fun n hn => ?_
  rcases reduced_or_pending hn with hr | hp
  · exact hreduced n hr
  · exact hacc n (hl.acc (hpending n hp)) hn

/-! ## Changing markings -/

/-- The circuit with other markings. -/
def withCells (c : Circuit) (cells : Array Cell) : Circuit := { c with cells }

variable {cells : Array Cell}

theorem withCells_sameReduced : c.SameReduced (c.withCells cells) := ⟨rfl, fun _ => Iff.rfl, fun _ _ => rfl⟩

theorem Tied.withCells (ht : c.Tied)
    (h : ∀ i, 0 < ((c.withCells cells).cellAt i).handles → c.Proper ((c.withCells cells).cellAt i).terms) :
    (c.withCells cells).Tied where
  exponents := fun n hn => (ht.exponents n hn).mono fun _ hm => hm
  markings := fun i hi => (h i hi).mono fun _ hm => hm
  ranked := ht.ranked
  unranked := ht.unranked
  closed := ht.closed

theorem Linked.withCells (hl : c.Linked)
    (h : ∀ i, 0 < ((c.withCells cells).cellAt i).handles → c.Proper ((c.withCells cells).cellAt i).terms) :
    (c.withCells cells).Linked := (hl.tied.withCells h).linked hl.acyclic

theorem Stored.withCells (h : c.Stored) : (c.withCells cells).Stored := h.congr rfl rfl rfl fun _ => rfl

theorem WellFormed.withCells (h : c.WellFormed)
    (hm : ∀ i, 0 < ((c.withCells cells).cellAt i).handles → c.Proper ((c.withCells cells).cellAt i).terms) :
    (c.withCells cells).WellFormed where
  toConsistent := withCells_sameReduced.consistent h.toConsistent (h.toLinked.withCells hm)
  toStored := h.toStored.withCells

theorem newMarking_eq : (c.newMarking ts).2 = c.withCells (c.cells.push ⟨ts, 1⟩) := rfl

theorem newMarking_cellAt (i : ℕ) :
    (c.newMarking ts).2.cellAt i = if i = c.cells.size then ⟨ts, 1⟩ else c.cellAt i := by
  rw [newMarking_eq, cellAt, withCells, Array.getElem?_push]
  split_ifs <;> simp [cellAt]

theorem Tied.newMarking_markings (ht : c.Tied) (hts : c.Proper ts) (i : ℕ)
    (hi : 0 < ((c.newMarking ts).2.cellAt i).handles) : c.Proper ((c.newMarking ts).2.cellAt i).terms := by
  rw [newMarking_cellAt] at hi ⊢
  split_ifs at hi ⊢
  · exact hts
  · exact ht.markings i hi

theorem WellFormed.newMarking (h : c.WellFormed) (hts : c.Proper ts) : (c.newMarking ts).2.WellFormed :=
  h.withCells (h.tied.newMarking_markings hts)

theorem setTerms_eq : c.setTerms i ts = c.withCells (c.cells.modify i fun k => { k with terms := ts }) := rfl

theorem setTerms_handles : ((c.setTerms i ts).cellAt j).handles = (c.cellAt j).handles := by
  rw [setTerms, cellAt_modifyCell]
  split_ifs <;> rfl

theorem setTerms_terms (hi : 0 < (c.cellAt i).handles) :
    ((c.setTerms i ts).cellAt j).terms = if j = i then ts else (c.cellAt j).terms := by
  rw [setTerms, cellAt_modifyCell]
  by_cases hj : i = j
  · subst hj
    have hlt : i < c.cells.size := by
      by_contra h
      simp [cellAt, Array.getElem?_eq_none (Nat.le_of_not_lt h)] at hi
    simp [hlt]
  · simp [hj, Ne.symm hj]

theorem Linked.setTerms (hl : c.Linked) (hi : 0 < (c.cellAt i).handles) (hts : c.Proper ts) :
    (c.setTerms i ts).Linked := by
  refine hl.withCells fun j hj => ?_
  rw [← setTerms_eq] at hj ⊢
  rw [setTerms_handles] at hj
  rw [setTerms_terms hi]
  split_ifs
  · exact hts
  · exact hl.markings j hj

end PowerTower.Circuit
