import Mathlib
import PowerTower.Circuit.Remove
import PowerTower.Proofs.Making

/-!
# Removing nodes

* `WellFormed.demoteFor` : the reduced order is cut off below the nodes that go, to the unit or to nothing;
* `forget_freeNode` : nodes can be forgotten before they are freed just as well, so that no place in between is
  mentioned that holds no node;
* `WellFormed.forget`, `WellFormed.foldl_freeNode` : pending nodes are forgotten, and then freed one after the other;
* `WellFormed.keeps_remove` : the removal of a marking keeps a circuit well formed.
-/

namespace PowerTower.Circuit

variable {c d : Circuit} {m : Marking} {k n : Node} {doomed : List Node} {gone : Std.HashSet Node} {ts : List Term}
  {i keep r : ℕ}

/-! ## Cutting off the reduced order -/

theorem foldl_setRank_none_slotAt (l : List Node) (i : ℕ) :
    (l.foldl (fun c n => c.setRank n none) c).slotAt i =
      if ∃ n ∈ l, n.index = i then { c.slotAt i with rank := none } else c.slotAt i := by
  induction l generalizing c with
  | nil => simp
  | cons n l ih =>
    have hout : ¬ i < c.slots.size → { c.slotAt i with rank := none } = c.slotAt i := fun hi => by
      simp [slotAt, Array.getElem?_eq_none (Nat.le_of_not_lt hi)]
    rw [List.foldl_cons, ih, setRank_slotAt]
    by_cases hn : n.index = i
    · by_cases hi : i < c.slots.size
      · simp [hn, hi]
      · simp [hn, hi, hout hi]
    · simp [hn]

theorem foldl_setRank_sameNodes (l : List Node) (j : Option ℕ) :
    c.SameNodes (l.foldl (fun c n => c.setRank n j) c) ∧ (l.foldl (fun c n => c.setRank n j) c).order = c.order := by
  induction l generalizing c with
  | nil => exact ⟨.refl c, rfl⟩
  | cons n l ih => exact ⟨(setRank_sameNodes n j).trans ih.1, ih.2⟩

theorem demote_slotAt (keep i : ℕ) : (c.demote keep).slotAt i =
    { (if ∃ n ∈ c.order.toList.drop keep, n.index = i then { c.slotAt i with rank := none } else c.slotAt i) with
      doubles := false } := by
  rw [← foldl_setRank_none_slotAt]
  simp only [demote, slotAt, Array.getElem?_map]
  cases ((c.order.toList.drop keep).foldl (fun c n => c.setRank n none) c).slots[i]? <;> rfl

theorem demote_sameNodes : c.SameNodes (c.demote keep) := by
  obtain ⟨h, -⟩ := foldl_setRank_sameNodes (c := c) (c.order.toList.drop keep) none
  refine ⟨h.id, h.config, h.cells, h.free, h.liveNodes, ?_, fun i => ?_, fun i => ?_, fun i => ?_⟩
  · rw [demote, Array.size_map]
    exact h.size
  all_goals
    rw [demote_slotAt]
    split_ifs <;> rfl

theorem demote_order (keep r : ℕ) : (c.demote keep).order[r]? = if r < keep then c.order[r]? else none := by
  have horder : (c.demote keep).order = c.order.take keep := by
    rw [demote, (foldl_setRank_sameNodes _ _).2]
  rw [horder, Array.take_eq_extract, Array.getElem?_extract, Nat.zero_add, Nat.sub_zero]
  by_cases hr : r < keep
  · by_cases hs : r < c.order.size
    · rw [if_pos hr, if_pos (by omega)]
    · rw [if_pos hr, if_neg (by omega), Array.getElem?_eq_none (by omega)]
  · rw [if_neg hr, if_neg (by omega)]

theorem Linked.demote_rank?_iff (hl : c.Linked) (hn : c.Live n) :
    (c.demote keep).rank? n = some r ↔ c.rank? n = some r ∧ r < keep := by
  have hdropped : (∃ k ∈ c.order.toList.drop keep, k.index = n.index) ↔ ∃ j : ℕ, keep ≤ j ∧ c.rank? n = some j := by
    constructor
    · rintro ⟨k, hk, hi⟩
      obtain ⟨j, hj⟩ := List.mem_iff_getElem?.1 hk
      rw [List.getElem?_drop, Array.getElem?_toList] at hj
      obtain rfl := (hl.reduced_of_getElem? hj).1.eq_of_index hn hi
      exact ⟨keep + j, by omega, hl.rank?_of_getElem? hj⟩
    · rintro ⟨j, hj, hr⟩
      refine ⟨n, List.mem_iff_getElem?.2 ⟨j - keep, ?_⟩, rfl⟩
      rw [List.getElem?_drop, Array.getElem?_toList, Nat.add_sub_cancel' hj]
      exact hl.getElem?_of_rank? hn hr
  rw [rank?, slot, demote_slotAt]
  by_cases hd : ∃ k ∈ c.order.toList.drop keep, k.index = n.index
  · obtain ⟨j, hj, hr⟩ := hdropped.1 hd
    rw [if_pos hd, hr]
    simp only [reduceCtorEq, Option.some.injEq, false_iff, not_and]
    omega
  · rw [if_neg hd]
    refine ⟨fun hr => ⟨hr, ?_⟩, fun h => h.1⟩
    by_contra hk
    exact hd (hdropped.2 ⟨r, not_lt.1 hk, hr⟩)

theorem Linked.demote_reduced (hl : c.Linked) (hn : (c.demote keep).Reduced n) :
    ∃ j : ℕ, c.order[j]? = some n ∧ j < keep := by
  have hlive := demote_sameNodes.live_iff.1 hn.1
  obtain ⟨j, hj⟩ := hn.exists_rank
  obtain ⟨hj, hk⟩ := (hl.demote_rank?_iff hlive).1 hj
  exact ⟨j, hl.getElem?_of_rank? hlive hj, hk⟩

/-- The unit alone is a reduced order, and so is nothing. -/
theorem WellFormed.demote (h : c.WellFormed) (hkeep : keep ≤ 1) : (c.demote keep).WellFormed := by
  have hsame : c.SameNodes (c.demote keep) := demote_sameNodes
  have hfirst : ∀ {n}, (c.demote keep).Reduced n → c.order[0]? = some n := fun hn => by
    obtain ⟨j, hj, hk⟩ := h.demote_reduced hn
    obtain rfl : j = 0 := by omega
    exact hj
  have hlinked : (c.demote keep).Linked := by
    refine ⟨hsame.exponents h.toLinked, hsame.markings h.toLinked, hsame.acyclic h.toLinked,
      fun r n => ?_, fun i hi => ?_,
      fun n hn m hm => ?_⟩
    · rw [demote_order, hsame.live_iff]
      constructor
      · intro hr
        split_ifs at hr with hk
        have hn := (h.reduced_of_getElem? hr).1
        exact ⟨hn, (h.demote_rank?_iff hn).2 ⟨h.rank?_of_getElem? hr, hk⟩⟩
      · rintro ⟨hn, hr⟩
        obtain ⟨hr, hk⟩ := (h.demote_rank?_iff hn).1 hr
        rw [if_pos hk]
        exact h.getElem?_of_rank? hn hr
    · have hrank := h.unranked i (hsame.live i ▸ hi)
      rw [demote_slotAt]
      split_ifs
      · rfl
      · exact hrank
    · rw [hsame.below_eq, Below, successorNodes, h.successors_first h.toLinked (hfirst hn)] at hm
      cases hm
  have hnext : ∀ r : ℕ, (c.demote keep).order[r + 1]? = none := fun r => by
    rw [demote_order, if_neg (by omega)]
  refine ⟨⟨hlinked, ⟨fun n hn => hsame.legal (h.legal n (h.reduced_of_getElem? (hfirst hn))), ?_⟩, fun r n _ => ?_⟩,
    hsame.stored h.toStored⟩
  · rw [pairwise_order_iff]
    intro i j m n hij _ hj
    obtain ⟨j, rfl⟩ := Nat.exists_eq_succ_of_ne_zero (by omega : j ≠ 0)
    rw [hnext] at hj
    cases hj
  · rw [hnext, slot, demote_slotAt]
    simp

/-- After it nothing that goes is reduced. -/
theorem WellFormed.demoteFor (h : c.WellFormed) (doomed : List Node) : (c.demoteFor doomed).WellFormed ∧
    c.SameNodes (c.demoteFor doomed) ∧ ∀ n ∈ doomed, ¬ (c.demoteFor doomed).Reduced n := by
  unfold Circuit.demoteFor
  cases hlow : c.lowestRank? doomed with
  | none =>
    refine ⟨h, .refl c, fun n hn hr => ?_⟩
    obtain ⟨j, hj⟩ := hr.exists_rank
    have hnil : doomed.filterMap c.rank? = [] := List.min?_eq_none_iff.1 hlow
    exact absurd (List.mem_filterMap.2 ⟨n, hn, hj⟩) (by simp [hnil])
  | some lowest =>
    refine ⟨h.demote (by split_ifs <;> simp), demote_sameNodes, fun n hn hr => ?_⟩
    obtain ⟨j, hj, hk⟩ := h.demote_reduced hr
    have hle := (List.min?_eq_some_iff.1 hlow).2 j (List.mem_filterMap.2 ⟨n, hn, h.rank?_of_getElem? hj⟩)
    split_ifs at hk
    · omega
    · omega

/-! ## Forgetting nodes -/

/-- The terms without those nodes. -/
def without (gone : Std.HashSet Node) (ts : List Term) : List Term := ts.filter fun t => !gone.contains t.1

theorem without_sublist : (without gone ts).Sublist ts := List.filter_sublist

theorem not_mem_without (hn : n ∈ gone) : n ∉ Terms.nodes (without gone ts) := by
  intro hmem
  obtain ⟨s, hs⟩ := Terms.mem_nodes.1 hmem
  have hnot := (List.mem_filter.1 hs).2
  simp [hn] at hnot

theorem without_eq_self (h : ∀ n ∈ Terms.nodes ts, n ∉ gone) : without gone ts = ts :=
  List.filter_eq_self.2 fun t ht => by simpa using h t.1 (Terms.mem_nodes_of_mem ht)

theorem forget_slotAt (i : ℕ) : (c.forget gone).slotAt i = if (c.slotAt i).live then
    { c.slotAt i with successors := without gone (c.slotAt i).successors } else c.slotAt i := by
  unfold slotAt
  rw [forget, Array.getElem?_map]
  exact Option.getD_map (fun s : Slot => if s.live then { s with successors := without gone s.successors } else s) {} _

theorem forget_cellAt (i : ℕ) : (c.forget gone).cellAt i = if 0 < (c.cellAt i).handles then
    { c.cellAt i with terms := without gone (c.cellAt i).terms } else c.cellAt i := by
  unfold cellAt
  rw [forget, Array.getElem?_map]
  exact Option.getD_map
    (fun k : Cell => if 0 < k.handles then { k with terms := without gone k.terms } else k) ⟨[], 0⟩ _

theorem forget_frame (c : Circuit) (gone : Std.HashSet Node) (i : ℕ) :
    ((c.forget gone).slotAt i).live = (c.slotAt i).live ∧
    ((c.forget gone).slotAt i).generation = (c.slotAt i).generation ∧
    ((c.forget gone).slotAt i).rank = (c.slotAt i).rank := by
  rw [forget_slotAt]
  split_ifs <;> exact ⟨rfl, rfl, rfl⟩

theorem forget_live_iff : (c.forget gone).Live n ↔ c.Live n := by
  obtain ⟨h1, h2, -⟩ := forget_frame c gone n.index
  rw [Live, slot, h1, h2]
  rfl

theorem forget_rank? : (c.forget gone).rank? n = c.rank? n := (forget_frame c gone n.index).2.2

theorem forget_successors (hn : c.Live n) : (c.forget gone).successors n = without gone (c.successors n) := by
  have hlive : (c.slotAt n.index).live = true := hn.2.1
  rw [successors, slot, forget_slotAt, if_pos hlive]
  rfl

theorem forget_sameReduced (hl : c.Linked) (hgone : ∀ n ∈ gone, ¬ c.Reduced n) : c.SameReduced (c.forget gone) where
  order := rfl
  reduced := fun n => by rw [Reduced, forget_live_iff, forget_rank?, Reduced]
  slot := fun n hn => by
    have hsame : without gone (c.slotAt n.index).successors = (c.slotAt n.index).successors :=
      without_eq_self fun m hm hmem => hgone m hmem (hl.closed n hn m hm)
    rw [slot, forget_slotAt, hsame, ite_self]
    rfl

/-- Nothing mentions the node. -/
structure Unmentioned (c : Circuit) (n : Node) : Prop where
  exponents : ∀ m, c.Live m → n ∉ c.successorNodes m
  markings : ∀ i, 0 < (c.cellAt i).handles → n ∉ Terms.nodes (c.cellAt i).terms

/-- Nodes that are not reduced can be forgotten. -/
theorem WellFormed.forget (h : c.WellFormed) (hgone : ∀ n ∈ gone, ¬ c.Reduced n) :
    (c.forget gone).WellFormed ∧ ∀ n ∈ gone, (c.forget gone).Unmentioned n := by
  have hsame := forget_sameReduced h.toLinked hgone
  have hproper : ∀ {ts}, c.Proper ts → (c.forget gone).Proper (without gone ts) := fun hts =>
    (hts.sublist without_sublist).mono fun _ => forget_live_iff.2
  have hcells : ∀ i, 0 < ((c.forget gone).cellAt i).handles → 0 < (c.cellAt i).handles ∧
      ((c.forget gone).cellAt i).terms = without gone (c.cellAt i).terms := fun i hi => by
    rw [forget_cellAt] at hi ⊢
    split_ifs at hi ⊢ with h0
    · exact ⟨h0, rfl⟩
    · exact absurd hi h0
  have hlinked : (c.forget gone).Linked := by
    refine (hsame.tied h.tied (fun n hn => ?_) (fun i hi => ?_) fun i hi => ?_).linked (acyclic_of_acc fun n hn => ?_)
    · have hn := forget_live_iff.1 hn
      rw [forget_successors hn]
      exact hproper (h.exponents n hn)
    · obtain ⟨h0, hts⟩ := hcells i hi
      rw [hts]
      exact hproper (h.markings i h0)
    · obtain ⟨h1, -, h3⟩ := forget_frame c gone i
      rw [h3]
      exact h.unranked i (h1 ▸ hi)
    · have hn := forget_live_iff.1 hn
      have hacc := h.acc hn
      induction hacc with
      | intro n _ ih =>
        refine Acc.intro n fun m hm => ?_
        rw [Below, successorNodes, forget_successors hn] at hm
        have hm : c.Below m n := (without_sublist.map _).subset hm
        exact ih m hm (forget_live_iff.2 (h.live_of_below hn hm)) (h.live_of_below hn hm)
  refine ⟨⟨hsame.consistent h.toConsistent hlinked, h.toStored.congr rfl rfl (by simp [Circuit.forget])
    fun i => (forget_frame c gone i).1⟩, fun n hn => ⟨fun m hm => ?_, fun i hi => ?_⟩⟩
  · rw [successorNodes, forget_successors (forget_live_iff.1 hm)]
    exact not_mem_without hn
  · rw [(hcells i hi).2]
    exact not_mem_without hn

/-! ## Freeing nodes -/

/-- A pending node that nothing mentions is freed. -/
theorem WellFormed.freeNode (h : c.WellFormed) (hn : c.Pending n) (hfree : c.Unmentioned n) :
    (c.freeNode n).WellFormed where
  toConsistent := hn.freeNode_sameReduced.consistent h.toConsistent
    (h.toLinked.freeNode hn hfree.exponents hfree.markings)
  toStored := h.toStored.freeNode hn.1

theorem Unmentioned.freeNode (hk : c.Unmentioned k) (hn : c.Live n) : (c.freeNode n).Unmentioned k where
  exponents := fun m hm => by
    obtain ⟨hm, hne⟩ := hn.freeNode_live_iff.1 hm
    rw [successorNodes, successors, hn.freeNode_slot hm hne]
    exact hk.exponents m hm
  markings := hk.markings

/-- When one of several nodes is freed, the others are still there. -/
theorem live_freeNode_of_nodup (hnodup : (n :: doomed).Nodup) (hlive : ∀ m ∈ n :: doomed, c.Live m) :
    ∀ m ∈ doomed, (c.freeNode n).Live m := by
  intro m hm
  have hne : m ≠ n := fun he => (List.nodup_cons.1 hnodup).1 (he ▸ hm)
  exact (hlive n (by simp)).freeNode_live_iff.2 ⟨hlive m (by simp [hm]), hne⟩

theorem WellFormed.foldl_freeNode (h : c.WellFormed) (hnodup : doomed.Nodup) (hpending : ∀ n ∈ doomed, c.Pending n)
    (hfree : ∀ n ∈ doomed, c.Unmentioned n) : (doomed.foldl (fun c n => c.freeNode n) c).WellFormed := by
  induction doomed generalizing c with
  | nil => exact h
  | cons n doomed ih =>
    have hn := hpending n (by simp)
    have hlive := live_freeNode_of_nodup hnodup fun m hm => (hpending m hm).1
    refine ih (h.freeNode hn (hfree n (by simp))) hnodup.of_cons (fun m hm => ?_) fun m hm =>
      (hfree m (by simp [hm])).freeNode hn.1
    rw [pending_iff, hn.freeNode_sameReduced.reduced]
    exact ⟨hlive m hm, (hpending m (by simp [hm])).not_reduced⟩

/-- A node that is freed has nothing to forget. -/
theorem forget_freeNode : (c.freeNode n).forget gone = (c.forget gone).freeNode n := by
  have hslots : (c.freeNode n).forget gone = { (c.forget gone).freeNode n with
      slots := ((c.freeNode n).forget gone).slots } := rfl
  rw [hslots]
  refine congrArg (fun slots => { (c.forget gone).freeNode n with slots }) (Array.ext_getElem? fun i => ?_)
  simp only [Circuit.forget, Circuit.freeNode, modifySlot, Array.getElem?_map, Array.getElem?_modify]
  by_cases hi : n.index = i
  · cases c.slots[i]? with
    | none => simp [hi]
    | some s => cases hs : s.live <;> simp [hi, hs]
  · simp [hi]

theorem forget_foldl_freeNode : (doomed.foldl (fun c n => c.freeNode n) c).forget gone =
    doomed.foldl (fun c n => c.freeNode n) (c.forget gone) := by
  induction doomed generalizing c with
  | nil => rfl
  | cons n doomed ih => rw [List.foldl_cons, ih, forget_freeNode, List.foldl_cons]

/-- Live nodes are taken out of a circuit, whether they are reduced or not. -/
theorem WellFormed.removeNodes (h : c.WellFormed) (hnodup : doomed.Nodup) (hlive : ∀ n ∈ doomed, c.Live n) :
    (c.removeNodes doomed).WellFormed := by
  unfold Circuit.removeNodes
  split_ifs
  · exact h
  · obtain ⟨hdemoted, hsame, hpending⟩ := h.demoteFor doomed
    obtain ⟨hforgot, hfree⟩ := hdemoted.forget fun n (hn : n ∈ Std.HashSet.ofList doomed) =>
      hpending n (Traversal.mem_ofList_iff.1 hn)
    rw [forget_foldl_freeNode]
    refine hforgot.foldl_freeNode hnodup (fun n hn => ?_) fun n hn => hfree n (Traversal.mem_ofList_iff.2 hn)
    have hp := pending_iff.2 ⟨hsame.live_iff.2 (hlive n hn), hpending n hn⟩
    exact ⟨forget_live_iff.2 hp.1, forget_rank?.trans hp.2⟩

theorem foldl_freeNode_config : (doomed.foldl (fun c n => c.freeNode n) c).config = c.config := by
  induction doomed generalizing c with
  | nil => rfl
  | cons n doomed ih => exact ih

theorem removeNodes_config : (c.removeNodes doomed).config = c.config := by
  unfold removeNodes
  split_ifs
  · rfl
  · have hdemoted : (c.demoteFor doomed).config = c.config := by
      unfold demoteFor
      split
      · exact demote_sameNodes.config
      · rfl
    exact foldl_freeNode_config.trans hdemoted

theorem WellFormed.keeps_remove (h : c.WellFormed) (hm : c.Held m) : Keeps (remove m) c :=
  h.keeps_own fun hown =>
    have hts := h.proper_termsOf hm hown
    keeps_change (h.removeNodes hts.nodup hts.live) removeNodes_config

end PowerTower.Circuit
