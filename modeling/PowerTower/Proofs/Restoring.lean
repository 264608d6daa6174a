import Mathlib
import PowerTower.Proofs.Cloning
import PowerTower.Proofs.Leaves
import PowerTower.Proofs.Smallest

/-!
# Cloning and reducing

The clone of a reduced marking is a marking of leaves, and each of them is worth as much as the node it was made after.
A reduction of the clone merges them one by one with these nodes, and nothing else comes of it.

* `Intact` : the order, the nodes and all markings but one are as they were;
* `Midway`, `Midway.step`, `Midway.run` : some of the twins are merged, then one more, and then all of them;
* `Reverted`, `clone_then_reduce_is_identity` : the circuit is as it was, but for another marking with the same entries.
-/

namespace PowerTower.Circuit

variable {c d e : Circuit} {k m : Marking} {n u : Node} {ts us done : List Term} {i : ℕ}
  {table : Std.HashMap Node (Array Holder)}

/-! ## What stays as it was -/

/-- The order, the nodes and the markings but for one number are as they were. -/
structure Intact (c : Circuit) (i : ℕ) (d : Circuit) : Prop where
  id : d.id = c.id
  config : d.config = c.config
  order : d.order = c.order
  slot : ∀ n, c.Live n → d.slot n = c.slot n
  cells : ∀ j, j ≠ i → d.cellAt j = c.cellAt j

theorem Intact.refl (c : Circuit) (i : ℕ) : Intact c i c := ⟨rfl, rfl, rfl, fun _ _ => rfl, fun _ _ => rfl⟩

theorem Intact.live_of_live (h : Intact c i d) (hn : c.Live n) : d.Live n := by
  rw [Live, h.slot n hn, h.id]
  exact hn

theorem Intact.successors_eq (h : Intact c i d) (hn : c.Live n) : d.successors n = c.successors n :=
  congrArg Slot.successors (h.slot n hn)

theorem Intact.rank?_eq (h : Intact c i d) (hn : c.Live n) : d.rank? n = c.rank? n := congrArg Slot.rank (h.slot n hn)

theorem Intact.reduced (h : Intact c i d) (hn : c.Reduced n) : d.Reduced n :=
  ⟨h.live_of_live hn.1, by rw [h.rank?_eq hn.1]; exact hn.2⟩

theorem Intact.alloc (h : Intact c i d) (hd : d.Stored) (ts : List Term) : Intact c i (d.alloc ts).2 where
  id := alloc_id.trans h.id
  config := alloc_config.trans h.config
  order := alloc_order.trans h.order
  slot := fun n hn => (hd.alloc_slot_of_live ts (h.live_of_live hn)).trans (h.slot n hn)
  cells := fun j hj => (cellAt_of_cells_eq alloc_cells j).trans (h.cells j hj)

theorem Intact.newMarking (h : Intact c d.cells.size d) (ts : List Term) :
    Intact c (d.newMarking ts).1.id (d.newMarking ts).2 where
  id := h.id
  config := h.config
  order := h.order
  slot := h.slot
  cells := fun j hj => (newMarking_cellAt_of_ne hj).trans (h.cells j hj)

theorem WellFormed.cloneTerms_intact (h : c.WellFormed) (hts : c.Proper ts) (i : ℕ) :
    Intact c i (Circuit.cloneTerms ts c).2 := by
  have hP := cloneTerms_induction (P := fun d => (d.Tied ∧ d.Stored) ∧ Intact c i d) (fun _ hd => hd.1)
    (fun d us hd hus => ⟨⟨hd.1.1.alloc hd.1.2 hus, hd.1.2.alloc us⟩, hd.2.alloc hd.1.2 us⟩)
    ⟨⟨h.tied, h.toStored⟩, .refl c i⟩ hts.live hts.nonzero
  exact hP.1.2

/-- A clone leaves alone what is there, and the number of its marking is new. -/
theorem WellFormed.cloneMarking_intact (h : c.WellFormed) (hown : m.circuit = c.id) (hm : 0 < (c.cellAt m.id).handles)
    (hrun : (Circuit.cloneMarking m).run c = (.ok k, d)) : Intact c k.id d := by
  let b := (Circuit.cloneTerms (c.termsOf m) c).2
  let us := (Circuit.cloneTerms (c.termsOf m) c).1
  have hclone : (Circuit.cloneMarking m).run c = (.ok (b.newMarking us).1, (b.newMarking us).2) := run_own hown
  obtain ⟨hk, rfl⟩ := Prod.mk.inj (hclone.symm.trans hrun)
  obtain rfl := Except.ok.inj hk
  exact (h.cloneTerms_intact (h.markings m.id hm) _).newMarking _

theorem Intact.folded (h : Intact c i d) (hf : Folded d i u ts e) (hu : ¬ c.Live u) : Intact c i e where
  id := hf.id.trans h.id
  config := hf.config.trans h.config
  order := hf.order.trans h.order
  slot := fun n hn => (hf.slot n (h.live_of_live hn) fun heq => hu (heq ▸ hn)).trans (h.slot n hn)
  cells := fun j hj => (hf.cells j hj).trans (h.cells j hj)

/-! ## Some twins are merged -/

/-- Of the marking of a clone some nodes have been replaced by the nodes they were made after, and the others are the
twins that are left. -/
structure Midway (c : Circuit) (i : ℕ) (ts us done : List Term) (d : Circuit) : Prop extends WellFormed d, Intact c i d
    where
  twins : List.Forall₂ (Twin c d) ts us
  held : 0 < (d.cellAt i).handles
  terms : (d.cellAt i).terms = us ++ done
  live : ∀ n, d.Live n ↔ c.Live n ∨ n ∈ Terms.nodes us

theorem Cloned.midway (h : Cloned c m k d) (hd : Intact c k.id d) : Midway c k.id (c.termsOf m) (d.termsOf k) [] d where
  toWellFormed := h.wellFormed
  toIntact := hd
  twins := h.twin
  held := h.held
  terms := (List.append_nil _).symm
  live := fun n => ⟨h.live n, fun hn => hn.elim hd.live_of_live fun hn => (h.pending hn).1⟩

theorem Twin.folded {t v : Term} (h : Twin c d t v) (hf : Folded d i u ts e) (hne : v.1 ≠ u) : Twin c e t v where
  digit := h.digit
  new := h.new
  pending := ⟨(hf.live v.1).2 ⟨h.pending.1, hne⟩,
    (congrArg Slot.rank (hf.slot v.1 h.pending.1 hne)).trans h.pending.2⟩
  successors := (congrArg Slot.successors (hf.slot v.1 h.pending.1 hne)).trans h.successors

/-- What a twin depends on is reduced. -/
theorem Twin.reduced_of_below {t v : Term} (h : Twin c d t v) (hc : c.Linked) (hd : Intact c i d) (ht : c.Reduced t.1)
    (hn : d.Below n v.1) : c.Reduced n ∧ d.Reduced n := by
  rw [Below, successorNodes, h.successors] at hn
  exact ⟨hc.closed t.1 ht n hn, hd.reduced (hc.closed t.1 ht n hn)⟩

theorem Midway.not_live (h : Midway c i ts us done d) (hn : n ∈ Terms.nodes us) : ¬ c.Live n := by
  obtain ⟨s, hs⟩ := Terms.mem_nodes.1 hn
  obtain ⟨t, -, htwin⟩ := exists_left_of_forall₂ h.twins hs
  exact htwin.new

/-- A twin is new to all exponents and to all other markings. -/
theorem Midway.holds_iff (h : Midway c i ts us done d) (hc : c.WellFormed) (hts : ∀ n ∈ Terms.nodes ts, c.Reduced n)
    (hn : n ∈ Terms.nodes us) (holder : Holder) : d.Holds n holder ↔ holder = .marking i := by
  refine hc.holds_iff_of_new (h.not_live hn) (fun p hp b hb => ?_) h.cells h.held ?_ holder
  · rcases (h.live p).1 hp.1 with hlive | hmem
    · rw [Below, successorNodes, h.successors_eq hlive] at hb
      exact hc.live_of_below hlive hb
    · obtain ⟨s, hs⟩ := Terms.mem_nodes.1 hmem
      obtain ⟨t, ht, htwin⟩ := exists_left_of_forall₂ h.twins hs
      exact (htwin.reduced_of_below hc.toLinked h.toIntact (hts t.1 (Terms.mem_nodes_of_mem ht)) hb).1.1
  · rw [h.terms, Terms.nodes_append]
    exact List.mem_append_left _ hn

/-- The next twin is merged with the node it was made after. -/
theorem Midway.step {t v : Term} (h : Midway c i (t :: ts) (v :: us) done d) (hc : c.WellFormed)
    (hts : ∀ n ∈ Terms.nodes (t :: ts), c.Reduced n) (hnew : t.1 ∉ Terms.nodes done)
    (hlisted : ∀ holder, holder ∈ listed table v.1 ↔ holder = .marking i) :
    ∃ e, (reduceNode table v.1).run d = (.ok (), e) ∧ Midway c i ts us (done ++ [t]) e := by
  obtain ⟨htwin, hrest⟩ := List.forall₂_cons.1 h.twins
  have ht := hts t.1 (by simp)
  have hv : v.1 ∉ Terms.nodes us := by
    have hnodup := (h.markings i h.held).nodup
    rw [h.terms, List.cons_append, Terms.nodes_cons, Terms.nodes_append, List.nodup_cons, List.mem_append] at hnodup
    exact fun hmem => hnodup.1 (.inl hmem)
  have hfresh : t.1 ∉ Terms.nodes (us ++ done) := by
    rw [Terms.nodes_append, List.mem_append]
    exact fun hmem => hmem.elim (fun hmem => h.not_live (by simp [hmem]) ht.1) hnew
  obtain ⟨e, hrun, hf⟩ := h.reduceNode_folded htwin.pending
    (fun n hn => (htwin.reduced_of_below hc.toLinked h.toIntact ht hn).2) (h.toIntact.reduced ht)
    (by rw [htwin.successors, h.successors_eq ht.1]) h.held h.terms hfresh
    (fun holder => (h.holds_iff hc hts (by simp) holder).1) hlisted
  have hterms : (e.cellAt i).terms = us ++ (done ++ [t]) := by
    rw [hf.terms, htwin.digit]
    exact List.append_assoc us done [t]
  refine ⟨e, hrun, hf.toWellFormed, h.toIntact.folded hf htwin.new, ?_, by rw [hf.handles]; exact h.held, hterms,
    fun n => ?_⟩
  · have hothers : ∀ w ∈ us, w.1 ≠ v.1 := fun w hw heq => hv (heq ▸ Terms.mem_nodes_of_mem hw)
    exact (((List.forall₂_and_left us ts).2 ⟨hothers, hrest.flip⟩).imp fun _ _ hw => hw.2.folded hf hw.1).flip
  · rw [hf.live, h.live, Terms.nodes_cons, List.mem_cons]
    constructor
    · rintro ⟨hl | rfl | hmem, hne⟩
      · exact .inl hl
      · exact absurd rfl hne
      · exact .inr hmem
    · rintro (hl | hmem)
      · exact ⟨.inl hl, fun heq => htwin.new (heq ▸ hl)⟩
      · exact ⟨.inr (.inr hmem), fun heq => hv (heq ▸ hmem)⟩

/-- One after the other all twins are merged. -/
theorem Midway.run (h : Midway c i ts us done d) (hc : c.WellFormed) (hts : ∀ n ∈ Terms.nodes ts, c.Reduced n)
    (hnodup : (Terms.nodes (done ++ ts)).Nodup)
    (hlisted : ∀ n ∈ Terms.nodes us, ∀ holder, holder ∈ listed table n ↔ holder = .marking i) :
    ∃ e, ((Terms.nodes us).forM (reduceNode table)).run d = (.ok (), e) ∧ Midway c i [] [] (done ++ ts) e := by
  induction ts generalizing us done d with
  | nil =>
    obtain rfl := List.forall₂_nil_left_iff.1 h.twins
    exact ⟨d, rfl, by rwa [List.append_nil]⟩
  | cons t ts ih =>
    obtain ⟨v, us, -, -, rfl⟩ := List.forall₂_cons_left_iff.1 h.twins
    have hsplit : done ++ t :: ts = (done ++ [t]) ++ ts := by rw [List.append_assoc, List.singleton_append]
    have hnew : t.1 ∉ Terms.nodes done := fun hmem => by
      rw [Terms.nodes_append, Terms.nodes_cons] at hnodup
      exact (List.nodup_append.1 hnodup).2.2 _ hmem _ (by simp) rfl
    obtain ⟨f, hstep, hmid⟩ := h.step hc hts hnew (hlisted v.1 (by simp))
    obtain ⟨e, hrun, hend⟩ := ih hmid (fun n hn => hts n (by simp [hn])) (hsplit ▸ hnodup)
      fun n hn => hlisted n (by simp [hn])
    refine ⟨e, ?_, hsplit ▸ hend⟩
    show (reduceNode table v.1 >>= fun _ => (Terms.nodes us).forM (reduceNode table)).run d = _
    rw [Call.run_bind_ok hstep, hrun]

/-! ## All twins are merged -/

theorem Cloned.leaves (h : Cloned c m k d) (hc : c.WellFormed) (hd : Intact c k.id d) (hm : c.Solid m) :
    Leaves d (d.nodesOf k) where
  nodup := h.proper.nodup
  pending := fun _ hn => h.pending hn
  below := fun n hn b hb => by
    obtain ⟨t, ht, _, htwin⟩ := h.exists_twin hn
    exact (htwin.reduced_of_below hc.toLinked hd (hm.reduced t.1 (Terms.mem_nodes_of_mem ht)) hb).2

/-- The circuit is as it was before a marking was cloned, but that the clone is there, and has the same entries. -/
structure Reverted (c : Circuit) (m k : Marking) (cloned d : Circuit) : Prop extends WellFormed d, Intact c k.id d where
  own : k.circuit = d.id
  held : 0 < (d.cellAt k.id).handles
  new : ¬ 0 < (c.cellAt k.id).handles
  terms : d.termsOf k = c.termsOf m
  live : ∀ n, d.Live n ↔ c.Live n
  pending : ∀ n, d.Pending n ↔ c.Pending n
  stale : ∀ n, cloned.Live n → ¬ c.Live n → d.checkNode n = .error (.staleNode n)

theorem Cloned.reverted (h : Cloned c m k d) (hmid : Midway c k.id [] [] (c.termsOf m) e) : Reverted c m k d e where
  toWellFormed := hmid.toWellFormed
  toIntact := hmid.toIntact
  own := h.own.trans hmid.id.symm
  held := hmid.held
  new := h.new
  terms := hmid.terms
  live := fun n => by simp [hmid.live]
  pending := fun n => by
    constructor
    · rintro ⟨hl, hr⟩
      have hl : c.Live n := by simpa using (hmid.live n).1 hl
      exact ⟨hl, (hmid.rank?_eq hl).symm.trans hr⟩
    · exact fun hn => ⟨hmid.toIntact.live_of_live hn.1, (hmid.rank?_eq hn.1).trans hn.2⟩
  stale := fun n hn hnew => by
    refine checkNode_of_not_live ?_ fun hl => hnew (by simpa using (hmid.live n).1 hl)
    rw [hmid.id, ← h.untouched.id]
    exact hn.1

/-- The clone of a reduced marking is reduced to the entries of that marking, in the same order. The nodes that were
made for it are gone, and everything else is as it was before. -/
theorem clone_then_reduce_is_identity (h : c.WellFormed) (hm : c.Solid m) :
    ∃ k d e, (cloneMarking m).run c = (.ok k, d) ∧ Cloned c m k d ∧ (reduceMarkings [k]).run d = (.ok (), e) ∧
      Reverted c m k d e := by
  obtain ⟨k, d, hclone, hd⟩ := h.cloneMarking hm.own hm.held
  have hintact := h.cloneMarking_intact hm.own hm.held hclone
  have hleaves := hd.leaves h hintact hm
  have hmid := hd.midway hintact
  have hlisted : ∀ n ∈ d.nodesOf k, ∀ holder, holder ∈ listed (d.referrers (d.nodesOf k)) n ↔ holder = .marking k.id :=
    fun n hn holder => (mem_referrers hn).trans (hmid.holds_iff h hm.reduced hn holder)
  obtain ⟨e, hrun, hend⟩ := hmid.run h hm.reduced (h.markings m.id hm.held).nodup hlisted
  have hown : k.circuit = d.id := hd.own.trans hd.untouched.id.symm
  exact ⟨k, d, e, hclone, hd, hleaves.run_reduceMarkings hown hrun hend.toConsistent, hd.reverted hend⟩

/-- A clone of eight less one is reduced to eight less one. -/
theorem clone_of_seven_reduced : sevenTwice.WellFormed ∧ sevenTwice.Solid ⟨⟨0⟩, 0⟩ ∧ ∃ k d e,
    (cloneMarking ⟨⟨0⟩, 0⟩).run sevenTwice = (.ok k, d) ∧ (reduceMarkings [k]).run d = (.ok (), e) ∧
      e.termsOf k = [(⟨⟨0⟩, 2, 0⟩, .plus), (⟨⟨0⟩, 0, 0⟩, .minus)] ∧ e.order = sevenTwice.order := by
  have hsolid : sevenTwice.Solid ⟨⟨0⟩, 0⟩ := ⟨rfl, by decide, by decide⟩
  obtain ⟨k, d, e, hclone, -, hrun, he⟩ := clone_then_reduce_is_identity wellFormed_sevenTwice hsolid
  exact ⟨wellFormed_sevenTwice, hsolid, k, d, e, hclone, hrun, he.terms.trans rfl, he.order⟩

end PowerTower.Circuit
