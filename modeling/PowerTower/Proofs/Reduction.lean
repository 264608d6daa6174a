import Mathlib
import PowerTower.Proofs.Guards
import PowerTower.Proofs.Merge

/-!
# Reduction

* `Reduces.ready` : when the turn of a node comes, its successors are reduced, and the table lists its holders as they
  are now;
* `Exhausted` : what becomes of the nodes whose turn has come, by induction along the sorted frontier;
* `Closed` : a frontier that can be put in order, and `runReduce` on it;
* `Preserves.legal`, `Reduces.reduced_or_stale` : what the nodes of the frontier and the others are afterwards.
-/

namespace PowerTower.Circuit

open Guards Traversal

variable {c d e : Circuit} {m n : Node} {h : Holder} {done rest sorted frontier : List Node}

/-! ## The turn of a node -/

theorem mem_pendingSuccessors : m ∈ c.pendingSuccessors n ↔ c.Below m n ∧ c.isReducedNode m = false := by
  simp [pendingSuccessors, Below]

theorem Linked.pending_of_not_reduced (hl : c.Linked) (hn : c.Live n) (hm : c.Below m n)
    (hr : c.isReducedNode m = false) : c.Pending m :=
  ⟨hl.live_of_below hn hm, by simpa [isReducedNode] using hr⟩

/-- When the turn of a node of the frontier comes, its successors are reduced and its holders are those listed. -/
theorem Reduces.ready (hr : Reduces c done d) (hsorted : Sorted c.pendingSuccessors (done ++ n :: rest))
    (hn : c.Pending n) :
    d.Pending n ∧ (∀ m, d.Below m n → d.Reduced m) ∧
      (∀ h ∈ listed (c.referrers (done ++ n :: rest)) n, d.IsHolder h) ∧
      ∀ h, d.Holds n h → h ∈ listed (c.referrers (done ++ n :: rest)) n := by
  have hnot : n ∉ done := fun hmem => by
    have := hsorted.nodup
    rw [List.nodup_append] at this
    exact this.2.2 n hmem n (by simp) rfl
  have hpend : d.Pending n := (hr.pending n).2 ⟨hn, hnot⟩
  have hmem : n ∈ done ++ n :: rest := by simp
  refine ⟨hpend, fun m hm => ?_, fun h hh => ?_, fun h hh => ?_⟩
  · rcases hr.entries (.node n) hpend m hm with hm' | hred
    · by_contra hred
      -- a pending successor from the start has had its turn
      have hmd : d.Live m := hr.sound.live_of_below hpend.1 hm
      obtain ⟨hmc, hmdone⟩ := (hr.pending m).1 (pending_iff.2 ⟨hmd, hred⟩)
      exact hmdone (hsorted.mem_left (mem_pendingSuccessors.2 ⟨hm', by simp [isReducedNode, hmc.2]⟩))
    · exact hred
  · rw [mem_referrers hmem] at hh
    cases h with
    | node p =>
      refine (hr.pending p).2 ⟨hh.1, fun hp => ?_⟩
      exact hsorted.not_mem_next_of_mem_left hp
        (mem_pendingSuccessors.2 ⟨hh.2, by simp [isReducedNode, hn.2]⟩)
    | marking i => rw [IsHolder, hr.handles]; exact hh.1
  · rw [mem_referrers hmem, holds_iff]
    obtain ⟨hholder, hin⟩ := holds_iff.1 hh
    refine ⟨hr.isHolder hholder, (hr.entries h hholder n hin).resolve_right fun hred => hpend.not_reduced hred⟩

/-! ## The frontier from front to back -/

/-- What becomes of a frontier: worths are kept where its nodes are legal, and otherwise a fraction gets into
the order. -/
structure Exhausted (c : Circuit) (frontier : List Node) (d : Circuit) : Prop where
  reduces : Reduces c frontier d
  preserves : c.Consistent → (∀ n ∈ frontier, c.Legal n) → Preserves c frontier d
  fraction : c.Consistent → (∃ n ∈ frontier, ¬ c.Legal n) → ∃ k, d.Reduced k ∧ d.worth k < 1

/-- A node of the frontier that is not legal is a fraction if the nodes before it are legal. -/
theorem Consistent.worth_lt_one (hc : c.Consistent) (hsorted : Sorted c.pendingSuccessors (done ++ n :: rest))
    (hdone : ∀ m ∈ done, c.Legal m) (hn : c.Pending n) (hlegal : ¬ c.Legal n) : c.worth n < 1 := by
  by_contra h1
  refine hlegal (legal_of_one_le_worth (fun m hm => ?_) (hc.acc hn.1) (not_lt.1 h1))
  by_cases hr : c.isReducedNode m = true
  · exact hc.legal m ⟨hc.live_of_below hn.1 hm, hr⟩
  · exact hdone m (hsorted.mem_left (mem_pendingSuccessors.2 ⟨hm, by simpa using hr⟩))

theorem Exhausted.step (hx : Exhausted c done d) (hsorted : Sorted c.pendingSuccessors (done ++ n :: rest))
    (hn : c.Pending n) (hnd : d.Live n) (hsettled : Settled d n e) : Exhausted c (done ++ [n]) e := by
  refine ⟨hx.reduces.trans hsettled.reduces, fun hc hlegal => ?_, fun hc hex => ?_⟩
  · have hp := hx.preserves hc fun m hm => hlegal m (by simp [hm])
    refine hp.trans hx.reduces hsettled.reduces (hsettled.preserves hp.consistent ?_)
    rw [hp.worth n hn.1 hnd]
    exact (hlegal n (by simp)).one_le_worth
  · by_cases hlegal : ∀ m ∈ done, c.Legal m
    · -- then the node itself is the first that is not legal
      have hp := hx.preserves hc hlegal
      obtain ⟨m, hm, hmlegal⟩ := hex
      rw [List.mem_append, List.mem_singleton] at hm
      obtain rfl := hm.resolve_left fun hm => hmlegal (hlegal m hm)
      refine ⟨m, hsettled.fraction hp.consistent ?_⟩
      rw [hp.worth m hn.1 hnd]
      exact hc.worth_lt_one hsorted hlegal hn hmlegal
    · push Not at hlegal
      obtain ⟨k, hk, hw⟩ := hx.fraction hc hlegal
      refine ⟨k, (hsettled.reduces.extend k hk).1, ?_⟩
      rwa [hsettled.reduces.extend.worth_eq hx.reduces.sound.toLinked hk]

theorem Exhausted.reduceAll (hx : Exhausted c done d) (hsorted : Sorted c.pendingSuccessors (done ++ rest))
    (hpend : ∀ n ∈ done ++ rest, c.Pending n) :
    ∃ e, (rest.forM (reduceNode (c.referrers (done ++ rest)))).run d = (.ok (), e) ∧
      Exhausted c (done ++ rest) e := by
  induction rest generalizing done d with
  | nil => exact ⟨d, rfl, by rwa [List.append_nil]⟩
  | cons n rest ih =>
    have hn := hpend n (by simp)
    obtain ⟨hnd, hb, hh, hall⟩ := hx.reduces.ready hsorted hn
    obtain ⟨d', hrun, hsettled⟩ := hx.reduces.sound.reduceNode hnd hb hh hall
    have hassoc : done ++ n :: rest = done ++ [n] ++ rest := by simp
    have hstep : (n :: rest).forM (reduceNode (c.referrers (done ++ n :: rest))) =
        reduceNode (c.referrers (done ++ n :: rest)) n >>= fun _ =>
          rest.forM (reduceNode (c.referrers (done ++ n :: rest))) := rfl
    rw [hstep, Call.run_bind_ok hrun, hassoc]
    exact ih (hx.step hsorted hn hnd.1 hsettled) (hassoc ▸ hsorted) (hassoc ▸ hpend)

/-! ## Frontiers in order -/

/-- Pending nodes, and with them the pending nodes in their exponents. -/
structure Closed (c : Circuit) (frontier : List Node) : Prop where
  pending : ∀ n ∈ frontier, c.Pending n
  below : ∀ n ∈ frontier, ∀ m, c.Below m n → c.Pending m → m ∈ frontier

theorem closed_pendingNodes : c.Closed c.pendingNodes :=
  ⟨fun _ hn => mem_pendingNodes.1 hn, fun _ _ _ _ hm => mem_pendingNodes.2 hm⟩

theorem Linked.pending_of_mem_pendingSuccessors (hl : c.Linked) (hn : c.Live n) (hm : m ∈ c.pendingSuccessors n) :
    c.Below m n ∧ c.Pending m := by
  obtain ⟨hb, hr⟩ := mem_pendingSuccessors.1 hm
  exact ⟨hb, hl.pending_of_not_reduced hn hb hr⟩

theorem Linked.not_cycle (hl : c.Linked) {S : Node → Prop} (hn : c.Live n) :
    ¬ Relation.TransGen (Step c.pendingSuccessors S) n n := fun hc =>
  hl.acyclic n hn (Relation.transGen_swap.1
    (Relation.TransGen.mono (fun _ _ hab => (mem_pendingSuccessors.1 hab.2.2).1) _ _ hc))

/-- A closed frontier is put in an order of dependency. -/
theorem Linked.exists_dependencyOrder (hl : c.Linked) (hf : c.Closed frontier) :
    ∃ sorted, c.dependencyOrder frontier = .ok sorted ∧ Sorted c.pendingSuccessors sorted ∧
      ∀ n, n ∈ sorted ↔ n ∈ frontier := by
  obtain ⟨sorted, hs⟩ := exists_orderWithin_ok (fun n (hn : n ∈ frontier) => hn)
    (fun n hn m (hm : m ∈ c.pendingSuccessors n) => by
      obtain ⟨hb, hp⟩ := hl.pending_of_mem_pendingSuccessors (hf.pending n hn).1 hm
      exact hf.below n hn m hb hp)
    fun n hn => hl.not_cycle (hf.pending n hn).1
  obtain ⟨hsorted, hroots, hnames⟩ := orderWithin_ok hs
  refine ⟨sorted, ?_, hsorted, fun n => ⟨hnames n, hroots n⟩⟩
  simp only [dependencyOrder, Traversal.dependencyOrder, hs]

theorem sorted_of_dependencyOrder (h : c.dependencyOrder frontier = .ok sorted) :
    Sorted c.pendingSuccessors sorted ∧ ∀ n, n ∈ sorted ↔ n ∈ frontier := by
  unfold dependencyOrder at h
  cases hs : Traversal.dependencyOrder c.pendingSuccessors frontier with
  | ok l =>
    rw [hs] at h
    obtain rfl := Except.ok.inj h
    obtain ⟨hsorted, hroots, hnames⟩ := orderWithin_ok hs
    exact ⟨hsorted, fun n => ⟨hnames n, hroots n⟩⟩
  | error e => cases e <;> simp [hs] at h

/-- Only a closed frontier is put in order. -/
theorem closed_of_dependencyOrder (hp : ∀ n ∈ frontier, c.Pending n) (h : c.dependencyOrder frontier = .ok sorted) :
    c.Closed frontier := by
  obtain ⟨hsorted, hmem⟩ := sorted_of_dependencyOrder h
  refine ⟨hp, fun n hn m hb hm => (hmem m).1 (hsorted.mem_of_mem_next ((hmem n).2 hn) ?_)⟩
  exact mem_pendingSuccessors.2 ⟨hb, by simp [isReducedNode, hm.2]⟩

theorem harmless_dependencyOrder : Harmless (c.dependencyOrder frontier) := fun v => by
  unfold dependencyOrder
  split <;> simp

/-! ## Running a reduction -/

theorem run_reduceFrontier (h : c.dependencyOrder frontier = .ok sorted) :
    (reduceFrontier frontier).run c = (sorted.forM (reduceNode (c.referrers sorted))).run c := by
  rw [reduceFrontier, Call.run_bind, Call.run_ask, h]
  cases sorted <;> rfl

theorem Sound.reduceFrontier (hs : c.Sound) (hf : c.Closed frontier) :
    ∃ sorted e, (∀ n, n ∈ sorted ↔ n ∈ frontier) ∧ Exhausted c sorted e ∧
      (reduceFrontier frontier).run c = (.ok (), e) := by
  obtain ⟨sorted, ho, hsorted, hmem⟩ := hs.exists_dependencyOrder hf
  have hstart : Exhausted c [] c := ⟨.refl hs, fun hc _ => .refl hc, by simp⟩
  obtain ⟨e, hrun, he⟩ := hstart.reduceAll hsorted fun n hn => hf.pending n ((hmem n).1 hn)
  exact ⟨sorted, e, hmem, he, (run_reduceFrontier ho).trans hrun⟩

/-- A reduction of a closed frontier gets through, and then the outcome is checked where the circuit checks itself. -/
theorem Sound.runReduce (hs : c.Sound) (hf : c.Closed frontier) :
    ∃ sorted e, (∀ n, n ∈ sorted ↔ n ∈ frontier) ∧ Exhausted c sorted e ∧
      (runReduce frontier).run c = (if c.config.checkInvariants then e.check else .ok (), e) := by
  obtain ⟨sorted, e, hmem, he, hrun⟩ := hs.reduceFrontier hf
  refine ⟨sorted, e, hmem, he, ?_⟩
  rw [Circuit.runReduce, Call.run_bind_ok hrun, Call.run_ask, he.reduces.config]

theorem runReduce_of_refused {error : CircuitError} (h : c.dependencyOrder frontier = .error error) :
    (runReduce frontier).run c = (.error error, c) := by
  have hrun : (reduceFrontier frontier).run c = (.error error, c) := by
    rw [reduceFrontier, Call.run_bind, Call.run_ask, h]
  rw [runReduce, Call.run_bind_error hrun]

/-! ## Afterwards -/

/-- A node of the frontier is reduced, or its name is stale. -/
theorem Reduces.reduced_or_stale (hr : Reduces c done d) (hn : n ∈ done) :
    d.Reduced n ∨ d.checkNode n = .error (.staleNode n) := by
  refine (hr.gone n hn).imp_right fun hgen => checkNode_of_not_live ?_ fun h => hgen h.2.2
  rw [hr.id]
  exact (hr.chosen n hn).1.1

/-- A legal node is still legal if it is still there. -/
theorem Preserves.legal (hp : Preserves c done d) (hr : Reduces c done d) (hd : d.Live n) (hn : c.Legal n)
    (hlive : c.Live n) (hc : c.Linked) : d.Legal n := by
  have hacc := hr.sound.acc hd
  induction hacc with
  | intro n _ ih =>
    rcases reduced_or_pending hd with hred | hpend
    · exact hp.consistent.legal n hred
    · refine legal_of_one_le_worth (fun m hm => ?_) (hr.sound.acc hd)
        (by rw [hp.worth n hlive hd]; exact hn.one_le_worth)
      have hmd := hr.sound.live_of_below hd hm
      rcases hr.entries (.node n) hpend m hm with hin | hred
      · exact ih m hm hmd (hn.of_below m hin) (hc.live_of_below hlive hin)
      · exact hp.consistent.legal m hred

end PowerTower.Circuit
