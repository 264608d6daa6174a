import Mathlib
import PowerTower.Proofs.Reduction

/-!
# What a reduction comes to

* `ReduceCall` : the calls that reduce, when they are accepted (`Accepted`), and the nodes they reduce (`Frontier`);
* `ReduceCall.run_of_accepted`, `ReduceCall.run_of_not_accepted` : an accepted call reduces its frontier, and another
  one changes nothing;
* `Canonical`, `reduction_is_canonical` : the outcome where all nodes of the frontier are legal.
-/

namespace PowerTower.Circuit

open Guards Traversal

variable {c d : Circuit} {m n : Node} {ms : List Marking} {ns roots : List Node}

/-- The handle is another circuit's, or its marking is live. A caller has no other handles. -/
def Held (c : Circuit) (m : Marking) : Prop := m.circuit = c.id → 0 < (c.cellAt m.id).handles

/-- A call that reduces. -/
inductive ReduceCall where
  /-- All pending nodes. -/
  | all
  /-- The pending nodes that some markings depend on. -/
  | markings (ms : List Marking)
  /-- The listed nodes, where the markings depend on no others. -/
  | nodes (ns : List Node) (ms : List Marking)
deriving DecidableEq, Repr

namespace ReduceCall

/-- What the call does. -/
def run : ReduceCall → Call CircuitError Unit
  | all => reduce
  | markings ms => reduceMarkings ms
  | nodes ns ms => reduceNodes ns ms

/-- The handles that are passed. -/
def handles : ReduceCall → List Marking
  | all => []
  | markings ms => ms
  | nodes _ ms => ms

/-- The checks of the arguments and of the frontier succeed. -/
def Accepted (c : Circuit) : ReduceCall → Prop
  | all => True
  | markings ms => ∀ m ∈ ms, m.circuit = c.id
  | nodes ns ms => (∀ n ∈ ns, c.Pending n) ∧
      (∀ m ∈ ms, m.circuit = c.id ∧ ∀ n ∈ c.nodesOf m, c.Pending n → n ∈ ns) ∧
      ∀ n ∈ ns, ∀ m, c.Below m n → c.Pending m → m ∈ ns

/-- The nodes that the call reduces. -/
def Frontier (c : Circuit) : ReduceCall → Node → Prop
  | all, n => c.Pending n
  | markings ms, n => c.Pending n ∧ ∃ m ∈ ms, ∃ r ∈ c.nodesOf m, Relation.ReflTransGen c.Below n r
  | nodes ns _, n => n ∈ ns

end ReduceCall

/-! ## The checks of the arguments -/

theorem checkMarking_eq_ok_iff {m : Marking} : c.checkMarking m = .ok () ↔ m.circuit = c.id := by
  unfold checkMarking
  split_ifs with h <;> simp [h]

theorem rootsOf_of_own (h : ∀ m ∈ ms, m.circuit = c.id) : c.rootsOf ms = .ok (ms.flatMap c.nodesOf) := by
  induction ms with
  | nil => rfl
  | cons m ms ih =>
    rw [rootsOf, checkMarking_eq_ok_iff.2 (h m (by simp)), ih fun m hm => h m (by simp [hm])]
    rfl

theorem own_of_rootsOf (h : c.rootsOf ms = .ok roots) : ∀ m ∈ ms, m.circuit = c.id := by
  induction ms generalizing roots with
  | nil => simp
  | cons m ms ih =>
    rw [rootsOf, unit_bind_eq_ok] at h
    obtain ⟨hm, h⟩ := h
    obtain ⟨rest, hrest, -⟩ := bind_eq_ok.1 h
    exact List.forall_mem_cons.2 ⟨checkMarking_eq_ok_iff.1 hm, ih hrest⟩

theorem harmless_rootsOf : Harmless (c.rootsOf ms) := by
  induction ms with
  | nil => exact harmless_ok _
  | cons m ms ih => exact harmless_checkMarking.bind fun _ _ => ih.bind fun _ _ => harmless_ok _

theorem checkPending_eq_ok_iff : c.checkPending n = .ok () ↔ c.Pending n := by
  rw [checkPending, unit_bind_eq_ok, ← live_iff_checkNode, Pending]
  refine and_congr_right fun _ => ?_
  cases hr : c.rank? n <;> simp [isReducedNode, hr, pure, Except.pure, throw, throwThe, MonadExceptOf.throw]

theorem harmless_checkPending : Harmless (c.checkPending n) := by
  refine harmless_checkNode.bind fun _ _ v => ?_
  split_ifs <;> simp [pure, Except.pure, throw, throwThe, MonadExceptOf.throw]

theorem checkCovered_eq_ok_iff {m : Marking} (hlive : m.circuit = c.id → ∀ n ∈ c.nodesOf m, c.Live n) :
    c.checkCovered ns m = .ok () ↔ m.circuit = c.id ∧ ∀ n ∈ c.nodesOf m, c.Pending n → n ∈ ns := by
  rw [checkCovered, unit_bind_eq_ok, checkMarking_eq_ok_iff]
  refine and_congr_right fun hm => ?_
  have hpending : ∀ n ∈ c.nodesOf m, (c.Pending n → n ∈ ns) ↔ (!ns.contains n && !c.isReducedNode n) = false :=
    fun n hn => by
      rw [Pending, and_iff_right (hlive hm n hn)]
      by_cases hns : n ∈ ns <;> cases hr : c.rank? n <;> simp [isReducedNode, hns, hr]
  split
  · next n hfind =>
    have hn := List.mem_of_find?_eq_some hfind
    have hbad := List.find?_some hfind
    simp only [throw, throwThe, MonadExceptOf.throw, reduceCtorEq, false_iff]
    intro h
    rw [(hpending n hn).1 (h n hn)] at hbad
    cases hbad
  · next hfind =>
    simp only [pure, Except.pure, true_iff]
    exact fun n hn => (hpending n hn).2 (by simpa using List.find?_eq_none.1 hfind n hn)

theorem harmless_checkCovered {m : Marking} : Harmless (c.checkCovered ns m) := by
  refine harmless_checkMarking.bind fun _ _ v => ?_
  split <;> simp [pure, Except.pure, throw, throwThe, MonadExceptOf.throw]

/-! ## What markings depend on -/

/-- The walk from the roots finds the pending nodes that they depend on. -/
theorem Tied.mem_pendingReachable (ht : c.Tied) (hroots : ∀ r ∈ roots, c.Live r) :
    n ∈ c.pendingReachable roots ↔ c.Pending n ∧ ∃ r ∈ roots, Relation.ReflTransGen c.Below n r := by
  have hlive : ∀ {r k}, c.Live r → Relation.ReflTransGen c.Below k r → c.Live k := fun hr hk => by
    induction hk using Relation.ReflTransGen.head_induction_on with
    | refl => exact hr
    | head hb _ ih => exact ht.live_of_below ih hb
  unfold pendingReachable
  split_ifs with hall
  · simp only [List.not_mem_nil, false_iff]
    rintro ⟨hn, r, hr, hreach⟩
    exact hn.not_reduced (ht.reduced_of_reaches ⟨hroots r hr, List.all_eq_true.1 hall r hr⟩ hreach)
  · simp only [mem_discover_iff, mem_ofList_iff, List.mem_filter, List.mem_append, Bool.not_eq_true']
    constructor
    · rintro ⟨r, hr, hstart, hpath⟩
      have hreach : Relation.ReflTransGen c.Below n r := reflTransGen_below_of_next
        (Relation.ReflTransGen.mono (fun _ _ hab => hab.2.2) _ _ hpath)
      have hn : c.isReducedNode n = false := by
        rcases Relation.ReflTransGen.cases_tail hpath with rfl | ⟨_, _, hstep⟩
        · exact hstart.2
        · exact hstep.2.1.2
      exact ⟨⟨hlive (hroots r hr) hreach, by simpa [isReducedNode] using hn⟩, r, hr, hreach⟩
    · rintro ⟨hn, r, hr, hreach⟩
      have hfalse : ∀ {k}, c.Pending k → c.isReducedNode k = false := fun hk => by simp [isReducedNode, hk.2]
      -- a path to a pending node leads through pending nodes
      have hpath : (n ∈ roots ∨ n ∈ c.mentionedNodes) ∧
        ((r ∈ roots ∨ r ∈ c.mentionedNodes) ∧ c.isReducedNode r = false) ∧
          Relation.ReflTransGen (Step c.successorNodes fun k =>
            (k ∈ roots ∨ k ∈ c.mentionedNodes) ∧ c.isReducedNode k = false) r n := by
        induction hreach using Relation.ReflTransGen.head_induction_on with
        | refl => exact ⟨.inl hr, ⟨.inl hr, hfalse hn⟩, .refl⟩
        | @head k b hb hreach ih =>
          have hbp : c.Pending b := pending_iff.2 ⟨hlive (hroots r hr) hreach, fun hred =>
            hn.not_reduced (ht.closed b hred k hb)⟩
          obtain ⟨hmem, hstart, hpath⟩ := ih hbp
          have hk := mem_mentionedNodes hb
          exact ⟨.inr hk, hstart, hpath.tail ⟨⟨hmem, hfalse hbp⟩, ⟨.inr hk, hfalse hn⟩, hb⟩⟩
      exact ⟨r, hr, hpath.2⟩

/-! ## An accepted call and another one -/

theorem Held.proper {m : Marking} (hm : c.Held m) (ht : c.Tied) (hown : m.circuit = c.id) : c.Proper (c.termsOf m) :=
  ht.markings m.id (hm hown)

theorem Held.live {m : Marking} (hm : c.Held m) (ht : c.Tied) (hown : m.circuit = c.id) :
    ∀ n ∈ c.nodesOf m, c.Live n := (hm.proper ht hown).live

/-- The nodes that an accepted call reduces, in the order in which they are listed for it. -/
def ReduceCall.list (c : Circuit) : ReduceCall → List Node
  | all => c.pendingNodes
  | markings ms => c.pendingReachable (ms.flatMap c.nodesOf)
  | nodes ns _ => ns

theorem run_reduceMarkings_of_own {ms : List Marking} (h : ∀ m ∈ ms, m.circuit = c.id) :
    (reduceMarkings ms).run c = (runReduce (c.pendingReachable (ms.flatMap c.nodesOf))).run c := by
  rw [reduceMarkings, run_ask_ok (rootsOf_of_own h), Call.run_bind_ok (Call.run_read _ c)]

theorem ReduceCall.run_list_of_accepted {call : ReduceCall} (ht : c.Tied) (hheld : ∀ m ∈ call.handles, c.Held m)
    (h : call.Accepted c) : call.run.run c = (runReduce (call.list c)).run c := by
  cases call with
  | all => rfl
  | markings ms => exact run_reduceMarkings_of_own h
  | nodes ns ms =>
    obtain ⟨hpending, hcovered, -⟩ := h
    have h1 : ns.forM c.checkPending = .ok () := forM_eq_ok.2 fun n hn => checkPending_eq_ok_iff.2 (hpending n hn)
    have h2 : ms.forM (c.checkCovered ns) = .ok () := forM_eq_ok.2 fun m hm =>
      (checkCovered_eq_ok_iff fun hown => (hheld m hm).live ht hown).2 (hcovered m hm)
    exact (run_ask_ok h1).trans (run_ask_ok h2)

theorem ReduceCall.closed_list_of_accepted {call : ReduceCall} (ht : c.Tied) (hheld : ∀ m ∈ call.handles, c.Held m)
    (h : call.Accepted c) : c.Closed (call.list c) ∧ ∀ n, n ∈ call.list c ↔ call.Frontier c n := by
  cases call with
  | all => exact ⟨closed_pendingNodes, fun n => mem_pendingNodes⟩
  | markings ms =>
    have hroots : ∀ r ∈ ms.flatMap c.nodesOf, c.Live r := fun r hr => by
      obtain ⟨m, hm, hr⟩ := List.mem_flatMap.1 hr
      exact (hheld m hm).live ht (h m hm) r hr
    have hmem := fun n => ht.mem_pendingReachable (n := n) hroots
    refine ⟨⟨fun n hn => ((hmem n).1 hn).1, fun n hn m hb hm => (hmem m).2 ⟨hm, ?_⟩⟩, fun n => ?_⟩
    · obtain ⟨-, r, hr, hreach⟩ := (hmem n).1 hn
      exact ⟨r, hr, .head hb hreach⟩
    · rw [ReduceCall.list, hmem, ReduceCall.Frontier]
      simp only [List.mem_flatMap]
      exact and_congr_right fun _ => ⟨fun ⟨r, ⟨m, hm, hr⟩, hreach⟩ => ⟨m, hm, r, hr, hreach⟩,
        fun ⟨m, hm, r, hr, hreach⟩ => ⟨r, ⟨m, hm, hr⟩, hreach⟩⟩
  | nodes ns ms => exact ⟨⟨h.1, h.2.2⟩, fun n => Iff.rfl⟩

/-- An accepted call reduces its frontier, which is closed. -/
theorem ReduceCall.run_of_accepted {call : ReduceCall} (ht : c.Tied) (hheld : ∀ m ∈ call.handles, c.Held m)
    (h : call.Accepted c) : ∃ frontier, call.run.run c = (runReduce frontier).run c ∧ c.Closed frontier ∧
      ∀ n, n ∈ frontier ↔ call.Frontier c n :=
  ⟨call.list c, ReduceCall.run_list_of_accepted ht hheld h, ReduceCall.closed_list_of_accepted ht hheld h⟩

/-- A call that is not accepted is refused, and changes nothing. -/
theorem ReduceCall.run_of_not_accepted {call : ReduceCall} (ht : c.Tied) (hheld : ∀ m ∈ call.handles, c.Held m)
    (h : ¬ call.Accepted c) : ∃ e, call.run.run c = (.error e, c) ∧ ∀ v, e ≠ .invariantViolated v := by
  cases call with
  | all => exact absurd trivial h
  | markings ms =>
    obtain ⟨e, he⟩ := exists_error fun roots hroots => h (own_of_rootsOf hroots)
    exact ⟨e, run_ask_error he, harmless_rootsOf.ne_of_error he⟩
  | nodes ns ms =>
    by_cases h1 : ns.forM c.checkPending = .ok ()
    · by_cases h2 : ms.forM (c.checkCovered ns) = .ok ()
      · have hpending : ∀ n ∈ ns, c.Pending n := fun n hn => checkPending_eq_ok_iff.1 (forM_eq_ok.1 h1 n hn)
        have hcovered : ∀ m ∈ ms, m.circuit = c.id ∧ ∀ n ∈ c.nodesOf m, c.Pending n → n ∈ ns := fun m hm =>
          (checkCovered_eq_ok_iff fun hown => (hheld m hm).live ht hown).1 (forM_eq_ok.1 h2 m hm)
        obtain ⟨e, he⟩ := exists_error fun sorted hs =>
          h ⟨hpending, hcovered, (closed_of_dependencyOrder hpending hs).below⟩
        exact ⟨e, (run_ask_ok h1).trans ((run_ask_ok h2).trans (runReduce_of_refused he)),
          harmless_dependencyOrder.ne_of_error he⟩
      · obtain ⟨e, he⟩ := exists_error fun _ => h2
        exact ⟨e, (run_ask_ok h1).trans (run_ask_error he),
          Harmless.ne_of_error (.forM fun _ _ => harmless_checkCovered) he⟩
    · obtain ⟨e, he⟩ := exists_error fun _ => h1
      exact ⟨e, run_ask_error he, Harmless.ne_of_error (.forM fun _ _ => harmless_checkPending) he⟩

/-! ## The outcome -/

/-- What a reduction of legal nodes comes to. -/
structure Canonical (c : Circuit) (frontier : Node → Prop) (d : Circuit) : Prop extends WellFormed d where
  id : d.id = c.id
  config : d.config = c.config
  /-- The same markings are live. -/
  handles : ∀ i, (d.cellAt i).handles = (c.cellAt i).handles
  /-- They are worth what they were worth. -/
  markings_worth : ∀ i, 0 < (c.cellAt i).handles →
    d.termsWorth (d.cellAt i).terms = c.termsWorth (c.cellAt i).terms
  /-- That is an integer where they mention legal nodes only. -/
  markings_integer : ∀ i, 0 < (c.cellAt i).handles → (∀ n ∈ Terms.nodes (c.cellAt i).terms, c.Legal n) →
    ∃ k : ℤ, c.termsWorth (c.cellAt i).terms = k
  /-- A node that is still there is worth what it was worth, and legal if it was. -/
  worth : ∀ n, c.Live n → d.Live n → d.worth n = c.worth n ∧ (c.Legal n → d.Legal n)
  /-- A node of the frontier is reduced, or stale and replaced by a reduced node of its worth. -/
  settled : ∀ n, frontier n → d.Reduced n ∨
    d.checkNode n = .error (.staleNode n) ∧ ∃ m, d.Reduced m ∧ d.worth m = c.worth n
  /-- The other pending nodes are pending still, and no more come in. -/
  pending : ∀ n, d.Pending n ↔ c.Pending n ∧ ¬ frontier n
  /-- Reduced nodes of the same worth are the same. -/
  distinct : ∀ m n, d.Reduced m → d.Reduced n → d.worth m = d.worth n → m = n

theorem Preserves.canonical {sorted : List Node} {frontier : Node → Prop} (hp : Preserves c sorted d)
    (hr : Reduces c sorted d) (hc : c.Linked) (hmem : ∀ n, n ∈ sorted ↔ frontier n) : Canonical c frontier d where
  toConsistent := hp.consistent
  toStored := hr.sound.toStored
  id := hr.id
  config := hr.config
  handles := hr.handles
  markings_worth := hp.markings
  markings_integer := fun _ _ => exists_int_termsWorth
  worth := fun n hn hd => ⟨hp.worth n hn hd, fun hlegal => hp.legal hr hd hlegal hn hc⟩
  settled := fun n hn => (hr.reduced_or_stale ((hmem n).2 hn)).imp_right fun hstale =>
    ⟨hstale, hp.twin n ((hmem n).2 hn)⟩
  pending := fun n => by rw [hr.pending, hmem]
  distinct := fun _ _ => hp.consistent.eq_of_worth_eq hp.consistent.toLinked

/-- A closed frontier of legal nodes is reduced, and all worths are kept. -/
theorem WellFormed.runReduce_preserves (h : c.WellFormed) {frontier : List Node} (hf : c.Closed frontier)
    (hlegal : ∀ n ∈ frontier, c.Legal n) :
    ∃ sorted d, (runReduce frontier).run c = (.ok (), d) ∧ (∀ n, n ∈ sorted ↔ n ∈ frontier) ∧ Reduces c sorted d ∧
      Preserves c sorted d := by
  obtain ⟨sorted, d, hmem, hx, hrun⟩ := h.sound.runReduce hf
  have hp := hx.preserves h.toConsistent fun n hn => hlegal n ((hmem n).1 hn)
  refine ⟨sorted, d, ?_, hmem, hx.reduces, hp⟩
  rw [hrun, check_eq_ok_iff_consistent.2 hp.consistent, ite_self]

theorem WellFormed.reduce_preserves (h : c.WellFormed) (call : ReduceCall) (hheld : ∀ m ∈ call.handles, c.Held m)
    (haccepted : call.Accepted c) (hlegal : ∀ n, call.Frontier c n → c.Legal n) :
    ∃ sorted d, call.run.run c = (.ok (), d) ∧ (∀ n, n ∈ sorted ↔ call.Frontier c n) ∧ Reduces c sorted d ∧
      Preserves c sorted d := by
  obtain ⟨frontier, hrun, hclosed, hmem⟩ := ReduceCall.run_of_accepted h.tied hheld haccepted
  obtain ⟨sorted, d, hrun', hmem', hreduces, hpreserves⟩ :=
    h.runReduce_preserves hclosed fun n hn => hlegal n ((hmem n).1 hn)
  exact ⟨sorted, d, hrun.trans hrun', fun n => (hmem' n).trans (hmem n), hreduces, hpreserves⟩

/-- A marking is reduced as soon as its pending nodes are. -/
theorem Reduces.reduced_of_held {done : List Node} {i : ℕ} (hr : Reduces c done d) (hi : 0 < (c.cellAt i).handles)
    (hpending : ∀ n ∈ Terms.nodes (c.cellAt i).terms, c.Pending n → n ∈ done) :
    ∀ n ∈ Terms.nodes (d.cellAt i).terms, d.Reduced n := by
  intro n hn
  have hi' : 0 < (d.cellAt i).handles := by rwa [hr.handles i]
  have hlive : d.Live n := (hr.sound.markings i hi').live n hn
  rcases hr.entries (.marking i) hi' n hn with hmem | hreduced
  · refine (reduced_or_pending hlive).resolve_right fun hp => ?_
    have hp' := (hr.pending n).1 hp
    exact hp'.2 (hpending n hmem hp'.1)
  · exact hreduced

/-- A closed frontier of legal nodes is reduced, whether or not the circuit checks itself. -/
theorem WellFormed.runReduce_canonical (h : c.WellFormed) {frontier : List Node} (hf : c.Closed frontier)
    (hlegal : ∀ n ∈ frontier, c.Legal n) :
    ∃ d, (runReduce frontier).run c = (.ok (), d) ∧ Canonical c (· ∈ frontier) d := by
  obtain ⟨sorted, d, hrun, hmem, hreduces, hpreserves⟩ := h.runReduce_preserves hf hlegal
  exact ⟨d, hrun, hpreserves.canonical hreduces h.toLinked hmem⟩

/-- An accepted call that reduces legal nodes is answered, whether or not the circuit checks itself, and keeps all
worths: it leaves a well-formed circuit in which exactly the nodes of its frontier are pending no more. -/
theorem reduction_is_canonical (h : c.WellFormed) (call : ReduceCall) (hheld : ∀ m ∈ call.handles, c.Held m)
    (haccepted : call.Accepted c) (hlegal : ∀ n, call.Frontier c n → c.Legal n) :
    ∃ d, call.run.run c = (.ok (), d) ∧ Canonical c (call.Frontier c) d := by
  obtain ⟨frontier, hrun, hclosed, hmem⟩ := ReduceCall.run_of_accepted h.tied hheld haccepted
  obtain ⟨d, hrun', hd⟩ := h.runReduce_canonical hclosed fun n hn => hlegal n ((hmem n).1 hn)
  have hfrontier : (· ∈ frontier) = call.Frontier c := funext fun n => propext (hmem n)
  exact ⟨d, hrun.trans hrun', hfrontier ▸ hd⟩

/-- Two new nodes without successors are reduced. -/
theorem reduction_of_two_units : let c := ((empty ⟨0⟩ .checked).alloc []).2
    let c := (c.alloc []).2
    c.WellFormed ∧ c.pendingNodes = [⟨⟨0⟩, 0, 0⟩, ⟨⟨0⟩, 1, 0⟩] ∧ (∀ n, c.Pending n → c.Legal n) ∧
      ∃ d, reduce.run c = (.ok (), d) ∧ Canonical c c.Pending d := by
  intro c0 c
  have h0 : c0.WellFormed := (wellFormed_empty _ _).alloc proper_nil
  have h : c.WellFormed := h0.alloc proper_nil
  have hnil : ∀ n, c.successors n = [] := fun n => by
    rcases n with ⟨i, _ | _ | j, g⟩ <;> rfl
  have hlegal : ∀ n, c.Pending n → c.Legal n := fun n _ => by
    refine .intro 0 (fun m hm => ?_) ?_
    · simp [Below, successorNodes, hnil] at hm
    · simp [hnil, termsWorth]
  exact ⟨h, rfl, hlegal, reduction_is_canonical h .all (by simp [ReduceCall.handles]) trivial hlegal⟩

end PowerTower.Circuit
