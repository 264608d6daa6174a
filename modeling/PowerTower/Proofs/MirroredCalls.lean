import Mathlib
import PowerTower.Circuit.Digest
import PowerTower.Circuit.Report
import PowerTower.Proofs.MirroredChanges
import PowerTower.Proofs.Operations

/-!
# Questions to mirrored circuits, and whole reductions

What is asked of a mirrored circuit is answered alike, down to the bytes of its digest. A reduction ends with a check
where the circuit checks itself; if the other one does not, whatever that check finds has to be excused.

* `Mirror.compare`, `Mirror.smallestNode`, `Mirror.stats`, `Mirror.digest`, … : questions;
* `Mirror.retain`, `Mirror.release`, `Mirror.markings` : handles given out and returned;
* `Forgiving`, `Mirror.reduceCall` : reductions with their checks;
* `Mirror.copy` : copies mirror each other.
-/

namespace PowerTower.Circuit

variable {r : Renaming} {S : Set ℕ} {c d : Circuit} {a b m : Marking} {E : CircuitError → Prop} {ms : List Marking}
  {ns : List Node}

/-! ## Questions about markings -/

section Markings

variable {α β : Type} {k : α → β} {x : Except CircuitError α} {y : Except CircuitError β}

/-- A foreign handle is refused alike, and of an own one more is asked. -/
theorem Mirror.answer_own (hm : Mirror r S c d) (ha : Numbered r c a)
    (hx : a.circuit = c.id → r.source (r.marking a.id) = a.id → y = r.answer k x) :
    (d.checkMarking (r.handle a) >>= fun _ => y) = r.answer k (c.checkMarking a >>= fun _ => x) :=
  r.answer_bind (hm.checkMarking a) fun _ hok =>
    hx (checkMarking_eq_ok_iff.1 hok) (ha (checkMarking_eq_ok_iff.1 hok))

end Markings

theorem Mirror.compare (hm : Mirror r S c d) (ha : Numbered r c a) (hb : Numbered r c b) :
    d.compare (r.handle a) (r.handle b) = r.answer (fun o => o) (c.compare a b) :=
  hm.answer_own ha fun _ hia => hm.answer_own hb fun _ hib => by
    rw [hm.termsOf hia, hm.termsOf hib]
    exact hm.answer_compareTerms _ _ 0

theorem Mirror.equal (hm : Mirror r S c d) (ha : Numbered r c a) (hb : Numbered r c b) :
    d.equal (r.handle a) (r.handle b) = r.answer (fun b => b) (c.equal a b) :=
  r.answer_map (hm.compare ha hb) fun _ _ => rfl

theorem Mirror.isReduced (hm : Mirror r S c d) (ha : Numbered r c a) :
    d.isReduced (r.handle a) = r.answer (fun b => b) (c.isReduced a) :=
  hm.answer_own ha fun _ hi => by
    rw [hm.termsOf hi, hm.termsReduced]
    rfl

/-- By induction on the terms. -/
theorem Mirror.lowest (hm : Mirror r S c d) (ts : List Term) : d.lowest (r.terms ts) = (c.lowest ts).map r.node := by
  induction ts with
  | nil => rfl
  | cons t ts ih =>
    obtain ⟨n, s⟩ := t
    rw [r.terms_cons, Circuit.lowest, Circuit.lowest, ih]
    cases c.lowest ts with
    | none => rfl
    | some m =>
      dsimp only [Option.map_some]
      rw [hm.rank?, hm.rank?]
      split_ifs <;> rfl

theorem Mirror.smallestNode (hm : Mirror r S c d) (ha : Numbered r c a) :
    d.smallestNode (r.handle a) = r.answer (Option.map r.node) (c.smallestNode a) :=
  hm.answer_own ha fun _ hi => by
    rw [hm.termsOf hi, hm.termsReduced, hm.lowest]
    split_ifs <;> rfl

/-! ## Questions about nodes -/

theorem Mirror.orderOf (hm : Mirror r S c d) (n : Node) : d.orderOf (r.node n) = r.answer (fun k => k) (c.orderOf n) :=
  r.answer_map (hm.checkNode n) fun _ _ => hm.rank? n

theorem Mirror.isNodeReduced (hm : Mirror r S c d) (n : Node) :
    d.isNodeReduced (r.node n) = r.answer (fun b => b) (c.isNodeReduced n) :=
  r.answer_map (hm.orderOf n) fun _ _ => rfl

theorem Mirror.successorTerms (hm : Mirror r S c d) (n : Node) :
    d.successorTerms (r.node n) = r.answer r.terms (c.successorTerms n) :=
  r.answer_map (hm.checkNode n) fun _ hok => hm.successors (hm.known (live_iff_checkNode.2 hok))

theorem Mirror.nodes (hm : Mirror r S c d) : d.nodes = c.nodes.map r.node := by
  rw [Circuit.nodes, Circuit.nodes, hm.order, hm.pendingNodes, Array.toList_map, List.map_append]

theorem edgeCount_eq : c.edgeCount =
    ((List.range c.slots.size).map fun i => if (c.slotAt i).live then (c.slotAt i).successors.length else 0).sum := by
  have hfold : ∀ (l : List Slot) (k : ℕ), (l.filter (·.live)).foldl (fun k s => k + s.successors.length) k =
      k + (l.map fun s => if s.live then s.successors.length else 0).sum := fun l => by
    induction l with
    | nil => exact fun k => rfl
    | cons s l ih =>
      intro k
      rw [List.filter_cons, List.map_cons, List.sum_cons]
      split_ifs
      · rw [List.foldl_cons, ih]
        omega
      · rw [ih]
        omega
  rw [edgeCount, hfold, slots_toList, List.map_map, Nat.zero_add]
  rfl

theorem Mirror.edgeCount (hm : Mirror r S c d) : d.edgeCount = c.edgeCount := by
  rw [edgeCount_eq, edgeCount_eq, hm.size]
  refine congrArg List.sum (List.map_congr_left fun i _ => ?_)
  have hslot := hm.slots i
  rw [hslot.live]
  split_ifs with hlive
  · rw [hslot.exponent (hslot.known_of_live hlive), r.length_terms]
  · rfl

theorem Mirror.stats (hm : Mirror r S c d) : d.stats = c.stats := by
  rw [Circuit.stats, Circuit.stats, hm.liveNodes, hm.order_size, hm.liveMarkingIds, List.length_map, hm.edgeCount]

/-! ## The digest -/

theorem Mirror.rankEntry (hm : Mirror r S c d) (owner : Node) (t : Term) :
    d.rankEntry (r.node owner) (r.term t) = r.answer (fun e => e) (c.rankEntry owner t) := by
  refine r.answer_bind (hm.orderOf t.1) fun k _ => ?_
  cases k <;> rfl

theorem Mirror.rankEntries (hm : Mirror r S c d) (n : Node) :
    d.rankEntries (r.node n) = r.answer (fun es => es) (c.rankEntries n) := by
  refine r.answer_bind (hm.successorTerms n) fun ts _ => ?_
  have hentries : (r.terms ts).mapM (d.rankEntry (r.node n)) =
      r.answer (List.map fun e => e) (ts.mapM (c.rankEntry n)) :=
    r.answer_mapM fun t _ => hm.rankEntry n t
  exact r.answer_map hentries fun es _ => by rw [List.map_id']

theorem Mirror.encoding (hm : Mirror r S c d) : d.encoding = r.answer (fun bytes => bytes) c.encoding := by
  have horder : d.order.toList.mapM d.rankEntries =
      r.answer (List.map fun es => es) (c.order.toList.mapM c.rankEntries) := by
    rw [hm.order, Array.toList_map]
    exact r.answer_mapM fun n _ => hm.rankEntries n
  exact r.answer_map horder fun entries _ => by rw [List.map_id', hm.order_size]

theorem Mirror.digest (hm : Mirror r S c d) : d.digest = r.answer (fun bytes => bytes) c.digest :=
  r.answer_map hm.encoding fun _ _ => rfl

/-! ## Handles -/

theorem Mirror.retain (hm : Mirror r S c d) (hi : r.source (r.marking m.id) = m.id) :
    Mirror r S (c.retain m) (d.retain (r.handle m)) :=
  hm.modifyCell hi (fun _ => rfl) fun _ hk => hk

theorem Mirror.release (hm : Mirror r S c d) (hi : r.source (r.marking m.id) = m.id) :
    Mirror r S (c.release m) (d.release (r.handle m)) :=
  hm.modifyCell hi (fun _ => rfl) fun _ hk => hk

/-- By induction on the handles. -/
theorem Mirror.retainAll (hm : Mirror r S c d) (hms : ∀ m ∈ ms, r.source (r.marking m.id) = m.id) :
    Mirror r S (c.retainAll ms) (d.retainAll (ms.map r.handle)) := by
  induction ms generalizing c d with
  | nil => exact hm
  | cons m ms ih => exact ih (hm.retain (hms m (by simp))) fun k hk => hms k (by simp [hk])

theorem Mirror.markings_eq (hm : Mirror r S c d) : d.markings = c.markings.map r.handle := by
  rw [markings, markings, hm.liveMarkingIds, hm.id, List.map_map, List.map_map]
  rfl

theorem Mirror.markings (hm : Mirror r S c d) :
    Abreast r S (fun _ ms ks => ks = ms.map r.handle)
      (c.markings, c.retainAll c.markings) (d.markings, d.retainAll d.markings) := by
  refine ⟨S, subset_rfl, ?_, hm.markings_eq⟩
  show Mirror r S (c.retainAll c.markings) (d.retainAll d.markings)
  rw [hm.markings_eq]
  exact hm.retainAll fun m hmem => hm.held m.id (handles_of_mem_markings hmem)

theorem Mirror.atHome (hm : Mirror r S c d) (ha : Numbered r c a) {f f' : Circuit → Circuit}
    (hf : r.source (r.marking a.id) = a.id → Mirror r S (f c) (f' d)) :
    Outcome r.error E r S (fun _ _ _ => True) ((atHome a f).run c) ((atHome (r.handle a) f').run d) := by
  have hown : (r.handle a).circuit = d.id ↔ a.circuit = c.id := by
    rw [hm.id]
    exact r.injective.eq_iff
  refine .answered subset_rfl ?_ trivial
  rw [if_congr hown rfl rfl]
  split_ifs with h
  · exact hf (ha h)
  · exact hm

/-! ## Reductions -/

/-- Both circuits check themselves or neither does; or what the one finds broken in itself after the call is excused. -/
def Forgiving (r : Renaming) (E : CircuitError → Prop) (x : Except CircuitError Unit × Circuit) : Prop :=
  (∀ k : Config, (r.config k).checkInvariants = k.checkInvariants) ∨
    (∀ k : Config, (r.config k).checkInvariants = false) ∧ ∀ e c, x = (.error e, c) → c.check = .error e → E e

/-- What a circuit says of itself at the end of a reduction. -/
def verdict (c : Circuit) : Except CircuitError Unit := if c.config.checkInvariants then c.check else .ok ()

theorem Mirror.verdict (hm : Mirror r S c d) (hE : (∀ k : Config, (r.config k).checkInvariants = k.checkInvariants) ∨
      (∀ k : Config, (r.config k).checkInvariants = false) ∧ ∀ e, c.verdict = .error e → E e) :
    Outcome r.error E r S (fun _ _ _ => True) ((Call.ask Circuit.verdict).run c)
      ((Call.ask Circuit.verdict).run d) := by
  refine (hm.outcome_ask (k := fun u => u) ?_).imp fun _ _ _ _ => trivial
  rcases hE with heq | ⟨hfalse, hexcused⟩
  · refine .inr ?_
    rw [Circuit.verdict, Circuit.verdict, hm.config, hm.check, heq]
    split_ifs <;> rfl
  · have hok : d.verdict = .ok () := by
      rw [Circuit.verdict, hm.config, hfalse, if_neg Bool.false_ne_true]
    cases hverdict : c.verdict with
    | ok u => exact .inr hok
    | error e => exact .inl ⟨e, rfl, hexcused e hverdict⟩

theorem Mirror.runReduce (hm : Mirror r S c d) (hns : ∀ n ∈ ns, n.index ∈ S)
    (hE : Forgiving r E ((runReduce ns).run c)) :
    Outcome r.error E r S (fun _ _ _ => True) ((runReduce ns).run c) ((runReduce (ns.map r.node)).run d) := by
  have hrun : ∀ (ns : List Node) (c : Circuit), (Circuit.runReduce ns).run c =
      (Circuit.reduceFrontier ns >>= fun _ => Call.ask Circuit.verdict).run c := fun _ _ => rfl
  have hfrontier : Outcome r.error E r S (fun _ _ _ => True) ((Circuit.reduceFrontier ns).run c)
      ((Circuit.reduceFrontier (ns.map r.node)).run d) := hm.reduceFrontier hns
  rw [hrun, Call.run_bind] at hE
  rw [hrun, hrun, Call.run_bind, Call.run_bind]
  generalize (Circuit.reduceFrontier ns).run c = x at hfrontier hE ⊢
  generalize (Circuit.reduceFrontier (ns.map r.node)).run d = y at hfrontier ⊢
  cases hfrontier with
  | refused sub mirror => exact .refused sub mirror
  | excused reason => exact .excused reason
  | @answered T _ _ c' d' sub mirror _ =>
    refine (mirror.verdict (hE.imp_right fun ⟨hfalse, hexcused⟩ => ⟨hfalse, fun e he => ?_⟩)).widen sub
    refine hexcused e c' (congrArg (·, c') he) ?_
    rw [Circuit.verdict] at he
    split_ifs at he
    exact he

/-- By induction on the handles. -/
theorem Mirror.rootsOf (hm : Mirror r S c d) (hms : ∀ m ∈ ms, Numbered r c m) :
    d.rootsOf (ms.map r.handle) = r.answer (List.map r.node) (c.rootsOf ms) := by
  induction ms with
  | nil => rfl
  | cons m ms ih =>
    refine hm.answer_own (hms m (by simp)) fun _ hi => ?_
    refine r.answer_map (ih fun k hk => hms k (by simp [hk])) fun roots _ => ?_
    rw [nodesOf, nodesOf, hm.termsOf hi, r.nodes_terms, List.map_append]

theorem Mirror.among_nodesOf (hm : Mirror r S c d) (hms : ∀ m ∈ ms, Numbered r c m)
    (hown : ∀ m ∈ ms, m.circuit = c.id) :
    ∀ n ∈ ms.flatMap c.nodesOf, n.index ∈ S := fun n hn => by
  obtain ⟨m, hmem, hn⟩ := List.mem_flatMap.1 hn
  exact hm.among_termsOf (hms m hmem (hown m hmem)) n hn

theorem Mirror.checkPending (hm : Mirror r S c d) (n : Node) :
    d.checkPending (r.node n) = r.answer (fun u => u) (c.checkPending n) := by
  refine r.answer_bind (hm.checkNode n) fun _ _ => ?_
  rw [hm.isReducedNode]
  split_ifs <;> rfl

theorem Mirror.checkCovered (hm : Mirror r S c d) (listed : List Node) (ha : Numbered r c a) :
    d.checkCovered (listed.map r.node) (r.handle a) = r.answer (fun u => u) (c.checkCovered listed a) := by
  refine hm.answer_own ha fun _ hi => ?_
  have hfind : (d.nodesOf (r.handle a)).find? (fun n => !(listed.map r.node).contains n && !d.isReducedNode n) =
      ((c.nodesOf a).find? fun n => !listed.contains n && !c.isReducedNode n).map r.node := by
    rw [nodesOf, nodesOf, hm.termsOf hi, r.nodes_terms, List.find?_map]
    refine congrArg (fun q => (List.find? q _).map r.node) (funext fun n => ?_)
    rw [Function.comp_apply, hm.isReducedNode]
    refine congrArg (fun b => !b && !c.isReducedNode n) ?_
    rw [Bool.eq_iff_iff, List.contains_iff_mem, List.contains_iff_mem]
    exact Traversal.mem_map_iff r.node_injective
  rw [hfind]
  cases (c.nodesOf a).find? fun n => !listed.contains n && !c.isReducedNode n <;> rfl

theorem Mirror.known_pendingReachable (hm : Mirror r S c d) {roots : List Node} (hroots : ∀ n ∈ roots, n.index ∈ S) :
    ∀ n ∈ c.pendingReachable roots, n.index ∈ S := fun n hn => by
  unfold Circuit.pendingReachable at hn
  split_ifs at hn
  · cases hn
  · obtain ⟨root, hroot, -, hpath⟩ := Traversal.mem_discover_iff.1 hn
    clear hn
    induction hpath with
    | refl => exact hroots root hroot
    | tail _ hstep ih => exact hm.among ih _ hstep.2.2

/-- The call under other names. -/
def ReduceCall.rename (r : Renaming) : ReduceCall → ReduceCall
  | .all => .all
  | .markings ms => .markings (ms.map r.handle)
  | .nodes ns ms => .nodes (ns.map r.node) (ms.map r.handle)

theorem Mirror.reduceCall (hm : Mirror r S c d) (call : ReduceCall) (hms : ∀ m ∈ call.handles, Numbered r c m)
    (hE : Forgiving r E (call.run.run c)) :
    Outcome r.error E r S (fun _ _ _ => True) (call.run.run c) ((call.rename r).run.run d) := by
  cases call with
  | all =>
    show Outcome r.error E r S _ ((Circuit.runReduce c.pendingNodes).run c) ((Circuit.runReduce d.pendingNodes).run d)
    rw [hm.pendingNodes]
    exact hm.runReduce hm.known_pending hE
  | markings ms =>
    change ∀ m ∈ ms, Numbered r c m at hms
    have hroots := hm.rootsOf hms
    show Outcome r.error E r S _ ((reduceMarkings ms).run c) ((reduceMarkings (ms.map r.handle)).run d)
    refine hm.outcome_ask_bind (.inr hroots) fun roots hok => ?_
    have hown := own_of_rootsOf hok
    obtain rfl := Except.ok.inj (hok.symm.trans (rootsOf_of_own hown))
    have hknown := hm.among_nodesOf hms hown
    have hrun : (ReduceCall.markings ms).run.run c =
        (Circuit.runReduce (c.pendingReachable (ms.flatMap c.nodesOf))).run c := run_reduceMarkings_of_own hown
    rw [hrun] at hE
    show Outcome r.error E r S _ ((Circuit.runReduce (c.pendingReachable (ms.flatMap c.nodesOf))).run c)
      ((Circuit.runReduce (d.pendingReachable ((ms.flatMap c.nodesOf).map r.node))).run d)
    rw [hm.pendingReachable hknown]
    exact hm.runReduce (hm.known_pendingReachable hknown) hE
  | nodes ns ms =>
    have hpending : (ns.map r.node).forM d.checkPending = r.answer (fun u => u) (ns.forM c.checkPending) :=
      r.answer_forM fun n _ => hm.checkPending n
    have hcovered : (ms.map r.handle).forM (d.checkCovered (ns.map r.node)) =
        r.answer (fun u => u) (ms.forM (c.checkCovered ns)) :=
      r.answer_forM fun m hmem => hm.checkCovered ns (hms m hmem)
    refine hm.outcome_ask_bind (.inr hpending) fun _ hok => hm.outcome_ask_bind (.inr hcovered) fun _ hok' => ?_
    have hrun : (ReduceCall.nodes ns ms).run.run c = (Circuit.runReduce ns).run c :=
      (Guards.run_ask_ok hok).trans (Guards.run_ask_ok hok')
    rw [hrun] at hE
    exact hm.runReduce (fun n hn => hm.known (checkPending_eq_ok_iff.1 (Guards.forM_eq_ok.1 hok n hn)).1) hE

/-! ## Copies -/

theorem copy_of_foreign {id : CircuitId} {e : CircuitError} (h : ms.forM c.checkMarking = .error e) :
    c.copy id ms = .error e := by
  rw [Circuit.copy, h]
  rfl

theorem copy_of_own {id : CircuitId} (h : ms.forM c.checkMarking = .ok ()) : c.copy id ms =
    .ok ((newMarkings (ms.map fun m => Terms.rehome id (c.termsOf m)) (c.rehomed id)).2,
      (newMarkings (ms.map fun m => Terms.rehome id (c.termsOf m)) (c.rehomed id)).1) := by
  rw [Circuit.copy, h]
  rfl

/-- A copy is refused alike, or the copies mirror each other, and so do the markings that were kept. -/
theorem Mirror.copy (hm : Mirror r S c d) (id : CircuitId) (hms : ∀ m ∈ ms, Numbered r c m) :
    (∃ e, c.copy id ms = .error e ∧ d.copy (r.circuit id) (ms.map r.handle) = .error (r.error e)) ∨
      ∃ T c' d' ks, c.copy id ms = .ok (c', ks) ∧
        d.copy (r.circuit id) (ms.map r.handle) = .ok (d', ks.map r.plain.handle) ∧ S ⊆ T ∧ Mirror r.plain T c' d' := by
  have hown : (ms.map r.handle).forM d.checkMarking = r.answer (fun u => u) (ms.forM c.checkMarking) :=
    r.answer_forM fun m _ => hm.checkMarking m
  cases hok : ms.forM c.checkMarking with
  | error e =>
    rw [hok] at hown
    exact .inl ⟨e, copy_of_foreign hok, copy_of_foreign hown⟩
  | ok u =>
    rw [hok] at hown
    have hnumber : ∀ m ∈ ms, r.source (r.marking m.id) = m.id := fun m hmem =>
      hms m hmem (checkMarking_eq_ok_iff.1 (Guards.forM_eq_ok.1 hok m hmem))
    have hterms : (ms.map r.handle).map (fun m => Terms.rehome (r.circuit id) (d.termsOf m)) =
        (ms.map fun m => Terms.rehome id (c.termsOf m)).map r.plain.terms := by
      rw [List.map_map, List.map_map]
      refine List.map_congr_left fun m hmem => ?_
      rw [Function.comp_apply, Function.comp_apply, hm.termsOf (hnumber m hmem), rehome_terms]
      rfl
    have hamong : ∀ ts ∈ ms.map fun m => Terms.rehome id (c.termsOf m), Terms.Among S ts := fun ts hts => by
      obtain ⟨m, hmem, rfl⟩ := List.mem_map.1 hts
      exact among_rehome (hm.among_termsOf (hnumber m hmem)) id
    obtain ⟨T, hST, hmirror, hks⟩ := (hm.rehomed id).newMarkings hamong
    have hcopy : d.copy (r.circuit id) (ms.map r.handle) = _ := copy_of_own hown
    rw [hterms, hks] at hcopy
    exact .inr ⟨T, _, _, _, copy_of_own hok, hcopy, hST, hmirror⟩

end PowerTower.Circuit
