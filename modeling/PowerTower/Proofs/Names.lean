import Mathlib
import PowerTower.Proofs.Ledger
import PowerTower.Proofs.Stepwise

/-!
# The names of nodes along a run

Every call gives out names by making nodes and gives names up by removing or merging them, and does nothing else to
names.

* `Issues`, `stepwise_issues` : names are given out only, as carries do;
* `mergedAmong`, `Operation.Retires` : the nodes that a reduction merges, and the nodes that a call takes out of the
  circuit;
* `Operation.turns` : what a call does to names;
* `History` : the names that were given out and given up along a run;
* `names_are_exact` : the circuit accepts exactly the names that were given out and not given up.
-/

namespace PowerTower.Circuit

open Guards

variable {c d e : Circuit} {k m n : Node} {ts us vs : List Term} {s : Sign} {i r p : ℕ} {issued gone : List Node}

/-! ## Calls that make nodes -/

/-- Names are given out and none is given up. -/
def Issues (c d : Circuit) : Prop := ∃ issued, Turns c issued [] d

theorem Issues.refl (c : Circuit) : Issues c c := ⟨[], .refl c⟩

theorem Issues.trans (h : Issues c d) (h' : Issues d e) : Issues c e := by
  obtain ⟨_, h⟩ := h
  obtain ⟨_, h'⟩ := h'
  exact ⟨_, h.trans h'⟩

theorem Quiet.issues (h : Quiet c d) : Issues c d := ⟨[], .quiet h⟩

theorem quiet_withCells (c : Circuit) (cells : Array Cell) : Quiet c (c.withCells cells) :=
  ⟨rfl, rfl, rfl, rfl, fun _ => rfl, fun _ => rfl⟩

/-- All that carries and calls are put together from gives names out only. -/
theorem stepwise_issues : Stepwise Issues where
  refl := .refl
  trans := .trans
  alloc := fun c ts => ⟨_, .issue c ts⟩
  place := fun _ _ _ => place_sameNodes.quiet.issues
  setDoubles := fun _ n b => (setDoubles_sameRanks n b).toSameNodes.quiet.issues
  newMarking := fun c _ => (quiet_withCells c _).issues
  modifyCell := fun c _ _ _ => (quiet_withCells c _).issues

/-! ## Calls that free nodes -/

theorem quiet_setSuccessors : Quiet c (c.setSuccessors n ts) :=
  ⟨rfl, rfl, rfl, Array.size_modify, fun i => (setSuccessors_frame c n ts i).1,
    fun i => (setSuccessors_frame c n ts i).2.1⟩

theorem quiet_setHeld (h : Holder) : Quiet c (c.setHeld h ts) := by
  cases h with
  | node q => exact quiet_setSuccessors
  | marking i => exact quiet_withCells c _

/-- A node stays live while others take its place, and is freed afterwards. -/
theorem Stored.merge_turns (hs : c.Stored) (hm : c.Live m) (n : Node) (holders : List Holder) :
    ∃ issued, Turns c issued [m] (c.merge m n holders) := by
  obtain ⟨issued, h⟩ : Issues c (holders.foldl (redirect m n) c) :=
    stepwise_issues.foldl_redirect fun holder _ _ _ => (quiet_setHeld holder).issues
  exact ⟨_, h.trans (.retire ((h.stored_live hs).2 m hm (by simp)))⟩

/-- The reduced node of the same worth, as the look-up finds it. -/
def twin? (c : Circuit) (n : Node) : Option Node :=
  match c.search (c.successors n) with
  | .ok (.taken rank) => c.order[rank]?
  | _ => none

/-- The nodes that are merged while the nodes of a list are reduced one after the other. -/
def mergedAmong (table : Std.HashMap Node (Array Holder)) : List Node → Circuit → List Node
  | [], _ => []
  | n :: rest, c =>
    match (reduceNode table n).run c with
    | (.ok _, d) => (if (c.twin? n).isSome then [n] else []) ++ mergedAmong table rest d
    | (.error _, _) => []

theorem mergedAmong_sublist (table : Std.HashMap Node (Array Holder)) (l : List Node) :
    (mergedAmong table l c).Sublist l := by
  induction l generalizing c with
  | nil => exact .slnil
  | cons n l ih =>
    unfold mergedAmong
    split
    · split_ifs
      · exact ih.cons_cons n
      · exact ih.cons n
    · exact List.nil_sublist _

theorem twin?_of_taken (h : c.search (c.successors n) = .ok (.taken r)) : c.twin? n = c.order[r]? := by rw [twin?, h]

theorem twin?_of_vacant (h : c.search (c.successors n) = .ok (.vacant r)) : c.twin? n = none := by rw [twin?, h]

theorem twin?_of_error {error : CircuitError} (h : c.search (c.successors n) = .error error) : c.twin? n = none := by
  rw [twin?, h]

theorem Stored.reduceNode_turns (hs : c.Stored) (hn : c.Live n) (table : Std.HashMap Node (Array Holder)) :
    ∃ issued, Turns c issued (if (c.twin? n).isSome then [n] else []) ((reduceNode table n).run c).2 := by
  cases hf : c.search (c.successors n) with
  | error error =>
    rw [twin?_of_error hf, reduceNode_eq_error hf]
    exact ⟨[], .refl c⟩
  | ok spot =>
    cases spot with
    | vacant r =>
      rw [twin?_of_vacant hf, reduceNode_of_vacant hf]
      exact stepwise_issues.insertReduced
    | taken r =>
      cases hr : c.order[r]? with
      | some survivor =>
        rw [twin?_of_taken hf, hr, reduceNode_of_taken hf hr]
        exact hs.merge_turns hn _ _
      | none =>
        rw [twin?_of_taken hf, hr, reduceNode_of_taken_none hf hr]
        exact ⟨[], .refl c⟩

/-- The look-up is all that can be refused. -/
theorem twin?_of_refused {table : Std.HashMap Node (Array Holder)} {error : CircuitError}
    (h : (reduceNode table n).run c = (.error error, d)) : c.twin? n = none := by
  cases hf : c.search (c.successors n) with
  | error e => exact twin?_of_error hf
  | ok spot =>
    cases spot with
    | vacant r => exact twin?_of_vacant hf
    | taken r =>
      cases hr : c.order[r]? with
      | some survivor =>
        rw [reduceNode_of_taken hf hr] at h
        cases h
      | none => rw [twin?_of_taken hf, hr]

/-- By induction along the list: a node that is still to be reduced has not been given up. -/
theorem Stored.reduceAll_turns (hs : c.Stored) (table : Std.HashMap Node (Array Holder)) {l : List Node} (hl : l.Nodup)
    (hlive : ∀ n ∈ l, c.Live n) :
    ∃ issued, Turns c issued (mergedAmong table l c) ((l.forM (reduceNode table)).run c).2 := by
  induction l generalizing c with
  | nil => exact ⟨[], .refl c⟩
  | cons n l ih =>
    rw [List.nodup_cons] at hl
    obtain ⟨issued, h⟩ := hs.reduceNode_turns (hlive n (by simp)) table
    have hstep : (n :: l).forM (reduceNode table) = reduceNode table n >>= fun _ => l.forM (reduceNode table) := rfl
    rw [hstep]
    rcases hrun : (reduceNode table n).run c with ⟨error | _, d⟩
    · rw [hrun, twin?_of_refused hrun] at h
      rw [Call.run_bind_error hrun, mergedAmong, hrun]
      exact ⟨issued, h⟩
    · rw [hrun] at h
      rw [Call.run_bind_ok hrun, mergedAmong, hrun]
      obtain ⟨hs', hlive'⟩ := h.stored_live hs
      obtain ⟨more, h'⟩ := ih hs' hl.2 fun m hm => hlive' m (hlive m (by simp [hm])) fun hmem => by
        split_ifs at hmem
        · exact hl.1 (List.mem_singleton.1 hmem ▸ hm)
        · cases hmem
      exact ⟨_, h.trans h'⟩

theorem Turns.foldl_freeNode {doomed : List Node} (hnodup : doomed.Nodup) (hlive : ∀ n ∈ doomed, c.Live n) :
    Turns c [] doomed (doomed.foldl (fun c n => c.freeNode n) c) := by
  induction doomed generalizing c with
  | nil => exact .refl c
  | cons n doomed ih =>
    have hrest := ih hnodup.of_cons (live_freeNode_of_nodup hnodup hlive)
    exact (Turns.retire (hlive n (by simp))).trans hrest

theorem quiet_demoteFor (doomed : List Node) : Quiet c (c.demoteFor doomed) := by
  unfold demoteFor
  split
  · exact demote_sameNodes.quiet
  · exact .refl c

theorem quiet_forget (gone : Std.HashSet Node) : Quiet c (c.forget gone) :=
  ⟨rfl, rfl, rfl, Array.size_map, fun i => (forget_frame c gone i).1, fun i => (forget_frame c gone i).2.1⟩

/-- The nodes of a list are given up, and no others. -/
theorem removeNodes_turns {doomed : List Node} (hnodup : doomed.Nodup) (hlive : ∀ n ∈ doomed, c.Live n) :
    Turns c [] doomed (c.removeNodes doomed) := by
  unfold removeNodes
  split_ifs with hempty
  · rw [List.isEmpty_iff.1 hempty]
    exact .refl c
  · have hdemote := quiet_demoteFor (c := c) doomed
    have hfree := Turns.foldl_freeNode (c := c.demoteFor doomed) hnodup fun n hn => hdemote.live_iff.2 (hlive n hn)
    simpa using ((Turns.quiet hdemote).trans hfree).trans (.quiet (quiet_forget _))

/-! ## Every call -/

/-- The call takes the node out of the circuit: it removes it, or looks it up in a reduction and finds another of its
worth. -/
def Operation.Retires (c : Circuit) : Operation → Node → Prop
  | .remove m, n => m.circuit = c.id ∧ n ∈ c.nodesOf m
  | .reduce call, n => call.Accepted c ∧ ∃ sorted, c.dependencyOrder (call.list c) = .ok sorted ∧
      n ∈ mergedAmong (c.referrers sorted) sorted c
  | _, _ => False

/-- Calls that neither remove nor reduce give up no names. -/
theorem Operation.issues {op : Operation} (hremove : ∀ m, op ≠ .remove m) (hreduce : ∀ call, op ≠ .reduce call) :
    Issues c (op.run.run c).2 :=
  stepwise_issues.operation hremove hreduce fun _ _ _ _ _ => quiet_setSuccessors.issues

/-- A reduction gives up the nodes that it merges. -/
theorem ReduceCall.turns (ht : c.Tied) (hs : c.Stored) {call : ReduceCall} (hheld : ∀ m ∈ call.handles, c.Held m) :
    ∃ issued gone, Turns c issued gone (call.run.run c).2 ∧ gone.Nodup ∧
      ∀ n, n ∈ gone ↔ (Operation.reduce call).Retires c n := by
  by_cases haccepted : call.Accepted c
  · obtain ⟨hclosed, -⟩ := ReduceCall.closed_list_of_accepted ht hheld haccepted
    rw [ReduceCall.run_list_of_accepted ht hheld haccepted, run_runReduce_snd]
    cases ho : c.dependencyOrder (call.list c) with
    | error e =>
      have hrefused : ((reduceFrontier (call.list c)).run c).2 = c := by
        rw [reduceFrontier, Call.run_bind, Call.run_ask, ho]
      rw [hrefused]
      refine ⟨[], [], .refl c, .nil, fun n => iff_of_false List.not_mem_nil ?_⟩
      rintro ⟨-, sorted, hsorted, -⟩
      cases ho.symm.trans hsorted
    | ok sorted =>
      obtain ⟨hsorted, hnames⟩ := sorted_of_dependencyOrder ho
      have hlive : ∀ n ∈ sorted, c.Live n := fun n hn => (hclosed.pending n ((hnames n).1 hn)).1
      obtain ⟨issued, h⟩ := hs.reduceAll_turns (c.referrers sorted) hsorted.nodup hlive
      rw [run_reduceFrontier ho]
      refine ⟨issued, _, h, hsorted.nodup.sublist (mergedAmong_sublist _ _), fun n =>
        ⟨fun hn => ⟨haccepted, sorted, ho, hn⟩, ?_⟩⟩
      rintro ⟨-, sorted', hsorted', hn⟩
      obtain rfl := Except.ok.inj (ho.symm.trans hsorted')
      exact hn
  · obtain ⟨e, hrun, -⟩ := ReduceCall.run_of_not_accepted ht hheld haccepted
    rw [hrun]
    exact ⟨[], [], .refl c, .nil, fun n => iff_of_false List.not_mem_nil fun h => haccepted h.1⟩

/-- A call gives names out, and gives up the names of the nodes that it takes out. -/
theorem Operation.turns (ht : c.Tied) (hs : c.Stored) (op : Operation) (hheld : ∀ m ∈ op.handles, c.Held m) :
    ∃ issued gone, Turns c issued gone (op.run.run c).2 ∧ gone.Nodup ∧ ∀ n, n ∈ gone ↔ op.Retires c n := by
  by_cases hremove : ∃ m, op = .remove m
  · obtain ⟨m, rfl⟩ := hremove
    have hm := hheld m (by simp [handles])
    by_cases hown : m.circuit = c.id
    · have hproper := hm.proper ht hown
      refine ⟨[], c.nodesOf m, ?_, hproper.nodup, fun n => ⟨fun hn => ⟨hown, hn⟩, fun hn => hn.2⟩⟩
      rw [show ((Operation.remove m).run.run c).2 = c.removeNodes (c.nodesOf m) from congrArg Prod.snd (run_own hown)]
      exact removeNodes_turns hproper.nodup hproper.live
    · refine ⟨[], [], ?_, .nil, fun n => iff_of_false List.not_mem_nil fun hn => hown hn.1⟩
      have hforeign : c.checkMarking m = .error (.foreignCircuit c.id m.circuit) := if_neg hown
      rw [show ((Operation.remove m).run.run c).2 = c from congrArg Prod.snd (run_ask_error hforeign)]
      exact .refl c
  · by_cases hreduce : ∃ call, op = .reduce call
    · obtain ⟨call, rfl⟩ := hreduce
      exact ReduceCall.turns ht hs hheld
    · obtain ⟨issued, h⟩ := Operation.issues (c := c) (fun m he => hremove ⟨m, he⟩) fun call he => hreduce ⟨call, he⟩
      refine ⟨issued, [], h, .nil, fun n => iff_of_false List.not_mem_nil ?_⟩
      cases op with
      | remove m => exact absurd ⟨m, rfl⟩ hremove
      | reduce call => exact absurd ⟨call, rfl⟩ hreduce
      | _ => exact fun hn => hn

/-! ## Runs -/

/-- A run of calls on a new circuit, all of whose states are well formed, with the names that were given out and those
of the nodes that were removed or merged. -/
inductive History (id : CircuitId) (config : Config) : List Node → List Node → Circuit → Prop
  | start : History id config [] [] (empty id config)
  | call {issued gone more lost : List Node} {c : Circuit} (before : History id config issued gone c) (op : Operation)
      (held : ∀ m ∈ op.handles, c.Held m) (wellFormed : (op.run.run c).2.WellFormed)
      (turns : Turns c more lost (op.run.run c).2) (retired : ∀ n, n ∈ lost ↔ op.Retires c n) :
      History id config (issued ++ more) (gone ++ lost) (op.run.run c).2

variable {id : CircuitId} {config : Config}

theorem History.wellFormed (h : History id config issued gone c) : c.WellFormed := by
  cases h with
  | start => exact wellFormed_empty id config
  | call _ _ _ hwf => exact hwf

/-- The ledger is kept up along a run. -/
theorem History.ledger (h : History id config issued gone c) (hfresh : Fresh gone) : Ledger c issued gone := by
  induction h with
  | start => exact ledger_empty id config
  | call _ _ _ _ hturns _ ih => exact hturns.ledger (ih hfresh.of_append) hfresh

/-- A run goes on with every call that leaves a well-formed circuit. -/
theorem History.extend (h : History id config issued gone c) (op : Operation) (hheld : ∀ m ∈ op.handles, c.Held m)
    (hwf : (op.run.run c).2.WellFormed) : ∃ more lost, lost.Nodup ∧ (∀ n, n ∈ lost ↔ op.Retires c n) ∧
      History id config (issued ++ more) (gone ++ lost) (op.run.run c).2 := by
  obtain ⟨more, lost, hturns, hnodup, hlost⟩ := op.turns h.wellFormed.tied h.wellFormed.toStored hheld
  exact ⟨more, lost, hnodup, hlost, .call h op hheld hwf hturns hlost⟩

/-! ## The calls that take nodes -/

/-- The names that a call is passed. -/
def Operation.names : Operation → List Node
  | cloneNode n | successorMarking n | orderOf n | isNodeReduced n | successorTerms n => [n]
  | markNodes ns | markSigned ns _ => ns
  | reduce (.nodes ns _) => ns
  | _ => []

end PowerTower.Circuit
