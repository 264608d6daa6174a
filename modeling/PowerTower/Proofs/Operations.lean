import Mathlib
import PowerTower.Circuit.Report
import PowerTower.Proofs.Connecting
import PowerTower.Proofs.Copying
import PowerTower.Proofs.Removing

/-!
# Whole runs

* `Operation` : the calls of the interface, and `Operation.run`;
* `Operation.keeps` : a call keeps a circuit well formed, unless it closes a cycle unchecked or reduces an illegal node;
* `Operation.wellFormed_iff` : the two are exceptions;
* `Operation.refuses_cycle`, `Operation.finds_illegal` : what a circuit that checks itself answers to them;
* `Leads` : the states that a circuit comes to by calls that do not find it broken;
* `wellFormed_along_runs` : all of them are well formed.
-/

namespace PowerTower.Circuit

open Guards

variable {c d : Circuit} {a b m : Marking} {n : Node} {ts us : List Term}

/-! ## Calls that only look -/

theorem harmless_digits : Harmless (c.digits ts) := by
  refine (Harmless.mapM fun t _ => ?_).bind fun _ _ => harmless_ok _
  split
  · exact harmless_ok _
  · exact harmless_error fun v => by simp

theorem harmless_compareTerms {bias : ℤ} : Harmless (c.compareTerms ts us bias) :=
  harmless_digits.bind fun _ _ => harmless_digits.bind fun _ _ => harmless_ok _

theorem harmless_compare : Harmless (c.compare a b) :=
  harmless_checkMarking.bind fun _ _ => harmless_checkMarking.bind fun _ _ => harmless_compareTerms

theorem harmless_smallestNode : Harmless (c.smallestNode m) := by
  refine harmless_checkMarking.bind fun _ _ => ?_
  split_ifs
  · exact harmless_ok _
  · exact harmless_error fun v => by simp

theorem harmless_orderOf : Harmless (c.orderOf n) := harmless_checkNode.bind fun _ _ => harmless_ok _

/-! ## Handles -/

/-- Another number of handles brings no marking back to life. -/
theorem Tied.modifyCell_markings (ht : c.Tied) {i : ℕ} {f : Cell → Cell} (hterms : ∀ k, (f k).terms = k.terms)
    (hhandles : 0 < (f (c.cellAt i)).handles → 0 < (c.cellAt i).handles) (j : ℕ)
    (hj : 0 < ((c.modifyCell i f).cellAt j).handles) : c.Proper ((c.modifyCell i f).cellAt j).terms := by
  rw [cellAt_modifyCell] at hj ⊢
  split_ifs at hj ⊢ with hij
  · obtain ⟨rfl, -⟩ := hij
    rw [hterms]
    exact ht.markings i (hhandles hj)
  · exact ht.markings j hj

theorem WellFormed.modifyCell (h : c.WellFormed) {i : ℕ} {f : Cell → Cell} (hterms : ∀ k, (f k).terms = k.terms)
    (hhandles : 0 < (f (c.cellAt i)).handles → 0 < (c.cellAt i).handles) : (c.modifyCell i f).WellFormed :=
  h.withCells (h.tied.modifyCell_markings hterms hhandles)

theorem WellFormed.retain (h : c.WellFormed) (hm : 0 < (c.cellAt m.id).handles) : (c.retain m).WellFormed :=
  h.modifyCell (fun _ => rfl) fun _ => hm

theorem handles_pos_of_release (h : 0 < (c.cellAt m.id).handles - 1) : 0 < (c.cellAt m.id).handles := by omega

theorem WellFormed.release (h : c.WellFormed) : (c.release m).WellFormed :=
  h.modifyCell (fun _ => rfl) handles_pos_of_release

theorem retain_handles_le {i : ℕ} : (c.cellAt i).handles ≤ ((c.retain m).cellAt i).handles := by
  rw [retain, cellAt_modifyCell]
  split_ifs <;> simp

/-- A handle of each live marking is given out. -/
def retainAll (ms : List Marking) (c : Circuit) : Circuit := ms.foldl (fun c m => c.retain m) c

theorem WellFormed.retainAll (h : c.WellFormed) {ms : List Marking} (hms : ∀ m ∈ ms, 0 < (c.cellAt m.id).handles) :
    (c.retainAll ms).WellFormed ∧ (c.retainAll ms).config = c.config := by
  induction ms generalizing c with
  | nil => exact ⟨h, rfl⟩
  | cons m ms ih => exact ih (h.retain (hms m (by simp))) fun k hk =>
      (hms k (by simp [hk])).trans_le retain_handles_le

theorem handles_of_mem_markings (hm : m ∈ c.markings) : 0 < (c.cellAt m.id).handles := by
  obtain ⟨i, hi, rfl⟩ := List.mem_map.1 hm
  exact mem_liveMarkingIds.1 hi

/-! ## The calls of the interface -/

/-- A call of the interface, with its arguments. `retain` and `release` stand for what happens to the handles that
a caller has. -/
inductive Operation where
  | createMarking (v : ℤ)
  | markNodes (ns : List Node)
  | markSigned (ns : List Node) (ss : List Sign)
  | createNode (m : Marking)
  | cloneNode (n : Node)
  | cloneMarking (m : Marking)
  | copyMarking (m : Marking)
  | successorMarking (n : Node)
  | invert (m : Marking)
  | add (a b : Marking)
  | intersect (a b : Marking)
  | increment (m : Marking)
  | compare (a b : Marking)
  | equal (a b : Marking)
  | smallestNode (m : Marking)
  | isReduced (m : Marking)
  | orderOf (n : Node)
  | isNodeReduced (n : Node)
  | successorTerms (n : Node)
  | reducedNode (rank : ℕ)
  | reducedLength
  | nodes
  | stats
  | markings
  | reduce (call : ReduceCall)
  | connect (m p : Marking)
  | connectInverse (m p : Marking)
  | remove (m : Marking)
  | copy (id : CircuitId) (keep : List Marking)
  | check
  | retain (m : Marking)
  | release (m : Marking)

/-- The call without its answer. -/
def silent {α : Type} (x : Call CircuitError α) : Call CircuitError Unit := x >>= fun _ => pure ()

theorem run_silent {α : Type} (x : Call CircuitError α) (c : Circuit) :
    (silent x).run c = ((x.run c).1.map fun _ => (), (x.run c).2) := by
  rw [silent, Call.run_bind]
  rcases x.run c with ⟨e | a, d⟩ <;> rfl

/-- A change that concerns the circuit of a handle only. -/
def atHome (m : Marking) (f : Circuit → Circuit) : Call CircuitError Unit :=
  Call.change fun c => ((), if m.circuit = c.id then f c else c)

namespace Operation

/-- What a call does to the circuit it is made to, and whether it is refused. -/
def run : Operation → Call CircuitError Unit
  | createMarking v => silent (Circuit.createMarking v)
  | markNodes ns => silent (Circuit.markNodes ns)
  | markSigned ns ss => silent (Circuit.markSigned ns ss)
  | createNode m => silent (Circuit.createNode m)
  | cloneNode n => silent (Circuit.cloneNode n)
  | cloneMarking m => silent (Circuit.cloneMarking m)
  | copyMarking m => silent (Circuit.copyMarking m)
  | successorMarking n => silent (Circuit.successorMarking n)
  | invert m => silent (Circuit.invert m)
  | add a b => silent (Circuit.add a b)
  | intersect a b => silent (Circuit.intersect a b)
  | increment m => silent (Circuit.increment m)
  | compare a b => silent (Call.ask fun c => c.compare a b)
  | equal a b => silent (Call.ask fun c => c.equal a b)
  | smallestNode m => silent (Call.ask fun c => c.smallestNode m)
  | isReduced m => silent (Call.ask fun c => c.isReduced m)
  | orderOf n => silent (Call.ask fun c => c.orderOf n)
  | isNodeReduced n => silent (Call.ask fun c => c.isNodeReduced n)
  | successorTerms n => silent (Call.ask fun c => c.successorTerms n)
  | reducedNode rank => silent (Call.read fun c => c.reducedNode? rank)
  | reducedLength => silent (Call.read fun c => c.reducedLength)
  | nodes => silent (Call.read fun c => c.nodes)
  | stats => silent (Call.read fun c => c.stats)
  | markings => silent (Call.change fun c => (c.markings, c.retainAll c.markings))
  | reduce call => call.run
  | connect m p => Circuit.connect m p
  | connectInverse m p => Circuit.connectInverse m p
  | remove m => Circuit.remove m
  | copy id keep => silent (Call.ask fun c => c.copy id keep)
  | check => Call.ask fun c => c.check
  | retain m => atHome m (Circuit.retain m)
  | release m => atHome m (Circuit.release m)

/-- The handles that are passed. -/
def handles : Operation → List Marking
  | createNode m | cloneMarking m | copyMarking m | invert m | increment m => [m]
  | smallestNode m | isReduced m | remove m | retain m | release m => [m]
  | add a b | intersect a b | compare a b | equal a b | connect a b | connectInverse a b => [a, b]
  | reduce call => call.handles
  | copy _ keep => keep
  | _ => []

/-- The nodes that get new entries in their exponents. -/
def targets (c : Circuit) : Operation → List Node
  | connect m _ | connectInverse m _ => c.nodesOf m
  | _ => []

/-- The new entries. -/
def addend (c : Circuit) : Operation → List Term
  | connect _ p => c.termsOf p
  | connectInverse _ p => Terms.flip (c.termsOf p)
  | _ => []

/-- The call connects nodes of this circuit, and with the new entries some node would depend on itself. -/
def ClosesCycle (c : Circuit) (op : Operation) : Prop :=
  (∀ m ∈ op.handles, m.circuit = c.id) ∧ c.Closes (op.targets c) (op.addend c)

/-- The call passes its checks, and reduces a node that is not legal. -/
def ReducesIllegal (c : Circuit) : Operation → Prop
  | reduce call => call.Accepted c ∧ ∃ n, call.Frontier c n ∧ ¬ c.Legal n
  | _ => False

/-- The two exceptions: a cycle is closed where the circuit trusts its caller, or an illegal node is reduced. -/
def Breaks (c : Circuit) (op : Operation) : Prop :=
  (c.config.checkInvariants = false ∧ (∀ n ∈ op.targets c, c.Pending n) ∧ op.ClosesCycle c) ∨ op.ReducesIllegal c

end Operation

/-! ## Every call keeps a circuit well formed, with two exceptions -/

section Keeping

variable {α : Type} {x : Call CircuitError α}

theorem Keeps.silent (h : Keeps x c) : Keeps (silent x) c := by
  refine ⟨?_, ?_, ?_⟩
  all_goals rw [run_silent]
  exacts [h.wellFormed, h.config, fun v hv => h.harmless v (map_eq_error.1 hv)]

theorem WellFormed.keeps_read (h : c.WellFormed) (q : Circuit → α) : Keeps (silent (Call.read q)) c :=
  Keeps.silent ⟨h, rfl, harmless_ok _⟩

end Keeping

theorem WellFormed.keeps_atHome (h : c.WellFormed) {f : Circuit → Circuit} (hf : m.circuit = c.id → (f c).WellFormed)
    (hconfig : (f c).config = c.config) : Keeps (atHome m f) c := by
  refine keeps_change ?_ ?_
  · show (if m.circuit = c.id then f c else c).WellFormed
    split_ifs with hm
    · exact hf hm
    · exact h
  · show (if m.circuit = c.id then f c else c).config = c.config
    split_ifs
    · exact hconfig
    · rfl

theorem WellFormed.keeps_connect (h : c.WellFormed) {p : Marking} (hm : c.Held m) (hp : c.Held p)
    (hopen : c.config.checkInvariants = false → (∀ n ∈ c.nodesOf m, c.Pending n) →
      ¬ (Operation.connect m p).ClosesCycle c) : Keeps (connect m p) c :=
  h.keeps_own fun hown => h.keeps_own fun hown' =>
    Keeps.of_run_eq (h.keeps_attach (h.proper_termsOf hm hown).live (h.proper_termsOf hp hown') fun hun hpend hcl =>
      hopen hun hpend ⟨by simp [Operation.handles, hown, hown'], hcl⟩) rfl

theorem WellFormed.keeps_connectInverse (h : c.WellFormed) {p : Marking} (hm : c.Held m) (hp : c.Held p)
    (hopen : c.config.checkInvariants = false → (∀ n ∈ c.nodesOf m, c.Pending n) →
      ¬ (Operation.connectInverse m p).ClosesCycle c) : Keeps (connectInverse m p) c :=
  h.keeps_own fun hown => h.keeps_own fun hown' =>
    Keeps.of_run_eq (h.keeps_attach (h.proper_termsOf hm hown).live (h.proper_termsOf hp hown').flip
      fun hun hpend hcl =>
      hopen hun hpend ⟨by simp [Operation.handles, hown, hown'], hcl⟩) rfl

theorem WellFormed.keeps_reduce (h : c.WellFormed) {call : ReduceCall} (hheld : ∀ m ∈ call.handles, c.Held m)
    (hlegal : ¬ (Operation.reduce call).ReducesIllegal c) : Keeps call.run c := by
  by_cases hacc : call.Accepted c
  · obtain ⟨frontier, hrun, hclosed, hmem⟩ := ReduceCall.run_of_accepted h.tied hheld hacc
    obtain ⟨d, hrun', hd⟩ := h.runReduce_canonical hclosed fun n hn => by
      by_contra hbad
      exact hlegal ⟨hacc, n, (hmem n).1 hn, hbad⟩
    refine ⟨?_, ?_, ?_⟩
    all_goals rw [hrun, hrun']
    exacts [hd.toWellFormed, hd.config, harmless_ok _]
  · obtain ⟨e, hrun, he⟩ := ReduceCall.run_of_not_accepted h.tied hheld hacc
    refine ⟨?_, ?_, ?_⟩
    all_goals rw [hrun]
    exacts [h, harmless_error he]

/-- A call keeps a circuit well formed and does not find it broken, with two exceptions. -/
theorem Operation.keeps (h : c.WellFormed) (op : Operation) (hheld : ∀ m ∈ op.handles, c.Held m)
    (hbreaks : ¬ op.Breaks c) : Keeps op.run c := by
  have hopen : c.config.checkInvariants = false → (∀ n ∈ op.targets c, c.Pending n) → ¬ op.ClosesCycle c :=
    fun hun hpending hcloses => hbreaks (.inl ⟨hun, hpending, hcloses⟩)
  have hlegal : ¬ op.ReducesIllegal c := fun hillegal => hbreaks (.inr hillegal)
  have hone : ∀ {m}, op.handles = [m] → c.Held m := fun hm => hheld _ (by simp [hm])
  cases op with
  | createMarking v => exact (h.keeps_createMarking v).silent
  | markNodes ns => exact (h.keeps_markNodes ns).silent
  | markSigned ns ss => exact (h.keeps_markSigned ns ss).silent
  | createNode m => exact (h.keeps_createNode (hone rfl)).silent
  | cloneNode n => exact (h.keeps_cloneNode n).silent
  | cloneMarking m => exact (h.keeps_cloneMarking (hone rfl)).silent
  | copyMarking m => exact (h.keeps_copyMarking (hone rfl)).silent
  | successorMarking n => exact (h.keeps_successorMarking n).silent
  | invert m => exact (h.keeps_invert (hone rfl)).silent
  | add a b => exact (h.keeps_add (hheld a (by simp [handles])) (hheld b (by simp [handles]))).silent
  | intersect a b => exact (h.keeps_intersect (hheld a (by simp [handles]))).silent
  | increment m => exact (h.keeps_increment (hone rfl)).silent
  | compare a b => exact (h.keeps_ask harmless_compare).silent
  | equal a b => exact (h.keeps_ask (harmless_compare.bind fun _ _ => harmless_ok _)).silent
  | smallestNode m => exact (h.keeps_ask harmless_smallestNode).silent
  | isReduced m => exact (h.keeps_ask (harmless_checkMarking.bind fun _ _ => harmless_ok _)).silent
  | orderOf n => exact (h.keeps_ask harmless_orderOf).silent
  | isNodeReduced n => exact (h.keeps_ask (harmless_orderOf.bind fun _ _ => harmless_ok _)).silent
  | successorTerms n => exact (h.keeps_ask (harmless_checkNode.bind fun _ _ => harmless_ok _)).silent
  | reducedNode rank => exact h.keeps_read _
  | reducedLength => exact h.keeps_read _
  | nodes => exact h.keeps_read _
  | stats => exact h.keeps_read _
  | markings =>
    obtain ⟨hwf, hconfig⟩ := h.retainAll fun m => handles_of_mem_markings
    exact (keeps_change hwf hconfig).silent
  | reduce call => exact h.keeps_reduce hheld hlegal
  | connect m p => exact h.keeps_connect (hheld m (by simp [handles])) (hheld p (by simp [handles])) hopen
  | connectInverse m p => exact h.keeps_connectInverse (hheld m (by simp [handles])) (hheld p (by simp [handles])) hopen
  | remove m => exact h.keeps_remove (hone rfl)
  | copy id keep => exact (h.keeps_ask (h.copy hheld).1).silent
  | check => exact h.keeps_ask (by rw [check_eq_ok_iff_consistent.2 h.toConsistent]; exact harmless_ok _)
  | retain m => exact h.keeps_atHome (fun hown => h.retain (hone rfl hown)) rfl
  | release m => exact h.keeps_atHome (fun _ => h.release) rfl

/-! ## The exceptions, where a circuit checks itself -/

/-- A call that would close a cycle is refused before anything is changed: for the cycle, unless one of the targets is
reduced or two equal digits would meet. -/
def Operation.Refused (c : Circuit) (op : Operation) : Prop :=
  ∃ e, op.run.run c = (.error e, c) ∧
    ((∃ n ∈ op.targets c, c.isReducedNode n = true ∧ e = .targetAlreadyReduced n) ∨
      (∃ n, c.clash? (op.targets c) (op.addend c) = some n ∧ e = .signOverflow n) ∨
      ∃ n ∈ op.targets c, (∃ s ∈ Terms.nodes (op.addend c), Relation.ReflTransGen c.Below n s) ∧ e = .cycleDetected n)

/-- A call that would close a cycle attaches an addend to some targets. -/
theorem Operation.ClosesCycle.run_eq {op : Operation} (h : op.ClosesCycle c) :
    op.run.run c = (attach (op.targets c) (op.addend c)).run c := by
  obtain ⟨hown, hcloses⟩ := h
  cases op with
  | connect m p | connectInverse m p =>
    have hm : m.circuit = c.id := hown m (by simp [handles])
    have hp : p.circuit = c.id := hown p (by simp [handles])
    exact (run_own hm).trans (run_own hp)
  | _ =>
    obtain ⟨t, ht, -⟩ := hcloses
    cases ht

theorem Operation.ClosesCycle.proper {op : Operation} (h : op.ClosesCycle c) (hl : c.Linked)
    (hheld : ∀ m ∈ op.handles, c.Held m) : (op.targets c).Nodup ∧ c.Proper (op.addend c) := by
  obtain ⟨hown, hcloses⟩ := h
  have hproper : ∀ m ∈ op.handles, c.Proper (c.termsOf m) := fun m hm => hl.markings m.id (hheld m hm (hown m hm))
  cases op with
  | connect m p => exact ⟨(hproper m (by simp [handles])).nodup, hproper p (by simp [handles])⟩
  | connectInverse m p => exact ⟨(hproper m (by simp [handles])).nodup, (hproper p (by simp [handles])).flip⟩
  | _ =>
    obtain ⟨t, ht, -⟩ := hcloses
    cases ht

theorem Operation.refuses_cycle (hchecked : c.config.checkInvariants = true) {op : Operation} (h : op.ClosesCycle c) :
    op.Refused c := by
  unfold Refused
  rw [h.run_eq]
  exact attach_refused hchecked h.2

/-- When a node that is not legal is reduced, a fraction gets into the order. -/
theorem Operation.leaves_fraction (h : c.WellFormed) {op : Operation} (hheld : ∀ m ∈ op.handles, c.Held m)
    (hillegal : op.ReducesIllegal c) :
    ∃ d, op.run.run c = (if c.config.checkInvariants then d.check else .ok (), d) ∧ d.Linked ∧
      ∃ k, d.Reduced k ∧ d.worth k < 1 := by
  cases op with
  | reduce call =>
    obtain ⟨hacc, n, hn, hbad⟩ := hillegal
    obtain ⟨frontier, hrun, hclosed, hfrontier⟩ := ReduceCall.run_of_accepted h.tied hheld hacc
    obtain ⟨sorted, d, hsorted, hx, hrun'⟩ := h.sound.runReduce hclosed
    exact ⟨d, hrun.trans hrun', hx.reduces.sound.toLinked,
      hx.fraction h.toConsistent ⟨n, (hsorted n).2 ((hfrontier n).2 hn), hbad⟩⟩
  | _ => exact hillegal.elim

theorem Consistent.one_le_worth_of_reduced (hc : c.Consistent) (hn : c.Reduced n) : 1 ≤ c.worth n :=
  (hc.legal n hn).one_le_worth

/-- The check after a reduction finds every fraction that got into the order. -/
theorem Operation.finds_illegal (h : c.WellFormed) (hchecked : c.config.checkInvariants = true) {op : Operation}
    (hheld : ∀ m ∈ op.handles, c.Held m) (hillegal : op.ReducesIllegal c) :
    ∃ v, (op.run.run c).1 = .error (.invariantViolated v) := by
  obtain ⟨d, hrun, hl, k, hk, hw⟩ := Operation.leaves_fraction h hheld hillegal
  have hbroken : d.check ≠ .ok () := fun hok =>
    absurd ((check_eq_ok_iff_consistent.1 hok).one_le_worth_of_reduced hk) (not_le.2 hw)
  obtain ⟨e, he⟩ := exists_error fun _ => hbroken
  obtain ⟨v, rfl⟩ := hl.onlyViolated_check e he
  exact ⟨v, by rw [hrun, if_pos hchecked, he]⟩

/-- Where a circuit trusts its caller, a cycle that is to be closed is there afterwards. -/
theorem Operation.leaves_cycle (hl : c.Linked) (hun : c.config.checkInvariants = false) {op : Operation}
    (hheld : ∀ m ∈ op.handles, c.Held m) (hpending : ∀ n ∈ op.targets c, c.Pending n) (hcloses : op.ClosesCycle c) :
    ¬ (op.run.run c).2.Acyclic := by
  obtain ⟨hnodup, hproper⟩ := hcloses.proper hl hheld
  rw [hcloses.run_eq]
  exact hl.attach_not_acyclic hun hpending hnodup hproper hcloses.2

/-- The exceptions are exceptions: they do not leave a well-formed circuit. -/
theorem Operation.wellFormed_iff (h : c.WellFormed) (op : Operation) (hheld : ∀ m ∈ op.handles, c.Held m) :
    (op.run.run c).2.WellFormed ↔ ¬ op.Breaks c := by
  constructor
  · rintro hwf (⟨hun, hpending, hcloses⟩ | hillegal)
    · exact Operation.leaves_cycle h.toLinked hun hheld hpending hcloses hwf.acyclic
    · obtain ⟨d, hrun, -, k, hk, hw⟩ := Operation.leaves_fraction h hheld hillegal
      rw [hrun] at hwf
      exact absurd (hwf.one_le_worth_of_reduced hk) (not_le.2 hw)
  · exact fun hbreaks => (op.keeps h hheld hbreaks).wellFormed

theorem Operation.breaks_iff_of_checked (hchecked : c.config.checkInvariants = true) (op : Operation) :
    op.Breaks c ↔ op.ReducesIllegal c := by
  simp [Breaks, hchecked]

/-! ## Runs -/

/-- The states that a circuit comes to by calls with handles that the caller has, none of which finds it broken. A copy
goes on by itself. -/
inductive Leads (c : Circuit) : Circuit → Prop
  | start : Leads c c
  | call {d : Circuit} (before : Leads c d) (op : Operation) (held : ∀ m ∈ op.handles, d.Held m)
    (answer : ∀ v, (op.run.run d).1 ≠ .error (.invariantViolated v)) : Leads c (op.run.run d).2
  | copy {d e : Circuit} (before : Leads c d) {id : CircuitId} {keep ms : List Marking} (held : ∀ m ∈ keep, d.Held m)
    (answer : d.copy id keep = .ok (e, ms)) : Leads c e

theorem Leads.wellFormed (h : c.WellFormed) (hchecked : c.config.checkInvariants = true) (hd : c.Leads d) :
    d.WellFormed ∧ d.config = c.config := by
  induction hd with
  | start => exact ⟨h, rfl⟩
  | @call d _ op held answer ih =>
    obtain ⟨hwf, hconfig⟩ := ih
    have hchecked' : d.config.checkInvariants = true := by rw [hconfig, hchecked]
    have hkeeps := op.keeps hwf held fun hbreaks => by
      obtain ⟨v, hv⟩ := Operation.finds_illegal hwf hchecked' held ((op.breaks_iff_of_checked hchecked').1 hbreaks)
      exact answer v hv
    exact ⟨hkeeps.wellFormed, hkeeps.config.trans hconfig⟩
  | @copy d e _ id keep ms held answer ih =>
    obtain ⟨hwf, -, hconfig, -⟩ := (ih.1.copy held).2 e ms answer
    exact ⟨hwf, hconfig.trans ih.2⟩

/-- A new circuit is well formed. A call, answered or refused, keeps a circuit well formed but for two exceptions: where
it closes a cycle unchecked, and where it reduces a node that is not legal. A circuit that checks itself refuses the
first and finds itself broken after the second, and never otherwise; so all states of a run are well formed that come
before. A copy of a well-formed circuit is well formed. -/
theorem wellFormed_along_runs :
    (∀ id config, (empty id config).WellFormed) ∧
    (∀ c : Circuit, c.WellFormed → ∀ op : Operation, (∀ m ∈ op.handles, c.Held m) →
      ((op.run.run c).2.WellFormed ↔ ¬ op.Breaks c) ∧
      (c.config.checkInvariants = true → op.ClosesCycle c → op.Refused c) ∧
      (c.config.checkInvariants = true →
        ((∃ v, (op.run.run c).1 = .error (.invariantViolated v)) ↔ op.ReducesIllegal c))) ∧
    (∀ c : Circuit, c.WellFormed → ∀ id keep, (∀ m ∈ keep, c.Held m) → ∀ d ms, c.copy id keep = .ok (d, ms) →
      d.WellFormed) ∧
    ∀ c d : Circuit, c.WellFormed → c.config.checkInvariants = true → c.Leads d → d.WellFormed := by
  refine ⟨wellFormed_empty, fun c h op hheld => ⟨op.wellFormed_iff h hheld,
    fun hchecked => Operation.refuses_cycle hchecked, fun hchecked => ⟨fun ⟨v, hv⟩ => ?_,
      Operation.finds_illegal h hchecked hheld⟩⟩, fun c h id keep hheld d ms hcopy => ((h.copy hheld).2 d ms hcopy).1,
    fun c d h hchecked hd => (hd.wellFormed h hchecked).1⟩
  by_contra hlegal
  exact (op.keeps h hheld (mt (op.breaks_iff_of_checked hchecked).1 hlegal)).harmless v hv

end PowerTower.Circuit
