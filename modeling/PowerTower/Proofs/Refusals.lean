import Mathlib
import PowerTower.Proofs.Joining
import PowerTower.Proofs.Undisturbed

/-!
# Refused calls

Most calls look before they change anything, and a refusal leaves no trace (`Operation.atomic`). Three kinds change one
place after the other, and could be refused on the way: connecting, connecting inversely and reducing.

* `Atomic` : a refused call has changed nothing;
* `Tied.atomic_attach` : connecting looks for everything that could stop it before it changes the first exponent;
* `Sound.unchanged_of_refused`, `Grounded.unchanged_of_refused` : once the nodes are put in order a reduction gets
  through, and is refused only by the check at its end.
-/

namespace PowerTower.Circuit

open Guards

variable {α β : Type} {c d : Circuit} {m n : Node} {targets : List Node} {addend : List Term}

/-! ## Calls that look first -/

/-- If the call is refused, the circuit is as it was. -/
def Atomic (x : Call CircuitError α) (c : Circuit) : Prop := ∀ e, (x.run c).1 = .error e → (x.run c).2 = c

theorem atomic_ask (q : Circuit → Except CircuitError α) : Atomic (Call.ask q) c := fun _ _ => rfl

theorem atomic_read (q : Circuit → α) : Atomic (Call.read q) c := fun _ _ => rfl

theorem atomic_throw (e : CircuitError) : Atomic (throw e : Call CircuitError α) c := fun _ _ => rfl

theorem atomic_change (f : Circuit → α × Circuit) : Atomic (Call.change f) c := fun _ he => by cases he

theorem atomic_of_ok {x : Call CircuitError α} {a : α} (h : x.run c = (.ok a, d)) : Atomic x c := fun e he => by
  rw [h] at he
  cases he

theorem atomic_of_unchanged {x : Call CircuitError α} {r : Except CircuitError α} (h : x.run c = (r, c)) : Atomic x c :=
  fun e _ => by rw [h]

theorem Atomic.of_run_eq {x y : Call CircuitError α} (hx : Atomic x c) (h : y.run c = x.run c) : Atomic y c := by
  unfold Atomic
  rw [h]
  exact hx

theorem atomic_ask_bind {q : Circuit → Except CircuitError α} {f : α → Call CircuitError β}
    (hf : ∀ a, q c = .ok a → Atomic (f a) c) : Atomic (Call.ask q >>= f) c := by
  cases hq : q c with
  | error e => exact atomic_of_unchanged (run_ask_error hq)
  | ok a => exact (hf a hq).of_run_eq (run_ask_ok hq)

theorem atomic_guarded {q : Circuit → Except CircuitError Unit} {x : Call CircuitError α} (hx : Atomic x c) :
    Atomic (Call.ask q >>= fun _ => x) c := atomic_ask_bind fun _ _ => hx

theorem Atomic.silent {x : Call CircuitError α} (hx : Atomic x c) : Atomic (Circuit.silent x) c := by
  intro e he
  rw [run_silent] at he ⊢
  exact hx e (map_eq_error.1 he)

theorem atomic_markSigned (ns : List Node) (ss : List Sign) : Atomic (markSigned ns ss) c := by
  unfold markSigned
  split_ifs
  · exact atomic_throw _
  · exact atomic_ask_bind fun _ _ => atomic_change _

/-- The calls that change one place after the other. -/
def Operation.Stepwise : Operation → Prop
  | .reduce _ | .connect _ _ | .connectInverse _ _ => True
  | _ => False

/-- All other calls look first, in whatever state the circuit is. -/
theorem Operation.atomic {op : Operation} (h : ¬ op.Stepwise) : Atomic op.run c := by
  cases op with
  | createMarking v => exact (atomic_change _).silent
  | markNodes ns => exact (atomic_markSigned ns _).silent
  | markSigned ns ss => exact (atomic_markSigned ns ss).silent
  | createNode | cloneNode | cloneMarking | copyMarking | successorMarking | invert | increment =>
    exact (atomic_guarded (atomic_change _)).silent
  | add a b => exact (atomic_guarded (atomic_guarded (atomic_ask_bind fun _ _ => atomic_change _))).silent
  | intersect a b => exact (atomic_guarded (atomic_guarded (atomic_change _))).silent
  | compare | equal | smallestNode | isReduced | orderOf | isNodeReduced | successorTerms | copy =>
    exact (atomic_ask _).silent
  | reducedNode | reducedLength | nodes | stats => exact (atomic_read _).silent
  | markings => exact (atomic_change _).silent
  | reduce | connect | connectInverse => exact absurd trivial h
  | remove m => exact atomic_guarded (atomic_change _)
  | check => exact atomic_ask _
  | retain | release => exact atomic_change _

/-! ## Connecting -/

/-- A circuit that checks itself has looked at every entry before the first exponent is extended, and one that trusts
its caller refuses no entry. -/
theorem Tied.atomic_attach (h : c.Tied) (hlive : ∀ n ∈ targets, c.Live n) (hnodup : targets.Nodup)
    (hproper : c.Proper addend) : Atomic (attach targets addend) c := by
  cases hfind : targets.find? c.isReducedNode with
  | some n => exact atomic_of_unchanged (attach_of_reduced hfind)
  | none =>
    refine (atomic_ask_bind fun _ hok => ?_).of_run_eq (attach_of_pending hfind)
    have hexponents : ∀ n ∈ targets, Terms.Proper (c.successors n) := fun n hn => (h.exponents n (hlive n hn)).toProper
    cases hchecked : c.config.checkInvariants with
    | false =>
      obtain ⟨d, hrun, -⟩ := toggled_extendAll hchecked hproper.toProper hnodup hlive hexponents
      exact atomic_of_ok hrun
    | true =>
      rw [if_pos hchecked] at hok
      have hclash : c.clash? targets addend = none := by
        unfold checkEdges at hok
        split at hok
        · cases hok
        · assumption
      obtain ⟨d, hrun, -⟩ := extendAll_joined hproper.toProper hnodup hlive hexponents (clash?_eq_none_iff.1 hclash)
      exact atomic_of_ok hrun

theorem Tied.atomic_connect (h : c.Tied) {a b : Marking} (ha : c.Held a) (hb : c.Held b) : Atomic (connect a b) c :=
  atomic_ask_bind fun _ hown => atomic_ask_bind fun _ hown' => by
    have hpa := ha.proper h (checkMarking_eq_ok_iff.1 hown)
    have hpb := hb.proper h (checkMarking_eq_ok_iff.1 hown')
    exact (h.atomic_attach hpa.live hpa.nodup hpb).of_run_eq rfl

theorem Tied.atomic_connectInverse (h : c.Tied) {a b : Marking} (ha : c.Held a) (hb : c.Held b) :
    Atomic (connectInverse a b) c :=
  atomic_ask_bind fun _ hown => atomic_ask_bind fun _ hown' => by
    have hpa := ha.proper h (checkMarking_eq_ok_iff.1 hown)
    have hpb := hb.proper h (checkMarking_eq_ok_iff.1 hown')
    exact (h.atomic_attach hpa.live hpa.nodup hpb.flip).of_run_eq rfl

/-! ## Reducing -/

/-- Where the nodes are linked a reduction gets through, even if it takes fractions into the order. So if a refusal does
not come from the check at the end, it came before the first change. -/
theorem Sound.unchanged_of_refused (h : c.Sound) {call : ReduceCall} (hheld : ∀ m ∈ call.handles, c.Held m)
    {e : CircuitError} (he : (call.run.run c).1 = .error e) (hother : ∀ v, e ≠ .invariantViolated v) :
    (call.run.run c).2 = c := by
  by_cases haccepted : call.Accepted c
  · exfalso
    obtain ⟨frontier, hrun, hclosed, -⟩ := ReduceCall.run_of_accepted h.tied hheld haccepted
    obtain ⟨sorted, d, -, hx, hrun'⟩ := h.runReduce hclosed
    rw [hrun, hrun'] at he
    dsimp only at he
    split_ifs at he
    obtain ⟨v, rfl⟩ := hx.reduces.sound.toLinked.onlyViolated_check e he
    exact hother v rfl
  · obtain ⟨e, hrun, -⟩ := ReduceCall.run_of_not_accepted h.tied hheld haccepted
    rw [hrun]

/-- A circuit that trusts its caller refuses a reduction only if it cannot put the nodes in order, and that it finds out
first. -/
theorem Grounded.unchanged_of_refused (h : c.Grounded) (hunchecked : c.config.checkInvariants = false)
    {call : ReduceCall}
    (hheld : ∀ m ∈ call.handles, c.Held m) {e : CircuitError} (he : (call.run.run c).1 = .error e) :
    (call.run.run c).2 = c := by
  by_cases haccepted : call.Accepted c
  · obtain ⟨frontier, hrun, hclosed, -⟩ := ReduceCall.run_of_accepted h.toTied hheld haccepted
    cases ho : c.dependencyOrder frontier with
    | error e => rw [hrun, runReduce_of_refused ho]
    | ok sorted =>
      obtain ⟨d, hrun', -⟩ := h.runReduce hclosed.pending ho
      rw [hrun, hrun', if_neg (by simp [hunchecked])] at he
      cases he
  · obtain ⟨e, hrun, -⟩ := ReduceCall.run_of_not_accepted h.toTied hheld haccepted
    rw [hrun]

/-- A call that looks first leaves no trace when it is refused, whatever state the circuit is in. Where the nodes are
linked, and where the circuit trusts its caller and is well formed but for cycles, no call leaves a trace when it is
refused, unless the refusal reports a broken invariant. -/
theorem refused_calls_leave_no_trace (c : Circuit) (op : Operation) :
    (¬ op.Stepwise → Atomic op.run c) ∧
    (c.Sound ∨ c.Grounded ∧ c.config.checkInvariants = false → (∀ m ∈ op.handles, c.Held m) →
      ∀ e, (op.run.run c).1 = .error e → (∀ v, e ≠ .invariantViolated v) → (op.run.run c).2 = c) := by
  refine ⟨Operation.atomic, fun h hheld e he hother => ?_⟩
  have ht : c.Tied := h.elim (fun hs => hs.tied) fun hg => hg.1.toTied
  by_cases hstep : op.Stepwise
  · cases op with
    | reduce call =>
      rcases h with hs | ⟨hg, hunchecked⟩
      · exact hs.unchanged_of_refused hheld he hother
      · exact hg.unchanged_of_refused hunchecked hheld he
    | connect a b =>
      exact ht.atomic_connect (hheld a (by simp [Operation.handles])) (hheld b (by simp [Operation.handles])) e he
    | connectInverse a b =>
      exact ht.atomic_connectInverse (hheld a (by simp [Operation.handles]))
        (hheld b (by simp [Operation.handles])) e he
    | _ => exact hstep.elim
  · exact Operation.atomic hstep e he

/-- To connect the reduced node of worth one with itself is refused. -/
theorem connecting_a_reduced_node : let op : Operation := .connect ⟨⟨0⟩, 0⟩ ⟨⟨0⟩, 0⟩
    onlyUnit.Sound ∧ (∀ m ∈ op.handles, onlyUnit.Held m) ∧
      (op.run.run onlyUnit).1 = .error (.targetAlreadyReduced ⟨⟨0⟩, 0, 0⟩) ∧ (op.run.run onlyUnit).2 = onlyUnit := by
  intro op
  have hsound : onlyUnit.Sound := wellFormed_onlyUnit.sound
  have hheld : ∀ m ∈ op.handles, onlyUnit.Held m := fun m hm _ => by
    rcases List.mem_pair.1 hm with rfl | rfl <;> decide
  have hrefused : (op.run.run onlyUnit).1 = .error (.targetAlreadyReduced ⟨⟨0⟩, 0, 0⟩) := by cbv
  exact ⟨hsound, hheld, hrefused,
    (refused_calls_leave_no_trace onlyUnit op).2 (.inl hsound) hheld _ hrefused fun v => by simp⟩

end PowerTower.Circuit
