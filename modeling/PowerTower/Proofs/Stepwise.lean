import Mathlib
import PowerTower.Proofs.Operations
import PowerTower.Proofs.Veil

/-!
# Changes put together from steps

Carries are put together from making a node, placing it and writing its flag. What each of these steps does to a
circuit, and what goes on from one step to the next, is done by all that is made with carries.

* `Stepwise` : a relation between circuits that the single steps keep up;
* `Stepwise.double`, `Stepwise.absorb`, `Stepwise.integerTerms`, … : so does what is put together from them;
* `Stepwise.operation` : and so does every call that neither removes nor reduces, as far as changed exponents of its
  targets do;
* `Stepwise.reduceCall` : and every reduction, as far as changing what mentions pending nodes and freeing these does.
-/

namespace PowerTower.Circuit

open Guards

/-- A relation that holds from a circuit to what a step makes of it. -/
structure Stepwise (R : Circuit → Circuit → Prop) : Prop where
  refl : ∀ c, R c c
  trans : ∀ {c d e}, R c d → R d e → R c e
  alloc : ∀ c ts, R c (c.alloc ts).2
  place : ∀ c n p, R c (c.place n p)
  setDoubles : ∀ c n b, R c (c.setDoubles n b)
  newMarking : ∀ c ts, R c (c.newMarking ts).2
  modifyCell : ∀ c i f, (∀ k : Cell, (f k).terms = k.terms) → R c (c.modifyCell i f)

variable {R : Circuit → Circuit → Prop} {c : Circuit} {m : Marking} {n survivor : Node} {ts : List Term}
  {s : Sign} {p : ℕ}

/-! ## Carries -/

theorem Stepwise.refreshDoubles (h : Stepwise R) : R c (c.refreshDoubles n) := by
  unfold Circuit.refreshDoubles
  split
  · exact h.setDoubles c n _
  · exact h.refl c

theorem Stepwise.ensureUnit (h : Stepwise R) : R c c.ensureUnit.2 := by
  unfold Circuit.ensureUnit
  cases c.unit? with
  | some first => exact h.refl c
  | none => exact h.trans (h.trans (h.alloc c []) (h.place _ _ 0)) h.refreshDoubles

theorem Stepwise.finishDouble (h : Stepwise R) : R c (c.finishDouble n ts).2 := by
  cases hk : c.knownDouble? n with
  | some next =>
    rw [Circuit.finishDouble, hk]
    exact h.refl c
  | none =>
    rw [finishDouble_of_none hk]
    exact h.trans (h.trans (h.trans (h.alloc c ts) (h.place _ _ _)) (h.setDoubles _ n true)) h.refreshDoubles

/-- By induction on the number of terms. -/
theorem Stepwise.absorbWith (h : Stepwise R) {double : Node → Circuit → Option (Node × Circuit)}
    (hdouble : ∀ n c q, double n c = some q → R c q.2) (ts : List Term) (n : Node) (s : Sign) (c : Circuit)
    {q : List Term × Circuit} (heq : absorbWith double ts n s c = some q) : R c q.2 := by
  induction hlen : ts.length using Nat.strong_induction_on generalizing ts n s c with
  | _ l ih =>
    cases hd : Terms.digit? n ts with
    | none =>
      rw [absorbWith_of_none hd] at heq
      obtain rfl := Option.some.inj heq
      exact h.refl c
    | some old =>
      by_cases hc : (old.addWithCarry s).2 = .zero
      · rw [absorbWith_of_settled hd hc] at heq
        obtain rfl := Option.some.inj heq
        exact h.refl c
      · rw [absorbWith_of_carry hd hc] at heq
        obtain ⟨r, hr, heq⟩ := Option.bind_eq_some_iff.1 heq
        exact h.trans (hdouble n c r hr) (ih _ (hlen ▸ Terms.length_erase_lt hd) _ _ _ _ heq rfl)

/-- By induction on the room for doubles under construction. -/
theorem Stepwise.doubleWithin (h : Stepwise R) (room : ℕ) (n : Node) (c : Circuit) (q : Node × Circuit)
    (heq : doubleWithin room n c = some q) : R c q.2 := by
  induction room generalizing n c q with
  | zero =>
    obtain ⟨next, -, rfl⟩ := Option.map_eq_some_iff.1 heq
    exact h.refl c
  | succ room ih =>
    cases hk : c.knownDouble? n with
    | some next =>
      simp only [Circuit.doubleWithin, hk] at heq
      obtain rfl := Option.some.inj heq
      exact h.refl c
    | none =>
      rw [doubleWithin_of_none hk] at heq
      obtain ⟨r, hr, rfl⟩ := Option.map_eq_some_iff.1 heq
      exact h.trans (h.trans h.ensureUnit (h.absorbWith ih _ _ _ _ hr)) h.finishDouble

theorem Stepwise.double? (h : Stepwise R) (n : Node) (c : Circuit) (q : Node × Circuit) (heq : c.double? n = some q) :
    R c q.2 :=
  h.doubleWithin _ n c q heq

theorem Stepwise.double (h : Stepwise R) : R c (c.double n).2 := by
  unfold Circuit.double
  cases heq : c.double? n with
  | none => exact h.refl c
  | some q => exact h.double? n c q heq

theorem Stepwise.absorb (h : Stepwise R) : R c (c.absorb ts n s).2 := by
  unfold Circuit.absorb
  cases heq : Circuit.absorbWith (fun n c => c.double? n) ts n s c with
  | none => exact h.refl c
  | some q => exact h.absorbWith h.double? _ _ _ _ heq

theorem Stepwise.incrementTerms (h : Stepwise R) : R c (c.incrementTerms ts).2 := h.trans h.ensureUnit h.absorb

/-- By induction on the number of bits. -/
theorem Stepwise.binaryTerms (h : Stepwise R) (bits : ℕ) : R c (binaryTerms s bits n c).2 := by
  induction bits using Nat.strong_induction_on generalizing n c with
  | _ bits ih =>
    by_cases hb : bits / 2 = 0
    · rw [binaryTerms_of_last hb]
      exact h.refl c
    · rw [binaryTerms_of_more hb]
      exact h.trans h.double (ih (bits / 2) (by omega))

theorem Stepwise.integerTerms (h : Stepwise R) (v : ℤ) : R c (integerTerms v c).2 := by
  unfold Circuit.integerTerms
  split_ifs
  · exact h.refl c
  · exact h.trans h.ensureUnit (h.binaryTerms _)

theorem Stepwise.cloneTerms (h : Stepwise R) : R c (cloneTerms ts c).2 := by
  induction ts generalizing c with
  | nil => exact h.refl c
  | cons t ts ih => exact h.trans (h.alloc c (c.successors t.1)) ih

theorem Stepwise.incremented (h : Stepwise R) : R c (Circuit.incremented ts c).2 := by
  unfold Circuit.incremented looseUnit
  split_ifs
  · exact h.incrementTerms
  · exact h.ensureUnit
  · exact h.alloc c []

/-! ## Calls -/

section Calls

variable {α β : Type} {x : Call CircuitError α} {f : α → Call CircuitError β} {targets : List Node} {addend : List Term}

theorem Stepwise.silent (hx : R c (x.run c).2) : R c ((Circuit.silent x).run c).2 := by rwa [run_silent]

theorem Stepwise.ask_bind (h : Stepwise R) {q : Circuit → Except CircuitError α} (hf : ∀ a, R c ((f a).run c).2) :
    R c ((Call.ask q >>= f).run c).2 := by
  cases hq : q c with
  | error e =>
    rw [run_ask_error hq]
    exact h.refl c
  | ok a =>
    rw [run_ask_ok hq]
    exact hf a

theorem Stepwise.marking (h : Stepwise R) {d : Circuit} (hd : R c d) : R c (d.newMarking ts).2 :=
  h.trans hd (h.newMarking d ts)

theorem Stepwise.retain (h : Stepwise R) : R c (c.retain m) := h.modifyCell c m.id _ fun _ => rfl

theorem Stepwise.release (h : Stepwise R) : R c (c.release m) := h.modifyCell c m.id _ fun _ => rfl

theorem Stepwise.retainAll (h : Stepwise R) (ms : List Marking) : R c (c.retainAll ms) := by
  induction ms generalizing c with
  | nil => exact h.refl c
  | cons m ms ih => exact h.trans h.retain ih

theorem Stepwise.markSigned (h : Stepwise R) (ns : List Node) (ss : List Sign) : R c ((markSigned ns ss).run c).2 := by
  unfold Circuit.markSigned
  split_ifs
  · exact h.refl c
  · refine h.ask_bind fun _ => ?_
    exact h.newMarking c _

theorem Stepwise.attach (h : Stepwise R)
    (hset : ∀ n ∈ targets, c.isReducedNode n = false → ∀ d us, R d (d.setSuccessors n us)) :
    R c ((attach targets addend).run c).2 := by
  cases hfind : targets.find? c.isReducedNode with
  | some n =>
    rw [attach_of_reduced hfind]
    exact h.refl c
  | none =>
    rw [attach_of_pending hfind]
    refine h.ask_bind fun _ => ?_
    have hunranked : ∀ n ∈ targets, c.isReducedNode n = false := fun n hn => by
      simpa using List.find?_eq_none.1 hfind n hn
    have hstep : ∀ n ∈ targets, ∀ d, R c d → R c ((extendExponent addend n).run d).2 := fun n hn d hd =>
      h.trans hd (hset n hn (hunranked n hn) d _)
    exact (forM_induction (P := R c) (Q := fun _ => True) (fun n hn d hd =>
      ⟨hstep n hn d hd, fun _ _ => trivial⟩) (h.refl c)).1

theorem Stepwise.atHome {g : Circuit → Circuit} (h : Stepwise R) (hg : R c (g c)) : R c ((atHome m g).run c).2 := by
  show R c (if m.circuit = c.id then g c else c)
  split_ifs
  · exact hg
  · exact h.refl c

/-- A call that neither removes nor reduces is put together from the steps and from changes of exponents of pending
nodes. -/
theorem Stepwise.operation (h : Stepwise R) {op : Operation} (hremove : ∀ m, op ≠ .remove m)
    (hreduce : ∀ call, op ≠ .reduce call)
    (hset : ∀ n ∈ op.targets c, c.isReducedNode n = false → ∀ d us, R d (d.setSuccessors n us)) :
    R c (op.run.run c).2 := by
  cases op with
  | createMarking v => exact Stepwise.silent (h.marking (h.integerTerms v))
  | markNodes ns => exact Stepwise.silent (h.markSigned ns _)
  | markSigned ns ss => exact Stepwise.silent (h.markSigned ns ss)
  | createNode m => exact Stepwise.silent (h.ask_bind fun _ => h.alloc c (c.termsOf m))
  | cloneNode n => exact Stepwise.silent (h.ask_bind fun _ => h.alloc c (c.successors n))
  | cloneMarking m => exact Stepwise.silent (h.ask_bind fun _ => h.marking h.cloneTerms)
  | copyMarking | successorMarking | invert =>
    exact Stepwise.silent (h.ask_bind fun _ => h.newMarking c _)
  | add a b =>
    exact Stepwise.silent (h.ask_bind fun _ => h.ask_bind fun _ => h.ask_bind fun _ => h.newMarking c _)
  | intersect a b => exact Stepwise.silent (h.ask_bind fun _ => h.ask_bind fun _ => h.newMarking c _)
  | increment m => exact Stepwise.silent (h.ask_bind fun _ => h.marking h.incremented)
  | compare | equal | smallestNode | isReduced | orderOf | isNodeReduced | successorTerms | copy | reducedNode
  | reducedLength | nodes | stats => exact Stepwise.silent (h.refl c)
  | markings => exact Stepwise.silent (h.retainAll _)
  | reduce call => exact absurd rfl (hreduce call)
  | connect m p => exact h.ask_bind fun _ => h.ask_bind fun _ => h.attach hset
  | connectInverse m p => exact h.ask_bind fun _ => h.ask_bind fun _ => h.attach hset
  | remove m => exact absurd rfl (hremove m)
  | check => exact h.refl c
  | retain m => exact h.atHome h.retain
  | release m => exact h.atHome h.release

end Calls

/-! ## Reductions -/

theorem Stepwise.refreshBelow (h : Stepwise R) : R c (c.refreshBelow p) := by
  unfold Circuit.refreshBelow
  split
  · exact h.refl c
  · split
    · exact h.refreshDoubles
    · exact h.refl c

theorem Stepwise.insertReduced (h : Stepwise R) : R c (c.insertReduced n p) :=
  h.trans (h.trans (h.place c n p) h.refreshBelow) h.refreshDoubles

theorem Stepwise.redirect (h : Stepwise R) {holder : Holder} (hset : ∀ d us, R d (d.setHeld holder us)) :
    R c (redirect n survivor c holder) := by
  cases hd : Terms.digit? n (c.heldBy holder) with
  | none =>
    rw [redirect_of_digit?_eq_none hd]
    exact h.refl c
  | some s =>
    rw [redirect_of_digit?_eq_some hd]
    exact h.trans (h.trans (hset _ _) h.absorb) (hset _ _)

theorem Stepwise.foldl_redirect (h : Stepwise R) {holders : List Holder}
    (hset : ∀ holder ∈ holders, ∀ d us, R d (d.setHeld holder us)) :
    R c (holders.foldl (Circuit.redirect n survivor) c) := by
  induction holders generalizing c with
  | nil => exact h.refl c
  | cons holder holders ih =>
    exact h.trans (h.redirect (hset holder (by simp))) (ih fun k hk => hset k (by simp [hk]))

theorem Stepwise.reduceNode (h : Stepwise R) {table : Std.HashMap Node (Array Holder)}
    (hset : ∀ holder ∈ listed table n, ∀ d us, R d (d.setHeld holder us)) (hfree : ∀ d, R d (d.freeNode n)) :
    R c ((reduceNode table n).run c).2 := by
  cases hf : c.search (c.successors n) with
  | error error =>
    rw [reduceNode_eq_error hf]
    exact h.refl c
  | ok spot =>
    cases spot with
    | vacant r =>
      rw [reduceNode_of_vacant hf]
      exact h.insertReduced
    | taken r =>
      cases hr : c.order[r]? with
      | some survivor =>
        rw [reduceNode_of_taken hf hr]
        exact h.trans (h.foldl_redirect hset) (hfree _)
      | none =>
        rw [reduceNode_of_taken_none hf hr]
        exact h.refl c

theorem run_runReduce_snd (frontier : List Node) :
    ((runReduce frontier).run c).2 = ((reduceFrontier frontier).run c).2 := by
  rcases hrun : (reduceFrontier frontier).run c with ⟨error | _, d⟩
  · rw [runReduce, Call.run_bind_error hrun]
  · rw [runReduce, Call.run_bind_ok hrun, Call.run_ask]

/-- A walk through pending nodes finds pending nodes. -/
theorem isReducedNode_of_mem_pendingReachable {roots : List Node} (hn : n ∈ c.pendingReachable roots) :
    c.isReducedNode n = false := by
  unfold pendingReachable at hn
  split_ifs at hn
  · cases hn
  · simp only [Traversal.mem_discover_iff, Traversal.mem_ofList_iff, List.mem_filter, Bool.not_eq_true'] at hn
    obtain ⟨r, -, hstart, hpath⟩ := hn
    rcases Relation.ReflTransGen.cases_tail hpath with rfl | ⟨_, _, hstep⟩
    · exact hstart.2
    · exact hstep.2.1.2

section Pending

variable (h : Stepwise R)
  (hset : ∀ n holder, c.isReducedNode n = false → c.Holds n holder → ∀ d us, R d (d.setHeld holder us))
  (hfree : ∀ n, c.isReducedNode n = false → ∀ d, R d (d.freeNode n))

include h hset hfree

/-- A frontier that is not reduced yet is reduced by changing what mentions it and by freeing its nodes. -/
theorem Stepwise.runReduce {frontier : List Node} (hfrontier : ∀ n ∈ frontier, c.isReducedNode n = false) :
    R c ((runReduce frontier).run c).2 := by
  rw [run_runReduce_snd]
  cases ho : c.dependencyOrder frontier with
  | error e =>
    rw [reduceFrontier, run_ask_error ho]
    exact h.refl c
  | ok sorted =>
    rw [run_reduceFrontier ho]
    have hsorted : ∀ n ∈ sorted, c.isReducedNode n = false := fun n hn =>
      hfrontier n (((sorted_of_dependencyOrder ho).2 n).1 hn)
    have hstep : ∀ n ∈ sorted, ∀ d, R c d → R c ((Circuit.reduceNode (c.referrers sorted) n).run d).2 :=
      fun n hn d hd =>
      h.trans hd (h.reduceNode (fun holder hmem => hset n holder (hsorted n hn) ((mem_referrers hn).1 hmem))
        (hfree n (hsorted n hn)))
    exact (forM_induction (P := R c) (Q := fun _ => True) (fun n hn d hd =>
      ⟨hstep n hn d hd, fun _ _ => trivial⟩) (h.refl c)).1

/-- Whatever a reduction is called with, what it finds is not reduced yet. -/
theorem Stepwise.reduceCall (call : ReduceCall) : R c (call.run.run c).2 := by
  cases call with
  | all =>
    show R c ((Circuit.runReduce c.pendingNodes).run c).2
    exact h.runReduce hset hfree fun n hn => by simp [isReducedNode, (mem_pendingNodes.1 hn).2]
  | markings ms =>
    refine h.ask_bind fun roots => ?_
    show R c ((Circuit.runReduce (c.pendingReachable roots)).run c).2
    exact h.runReduce hset hfree fun n hn => isReducedNode_of_mem_pendingReachable hn
  | nodes ns ms =>
    cases hpending : ns.forM c.checkPending with
    | error e =>
      rw [ReduceCall.run, reduceNodes, run_ask_error hpending]
      exact h.refl c
    | ok _ =>
      rw [ReduceCall.run, reduceNodes, run_ask_ok hpending]
      refine h.ask_bind fun _ => h.runReduce hset hfree fun n hn => ?_
      simp [isReducedNode, (checkPending_eq_ok_iff.1 (forM_eq_ok.1 hpending n hn)).2]

end Pending

end PowerTower.Circuit
