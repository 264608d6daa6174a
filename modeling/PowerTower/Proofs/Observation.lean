import Mathlib
import PowerTower.Proofs.Evaluation
import PowerTower.Proofs.Replies

/-!
# Checking only observes

One circuit checks itself and another one does not; otherwise they are the same, but for the numbers of circuits. As
long as the checks of the first find nothing, both give the same answers and stay the same. Evaluations never make them
find anything.

* `Renaming.Observes` : such a renaming, and `Mirror.eq_renamed` : to be mirrored everywhere is to be the same;
* `CircuitError.IsAlarm` : what only checks find;
* `WellFormed.forgiving`, `WellFormed.observed` : a conversation without alarms;
* `Parallel`, `Renaming.Observes.evaluate`, `evaluateAll_observed` : evaluations, step by step;
* `checking_only_observes` : the same calls, the same expressions.
-/

namespace PowerTower

/-- Other numbers for circuits and other settings, and the markings as they are. -/
def Renaming.observer (f : CircuitId → CircuitId) (hf : Function.Injective f) (config : Config) : Renaming where
  circuit := f
  injective := hf
  marking i := i
  source j := j
  increasing := strictMono_id
  marking_source _ := rfl
  config _ := config

/-- The other circuit numbers its markings the same way and does not check itself. -/
structure Renaming.Observes (r : Renaming) : Prop where
  number : ∀ j, r.source j = j
  unchecked : ∀ k, (r.config k).checkInvariants = false

theorem Renaming.observes_observer {f : CircuitId → CircuitId} {hf : Function.Injective f} {config : Config}
    (hconfig : config.checkInvariants = false) : (Renaming.observer f hf config).Observes :=
  ⟨fun _ => rfl, fun _ => hconfig⟩

theorem Renaming.Observes.marking {r : Renaming} (hr : r.Observes) (i : ℕ) : r.marking i = i := by
  have h := r.marking_source i
  rwa [hr.number] at h

/-- A refusal because a check found something. -/
def CircuitError.IsAlarm : CircuitError → Prop
  | .signOverflow _ | .cycleDetected _ | .invariantViolated _ => True
  | _ => False

namespace Circuit

variable {r : Renaming} {c d : Circuit}

/-! ## To be mirrored everywhere -/

theorem renamed_slotAt (i : ℕ) :
    (c.renamed r).slotAt i = { c.slotAt i with successors := r.terms (c.slotAt i).successors } := by
  unfold slotAt
  rw [renamed, Array.getElem?_map]
  exact Option.getD_map (fun s : Slot => { s with successors := r.terms s.successors }) {} _

theorem renamed_cellAt (j : ℕ) : (c.renamed r).cellAt j = r.cell (c.cellAt j) := by
  unfold Circuit.cellAt
  rw [renamed, Array.getElem?_map]
  exact Option.getD_map r.cell ⟨[], 0⟩ _

theorem slots_ext (hsize : d.slots.size = c.slots.size) (h : ∀ i, d.slotAt i = c.slotAt i) : d.slots = c.slots := by
  rw [← Array.toList_inj, slots_toList, slots_toList, hsize]
  exact List.map_congr_left fun i _ => h i

theorem cells_ext (hsize : d.cells.size = c.cells.size) (h : ∀ j, d.cellAt j = c.cellAt j) : d.cells = c.cells := by
  refine Array.ext hsize fun j hj hj' => ?_
  have hcell := h j
  rwa [Circuit.cellAt, Circuit.cellAt, Array.getElem?_eq_getElem hj, Array.getElem?_eq_getElem hj', Option.getD_some,
    Option.getD_some] at hcell

theorem Mirror.eq_renamed (hm : Mirror r Set.univ c d) (hr : ∀ j, r.source j = j) : d = c.renamed r := by
  have hslots : d.slots = (c.renamed r).slots := slots_ext (by rw [renamed, Array.size_map, hm.size]) fun i => by
    rw [(hm.slots i).eq trivial, renamed_slotAt]
  have hcells : d.cells = (c.renamed r).cells := by
    have hfresh := hm.fresh 0
    rw [hr] at hfresh
    refine cells_ext (by rwa [renamed, Array.size_map]) fun j => ?_
    rw [hm.cells, hr, renamed_cellAt]
  obtain ⟨id, config, slots, free, liveNodes, order, cells⟩ := d
  obtain rfl : id = r.circuit c.id := hm.id
  obtain rfl : config = r.config c.config := hm.config
  obtain rfl : free = c.free := hm.free
  obtain rfl : liveNodes = c.liveNodes := hm.liveNodes
  obtain rfl : order = c.order.map r.node := hm.order
  obtain rfl : slots = _ := hslots
  obtain rfl : cells = _ := hcells
  rfl

theorem renamed_empty (r : Renaming) (id : CircuitId) (config : Config) :
    (empty id config).renamed r = empty (r.circuit id) (r.config config) := by
  simp [renamed, empty]

theorem mirror_renamed (hr : r.Observes) : Mirror r Set.univ c (c.renamed r) where
  id := rfl
  config := rfl
  free := rfl
  liveNodes := rfl
  size := Array.size_map
  slots := fun i => by
    rw [renamed_slotAt]
    exact ⟨rfl, rfl, rfl, rfl, fun _ => rfl, fun _ _ _ => trivial, fun _ => trivial⟩
  order := rfl
  ranked := fun _ _ _ => trivial
  cells := fun j => by rw [hr.number, renamed_cellAt]
  mentioned := fun _ _ _ => trivial
  fresh := fun k => by rw [hr.number, renamed, Array.size_map]
  held := fun i _ => by rw [hr.number, hr.marking]

end Circuit

open Circuit

variable {r : Renaming} {c d : Circuit}

theorem Answer.Matches.eq_rename {a b : Answer} (h : a.Matches r Set.univ b) : b = a.rename r := by
  cases a with
  | copy c ms =>
    obtain ⟨T, d, hT, hd, rfl⟩ := h
    obtain rfl := Set.univ_subset_iff.1 hT
    rw [hd.eq_renamed fun _ => rfl]
    rfl
  | _ => exact h

theorem Matched.eq_answer {x y : Except CircuitError Answer} (h : Matched r Set.univ x y) :
    y = r.answer (Answer.rename r) x := by
  cases h with
  | answered h => exact congrArg Except.ok h.eq_rename
  | refused e => rfl

namespace Circuit

/-! ## What checks find -/

/-- What a well-formed circuit finds broken in itself after a reduction is an alarm. -/
theorem WellFormed.forgiving (h : c.WellFormed) (hr : r.Observes) {call : ReduceCall}
    (hheld : ∀ m ∈ call.handles, c.Held m) : Forgiving r CircuitError.IsAlarm (call.run.run c) := by
  refine .inr ⟨hr.unchecked, fun e d hrun hcheck => ?_⟩
  by_cases hacc : call.Accepted c
  · obtain ⟨frontier, hrun', hclosed, -⟩ := ReduceCall.run_of_accepted h.tied hheld hacc
    obtain ⟨sorted, d', -, hx, hrun''⟩ := h.sound.runReduce hclosed
    obtain rfl : d' = d := congrArg Prod.snd (hrun''.symm.trans (hrun'.symm.trans hrun))
    obtain ⟨v, rfl⟩ := hx.reduces.sound.toLinked.onlyViolated_check e hcheck
    trivial
  · obtain ⟨e', hrun', -⟩ := ReduceCall.run_of_not_accepted h.tied hheld hacc
    obtain rfl : c = d := congrArg Prod.snd (hrun'.symm.trans hrun)
    cases hcheck.symm.trans (check_eq_ok_iff_consistent.2 h.toConsistent)

/-- A circuit that checks itself stays well formed until it raises an alarm. -/
theorem WellFormed.reply (h : c.WellFormed) (hchecked : c.config.checkInvariants = true) {q : Request}
    (hheld : q.Held c)
    (hquiet : ∀ e, (q.reply.run c).1 = .error e → ¬ e.IsAlarm) :
    (q.reply.run c).2.WellFormed ∧ (q.reply.run c).2.config.checkInvariants = true := by
  cases q with
  | marking m => exact ⟨h, hchecked⟩
  | digest =>
    rw [Request.reply, run_answering]
    exact ⟨h, hchecked⟩
  | call op =>
    have hkeeps := op.keeps h hheld fun hbreaks => by
      obtain ⟨v, hv⟩ := Operation.finds_illegal h hchecked hheld ((op.breaks_iff_of_checked hchecked).1 hbreaks)
      exact hquiet _ ((op.reply_eq_error_iff c).2 hv) trivial
    rw [Request.reply, op.reply_snd]
    exact ⟨hkeeps.wellFormed, hkeeps.config ▸ hchecked⟩

/-- A conversation with a circuit that checks itself goes the same way with one that does not, as long as there is no
alarm. -/
theorem WellFormed.observed (h : c.WellFormed) (hchecked : c.config.checkInvariants = true) (hr : r.Observes)
    {qs : List Request} (hheld : Request.HeldAlong c qs) (hquiet : ∀ e, .error e ∈ (replies qs c).1 → ¬ e.IsAlarm) :
    replies (qs.map (Request.rename r)) (c.renamed r) =
      ((replies qs c).1.map (r.answer (Answer.rename r)), (replies qs c).2.renamed r) := by
  obtain ⟨⟨T, hT, hmirror⟩, hmatched⟩ := (mirror_renamed (c := c) hr).replies (E := CircuitError.IsAlarm)
    (I := fun c => c.WellFormed ∧ c.config.checkInvariants = true)
      (fun k => .inr ⟨hr.unchecked k, fun n => ⟨trivial, trivial⟩⟩)
    (fun c hc call hheld => hc.1.forgiving hr hheld) (fun c hc q hq hquiet => hc.1.reply hc.2 hq hquiet) ⟨h, hchecked⟩
    hheld hquiet
  obtain rfl := Set.univ_subset_iff.1 hT
  refine Prod.ext ?_ (hmirror.eq_renamed hr.number)
  have heq : List.Forall₂ (fun x y => r.answer (Answer.rename r) x = y) (replies qs c).1
      (replies (qs.map (Request.rename r)) (c.renamed r)).1 := hmatched.imp fun _ _ hxy => hxy.eq_answer.symm
  exact (List.forall₂_eq_eq_eq ▸ List.forall₂_map_left_iff.2 heq : _ = _).symm

end Circuit

/-! ## Evaluations -/

/-- A failure under other names. -/
def EvalError.rename (r : Renaming) : EvalError → EvalError
  | .circuit e => .circuit (r.error e)
  | .negativeExponent => .negativeExponent

/-- The result of an evaluation under other names. -/
def Renaming.result (r : Renaming) : Except EvalError Marking → Except EvalError Marking
  | .ok m => .ok (r.handle m)
  | .error e => .error (e.rename r)

/-- The circuit refused a call. -/
def EvalError.IsRefusal (e : EvalError) : Prop := ∃ refusal, e = .circuit refusal

section Evaluating

open Evaluation PowerTower.Expr

variable {S : Set ℕ} {α β : Type} {R : α → β → Prop}

/-- Evaluations come to the same in mirrored circuits, if no call is refused. -/
abbrev Parallel (r : Renaming) (S : Set ℕ) (R : α → β → Prop) : Except EvalError α × Circuit →
    Except EvalError β × Circuit → Prop := Outcome (EvalError.rename r) EvalError.IsRefusal r S fun _ => R

/-- A call with the same outcome is a step of both evaluations. -/
theorem Parallel.call {R : Set ℕ → α → β → Prop} {x : Call CircuitError α} {y : Call CircuitError β}
    (h : Outcome r.error (fun _ => True) r S R (x.run c) (y.run d)) :
    Outcome (EvalError.rename r) EvalError.IsRefusal r S R ((Evaluation.call x).run c) ((Evaluation.call y).run d) := by
  rw [Evaluation.call, Evaluation.call, Call.run_mapError, Call.run_mapError]
  generalize x.run c = p at h ⊢
  generalize y.run d = q at h ⊢
  cases h with
  | answered sub mirror answer => exact .answered sub mirror answer
  | refused sub mirror => exact .excused ⟨_, rfl⟩
  | excused _ => exact .excused ⟨_, rfl⟩

/-- A marking and its handle in the other circuit. -/
abbrev Twin (r : Renaming) (m k : Marking) : Prop := k = r.handle m

namespace Renaming.Observes

variable (hr : r.Observes)
include hr

theorem numbered (m : Marking) : Numbered r c m := fun _ => by rw [hr.number, hr.marking]

theorem lenient : r.Lenient fun _ => True := fun k => .inr ⟨hr.unchecked k, fun _ => ⟨trivial, trivial⟩⟩

theorem forgiving {x : Except CircuitError Unit × Circuit} : Forgiving r (fun _ => True) x :=
  .inr ⟨hr.unchecked, fun _ _ _ _ => trivial⟩

theorem holding {x : Evaluation α} {y : Evaluation β} (m : Marking) (h : Parallel r S R (x.run c) (y.run d)) :
    Parallel r S R ((holding m x).run c) ((holding (r.handle m) y).run d) := by
  have hm : r.source (r.marking m.id) = m.id := by rw [hr.number, hr.marking]
  generalize hp : x.run c = p at h
  generalize hq : y.run d = q at h
  cases h with
  | answered sub mirror answer =>
    rw [run_holding hp, run_holding hq]
    exact .answered sub (mirror.release hm) answer
  | refused sub mirror =>
    rw [run_holding hp, run_holding hq]
    exact .refused sub (mirror.release hm)
  | excused reason =>
    rw [run_holding hp]
    exact .excused reason

theorem handingOut {x y : Evaluation Unit} (m : Marking) (h : Parallel r S (fun _ _ => True) (x.run c) (y.run d)) :
    Parallel r S (Twin r) ((handingOut m x).run c) ((handingOut (r.handle m) y).run d) := by
  have hm : r.source (r.marking m.id) = m.id := by rw [hr.number, hr.marking]
  generalize hp : x.run c = p at h
  generalize hq : y.run d = q at h
  cases h with
  | answered sub mirror _ =>
    rw [run_handingOut hp, run_handingOut hq]
    exact .answered sub mirror rfl
  | refused sub mirror =>
    rw [run_handingOut_error hp, run_handingOut_error hq]
    exact .refused sub (mirror.release hm)
  | excused reason =>
    rw [run_handingOut_error hp]
    exact .excused reason

theorem combine (hm : Mirror r S c d) (a b : Marking) (op : AddOp) :
    Parallel r S (Twin r) ((combine a b op).run c) ((combine (r.handle a) (r.handle b) op).run d) := by
  cases op with
  | plus =>
    refine (Parallel.call (hm.cloneMarking (hr.numbered a))).bind fun T x _ c₁ d₁ _ hm₁ hx => ?_
    obtain rfl := hx
    refine hr.holding x ((Parallel.call (hm₁.cloneMarking (hr.numbered b))).bind fun U y _ c₂ d₂ _ hm₂ hy => ?_)
    obtain rfl := hy
    exact hr.holding y (Parallel.call (hm₂.add hr.lenient (hr.numbered x) (hr.numbered y)))
  | minus =>
    refine (Parallel.call (hm.cloneMarking (hr.numbered a))).bind fun T x _ c₁ d₁ _ hm₁ hx => ?_
    obtain rfl := hx
    refine hr.holding x ((Parallel.call (hm₁.cloneMarking (hr.numbered b))).bind fun U y _ c₂ d₂ _ hm₂ hy => ?_)
    obtain rfl := hy
    refine (hr.holding y (Parallel.call (hm₂.invert (hr.numbered y)))).bind fun V z _ c₃ d₃ _ hm₃ hz => ?_
    obtain rfl := hz
    exact hr.holding z (Parallel.call (hm₃.add hr.lenient (hr.numbered x) (hr.numbered z)))

theorem raiseUnit (hm : Mirror r S c d) (exponent : Marking) :
    Parallel r S (Twin r) ((raiseUnit exponent).run c) ((raiseUnit (r.handle exponent)).run d) := by
  refine (Parallel.call (hm.createMarking 1)).bind fun T unit _ c₁ d₁ _ hm₁ hunit => ?_
  obtain rfl := hunit
  refine hr.holding unit ((Parallel.call (hm₁.cloneMarking (hr.numbered unit))).bind fun U top _ c₂ d₂ _ hm₂ htop => ?_)
  obtain rfl := htop
  exact hr.handingOut top (Parallel.call (hm₂.connect hr.lenient (hr.numbered top) (hr.numbered exponent)))

theorem powerOf (hm : Mirror r S c d) (exponent : Marking) :
    Parallel r S (Twin r) ((powerOf exponent).run c) ((powerOf (r.handle exponent)).run d) := by
  refine (Parallel.call (hm.reduceCall (.markings [exponent]) (fun m _ => hr.numbered m) hr.forgiving)).bind
    fun T _ _ c₁ d₁ _ hm₁ _ => ?_
  refine (Parallel.call (hm₁.createMarking 0)).bind fun U zero _ c₂ d₂ _ hm₂ hzero => ?_
  obtain rfl := hzero
  have hcompare : Outcome r.error (fun _ => True) r U (fun _ o o' => o' = o)
      ((Call.ask fun c => c.compare exponent zero).run c₂)
      ((Call.ask fun d => d.compare (r.handle exponent) (r.handle zero)).run d₂) :=
    hm₂.outcome_ask (.inr (hm₂.compare (hr.numbered exponent) (hr.numbered zero)))
  refine hr.holding zero ((Parallel.call hcompare).bind fun V order _ c₃ d₃ _ hm₃ horder => ?_)
  obtain rfl := horder
  dsimp only
  split_ifs
  · exact .refused subset_rfl hm₃
  · exact hr.raiseUnit hm₃ exponent

end Renaming.Observes

mutual

/-- By induction on the expression. -/
theorem Renaming.Observes.build (hr : r.Observes) : ∀ (e : Expr) {S : Set ℕ} {c d : Circuit}, Mirror r S c d →
    Parallel r S (Twin r) ((build e).run c) ((build e).run d)
  | .int v, S, c, d, hm => by
    rw [Expr.build]
    exact Parallel.call (hm.createMarking v)
  | .neg e, S, c, d, hm => by
    rw [Expr.build]
    refine (Renaming.Observes.build hr e hm).bind fun T m _ c₁ d₁ _ hm₁ hmarking => ?_
    obtain rfl := hmarking
    exact hr.holding m (Parallel.call (hm₁.invert (hr.numbered m)))
  | .sum first rest, S, c, d, hm => by
    rw [Expr.build]
    refine (Renaming.Observes.build hr first hm).bind fun T total _ c₁ d₁ _ hm₁ hmarking => ?_
    obtain rfl := hmarking
    exact Renaming.Observes.buildSummands hr rest total hm₁
  | .power e, S, c, d, hm => by
    rw [Expr.build]
    refine (Renaming.Observes.build hr e hm).bind fun T exponent _ c₁ d₁ _ hm₁ hmarking => ?_
    obtain rfl := hmarking
    exact hr.holding exponent (hr.powerOf hm₁ exponent)

theorem Renaming.Observes.buildSummands (hr : r.Observes) : ∀ (rest : List (AddOp × Expr)) (total : Marking) {S : Set ℕ}
    {c d : Circuit}, Mirror r S c d →
    Parallel r S (Twin r) ((buildSummands rest total).run c) ((buildSummands rest (r.handle total)).run d)
  | [], total, S, c, d, hm => by
    rw [Expr.buildSummands, Expr.buildSummands]
    exact .answered subset_rfl hm rfl
  | (op, e) :: rest, total, S, c, d, hm => by
    rw [Expr.buildSummands, Expr.buildSummands]
    have hnext : Parallel r S (Twin r)
        ((Circuit.holding total (Expr.build e >>= fun term => Circuit.holding term (Expr.combine total term op))).run c)
        ((Circuit.holding (r.handle total)
          (Expr.build e >>= fun term => Circuit.holding term (Expr.combine (r.handle total) term op))).run d) := by
      refine hr.holding total ((Renaming.Observes.build hr e hm).bind fun T term _ c₁ d₁ _ hm₁ hterm => ?_)
      obtain rfl := hterm
      exact hr.holding term (hr.combine hm₁ total term op)
    refine hnext.bind fun T next _ c₁ d₁ _ hm₁ hmarking => ?_
    obtain rfl := hmarking
    exact Renaming.Observes.buildSummands hr rest next hm₁

end

theorem Renaming.Observes.evaluate (hr : r.Observes) (hm : Mirror r S c d) (e : Expr) :
    Parallel r S (Twin r) ((evaluate e).run c) ((evaluate e).run d) := by
  refine (hr.build e hm).bind fun T m _ c₁ d₁ _ hm₁ hmarking => ?_
  obtain rfl := hmarking
  exact hr.handingOut m (Parallel.call (hm₁.reduceCall .all (fun m _ => hr.numbered m) hr.forgiving))

/-- Where no call is refused, the results are the same under other names, and so are the circuits. -/
theorem Parallel.eq_renamed (hr : r.Observes) {x y : Except EvalError Marking × Circuit}
    (h : Parallel r Set.univ (Twin r) x y) (hx : ∀ e, x.1 ≠ .error (.circuit e)) :
    y = (r.result x.1, x.2.renamed r) := by
  cases h with
  | answered sub mirror answer =>
    obtain rfl := Set.univ_subset_iff.1 sub
    obtain rfl := answer
    exact Prod.ext rfl (mirror.eq_renamed hr.number)
  | refused sub mirror =>
    obtain rfl := Set.univ_subset_iff.1 sub
    exact Prod.ext rfl (mirror.eq_renamed hr.number)
  | excused reason =>
    obtain ⟨e, rfl⟩ := reason
    exact absurd rfl (hx e)

/-- An exact evaluation is never refused by the circuit. -/
theorem Expr.Evaluated.ne_circuit {e : Expr} {x : Except EvalError Marking} (h : Evaluated c e x d)
    (refusal : CircuitError) :
    x ≠ .error (.circuit refusal) := by
  cases hv : meaning e with
  | none =>
    rw [h.refused hv]
    simp
  | some v =>
    obtain ⟨m, rfl, -⟩ := h.answered v hv
    simp

theorem evaluateAll_cons (e : Expr) (es : List Expr) (c : Circuit) : evaluateAll (e :: es) c =
    (((evaluate e).run c).1 :: (evaluateAll es ((evaluate e).run c).2).1,
      (evaluateAll es ((evaluate e).run c).2).2) := rfl

/-- Expressions are evaluated the same way whether or not the circuit checks itself, and no call is refused. By
induction on the list. -/
theorem evaluateAll_observed (h : c.Integral) (hr : r.Observes) (es : List Expr) :
    (∀ x ∈ (evaluateAll es c).1, ∀ e, x ≠ .error (.circuit e)) ∧
      evaluateAll es (c.renamed r) = ((evaluateAll es c).1.map r.result, (evaluateAll es c).2.renamed r) := by
  induction es generalizing c with
  | nil => exact ⟨by simp [evaluateAll], rfl⟩
  | cons e es ih =>
    have he := evaluate_exact h e
    obtain ⟨hrest, hsame⟩ := ih he.toIntegral
    have hnow := (hr.evaluate (mirror_renamed (c := c) hr) e).eq_renamed hr he.ne_circuit
    refine ⟨?_, ?_⟩
    · intro x hx
      rcases List.mem_cons.1 hx with rfl | hx
      · exact he.ne_circuit
      · exact hrest x hx
    · rw [evaluateAll_cons, evaluateAll_cons, hnow, hsame]
      rfl

end Evaluating

/-- Checking only observes. A new circuit that checks itself and one that does not are asked the same things, each under
its own names. As long as the first finds nothing wrong, all answers are the same, and so are the circuits, but for the
settings. When expressions are evaluated it never finds anything wrong: the results, the failures and the circuits are
the same. -/
theorem checking_only_observes {f : CircuitId → CircuitId} (hf : Function.Injective f) (id : CircuitId)
    (config config' : Config)
    (hchecked : config.checkInvariants = true) (hunchecked : config'.checkInvariants = false) :
    let r := Renaming.observer f hf config'
    (∀ qs, Request.HeldAlong (empty id config) qs → (∀ e, .error e ∈ (replies qs (empty id config)).1 → ¬ e.IsAlarm) →
      replies (qs.map (Request.rename r)) (empty (f id) config') =
        ((replies qs (empty id config)).1.map (r.answer (Answer.rename r)),
          (replies qs (empty id config)).2.renamed r)) ∧
    ∀ es, (∀ x ∈ (Expr.evaluateAll es (empty id config)).1, ∀ e, x ≠ .error (.circuit e)) ∧
      Expr.evaluateAll es (empty (f id) config') =
        ((Expr.evaluateAll es (empty id config)).1.map r.result,
          (Expr.evaluateAll es (empty id config)).2.renamed r) := by
  intro r
  have hr : r.Observes := Renaming.observes_observer hunchecked
  have hempty : empty (f id) config' = (empty id config).renamed r := (renamed_empty r id config).symm
  rw [hempty]
  exact ⟨fun qs hheld hquiet => (wellFormed_empty id config).observed hchecked hr hheld hquiet,
    fun es => evaluateAll_observed (integral_empty id config) hr es⟩

/-- The number one is made and cloned, and cannot be compared with the clone, which is pending; and two to the third
power is evaluated. -/
theorem unchecked_clone_of_one : let f : CircuitId → CircuitId := fun i => ⟨i.number + 1⟩
    let qs : List Request := [.call (.createMarking 1), .call (.cloneMarking ⟨⟨0⟩, 0⟩),
      .call (.compare ⟨⟨0⟩, 0⟩ ⟨⟨0⟩, 1⟩)]
    ∃ hf : Function.Injective f, Config.checked.checkInvariants = true ∧ Config.unchecked.checkInvariants = false ∧
      Request.HeldAlong (empty ⟨0⟩ .checked) qs ∧
      (replies (qs.map (Request.rename (.observer f hf .unchecked))) (empty ⟨1⟩ .unchecked)).1 =
        [.ok (.marking ⟨⟨1⟩, 0⟩), .ok (.marking ⟨⟨1⟩, 1⟩), .error .notReduced] ∧
      (Expr.evaluateAll [.power (.int 3)] (empty ⟨1⟩ .unchecked)).1 =
        (Expr.evaluateAll [.power (.int 3)] (empty ⟨0⟩ .checked)).1.map (Renaming.observer f hf .unchecked).result := by
  intro f qs
  have hf : Function.Injective f := fun a b h => by
    obtain ⟨a⟩ := a
    obtain ⟨b⟩ := b
    exact congrArg CircuitId.mk (Nat.succ.inj (CircuitId.mk.inj h))
  have hanswers : (replies qs (empty ⟨0⟩ .checked)).1 =
      [.ok (.marking ⟨⟨0⟩, 0⟩), .ok (.marking ⟨⟨0⟩, 1⟩), .error .notReduced] := by cbv
  have hheld : Request.HeldAlong (empty ⟨0⟩ .checked) qs := by
    have hone : ((Request.call (.createMarking 1)).reply.run (empty ⟨0⟩ .checked)).2 = onlyUnit :=
      (Operation.reply_snd _ _).trans createMarking_one
    refine ⟨fun m hm => ?_, ?_⟩
    · cases hm
    rw [hone]
    refine ⟨fun m hm _ => ?_, fun m hm _ => ?_, trivial⟩
    · obtain rfl := List.mem_singleton.1 hm
      decide
    · rcases List.mem_pair.1 hm with rfl | rfl <;> decide
  obtain ⟨hcalls, hexpressions⟩ := checking_only_observes hf ⟨0⟩ .checked .unchecked rfl rfl
  refine ⟨hf, rfl, rfl, hheld, ?_, congrArg Prod.fst (hexpressions [.power (.int 3)]).2⟩
  refine (congrArg Prod.fst (hcalls qs hheld ?_)).trans ?_
  · intro e he
    rw [hanswers] at he
    simp only [List.mem_cons, reduceCtorEq, Except.error.injEq, List.not_mem_nil, or_false, false_or] at he
    rw [he]
    exact not_false
  · rw [hanswers]
    rfl

end PowerTower
