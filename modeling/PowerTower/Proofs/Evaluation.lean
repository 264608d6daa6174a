import Mathlib
import PowerTower.Expr.Eval
import PowerTower.Proofs.Integral

/-!
# Evaluating expressions

* `Expr.meaning` : the integer that an expression stands for, if no power in it has a negative exponent;
* `Makes` : an evaluation ends with a new marking of that integer, or is refused for the exponent, and keeps all other
  markings either way;
* `build_makes` : so does the evaluation of every expression, by induction on the expression;
* `Evaluated`, `evaluations_are_exact` : expressions evaluated one after another.
-/

namespace PowerTower

open Circuit

/-- The sum or the difference of two integers. -/
def AddOp.apply : AddOp → ℤ → ℤ → ℤ
  | plus, v, w => v + w
  | minus, v, w => v - w

namespace Expr

mutual

/-- The integer that an expression stands for. Two to a negative power is none. -/
def meaning : Expr → Option ℤ
  | .int v => some v
  | .neg e => (meaning e).map fun v => -v
  | .sum first rest => (meaning first).bind fun v => meaningOfSummands rest v
  | .power e => (meaning e).bind fun v => if 0 ≤ v then some (2 ^ v.toNat) else none

/-- The integer that a total and further summands stand for. -/
def meaningOfSummands : List (AddOp × Expr) → ℤ → Option ℤ
  | [], total => some total
  | (op, e) :: rest, total => ((meaning e).map fun v => op.apply total v).bind fun next => meaningOfSummands rest next

end

variable {b c d : Circuit} {k m : Marking} {u v : ℤ} {w : Option ℤ} {x : Evaluation Marking}

/-- Compared to the circuit `b`, the evaluation makes a new marking of an integer, or is refused for a negative exponent
where there is none, and keeps all other markings. -/
inductive Makes (b c : Circuit) (x : Evaluation Marking) : Option ℤ → Prop
  | answered {m : Marking} {v : ℤ} {d : Circuit} (run : x.run c = (.ok m, d)) (made : b.Made d m v) :
    Makes b c x (some v)
  | refused {d : Circuit} (run : x.run c = (.error .negativeExponent, d)) (kept : b.Kept d) : Makes b c x none

/-! ## The parts of an evaluation -/

theorem run_call {α : Type} {y : Call CircuitError α} {a : α} (h : y.run c = (.ok a, d)) :
    (Evaluation.call y).run c = (.ok a, d) := by
  rw [Evaluation.call, Call.run_mapError, h]
  rfl

theorem run_holding {ε α : Type} {y : Call ε α} {r : Except ε α} (h : y.run c = (r, d)) :
    (holding m y).run c = (r, d.release m) := by
  simp only [Call.run, Circuit.holding] at h ⊢
  rw [h]

theorem run_handingOut {ε : Type} {y : Call ε Unit} (h : y.run c = (.ok (), d)) :
    (handingOut m y).run c = (.ok m, d) := by
  simp only [Call.run, handingOut] at h ⊢
  rw [h]

theorem run_handingOut_error {ε : Type} {y : Call ε Unit} {e : ε} (h : y.run c = (.error e, d)) :
    (handingOut m y).run c = (.error e, d.release m) := by
  simp only [Call.run, handingOut] at h ⊢
  rw [h]

theorem Makes.of_call {y : Call CircuitError Marking} (h : y.run c = (.ok m, d)) (hm : b.Made d m v) :
    Makes b c (Evaluation.call y) (some v) := .answered (run_call h) hm

theorem Makes.bind_ok {α : Type} {y : Evaluation α} {f : α → Evaluation Marking} {a : α} (h : y.run c = (.ok a, d))
    (hf : Makes b d (f a) w) : Makes b c (y >>= f) w := by
  cases hf with
  | answered hrun hm => exact .answered ((Call.run_bind_ok h).trans hrun) hm
  | refused hrun hk => exact .refused ((Call.run_bind_ok h).trans hrun) hk

theorem Makes.bind {f : Marking → Evaluation Marking} {g : ℤ → Option ℤ} (hx : Makes b c x w)
    (hf : ∀ d k u, b.Made d k u → Makes b d (f k) (g u)) : Makes b c (x >>= f) (w.bind g) := by
  cases hx with
  | answered hrun hm => exact .bind_ok hrun (hf _ _ _ hm)
  | refused hrun hk => exact .refused (Call.run_bind_error hrun) hk

/-- A new marking is held while another one is made, and then its handle is returned. -/
theorem Makes.holding (hk : b.Made c k u) (hx : Makes c c x w) : Makes b c (holding k x) w := by
  cases hx with
  | answered hrun hm =>
    exact .answered (run_holding hrun)
      ((hk.toKept.made hm).release hk.new fun heq => hm.new (heq ▸ hk.counts.held))
  | refused hrun hkept => exact .refused (run_holding hrun) ((hk.toKept.trans hkept).release hk.new)

/-! ## Sums -/

/-- The opposite of a clone: its nodes are new, and the clone itself is returned. -/
theorem exists_opposite (h : c.Integral) (hm : c.Counts m v) : ∃ y k d e, (cloneMarking m).run c = (.ok y, d) ∧
    (Circuit.holding y (Evaluation.call (invert y))).run d = (.ok k, e) ∧ c.Made e k (-v) ∧ c.Untouched e ∧
      ∀ n ∈ e.nodesOf k, ¬ c.Live n := by
  obtain ⟨y, d, hclone, hcloned, hmade⟩ := h.cloneMarking hm
  obtain ⟨k, e, hinvert, hmade', hu, hnodes⟩ := hmade.toIntegral.invert hmade.counts
  have hne : k.id ≠ y.id := fun heq => hmade'.new (heq ▸ hmade.counts.held)
  refine ⟨y, k, d, e.release y, hclone, run_holding (run_call hinvert),
    (hmade.toKept.made hmade').release hmade.new hne, (hcloned.untouched.trans hu).release hmade.new, fun n hn => ?_⟩
  have hnodes' : (e.release y).nodesOf k = e.nodesOf k := by
    rw [nodesOf, termsOf, release_cellAt_of_ne hne]
    rfl
  rw [hnodes', hnodes] at hn
  exact hcloned.not_live hn

/-- A marking and one of new nodes are added. -/
theorem add_makes (h : c.Integral) (hk : c.Counts k u) (hm : c.Made d m v) (hu : c.Untouched d)
    (hnew : ∀ n ∈ d.nodesOf m, ¬ c.Live n) : Makes d d (Evaluation.call (add k m)) (some (u + v)) := by
  have hdisjoint : ∀ n ∈ d.nodesOf m, n ∉ d.nodesOf k := fun n hn hn' => by
    rw [nodesOf, hu.termsOf_eq hk.held] at hn'
    exact hnew n hn ((h.markings k.id hk.held).live n hn')
  obtain ⟨p, e, hadd, hp⟩ := hm.toIntegral.add (hm.toKept.counts hk) hm.counts hdisjoint
  exact .of_call hadd hp

theorem combine_makes (h : c.Integral) (hk : c.Counts k u) (hm : c.Counts m v) (op : AddOp) :
    Makes c c (combine k m op) (some (op.apply u v)) := by
  obtain ⟨x, d, hclone, hcloned, hx⟩ := h.cloneMarking hk
  have hm' : d.Counts m v := hx.toKept.counts hm
  cases op with
  | plus =>
    obtain ⟨y, e, hclone', hcloned', hy⟩ := hx.toIntegral.cloneMarking hm'
    have hsum := add_makes hx.toIntegral hx.counts hy hcloned'.untouched fun n hn => hcloned'.not_live hn
    exact .bind_ok (run_call hclone) (.holding hx (.bind_ok (run_call hclone') (.holding hy hsum)))
  | minus =>
    obtain ⟨y, z, e, f, hclone', hinvert, hz, hu, hnew⟩ := exists_opposite hx.toIntegral hm'
    have hsum := add_makes hx.toIntegral hx.counts hz hu hnew
    rw [← Int.sub_eq_add_neg] at hsum
    exact .bind_ok (run_call hclone) (.holding hx (.bind_ok (run_call hclone') (.bind_ok hinvert (.holding hz hsum))))

/-! ## Powers -/

theorem raiseUnit_makes (h : c.Integral) (hm : c.Counts m v) (hv : 0 ≤ v) :
    Makes c c (raiseUnit m) (some (2 ^ v.toNat)) := by
  obtain ⟨unit, d, hcreate, hunit, hnil⟩ := h.createOne
  obtain ⟨top, e, f, hclone, hconnect, htop⟩ := hunit.toIntegral.raise hunit.counts hnil (hunit.toKept.counts hm) hv
  exact .bind_ok (run_call hcreate) (.holding hunit (.bind_ok (run_call hclone)
    (.answered (run_handingOut (run_call hconnect)) htop)))

/-- The exponent is reduced, so that its sign can be told. -/
theorem powerOf_makes (h : c.Integral) (hm : c.Counts m v) :
    Makes c c (powerOf m) (if 0 ≤ v then some (2 ^ v.toNat) else none) := by
  obtain ⟨d, hreduce, hkept, -, hmarks⟩ := h.reduce (.markings [m])
    (fun k hk _ => List.mem_singleton.1 hk ▸ hm.held) fun k hk => List.mem_singleton.1 hk ▸ hm.own
  have hm' : d.Marks m v := hmarks m v hm fun n hn hp => ⟨hp, m, by simp, n, hn, .refl⟩
  obtain ⟨zero, e, hcreate, hzero, hzero'⟩ := hkept.toIntegral.createMarking 0
  have hm'' : e.Marks m v := hzero.toKept.marks hm'
  have hcompare : (Evaluation.call (Call.ask fun c => c.compare m zero)).run e = (.ok (compare v 0), e) :=
    run_call (by rw [Call.run_ask, hzero.toWellFormed.compare_of_marks hm'' hzero'])
  refine .bind_ok (run_call hreduce) (.bind_ok (run_call hcreate) (.holding (hkept.made hzero) (.bind_ok hcompare ?_)))
  by_cases hv : 0 ≤ v
  · rw [if_pos hv, if_neg (by rwa [compare_lt_iff_lt, not_lt])]
    exact raiseUnit_makes hzero.toIntegral hm''.counts hv
  · rw [if_neg hv, if_pos (by rwa [compare_lt_iff_lt, ← not_le])]
    exact .refused (Call.run_throw _ _) (.refl hzero.toIntegral)

/-! ## All expressions -/

mutual

/-- By induction on the expression: the parts are evaluated first, and their markings are kept from then on. -/
theorem build_makes : ∀ (e : Expr) {c : Circuit}, c.Integral → Makes c c (build e) (meaning e)
  | .int v, c, h => by
    obtain ⟨m, d, hcreate, hm, -⟩ := h.createMarking v
    rw [build, meaning]
    exact .of_call hcreate hm
  | .neg e, c, h => by
    rw [build, meaning, Option.map_eq_bind]
    refine (build_makes e h).bind fun d k u hk => .holding hk ?_
    obtain ⟨m, f, hinvert, hm, -⟩ := hk.toIntegral.invert hk.counts
    exact .of_call hinvert hm
  | .sum first rest, c, h => by
    rw [build, meaning]
    exact (build_makes first h).bind fun d k u hk => buildSummands_makes rest hk
  | .power e, c, h => by
    rw [build, meaning]
    exact (build_makes e h).bind fun d k u hk => .holding hk (powerOf_makes hk.toIntegral hk.counts)

theorem buildSummands_makes : ∀ (rest : List (AddOp × Expr)) {b c : Circuit} {total : Marking} {t : ℤ},
    b.Made c total t → Makes b c (buildSummands rest total) (meaningOfSummands rest t)
  | [], b, c, total, t, h => by
    rw [buildSummands, meaningOfSummands]
    exact .answered (Call.run_pure _ _) h
  | (op, e) :: rest, b, c, total, t, h => by
    rw [buildSummands, meaningOfSummands, Option.map_eq_bind]
    have hnext : Makes c c (build e >>= fun term => Circuit.holding term (combine total term op))
        ((meaning e).bind fun v => some (op.apply t v)) :=
      (build_makes e h.toIntegral).bind fun d term s hterm =>
        .holding hterm (combine_makes hterm.toIntegral (hterm.toKept.counts h.counts) hterm.counts op)
    exact (Makes.holding h hnext).bind fun d next u hm => buildSummands_makes rest hm

end

/-- What evaluating an expression comes to: a reduced marking of its integer, with all nodes reduced, or a refusal where
there is no integer. All markings are kept. -/
structure Evaluated (c : Circuit) (e : Expr) (r : Except EvalError Marking) (d : Circuit) : Prop extends Kept c d where
  answered : ∀ v, meaning e = some v →
    ∃ m, r = .ok m ∧ ¬ 0 < (c.cellAt m.id).handles ∧ d.Marks m v ∧ ∀ n, d.Live n → d.Reduced n
  refused : meaning e = none → r = .error .negativeExponent

theorem evaluate_exact (h : c.Integral) (e : Expr) :
    Evaluated c e ((evaluate e).run c).1 ((evaluate e).run c).2 := by
  have hbuild := build_makes e h
  cases hv : meaning e with
  | none =>
    rw [hv] at hbuild
    cases hbuild with
    | refused hrun hk =>
      rw [evaluate, Call.run_bind_error hrun]
      exact ⟨hk, fun v hv' => by simp [hv] at hv', fun _ => rfl⟩
  | some v =>
    rw [hv] at hbuild
    cases hbuild with
    | @answered m _ d hrun hm =>
      obtain ⟨f, hreduce, hk, hpending, hmarks⟩ := hm.toIntegral.reduce .all (by simp [ReduceCall.handles]) trivial
      have hall : reduce.run d = (.ok (), f) := hreduce
      rw [evaluate, Call.run_bind_ok hrun, run_handingOut (run_call hall)]
      refine ⟨hm.toKept.trans hk, fun w hw => ?_, fun hnone => by simp [hv] at hnone⟩
      obtain rfl : v = w := Option.some.inj (hv.symm.trans hw)
      refine ⟨m, rfl, hm.new, hmarks m v hm.counts fun n _ hp => hp, fun n hn => ?_⟩
      exact (reduced_or_pending hn).resolve_right fun hp => (hpending n hp).2 (hpending n hp).1

/-! ## One expression after another -/

/-- Evaluates expressions one after another. All results are kept. -/
def evaluateAll : List Expr → Circuit → List (Except EvalError Marking) × Circuit
  | [], c => ([], c)
  | e :: es, c =>
    let (r, c) := (evaluate e).run c
    let (rs, c) := evaluateAll es c
    (r :: rs, c)

/-- The answer is a reduced marking of the integer of the expression, or a refusal where there is no integer. -/
structure Answers (c : Circuit) (e : Expr) (r : Except EvalError Marking) : Prop where
  answered : ∀ v, meaning e = some v → ∃ m, r = .ok m ∧ c.Marks m v
  refused : meaning e = none → r = .error .negativeExponent

variable {e : Expr} {es : List Expr} {r : Except EvalError Marking}

theorem Evaluated.answers (h : Evaluated c e r d) : Answers d e r where
  answered := fun v hv =>
    let ⟨m, hr, _, hm, _⟩ := h.answered v hv
    ⟨m, hr, hm⟩
  refused := h.refused

theorem Answers.kept (h : Answers c e r) (hk : c.Kept d) : Answers d e r where
  answered := fun v hv =>
    let ⟨m, hr, hm⟩ := h.answered v hv
    ⟨m, hr, hk.marks hm⟩
  refused := h.refused

theorem Answers.marks (h : Answers c e (.ok m)) : ∃ v, meaning e = some v ∧ c.Marks m v := by
  cases hv : meaning e with
  | none => cases h.refused hv
  | some v =>
    obtain ⟨k, hk, hm⟩ := h.answered v hv
    cases hk
    exact ⟨v, rfl, hm⟩

/-- All results are right at the end, since later evaluations keep them. -/
theorem evaluateAll_answers (h : c.Integral) (es : List Expr) :
    c.Kept (evaluateAll es c).2 ∧ List.Forall₂ (Answers (evaluateAll es c).2) es (evaluateAll es c).1 := by
  induction es generalizing c with
  | nil => exact ⟨.refl h, .nil⟩
  | cons e es ih =>
    have he := evaluate_exact h e
    obtain ⟨hk, hrest⟩ := ih he.toIntegral
    exact ⟨he.toKept.trans hk, .cons (he.answers.kept hk) hrest⟩

/-- In a well-formed circuit of legal nodes any expressions are evaluated, one after another. The next one is evaluated
exactly, whether or not some before were refused; the results so far are kept, and are compared like the integers. -/
theorem evaluations_are_exact (h : c.Integral) (es : List Expr) : ∃ rs d, evaluateAll es c = (rs, d) ∧ c.Kept d ∧
    (∀ e, Evaluated d e ((evaluate e).run d).1 ((evaluate e).run d).2) ∧ List.Forall₂ (Answers d) es rs ∧
    ∀ e f a b, (e, .ok a) ∈ es.zip rs → (f, .ok b) ∈ es.zip rs →
      ∃ v w, meaning e = some v ∧ meaning f = some w ∧ d.compare a b = .ok (compare v w) := by
  obtain ⟨hk, hrs⟩ := evaluateAll_answers h es
  refine ⟨_, _, rfl, hk, evaluate_exact hk.toIntegral, hrs, fun e f a b he hf => ?_⟩
  obtain ⟨v, hv, ha⟩ := (List.forall₂_zip hrs he).marks
  obtain ⟨w, hw, hb⟩ := (List.forall₂_zip hrs hf).marks
  exact ⟨v, w, hv, hw, hk.toWellFormed.compare_of_marks ha hb⟩

/-- Two to the seventieth, two to the power of minus one, and two to the seventieth less one, in a new circuit. -/
theorem evaluations_of_powers : (empty ⟨0⟩).Integral ∧
    ∃ a b d, evaluateAll [.power (.int 70), .power (.neg (.int 1)), .sum (.power (.int 70)) [(.minus, .int 1)]]
      (empty ⟨0⟩) = ([.ok a, .error .negativeExponent, .ok b], d) ∧ d.compare a b = .ok .gt := by
  have h := integral_empty ⟨0⟩ {}
  have hfirst : meaning (.power (.int 70)) = some (2 ^ 70) := rfl
  have hsecond : meaning (.power (.neg (.int 1))) = none := rfl
  have hthird : meaning (.sum (.power (.int 70)) [(.minus, .int 1)]) = some (2 ^ 70 - 1) := rfl
  obtain ⟨rs, d, hrun, -, -, hanswers, hcompare⟩ := evaluations_are_exact h
    [.power (.int 70), .power (.neg (.int 1)), .sum (.power (.int 70)) [(.minus, .int 1)]]
  obtain _ | ⟨hr, _ | ⟨hs, _ | ⟨ht, ⟨⟩⟩⟩⟩ := hanswers
  obtain ⟨a, rfl, -⟩ := hr.answered _ hfirst
  obtain rfl := hs.refused hsecond
  obtain ⟨b, rfl, -⟩ := ht.answered _ hthird
  refine ⟨h, a, b, d, hrun, ?_⟩
  obtain ⟨v, w, hv, hw, hd⟩ := hcompare (.power (.int 70)) (.sum (.power (.int 70)) [(.minus, .int 1)]) a b
    (by simp) (by simp)
  rw [hd, ← Option.some.inj (hfirst.symm.trans hv), ← Option.some.inj (hthird.symm.trans hw)]
  rfl

end Expr

end PowerTower
