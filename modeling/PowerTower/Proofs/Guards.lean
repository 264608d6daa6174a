import Mathlib
import PowerTower.Circuit.Call
import PowerTower.Circuit.Check

/-!
# Sequences of guards

A guard is accepted or refused. A sequence of guards is accepted if each of them is, and its refusal is that of the
first that is refused.

* `bind_eq_ok`, `forM_eq_ok`, … : when a sequence is accepted, and where a refusal comes from;
* `Harmless` : what is refused is refused for other reasons than a broken invariant.
-/

namespace PowerTower.Guards

variable {ε α β : Type}

theorem bind_eq_ok {x : Except ε α} {f : α → Except ε β} {b : β} :
    x >>= f = .ok b ↔ ∃ a, x = .ok a ∧ f a = .ok b := by
  cases x with
  | error e => simp [bind, Except.bind]
  | ok a => simp [bind, Except.bind]

theorem unit_bind_eq_ok {x : Except ε Unit} {f : Unit → Except ε β} {b : β} :
    x >>= f = .ok b ↔ x = .ok () ∧ f () = .ok b := by
  rw [bind_eq_ok]
  exact ⟨fun ⟨_, h⟩ => h, fun h => ⟨(), h⟩⟩

theorem bind_eq_error {x : Except ε α} {f : α → Except ε β} {e : ε} :
    x >>= f = .error e ↔ x = .error e ∨ ∃ a, x = .ok a ∧ f a = .error e := by
  cases x with
  | error e => simp [bind, Except.bind]
  | ok a => simp [bind, Except.bind]

theorem map_eq_ok {x : Except ε α} {f : α → β} {b : β} : x.map f = .ok b ↔ ∃ a, x = .ok a ∧ f a = b := by
  cases x with
  | error e => simp [Except.map]
  | ok a => simp [Except.map]

theorem map_eq_error {x : Except ε α} {f : α → β} {e : ε} : x.map f = .error e ↔ x = .error e := by
  cases x with
  | error e => simp [Except.map]
  | ok a => simp [Except.map]

theorem forM_eq_ok {f : α → Except ε Unit} {l : List α} : l.forM f = .ok () ↔ ∀ a ∈ l, f a = .ok () := by
  induction l with
  | nil => simp [List.forM, pure, Except.pure]
  | cons a l ih =>
    show (f a >>= fun _ => l.forM f) = .ok () ↔ _
    rw [unit_bind_eq_ok, List.forall_mem_cons, ih]

theorem exists_of_forM_eq_error {f : α → Except ε Unit} {l : List α} {e : ε} (h : l.forM f = .error e) :
    ∃ a ∈ l, f a = .error e := by
  induction l with
  | nil => simp [List.forM, pure, Except.pure] at h
  | cons a l ih =>
    rcases bind_eq_error.1 (show (f a >>= fun _ => l.forM f) = .error e from h) with h | ⟨_, -, h⟩
    · exact ⟨a, by simp, h⟩
    · obtain ⟨b, hb, he⟩ := ih h
      exact ⟨b, by simp [hb], he⟩

theorem exists_error {x : Except ε α} (h : ∀ a, x ≠ .ok a) : ∃ e, x = .error e := by
  cases x with
  | error e => exact ⟨e, rfl⟩
  | ok a => exact absurd rfl (h a)

/-! ## Calls that start with a question -/

theorem run_ask_ok {c : Circuit} {q : Circuit → Except ε α} {f : α → Call ε β} {a : α} (h : q c = .ok a) :
    (Call.ask q >>= f).run c = (f a).run c :=
  Call.run_bind_ok (by rw [Call.run_ask, h])

theorem run_ask_error {c : Circuit} {q : Circuit → Except ε α} {f : α → Call ε β} {e : ε} (h : q c = .error e) :
    (Call.ask q >>= f).run c = (.error e, c) :=
  Call.run_bind_error (by rw [Call.run_ask, h])

/-- What each call of a sequence keeps is kept by the sequence, which is refused only where one of them is. -/
theorem forM_induction {f : α → Call ε Unit} {P : Circuit → Prop} {Q : ε → Prop} {l : List α}
    (hstep : ∀ a ∈ l, ∀ c, P c → P ((f a).run c).2 ∧ ∀ e, ((f a).run c).1 = .error e → Q e) {c : Circuit} (hc : P c) :
    P ((l.forM f).run c).2 ∧ ∀ e, ((l.forM f).run c).1 = .error e → Q e := by
  induction l generalizing c with
  | nil => exact ⟨hc, fun _ he => nomatch he⟩
  | cons a l ih =>
    have hcons : (a :: l).forM f = f a >>= fun _ => l.forM f := rfl
    obtain ⟨hp, hq⟩ := hstep a (by simp) c hc
    rw [hcons]
    rcases hrun : (f a).run c with ⟨_ | _, d⟩
    · rw [hrun] at hp hq
      rw [Call.run_bind_error hrun]
      exact ⟨hp, hq⟩
    · rw [hrun] at hp
      rw [Call.run_bind_ok hrun]
      exact ih (fun b hb => hstep b (by simp [hb])) hp

/-! ## Refusals that report no broken invariant -/

/-- No broken invariant is reported. -/
def Harmless (x : Except CircuitError α) : Prop := ∀ v, x ≠ .error (.invariantViolated v)

theorem harmless_ok (a : α) : Harmless (.ok a) := fun _ => by simp

theorem harmless_error {e : CircuitError} (h : ∀ v, e ≠ .invariantViolated v) :
    Harmless (.error e : Except CircuitError α) := fun v hv => h v (Except.error.inj hv)

theorem Harmless.ne_of_error {x : Except CircuitError α} {e : CircuitError} (hx : Harmless x) (h : x = .error e)
    (v : Violation) : e ≠ .invariantViolated v := fun hv => hx v (by rw [h, hv])

theorem Harmless.bind {x : Except CircuitError α} {f : α → Except CircuitError β} (hx : Harmless x)
    (hf : ∀ a, x = .ok a → Harmless (f a)) : Harmless (x >>= f) := by
  intro v h
  rcases bind_eq_error.1 h with h | ⟨a, ha, h⟩
  · exact hx v h
  · exact hf a ha v h

theorem Harmless.forM {f : α → Except CircuitError Unit} {l : List α} (hf : ∀ a ∈ l, Harmless (f a)) :
    Harmless (l.forM f) := by
  intro v h
  obtain ⟨a, ha, he⟩ := exists_of_forM_eq_error h
  exact hf a ha v he

theorem Harmless.mapM {f : α → Except CircuitError β} {l : List α} (hf : ∀ a ∈ l, Harmless (f a)) :
    Harmless (l.mapM f) := by
  induction l with
  | nil => exact harmless_ok _
  | cons a l ih =>
    rw [List.mapM_cons]
    exact (hf a (by simp)).bind fun _ _ => (ih fun b hb => hf b (by simp [hb])).bind fun _ _ => harmless_ok _

theorem harmless_checkNode {c : Circuit} {n : Node} : Harmless (c.checkNode n) := by
  intro v
  unfold Circuit.checkNode
  split_ifs <;> simp

theorem harmless_checkMarking {c : Circuit} {m : Marking} : Harmless (c.checkMarking m) := by
  intro v
  unfold Circuit.checkMarking
  split_ifs <;> simp

end PowerTower.Guards
