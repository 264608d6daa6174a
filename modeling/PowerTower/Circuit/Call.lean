import PowerTower.Circuit.Basic

/-!
# Calls on a circuit

A call answers or is refused, and may change the circuit either way: the circuit is there after a refusal too.
Calls are put together in `do` blocks; after a refusal nothing more of the block is done.

* `ask` : a question, `change` : a change that is never refused;
* `run_bind`, `run_ask`, … : what the parts of a block do to a circuit.
-/

namespace PowerTower

/-- Calls on a circuit that answer with an `α` or are refused with an `ε`. -/
def Call (ε α : Type) : Type := Circuit → Except ε α × Circuit

namespace Call

variable {ε α β : Type}

/-- The answer to a call, and the circuit after it. -/
def run (x : Call ε α) (c : Circuit) : Except ε α × Circuit := x c

/-- The answer without a change. -/
def answer (a : α) : Call ε α := fun c => (.ok a, c)

/-- The refusal without a change. -/
def refuse (e : ε) : Call ε α := fun c => (.error e, c)

/-- One call and then, if it was answered, another. -/
def andThen (x : Call ε α) (f : α → Call ε β) : Call ε β := fun c =>
  match x c with
  | (.ok a, c) => f a c
  | (.error e, c) => (.error e, c)

/-- One call and then, if it was refused, another. -/
def orElse (x : Call ε α) (f : ε → Call ε α) : Call ε α := fun c =>
  match x c with
  | (.ok a, c) => (.ok a, c)
  | (.error e, c) => f e c

instance : Monad (Call ε) where
  pure := answer
  bind := andThen

instance : MonadExceptOf ε (Call ε) where
  throw := refuse
  tryCatch := orElse

/-- A question to the circuit. -/
def ask (q : Circuit → Except ε α) : Call ε α := fun c => (q c, c)

/-- A question that is always answered. -/
def read (q : Circuit → α) : Call ε α := fun c => (.ok (q c), c)

/-- A change of the circuit. -/
def change (f : Circuit → α × Circuit) : Call ε α := fun c => let (a, c) := f c; (.ok a, c)

/-- The same call with other refusals. -/
def mapError {δ : Type} (f : ε → δ) (x : Call ε α) : Call δ α := fun c =>
  match x c with
  | (.ok a, c) => (.ok a, c)
  | (.error e, c) => (.error (f e), c)

/-! ## What the parts of a block do -/

theorem run_pure (a : α) (c : Circuit) : (pure a : Call ε α).run c = (.ok a, c) := rfl

theorem run_throw (e : ε) (c : Circuit) : (throw e : Call ε α).run c = (.error e, c) := rfl

theorem run_bind (x : Call ε α) (f : α → Call ε β) (c : Circuit) :
    (x >>= f).run c = match x.run c with
      | (.ok a, c) => (f a).run c
      | (.error e, c) => (.error e, c) := rfl

theorem run_ask (q : Circuit → Except ε α) (c : Circuit) : (ask q).run c = (q c, c) := rfl

theorem run_read (q : Circuit → α) (c : Circuit) : (read q : Call ε α).run c = (.ok (q c), c) := rfl

theorem run_mapError {δ : Type} (f : ε → δ) (x : Call ε α) (c : Circuit) :
    (x.mapError f).run c = ((x.run c).1.mapError f, (x.run c).2) := by
  simp only [mapError, run]
  rcases x c with ⟨a | e, d⟩ <;> rfl

/-- A block goes on only after an answer. -/
theorem run_bind_ok {x : Call ε α} {f : α → Call ε β} {a : α} {c d : Circuit} (h : x.run c = (.ok a, d)) :
    (x >>= f).run c = (f a).run d := by
  rw [run_bind, h]

theorem run_bind_error {x : Call ε α} {f : α → Call ε β} {e : ε} {c d : Circuit} (h : x.run c = (.error e, d)) :
    (x >>= f).run c = (.error e, d) := by
  rw [run_bind, h]

end Call

end PowerTower
