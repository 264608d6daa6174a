import Mathlib
import PowerTower.Circuit.Carry

/-!
# Room for doubles under construction

A double is made with any room that is enough for it, and it is the same double in the same circuit with all of them.
So one that is made with as much room as there are places is what `double?` answers.

* `absorbWith_of_none`, `absorbWith_of_settled`, `absorbWith_of_carry` : the three ways in which a chain of carries goes
  on;
* `doubleWithin_of_some`, `doubleWithin_of_none` : a double that is there, and one that is not;
* `doubleWithin_mono`, `doubleWithin_unique` : more room keeps the answer, and there is no other one;
* `double?_of_doubleWithin` : as much room as there are places is enough.
-/

namespace PowerTower.Circuit

variable {c : Circuit} {n next : Node} {ts : List Term} {s old : Sign} {room room' : ℕ}
  {double double' : Node → Circuit → Option (Node × Circuit)} {q q' : Node × Circuit}

/-! ## Chains of carries -/

theorem absorbWith_of_none (h : Terms.digit? n ts = none) : absorbWith double ts n s c = some (ts ++ [(n, s)], c) := by
  rw [absorbWith]
  split
  · rfl
  · next hd => cases h.symm.trans hd

theorem absorbWith_of_settled (h : Terms.digit? n ts = some old) (hc : (old.addWithCarry s).2 = .zero) :
    absorbWith double ts n s c = some (if (old.addWithCarry s).1 = .zero then Terms.erase n ts
      else Terms.set n (old.addWithCarry s).1 ts, c) := by
  rw [absorbWith]
  split
  · next hd => cases h.symm.trans hd
  · next hd =>
    obtain rfl := Option.some.inj (h.symm.trans hd)
    exact if_pos hc

theorem absorbWith_of_carry (h : Terms.digit? n ts = some old) (hc : (old.addWithCarry s).2 ≠ .zero) :
    absorbWith double ts n s c =
      (double n c).bind fun r => absorbWith double (Terms.erase n ts) r.1 (old.addWithCarry s).2 r.2 := by
  rw [absorbWith]
  split
  · next hd => cases h.symm.trans hd
  · next hd =>
    obtain rfl := Option.some.inj (h.symm.trans hd)
    show (if (old.addWithCarry s).2 = .zero then _ else _) = _
    rw [if_neg hc]
    cases double n c <;> rfl

/-- What is answered with some doubles is answered with more of them. By induction on the number of terms, of which each
carry takes one. -/
theorem absorbWith_mono (h : ∀ n c q, double n c = some q → double' n c = some q) {q : List Term × Circuit}
    (hq : absorbWith double ts n s c = some q) : absorbWith double' ts n s c = some q := by
  induction hlen : ts.length using Nat.strong_induction_on generalizing ts n s c with
  | _ l ih =>
    cases hd : Terms.digit? n ts with
    | none => rwa [absorbWith_of_none hd] at hq ⊢
    | some old =>
      by_cases hc : (old.addWithCarry s).2 = .zero
      · rwa [absorbWith_of_settled hd hc] at hq ⊢
      · rw [absorbWith_of_carry hd hc] at hq ⊢
        obtain ⟨r, hr, hrest⟩ := Option.bind_eq_some_iff.1 hq
        rw [h n c r hr, Option.bind_some]
        exact ih _ (hlen ▸ Terms.length_erase_lt hd) hrest rfl

/-! ## Doubles -/

theorem doubleWithin_of_some (h : c.knownDouble? n = some next) : doubleWithin room n c = some (next, c) := by
  cases room <;> simp [doubleWithin, h]

theorem doubleWithin_of_none (h : c.knownDouble? n = none) : doubleWithin (room + 1) n c =
    (absorbWith (doubleWithin room) (c.ensureUnit.2.successors n) c.ensureUnit.1 .plus c.ensureUnit.2).map fun r =>
      r.2.finishDouble n r.1 := by
  simp only [doubleWithin, h]
  cases absorbWith (doubleWithin room) (c.ensureUnit.2.successors n) c.ensureUnit.1 .plus c.ensureUnit.2 <;> rfl

theorem doubleWithin_succ (h : doubleWithin room n c = some q) : doubleWithin (room + 1) n c = some q := by
  induction room generalizing n c q with
  | zero =>
    obtain ⟨next, hknown, rfl⟩ := Option.map_eq_some_iff.1 h
    exact doubleWithin_of_some hknown
  | succ room ih =>
    cases hknown : c.knownDouble? n with
    | some next =>
      rw [doubleWithin_of_some hknown] at h ⊢
      exact h
    | none =>
      rw [doubleWithin_of_none hknown] at h ⊢
      obtain ⟨r, hr, rfl⟩ := Option.map_eq_some_iff.1 h
      rw [absorbWith_mono (fun n c q hq => ih hq) hr, Option.map_some]

/-- More room keeps the answer. -/
theorem doubleWithin_mono (hroom : room ≤ room') (h : doubleWithin room n c = some q) :
    doubleWithin room' n c = some q := by
  induction hroom with
  | refl => exact h
  | step _ ih => exact doubleWithin_succ ih

theorem doubleWithin_unique (h : doubleWithin room n c = some q) (h' : doubleWithin room' n c = some q') : q = q' := by
  have hmax : doubleWithin (max room room') n c = some q := doubleWithin_mono (le_max_left room room') h
  exact Option.some.inj (hmax.symm.trans (doubleWithin_mono (le_max_right room room') h'))

/-- There is room for as many doubles as there are places, and for more. -/
theorem double?_of_doubleWithin (hroom : room ≤ c.slots.size) (h : doubleWithin room n c = some q) :
    c.double? n = some q :=
  doubleWithin_mono (hroom.trans (Nat.le_add_left _ _)) h

theorem double?_of_some (h : c.knownDouble? n = some next) : c.double? n = some (next, c) := doubleWithin_of_some h

end PowerTower.Circuit
