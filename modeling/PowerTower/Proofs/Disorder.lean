import Mathlib
import PowerTower.Proofs.Doubling
import PowerTower.Proofs.Standing

/-!
# Carries out of order

Nothing keeps a node with a negative exponent from entering the reduced order, and there it has no place. From then on
carries come upon an order that is not one of worth, and upon flags that are not true, so that what they take for a
double can be any node. The worths are no measure of what is left to do. What is left is this: each carry takes an entry
out of a term list that was there before, and a double that is missing is missing for a node that this list mentions.

* `Used`, `Retains`, `stepwise_retains` : places in use keep their nodes, whatever carries do;
* `Disordered` : live exponents without a cycle, in whatever order;
* `Disordered.exists_doubleWithin` : a double with as much room as the node is deep;
* `Disordered.absorbWith_eq` : and an end to each chain of carries;
* `Descent`, `LongestDescent` : the walks down from a node, and the longest of them.
-/

namespace PowerTower.Circuit

variable {c d e : Circuit} {m n : Node} {ts : List Term} {s : Sign} {i k : ℕ}

/-! ## Places in use -/

/-- A place of the store that is not free. -/
structure Used (c : Circuit) (i : ℕ) : Prop where
  lt_size : i < c.slots.size
  kept : i ∉ c.free

/-- Places in use stay in use, with the same nodes. -/
structure Retains (c d : Circuit) : Prop where
  id : d.id = c.id
  size : c.slots.size ≤ d.slots.size
  used : ∀ i, c.Used i → d.Used i
  core : ∀ i, c.Used i → (d.slotAt i).core = (c.slotAt i).core

theorem Retains.refl (c : Circuit) : Retains c c := ⟨rfl, le_rfl, fun _ h => h, fun _ _ => rfl⟩

theorem Retains.trans (h : Retains c d) (h' : Retains d e) : Retains c e where
  id := h'.id.trans h.id
  size := h.size.trans h'.size
  used := fun i hi => h'.used i (h.used i hi)
  core := fun i hi => (h'.core i (h.used i hi)).trans (h.core i hi)

theorem Used.ne_freshIndex (h : c.Used i) : i ≠ c.freshIndex := by
  cases hfree : c.free with
  | nil =>
    rw [freshIndex_nil hfree]
    exact h.lt_size.ne
  | cons j free =>
    rw [freshIndex_cons hfree]
    rintro rfl
    exact h.kept (by simp [hfree])

theorem size_le_alloc : c.slots.size ≤ (c.alloc ts).2.slots.size := by
  cases hfree : c.free with
  | nil =>
    rw [alloc_of_nil hfree, Array.size_push]
    exact Nat.le_succ _
  | cons j free => simp [alloc_of_cons hfree, modifySlot]

theorem retains_alloc (c : Circuit) (ts : List Term) : Retains c (c.alloc ts).2 where
  id := alloc_id
  size := size_le_alloc
  used := fun i hi => by
    refine ⟨hi.lt_size.trans_le size_le_alloc, fun hmem => ?_⟩
    rw [alloc_free] at hmem
    exact hi.kept (List.mem_of_mem_tail hmem)
  core := fun i hi => by rw [alloc_slotAt_of_ne hi.ne_freshIndex]

theorem SameNodes.retains (h : c.SameNodes d) : Retains c d where
  id := h.id
  size := h.size.ge
  used := fun i hi => ⟨by rw [h.size]; exact hi.lt_size, by rw [h.free]; exact hi.kept⟩
  core := fun i _ => by rw [Slot.core, Slot.core, h.live, h.generation, h.successors]

theorem retains_withCells (c : Circuit) (cells : Array Cell) : Retains c (c.withCells cells) :=
  ⟨rfl, le_rfl, fun _ hi => ⟨hi.lt_size, hi.kept⟩, fun _ _ => rfl⟩

/-- New nodes come to places that are not in use, and nothing else is written but ranks and flags. -/
theorem stepwise_retains : Stepwise Retains where
  refl := .refl
  trans := .trans
  alloc := retains_alloc
  place := fun _ _ _ => place_sameNodes.retains
  setDoubles := fun _ n b => (setDoubles_sameRanks n b).retains
  newMarking := fun c _ => retains_withCells c _
  modifyCell := fun c _ _ _ => retains_withCells c _

/-! ## Circuits out of order -/

/-- Exponents mention live nodes and lead back to none, and the free places hold no node that a new one would
overwrite. The order, the ranks and the flags may be anything. The free places have to be asked for. A place that was
freed twice is handed out twice, the second time while it has a live node, and what the new node mentions may then lead
back to it. -/
structure Disordered (c : Circuit) : Prop where
  live_of_below : ∀ n, c.Live n → ∀ m, c.Below m n → c.Live m
  acyclic : c.Acyclic
  unused : ∀ i ∈ c.free, (c.slotAt i).live = false

/-- Whatever order a sound circuit has its reduced nodes in, it is one of these. -/
theorem Sound.disordered (h : c.Sound) : c.Disordered :=
  ⟨fun _ hn _ hm => h.live_of_below hn hm, h.acyclic, fun i hi => ((h.mem_free i).1 hi).2⟩

theorem Disordered.used (h : c.Disordered) (hn : c.Live n) : c.Used n.index := by
  refine ⟨hn.index_lt, fun hmem => ?_⟩
  have hdead := h.unused _ hmem
  rw [show (c.slotAt n.index).live = true from hn.2.1] at hdead
  cases hdead

theorem Retains.successors (hr : Retains c d) (h : c.Disordered) (hn : c.Live n) : d.successors n = c.successors n :=
  (Slot.mk.inj (hr.core n.index (h.used hn))).2.2.2.2

/-! ## An end to carrying -/

/-- Where the nodes that a term list mentions can be doubled, a carry through the list comes to an end. By induction on
the carries, each of which goes on with what is left of the list. -/
theorem exists_absorbWith_of_forall {double : Node → Circuit → Option (Node × Circuit)} {P : Circuit → Prop}
    (hdouble : ∀ m ∈ Terms.nodes ts, ∀ d, P d → ∃ q, double m d = some q ∧ P q.2) (hc : P c) :
    ∃ q, absorbWith double ts n s c = some q ∧ P q.2 := by
  fun_induction absorbWith double ts n s c with
  | case1 => exact ⟨_, rfl, hc⟩
  | case2 => exact ⟨_, rfl, hc⟩
  | case3 ts n s c old hd sum carry hadd hcarry hnone =>
    obtain ⟨q, hq, -⟩ := hdouble n (Terms.mem_nodes.2 ⟨old, Terms.mem_of_digit?_eq_some hd⟩) c hc
    rw [hnone] at hq
    cases hq
  | case4 ts n s c old hd sum carry hadd hcarry next d hsome ih =>
    obtain ⟨q, hq, hP⟩ := hdouble n (Terms.mem_nodes.2 ⟨old, Terms.mem_of_digit?_eq_some hd⟩) c hc
    obtain rfl : (next, d) = q := Option.some.inj (hsome.symm.trans hq)
    exact ih (fun m hm => hdouble m (((Terms.erase_sublist n ts).map _).subset hm)) hP

/-- A node can be doubled with as much room as it is deep. By induction on the room: the doubles that come to be missing
are those of its direct successors, which carries leave as they are. -/
theorem Disordered.exists_doubleWithin (h : c.Disordered) (hn : c.Live n) (hk : c.Within k n) (hd : Retains c d) :
    ∃ q, doubleWithin k n d = some q ∧ Retains c q.2 := by
  induction k generalizing n d with
  | zero => exact hk.elim
  | succ k ih =>
    cases hknown : d.knownDouble? n with
    | some next => exact ⟨_, doubleWithin_of_some hknown, hd⟩
    | none =>
      have hunit : Retains c d.ensureUnit.2 := hd.trans stepwise_retains.ensureUnit
      have hinner : ∀ m ∈ Terms.nodes (d.ensureUnit.2.successors n), ∀ e, Retains c e →
          ∃ q, doubleWithin k m e = some q ∧ Retains c q.2 := fun m hm e he => by
        rw [hunit.successors h hn] at hm
        exact ih (h.live_of_below n hn m hm) (hk m hm) he
      obtain ⟨q, hq, hretains⟩ := exists_absorbWith_of_forall (n := d.ensureUnit.1) (s := .plus) hinner hunit
      rw [doubleWithin_of_none hknown, hq, Option.map_some]
      exact ⟨_, rfl, hretains.trans stepwise_retains.finishDouble⟩

theorem Disordered.within (h : c.Disordered) (hn : c.Live n) : c.Within c.slots.size n :=
  h.acyclic.within h.live_of_below hn

theorem Disordered.exists_double? (h : c.Disordered) (hn : c.Live n) (hd : Retains c d) :
    ∃ q, d.double? n = some q ∧ Retains c q.2 := by
  obtain ⟨q, hroom, hretains⟩ := h.exists_doubleWithin hn (h.within hn) hd
  exact ⟨q, double?_of_doubleWithin hd.size hroom, hretains⟩

theorem Disordered.double?_eq (h : c.Disordered) (hn : c.Live n) : c.double? n = some (c.double n) := by
  obtain ⟨q, hq, -⟩ := h.exists_double? hn (.refl c)
  rw [double, hq, Option.getD_some]

theorem Disordered.absorbWith_eq (h : c.Disordered) (hts : ∀ m ∈ Terms.nodes ts, c.Live m) :
    absorbWith (fun n c => c.double? n) ts n s c = some (c.absorb ts n s) := by
  obtain ⟨q, hq, -⟩ : ∃ q, absorbWith (fun n c => c.double? n) ts n s c = some q ∧ Retains c q.2 :=
    exists_absorbWith_of_forall (fun m hm d hd => h.exists_double? (hts m hm) hd) (.refl c)
  rw [absorb, hq, Option.getD_some]

/-! ## Walks down -/

/-- A walk down from a node, which comes first. -/
def Descent (c : Circuit) (n : Node) (walk : List Node) : Prop :=
  walk.head? = some n ∧ walk.IsChain fun a b => c.Below b a

/-- A walk down from a node that no other one is longer than. -/
structure LongestDescent (c : Circuit) (n : Node) (walk : List Node) : Prop where
  descent : c.Descent n walk
  greatest : ∀ other, c.Descent n other → other.length ≤ walk.length

theorem Within.length_le {walk : List Node} (hk : c.Within k n) (h : c.Descent n walk) : walk.length ≤ k := by
  induction walk generalizing k n with
  | nil => exact Nat.zero_le k
  | cons a walk ih =>
    obtain ⟨hfirst, hchain⟩ := h
    obtain rfl : a = n := Option.some.inj hfirst
    cases k with
    | zero => exact hk.elim
    | succ k =>
      cases walk with
      | nil => exact Nat.succ_pos k
      | cons b walk =>
        obtain ⟨hb, hrest⟩ := List.isChain_cons_cons.1 hchain
        exact Nat.succ_le_succ (ih (hk b hb) ⟨rfl, hrest⟩)

/-- The walks down from a node are no longer than the node is deep, and so one of them is the longest. -/
theorem Within.exists_longestDescent (hk : c.Within k n) : ∃ walk, c.LongestDescent n walk := by
  have hsingle : c.Descent n [n] := ⟨rfl, .singleton n⟩
  obtain ⟨longest, ⟨walk, hwalk, hlength⟩, hgreatest⟩ :
      ∃ longest, IsGreatest {l | ∃ walk, c.Descent n walk ∧ walk.length = l} longest := by
    refine BddAbove.exists_isGreatest_of_nonempty ⟨k, ?_⟩ ⟨1, [n], hsingle, rfl⟩
    rintro l ⟨walk, hwalk, rfl⟩
    exact hk.length_le hwalk
  exact ⟨walk, hwalk, fun other hother => hlength ▸ hgreatest ⟨other, hother, rfl⟩⟩

end PowerTower.Circuit
