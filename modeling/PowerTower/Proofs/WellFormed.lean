import Mathlib
import PowerTower.Proofs.Worth

/-!
# Well-formed circuits

* `Linked` : exponents and live markings mention live nodes, each once and with a digit other than zero; there is no
  cycle; the reduced order and the recorded ranks agree; reduced nodes depend on reduced nodes only;
* `Tied` : the same but for cycles, which pending nodes may be on where a circuit trusts its caller;
* `Graded` : reduced nodes are legal and stand in the order of their worth;
* `Consistent` : both, with true doubling flags;
* `Stored` : the free places are exactly those that hold no node;
* `WellFormed` : all of these.

The first reduced node of a graded circuit is the unit (`Graded.successors_first`): following successors down from it
ends at a node of worth one, and no other reduced node is worth less than the first.
-/

namespace PowerTower.Circuit

/-- A term list over live nodes, none of them twice and none with digit zero. -/
structure Proper (c : Circuit) (ts : List Term) : Prop extends Terms.Proper ts where
  live : ∀ n ∈ Terms.nodes ts, c.Live n

/-- The nodes of a circuit are put together properly. -/
structure Linked (c : Circuit) : Prop where
  exponents : ∀ n, c.Live n → c.Proper (c.successors n)
  markings : ∀ i, 0 < (c.cellAt i).handles → c.Proper (c.cellAt i).terms
  acyclic : c.Acyclic
  ranked : ∀ r n, c.order[r]? = some n ↔ c.Live n ∧ c.rank? n = some r
  unranked : ∀ i, (c.slotAt i).live = false → (c.slotAt i).rank = none
  closed : ∀ n, c.Reduced n → ∀ m, c.Below m n → c.Reduced m

/-- Linked, but for cycles. -/
structure Tied (c : Circuit) : Prop where
  exponents : ∀ n, c.Live n → c.Proper (c.successors n)
  markings : ∀ i, 0 < (c.cellAt i).handles → c.Proper (c.cellAt i).terms
  ranked : ∀ r n, c.order[r]? = some n ↔ c.Live n ∧ c.rank? n = some r
  unranked : ∀ i, (c.slotAt i).live = false → (c.slotAt i).rank = none
  closed : ∀ n, c.Reduced n → ∀ m, c.Below m n → c.Reduced m

/-- Reduced nodes are legal and stand in the order of their worth. -/
structure Graded (c : Circuit) : Prop where
  legal : ∀ n, c.Reduced n → c.Legal n
  increasing : c.order.toList.Pairwise fun m n => c.worth m < c.worth n

/-- What the check of a circuit stands for. -/
structure Consistent (c : Circuit) : Prop extends Linked c, Graded c where
  flags : ∀ r, c.FlagTrue r

/-- The free list holds the places without a node, each once, and the live nodes are counted, as a word. -/
structure Stored (c : Circuit) : Prop where
  nodup_free : c.free.Nodup
  mem_free : ∀ i, i ∈ c.free ↔ i < c.slots.size ∧ (c.slotAt i).live = false
  count : c.liveNodes = UInt64.ofNat c.liveIndices.length

/-- Everything that the operations on a circuit rely on. -/
structure WellFormed (c : Circuit) : Prop extends Consistent c, Stored c

variable {c : Circuit} {m n : Node} {i j r : ℕ}

theorem proper_nil : c.Proper [] := ⟨Terms.proper_nil, by simp⟩

theorem Proper.sublist {ts us : List Term} (h : c.Proper us) (hs : ts.Sublist us) : c.Proper ts :=
  ⟨h.toProper.sublist hs, fun n hn => h.live n ((hs.map _).subset hn)⟩

theorem not_live_empty {id : CircuitId} {config : Config} : ¬ (empty id config).Live n := by
  rintro ⟨-, hl, -⟩
  simp [empty, slot, slotAt] at hl

/-- A new circuit is well formed. -/
theorem wellFormed_empty (id : CircuitId) (config : Config) : (empty id config).WellFormed where
  exponents := fun _ hn => absurd hn not_live_empty
  markings := fun i hi => by simp [empty, cellAt] at hi
  acyclic := fun _ hn => absurd hn not_live_empty
  ranked := fun r n => ⟨fun h => by simp [empty] at h, fun h => absurd h.1 not_live_empty⟩
  unranked := fun i _ => by simp [empty, slotAt]
  closed := fun _ hn => absurd hn.1 not_live_empty
  legal := fun _ hn => absurd hn.1 not_live_empty
  increasing := by simp [empty]
  flags := fun r n h => by simp [empty] at h
  nodup_free := List.nodup_nil
  mem_free := fun i => by simp [empty]
  count := rfl

/-! ## Linked circuits -/

theorem Linked.tied (h : c.Linked) : c.Tied := { h with }

theorem Tied.linked (h : c.Tied) (hacyclic : c.Acyclic) : c.Linked := { h with acyclic := hacyclic }

theorem Tied.live_of_below (h : c.Tied) (hn : c.Live n) (hm : c.Below m n) : c.Live m := (h.exponents n hn).live m hm

theorem Tied.reduced_of_getElem? (h : c.Tied) (hr : c.order[r]? = some n) : c.Reduced n := by
  obtain ⟨hl, hk⟩ := (h.ranked r n).1 hr
  exact ⟨hl, by simp [hk]⟩

theorem Tied.mem_order (h : c.Tied) : n ∈ c.order.toList ↔ c.Reduced n := by
  rw [Array.mem_toList_iff, Array.mem_iff_getElem?]
  refine ⟨fun ⟨r, hr⟩ => h.reduced_of_getElem? hr, fun hn => ?_⟩
  obtain ⟨r, hr⟩ := hn.exists_rank
  exact ⟨r, (h.ranked r n).2 ⟨hn.1, hr⟩⟩

theorem Tied.reduced_of_reaches (h : c.Tied) (hn : c.Reduced n) (hm : Relation.ReflTransGen c.Below m n) :
    c.Reduced m := by
  induction hm using Relation.ReflTransGen.head_induction_on with
  | refl => exact hn
  | head hb _ ih => exact h.closed _ ih _ hb

theorem Linked.live_of_below (h : c.Linked) (hn : c.Live n) (hm : c.Below m n) : c.Live m := h.tied.live_of_below hn hm

theorem Linked.acc (h : c.Linked) (hn : c.Live n) : Acc c.Below n :=
  h.acyclic.acc (fun _ hn _ hm => h.live_of_below hn hm) hn

theorem Linked.reduced_of_getElem? (h : c.Linked) (hr : c.order[r]? = some n) : c.Reduced n :=
  h.tied.reduced_of_getElem? hr

theorem Linked.rank?_of_getElem? (h : c.Linked) (hr : c.order[r]? = some n) : c.rank? n = some r :=
  ((h.ranked r n).1 hr).2

theorem Linked.getElem?_of_rank? (h : c.Linked) (hn : c.Live n) (hr : c.rank? n = some r) : c.order[r]? = some n :=
  (h.ranked r n).2 ⟨hn, hr⟩

theorem Linked.exists_getElem? (h : c.Linked) (hn : c.Reduced n) : ∃ r : ℕ, c.order[r]? = some n := by
  obtain ⟨r, hr⟩ := hn.exists_rank
  exact ⟨r, h.getElem?_of_rank? hn.1 hr⟩

theorem Linked.mem_order (h : c.Linked) : n ∈ c.order.toList ↔ c.Reduced n := h.tied.mem_order

theorem Linked.rank_unique (h : c.Linked) (hi : c.order[i]? = some n) (hj : c.order[j]? = some n) : i = j :=
  Option.some.inj ((h.rank?_of_getElem? hi).symm.trans (h.rank?_of_getElem? hj))

/-- Following successors down from a node ends at one without successors. -/
theorem exists_below_without_successors (h : Acc c.Below n) :
    ∃ m, Relation.ReflTransGen c.Below m n ∧ c.successors m = [] := by
  induction h with
  | intro n _ ih =>
    cases hs : c.successors n with
    | nil => exact ⟨n, .refl, hs⟩
    | cons t ts =>
      have ht : c.Below t.1 n := below_of_mem (by simp [hs])
      obtain ⟨m, hm, hz⟩ := ih t.1 ht
      exact ⟨m, hm.tail ht, hz⟩

theorem worth_of_successors_eq_nil (h : c.successors n = []) : c.worth n = 1 := by
  have ha : Acc c.Below n := Acc.intro n fun m hm => by simp [Below, successorNodes, h] at hm
  rw [worth_eq ha, h]
  simp [termsWorth]

/-! ## Graded circuits -/

theorem pairwise_order_iff {R : Node → Node → Prop} : c.order.toList.Pairwise R ↔
    ∀ (i j : ℕ) (m n : Node), i < j → c.order[i]? = some m → c.order[j]? = some n → R m n := by
  rw [List.pairwise_iff_getElem]
  constructor
  · intro h i j m n hij hi hj
    obtain ⟨hi', rfl⟩ := Array.getElem?_eq_some_iff.1 hi
    obtain ⟨hj', rfl⟩ := Array.getElem?_eq_some_iff.1 hj
    have := h i j (by simpa using hi') (by simpa using hj') hij
    rwa [Array.getElem_toList, Array.getElem_toList] at this
  · intro h i j hi hj hij
    rw [Array.length_toList] at hi hj
    rw [Array.getElem_toList, Array.getElem_toList]
    exact h i j _ _ hij (Array.getElem?_eq_getElem hi) (Array.getElem?_eq_getElem hj)

theorem Graded.worth_lt (h : c.Graded) (hi : c.order[i]? = some m) (hj : c.order[j]? = some n) (hij : i < j) :
    c.worth m < c.worth n :=
  pairwise_order_iff.1 h.increasing i j m n hij hi hj

theorem Graded.worth_le (h : c.Graded) (hi : c.order[i]? = some m) (hj : c.order[j]? = some n) (hij : i ≤ j) :
    c.worth m ≤ c.worth n := by
  rcases hij.eq_or_lt with rfl | hlt
  · rw [hi] at hj
    rw [Option.some.inj hj]
  · exact (h.worth_lt hi hj hlt).le

/-- Reduced nodes of the same worth are the same. -/
theorem Graded.eq_of_worth_eq (h : c.Graded) (hl : c.Linked) (hm : c.Reduced m) (hn : c.Reduced n)
    (hw : c.worth m = c.worth n) : m = n := by
  obtain ⟨i, hi⟩ := hl.exists_getElem? hm
  obtain ⟨j, hj⟩ := hl.exists_getElem? hn
  rcases lt_trichotomy i j with hij | rfl | hij
  · exact absurd hw (h.worth_lt hi hj hij).ne
  · exact Option.some.inj (hi.symm.trans hj)
  · exact absurd hw (h.worth_lt hj hi hij).ne'

/-- The first reduced node has no successors. -/
theorem Graded.successors_first (h : c.Graded) (hl : c.Linked) (h0 : c.order[0]? = some n) : c.successors n = [] := by
  have hn := hl.reduced_of_getElem? h0
  obtain ⟨m, hm, hs⟩ := exists_below_without_successors (hl.acc hn.1)
  obtain ⟨j, hj⟩ := hl.exists_getElem? (hl.tied.reduced_of_reaches hn hm)
  rcases Nat.eq_zero_or_pos j with rfl | hpos
  · rw [h0] at hj
    rwa [Option.some.inj hj]
  · have hlt := h.worth_lt h0 hj hpos
    rw [worth_of_successors_eq_nil hs] at hlt
    exact absurd (h.legal n hn).one_le_worth hlt.not_ge

theorem Graded.worth_first (h : c.Graded) (hl : c.Linked) (h0 : c.order[0]? = some n) : c.worth n = 1 :=
  worth_of_successors_eq_nil (h.successors_first hl h0)

end PowerTower.Circuit
