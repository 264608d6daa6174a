import Mathlib
import PowerTower.Circuit.Frontier
import PowerTower.Proofs.Terms

/-!
# Worth

A node is worth two to the power of the signed sum of its successors. On a circuit without cycles this is a definition
by recursion along `Below`, the relation between a node and the nodes in its exponent; powers may be fractions,
so worths are real numbers.

* `Live`, `Reduced`, `Pending` : the names of existing nodes, and the two kinds of nodes;
* `Acyclic` : no live node depends on itself;
* `worth`, `termsWorth` : the worth of a node and of a term list;
* `FlagTrue` : the doubling flag of a rank says what is so;
* `Legal` : the exponent is a natural number, and so are the exponents of all nodes it depends on;
* `worth_eq_of_solution` : the worths are the only solution of their equations, so that a change of the circuit that
  keeps the equations true keeps the worths.
-/

namespace PowerTower.Circuit

variable (c : Circuit)

/-- The name of a node of this circuit that exists. -/
def Live (n : Node) : Prop := n.circuit = c.id ∧ (c.slot n).live = true ∧ (c.slot n).generation = n.generation

/-- An existing node that stands in the reduced order. -/
def Reduced (n : Node) : Prop := c.Live n ∧ (c.rank? n).isSome = true

/-- An existing node that does not. -/
def Pending (n : Node) : Prop := c.Live n ∧ c.rank? n = none

/-- `m` stands in the exponent of `n`. -/
def Below (m n : Node) : Prop := m ∈ c.successorNodes n

instance (n : Node) : Decidable (c.Live n) := inferInstanceAs (Decidable (_ ∧ _ ∧ _))

instance (n : Node) : Decidable (c.Reduced n) := inferInstanceAs (Decidable (_ ∧ _))

instance (n : Node) : Decidable (c.Pending n) := inferInstanceAs (Decidable (_ ∧ _))

instance (m n : Node) : Decidable (c.Below m n) := inferInstanceAs (Decidable (_ ∈ _))

/-- No live node depends on itself. -/
def Acyclic : Prop := ∀ n, c.Live n → ¬ Relation.TransGen c.Below n n

/-- Two to a power. -/
noncomputable def powerOfTwo (e : ℝ) : ℝ := 2 ^ e

open Classical in
/-- The worth of a node: two to the power of the signed sum of its successors. A node that depends on a cycle has
none, and counts zero. -/
noncomputable def worth (n : Node) : ℝ :=
  if h : Acc c.Below n then
    h.rec fun n _ below => powerOfTwo (Terms.sum (fun m => if hm : c.Below m n then below m hm else 0) (c.successors n))
  else 0

/-- The signed sum of the worths of some nodes. -/
noncomputable def termsWorth (ts : List Term) : ℝ := Terms.sum c.worth ts

/-- The doubling flag of a rank is set exactly if the next rank exists and is worth twice as much. -/
def FlagTrue (r : ℕ) : Prop :=
  ∀ n, c.order[r]? = some n →
    ((c.slot n).doubles = true ↔ ∃ m, c.order[r + 1]? = some m ∧ c.worth m = 2 * c.worth n)

/-- The exponent is a natural number, and all nodes in it are legal. -/
inductive Legal : Node → Prop
  | intro {n : Node} (e : ℕ) (below : ∀ m, c.Below m n → Legal m) (exponent : c.termsWorth (c.successors n) = e) :
    Legal n

variable {c} {d : Circuit} {m n : Node}

/-! ## Names -/

theorem live_iff_checkNode : c.Live n ↔ c.checkNode n = .ok () := by
  unfold checkNode Live
  split_ifs with h1 h2
  · simp [h1]
  · simp_all
  · simp_all

theorem checkNode_of_not_live (hown : n.circuit = c.id) (h : ¬ c.Live n) : c.checkNode n = .error (.staleNode n) := by
  unfold checkNode
  rw [if_neg (not_not.2 hown), if_neg fun hslot => h ⟨hown, hslot⟩]

theorem Live.eq_of_index (hm : c.Live m) (hn : c.Live n) (h : m.index = n.index) : m = n := by
  obtain ⟨mc, mi, mg⟩ := m
  obtain ⟨nc, ni, ng⟩ := n
  obtain ⟨h1, -, h2⟩ := hm
  obtain ⟨h3, -, h4⟩ := hn
  simp only [slot] at h h1 h2 h3 h4
  simp [h1, h3, ← h2, ← h4, h]

theorem live_nodeAt {i : ℕ} (h : (c.slotAt i).live = true) : c.Live (c.nodeAt i) := ⟨rfl, h, rfl⟩

theorem Live.eq_nodeAt (h : c.Live n) : n = c.nodeAt n.index := h.eq_of_index (live_nodeAt h.2.1) rfl

theorem lt_size_of_live {i : ℕ} (h : (c.slotAt i).live = true) : i < c.slots.size := by
  by_contra hi
  simp [slotAt, Array.getElem?_eq_none (Nat.le_of_not_lt hi)] at h

theorem Live.index_lt (h : c.Live n) : n.index < c.slots.size := lt_size_of_live h.2.1

/-- What holds at all places holds of all nodes. -/
theorem forall_live {P : Node → Prop} (h : ∀ i < c.slots.size, P (c.nodeAt i)) : ∀ n, c.Live n → P n := by
  intro n hn
  rw [hn.eq_nodeAt]
  exact h n.index hn.index_lt

theorem mem_liveIndices {i : ℕ} : i ∈ c.liveIndices ↔ (c.slotAt i).live = true := by
  simp only [liveIndices, List.mem_filter, List.mem_range]
  exact ⟨fun h => h.2, fun h => ⟨lt_size_of_live h, h⟩⟩

theorem nodup_liveIndices : c.liveIndices.Nodup := List.nodup_range.filter _

theorem mem_liveNodeList : n ∈ c.liveNodeList ↔ c.Live n := by
  simp only [liveNodeList, List.mem_map, mem_liveIndices]
  constructor
  · rintro ⟨i, hi, rfl⟩
    exact live_nodeAt hi
  · exact fun h => ⟨n.index, h.2.1, h.eq_nodeAt.symm⟩

theorem nodup_liveNodeList : c.liveNodeList.Nodup := nodup_liveIndices.map fun _ _ h => congrArg Node.index h

theorem mem_pendingNodes : n ∈ c.pendingNodes ↔ c.Pending n := by
  simp only [pendingNodes, List.mem_map, List.mem_filter, List.mem_range, isPendingAt, Bool.and_eq_true,
    Option.isNone_iff_eq_none]
  constructor
  · rintro ⟨i, ⟨-, hl, hr⟩, rfl⟩
    exact ⟨live_nodeAt hl, hr⟩
  · exact fun h => ⟨n.index, ⟨h.1.index_lt, h.1.2.1, h.2⟩, h.1.eq_nodeAt.symm⟩

theorem nodup_pendingNodes : c.pendingNodes.Nodup := (List.nodup_range.filter _).map fun _ _ h => congrArg Node.index h

theorem mem_pendingNodes_eq : (· ∈ c.pendingNodes) = c.Pending := by
  funext n
  exact propext mem_pendingNodes

theorem Reduced.exists_rank (h : c.Reduced n) : ∃ r, c.rank? n = some r := Option.isSome_iff_exists.1 h.2

theorem reduced_or_pending (h : c.Live n) : c.Reduced n ∨ c.Pending n := by
  cases hr : c.rank? n with
  | none => exact .inr ⟨h, hr⟩
  | some r => exact .inl ⟨h, by simp [hr]⟩

theorem Pending.not_reduced (h : c.Pending n) : ¬ c.Reduced n := fun hr => by simpa [h.2] using hr.2

theorem below_of_mem {t : Term} (h : t ∈ c.successors n) : c.Below t.1 n := Terms.mem_nodes_of_mem h

theorem finite_live : Finite {n // c.Live n} :=
  Finite.of_injective (fun n => (⟨n.1.index, n.2.index_lt⟩ : Fin c.slots.size))
    fun m n h => Subtype.ext (m.2.eq_of_index n.2 (by simpa using h))

/-! ## Acyclic circuits -/

/-- Where exponents mention live nodes only, a circuit without cycles has no infinite descent. -/
theorem Acyclic.acc (h : c.Acyclic) (hl : ∀ n, c.Live n → ∀ m, c.Below m n → c.Live m) (hn : c.Live n) :
    Acc c.Below n := by
  let r : {n // c.Live n} → {n // c.Live n} → Prop := fun a b => Relation.TransGen c.Below a.1 b.1
  have : Finite {n // c.Live n} := finite_live
  have : IsTrans {n // c.Live n} r := ⟨fun _ _ _ => Relation.TransGen.trans⟩
  have : Std.Irrefl r := ⟨fun a => h a.1 a.2⟩
  have hwf : WellFounded r := Finite.wellFounded_of_trans_of_irrefl r
  have key : ∀ a : {n // c.Live n}, Acc c.Below a.1 := fun a =>
    hwf.induction a fun a ih => Acc.intro _ fun m hm => ih ⟨m, hl _ a.2 _ hm⟩ (.single hm)
  exact key ⟨n, hn⟩

theorem not_transGen_of_acc {r : Node → Node → Prop} (h : Acc r n) : ¬ Relation.TransGen r n n := by
  intro hc
  have ht : Acc (Relation.TransGen r) n := h.transGen
  induction ht with
  | intro n _ ih => exact ih n hc (h.inv_of_transGen hc) hc

theorem acyclic_of_acc (h : ∀ n, c.Live n → Acc c.Below n) : c.Acyclic := fun n hn => not_transGen_of_acc (h n hn)

/-! ## The equations of the worths -/

theorem worth_eq (h : Acc c.Below n) : c.worth n = 2 ^ c.termsWorth (c.successors n) := by
  cases h with
  | intro _ below =>
    rw [worth, dif_pos (Acc.intro n below)]
    show (2 : ℝ) ^ Terms.sum _ _ = _
    refine congrArg _ (Terms.sum_congr fun m hm => ?_)
    rw [dif_pos (show c.Below m n from hm), worth, dif_pos (below m hm)]

theorem worth_pos (h : Acc c.Below n) : 0 < c.worth n := by
  rw [worth_eq h]
  exact Real.rpow_pos_of_pos (by norm_num) _

theorem rpow_eq_two_mul_iff (x y : ℝ) : (2 : ℝ) ^ y = 2 * 2 ^ x ↔ y = x + 1 := by
  have hdouble : (2 : ℝ) * 2 ^ x = 2 ^ (x + 1) := by rw [Real.rpow_add_one (by norm_num), mul_comm]
  rw [hdouble]
  exact ⟨fun h => le_antisymm ((Real.rpow_le_rpow_left_iff (by norm_num)).1 h.le)
    ((Real.rpow_le_rpow_left_iff (by norm_num)).1 h.ge), fun h => by rw [h]⟩

/-- A node is worth twice another one exactly if its exponent is one more. -/
theorem worth_eq_two_mul_iff (hm : Acc c.Below m) (hn : Acc c.Below n) :
    c.worth m = 2 * c.worth n ↔ c.termsWorth (c.successors m) = c.termsWorth (c.successors n) + 1 := by
  rw [worth_eq hm, worth_eq hn]
  exact rpow_eq_two_mul_iff _ _

theorem worth_lt_iff (hm : Acc c.Below m) (hn : Acc c.Below n) :
    c.worth m < c.worth n ↔ c.termsWorth (c.successors m) < c.termsWorth (c.successors n) := by
  rw [worth_eq hm, worth_eq hn]
  exact Real.rpow_lt_rpow_left_iff (by norm_num)

/-- On a set that is closed under successors, the worths are the only solution of their equations. -/
theorem worth_eq_of_solution {v : Node → ℝ} {S : Node → Prop} (hS : ∀ n, S n → ∀ m, c.Below m n → S m)
    (hv : ∀ n, S n → v n = 2 ^ Terms.sum v (c.successors n)) (hn : S n) (h : Acc c.Below n) : c.worth n = v n := by
  induction h with
  | intro n below ih =>
    rw [worth_eq (Acc.intro n below), hv n hn]
    exact congrArg _ (Terms.sum_congr fun m hm => ih m hm (hS n hn m hm))

/-- A circuit that agrees with another on the exponents of a closed set agrees with it on all that depends on them. -/
theorem acc_congr {S : Node → Prop} (hS : ∀ n, S n → ∀ m, c.Below m n → S m)
    (hd : ∀ n, S n → d.successors n = c.successors n) (hn : S n) (h : Acc c.Below n) : Acc d.Below n := by
  induction h with
  | intro n _ ih =>
    refine Acc.intro n fun m hm => ?_
    have hm : c.Below m n := by
      unfold Below successorNodes at hm ⊢
      rwa [hd n hn] at hm
    exact ih m hm (hS n hn m hm)

theorem worth_congr {S : Node → Prop} (hS : ∀ n, S n → ∀ m, c.Below m n → S m)
    (hd : ∀ n, S n → d.successors n = c.successors n) (hn : S n) (h : Acc c.Below n) : d.worth n = c.worth n := by
  induction h with
  | intro n below ih =>
    rw [worth_eq (Acc.intro n below), worth_eq (acc_congr hS hd hn (Acc.intro n below)), hd n hn]
    exact congrArg _ (Terms.sum_congr fun m hm => ih m hm (hS n hn m hm))

/-! ## Legal nodes -/

theorem Legal.of_below (h : c.Legal n) : ∀ m, c.Below m n → c.Legal m := by
  cases h with
  | intro e below _ => exact below

theorem Legal.acc (h : c.Legal n) : Acc c.Below n := by
  induction h with
  | intro _ _ _ ih => exact Acc.intro _ ih

/-- A legal node is worth a natural power of two. -/
theorem Legal.exists_exponent (h : c.Legal n) : ∃ e : ℕ, c.termsWorth (c.successors n) = e ∧ c.worth n = 2 ^ e := by
  cases h with
  | intro e below exponent =>
    refine ⟨e, exponent, ?_⟩
    rw [worth_eq (Legal.intro e below exponent).acc, exponent, Real.rpow_natCast]

theorem Legal.exists_pow (h : c.Legal n) : ∃ e : ℕ, c.worth n = 2 ^ e :=
  let ⟨e, _, he⟩ := h.exists_exponent
  ⟨e, he⟩

theorem Legal.one_le_worth (h : c.Legal n) : 1 ≤ c.worth n := by
  obtain ⟨e, he⟩ := h.exists_pow
  rw [he]
  exact one_le_pow₀ (by norm_num)

/-- Legal nodes of different worth differ by a factor of two or more. -/
theorem Legal.two_mul_worth_le (hm : c.Legal m) (hn : c.Legal n) (h : c.worth m < c.worth n) :
    2 * c.worth m ≤ c.worth n := by
  obtain ⟨a, ha⟩ := hm.exists_pow
  obtain ⟨b, hb⟩ := hn.exists_pow
  rw [ha, hb] at h ⊢
  have hab : a + 1 ≤ b := (pow_lt_pow_iff_right₀ (by norm_num)).1 h
  calc (2 : ℝ) * 2 ^ a = 2 ^ (a + 1) := by ring
    _ ≤ 2 ^ b := pow_le_pow_right₀ (by norm_num) hab

/-- Legal nodes that differ by more than a factor of two differ by a factor of four or more. -/
theorem Legal.four_mul_worth_le (hm : c.Legal m) (hn : c.Legal n) (h : 2 * c.worth m < c.worth n) :
    4 * c.worth m ≤ c.worth n := by
  obtain ⟨a, ha⟩ := hm.exists_pow
  obtain ⟨b, hb⟩ := hn.exists_pow
  rw [ha, hb] at h ⊢
  have hab : a + 1 + 1 ≤ b := (pow_lt_pow_iff_right₀ (a := (2 : ℝ)) (by norm_num)).1 (by rw [pow_succ']; exact h)
  calc (4 : ℝ) * 2 ^ a = 2 ^ (a + 1 + 1) := by ring
    _ ≤ 2 ^ b := pow_le_pow_right₀ (by norm_num) hab

/-- A term list over legal nodes is worth an integer. -/
theorem exists_int_termsWorth {ts : List Term} (h : ∀ n ∈ Terms.nodes ts, c.Legal n) : ∃ k : ℤ, c.termsWorth ts = k :=
  Terms.exists_int_sum fun n hn => (h n hn).exists_pow

/-- A node that is no fraction is legal as soon as its successors are. -/
theorem legal_of_one_le_worth (hb : ∀ m, c.Below m n → c.Legal m) (hacc : Acc c.Below n) (h1 : 1 ≤ c.worth n) :
    c.Legal n := by
  obtain ⟨k, hk⟩ := exists_int_termsWorth hb
  rw [worth_eq hacc, hk] at h1
  have hk0 : 0 ≤ k := by
    by_contra hneg
    exact absurd h1 (Real.rpow_lt_one_of_one_lt_of_neg (by norm_num) (by exact_mod_cast not_le.1 hneg)).not_ge
  lift k to ℕ using hk0
  exact .intro k hb (by simpa using hk)

theorem legal_congr {S : Node → Prop} (hS : ∀ n, S n → ∀ m, c.Below m n → S m)
    (hd : ∀ n, S n → d.successors n = c.successors n) (hn : S n) (h : c.Legal n) : d.Legal n := by
  induction h with
  | @intro n e below exponent ih =>
    have hb : ∀ m, d.Below m n → c.Below m n := fun m hm => by
      unfold Below successorNodes at hm ⊢
      rwa [hd n hn] at hm
    refine .intro e (fun m hm => ih m (hb m hm) (hS n hn m (hb m hm))) ?_
    rw [← exponent, hd n hn]
    exact Terms.sum_congr fun m hm => worth_congr hS hd (hS n hn m hm) (below m hm).acc

theorem Legal.of_reaches (hn : c.Legal n) (h : Relation.ReflTransGen c.Below m n) : c.Legal m := by
  induction h using Relation.ReflTransGen.head_induction_on with
  | refl => exact hn
  | head hb _ ih => exact ih.of_below _ hb

end PowerTower.Circuit
