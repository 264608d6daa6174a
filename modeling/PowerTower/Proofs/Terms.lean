import Mathlib
import PowerTower.Node

/-!
# Sums of term lists

`Terms.sum w ts` is the signed sum of a term list whose nodes are worth `w`. The list operations are described by
what they do to this sum and to the list of nodes; `Terms.Proper` singles out the lists that hold no node twice and
no digit zero.
-/

namespace PowerTower

namespace Sign

@[simp] theorem toInt_zero : zero.toInt = 0 := rfl

@[simp] theorem toInt_plus : plus.toInt = 1 := rfl

theorem add_of_no_carry {x y : Sign} (h : (x.addWithCarry y).2 = zero) :
    (x.addWithCarry y).1.toInt = x.toInt + y.toInt := by
  have := addWithCarry_toInt x y
  rw [h, toInt_zero] at this
  omega

theorem add_of_carry {x y : Sign} (h : (x.addWithCarry y).2 ≠ zero) :
    x.toInt + y.toInt = 2 * (x.addWithCarry y).2.toInt := by
  have := addWithCarry_toInt x y
  rw [sum_eq_zero_of_carry h, toInt_zero] at this
  omega

/-- Two digits other than zero cancel or carry. -/
theorem sum_eq_zero {x y : Sign} (hx : x ≠ zero) (hy : y ≠ zero) : (x.addWithCarry y).1 = zero := by
  cases x <;> cases y <;> simp_all [addWithCarry]

theorem neg_ne_zero {s : Sign} (h : s ≠ zero) : -s ≠ zero := by
  intro h0
  have := toInt_neg s
  rw [h0] at this
  exact h (toInt_inj (by simp [toInt] at this ⊢; omega))

theorem toInt_ne_zero {s : Sign} : s.toInt ≠ 0 ↔ s ≠ zero := by cases s <;> simp [toInt]

/-- What a digit is added to does not become its opposite. -/
theorem neg_ne_add {x y : Sign} (hy : y ≠ zero) : -y.toInt ≠ x.toInt + y.toInt := by
  cases x <;> cases y <;> simp_all [toInt]

end Sign

namespace Terms

/-- The signed sum of a term list, where the nodes are worth `w`. -/
noncomputable def sum (w : Node → ℝ) (ts : List Term) : ℝ := (ts.map fun t => (t.2.toInt : ℝ) * w t.1).sum

/-- No node stands in the list twice, and none with digit zero. -/
structure Proper (ts : List Term) : Prop where
  nodup : (nodes ts).Nodup
  nonzero : ∀ t ∈ ts, t.2 ≠ .zero

/-! ## The sum -/

@[simp] theorem sum_nil (w : Node → ℝ) : sum w [] = 0 := rfl

@[simp] theorem sum_cons (w : Node → ℝ) (t : Term) (ts : List Term) :
    sum w (t :: ts) = (t.2.toInt : ℝ) * w t.1 + sum w ts := by
  simp [sum]

@[simp] theorem sum_append (w : Node → ℝ) (ts us : List Term) : sum w (ts ++ us) = sum w ts + sum w us := by
  simp [sum]

theorem mem_nodes {n : Node} {ts : List Term} : n ∈ nodes ts ↔ ∃ s, (n, s) ∈ ts := by
  simp [nodes]

theorem mem_nodes_of_mem {t : Term} {ts : List Term} (h : t ∈ ts) : t.1 ∈ nodes ts :=
  List.mem_map_of_mem h

@[simp] theorem nodes_nil : nodes [] = [] := rfl

@[simp] theorem nodes_cons (t : Term) (ts : List Term) : nodes (t :: ts) = t.1 :: nodes ts := rfl

@[simp] theorem nodes_append (ts us : List Term) : nodes (ts ++ us) = nodes ts ++ nodes us := by
  simp [nodes]

theorem sum_congr {w v : Node → ℝ} {ts : List Term} (h : ∀ n ∈ nodes ts, w n = v n) : sum w ts = sum v ts := by
  induction ts with
  | nil => rfl
  | cons t ts ih =>
    rw [sum_cons, sum_cons, h t.1 (by simp), ih fun n hn => h n (by simp [hn])]

theorem sum_flip (w : Node → ℝ) (ts : List Term) : sum w (flip ts) = -sum w ts := by
  induction ts with
  | nil => simp [flip]
  | cons t ts ih =>
    have hcons : flip (t :: ts) = t.flip :: flip ts := rfl
    rw [hcons, sum_cons, sum_cons, ih, Term.flip, Sign.toInt_neg]
    push_cast
    ring

theorem nodes_flip (ts : List Term) : nodes (flip ts) = nodes ts := by
  simp [nodes, flip, Term.flip]

/-- The signed sum of natural powers of two is an integer. -/
theorem exists_int_sum {w : Node → ℝ} {ts : List Term} (h : ∀ n ∈ nodes ts, ∃ e : ℕ, w n = 2 ^ e) :
    ∃ k : ℤ, sum w ts = k := by
  induction ts with
  | nil => exact ⟨0, by simp⟩
  | cons t ts ih =>
    obtain ⟨k, hk⟩ := ih fun n hn => h n (by simp [hn])
    obtain ⟨e, he⟩ := h t.1 (by simp)
    exact ⟨t.2.toInt * 2 ^ e + k, by rw [sum_cons, hk, he]; push_cast; ring⟩

/-! ## Single entries -/

theorem digit?_eq_none_iff {n : Node} {ts : List Term} : digit? n ts = none ↔ n ∉ nodes ts := by
  induction ts with
  | nil => simp [digit?]
  | cons t ts ih =>
    obtain ⟨m, u⟩ := t
    by_cases hm : m = n
    · simp [digit?, hm]
    · simp [digit?, hm, ih, Ne.symm hm]

theorem mem_of_digit?_eq_some {n : Node} {s : Sign} {ts : List Term} (h : digit? n ts = some s) : (n, s) ∈ ts := by
  induction ts with
  | nil => simp [digit?] at h
  | cons t ts ih =>
    obtain ⟨m, u⟩ := t
    by_cases hm : m = n
    · simp_all [digit?]
    · exact List.mem_cons_of_mem _ (ih (by simpa [digit?, hm] using h))

theorem digit?_eq_some_of_mem {n : Node} {s : Sign} {ts : List Term} (h : (nodes ts).Nodup) (hn : (n, s) ∈ ts) :
    digit? n ts = some s := by
  induction ts with
  | nil => simp at hn
  | cons t ts ih =>
    obtain ⟨m, u⟩ := t
    rw [nodes_cons, List.nodup_cons] at h
    rcases List.mem_cons.1 hn with heq | hn
    · obtain ⟨rfl, rfl⟩ := Prod.mk.inj heq
      simp [digit?]
    · have hne : m ≠ n := by
        rintro rfl
        exact h.1 (mem_nodes.2 ⟨s, hn⟩)
      simpa [digit?, hne] using ih h.2 hn

theorem digit_of_not_mem {n : Node} {ts : List Term} (h : n ∉ nodes ts) : digit n ts = .zero := by
  rw [digit, digit?_eq_none_iff.2 h]
  rfl

theorem digit_flip (n : Node) (ts : List Term) : digit n (flip ts) = -digit n ts := by
  induction ts with
  | nil => rfl
  | cons t ts ih =>
    have hcons : flip (t :: ts) = (t.1, -t.2) :: flip ts := rfl
    by_cases ht : t.1 = n
    · simp [hcons, digit, digit?, ht]
    · simpa [hcons, digit, digit?, ht] using ih

theorem flip_flip (ts : List Term) : flip (flip ts) = ts := by
  simp [flip, Term.flip, Function.comp_def, Sign.neg_neg]

/-- The sum in which one node counts one, and all others nothing. -/
theorem sum_single (n : Node) {ts : List Term} (h : (nodes ts).Nodup) :
    sum (Pi.single n 1) ts = (digit n ts).toInt := by
  induction ts with
  | nil => simp [digit, digit?]
  | cons t ts ih =>
    rw [nodes_cons, List.nodup_cons] at h
    rw [sum_cons, ih h.2]
    by_cases ht : t.1 = n
    · have hrest : digit n ts = .zero := digit_of_not_mem (ht ▸ h.1)
      have hself : digit n (t :: ts) = t.2 := by simp [digit, digit?, ht]
      simp [ht, hrest, hself]
    · have hother : digit n (t :: ts) = digit n ts := by simp [digit, digit?, ht]
      simp [ht, hother]

theorem nodes_erase (n : Node) (ts : List Term) : nodes (erase n ts) = (nodes ts).erase n := by
  induction ts with
  | nil => rfl
  | cons t ts ih =>
    obtain ⟨m, u⟩ := t
    by_cases hm : m = n
    · simp [erase, hm]
    · simp [erase, hm, ih]

theorem nodes_set (n : Node) (s : Sign) (ts : List Term) : nodes (set n s ts) = nodes ts := by
  induction ts with
  | nil => rfl
  | cons t ts ih =>
    obtain ⟨m, u⟩ := t
    by_cases hm : m = n
    · simp [set, hm]
    · simp [set, hm, ih]

theorem erase_sublist (n : Node) (ts : List Term) : (erase n ts).Sublist ts := by
  induction ts with
  | nil => exact List.Sublist.refl _
  | cons t ts ih =>
    obtain ⟨m, u⟩ := t
    by_cases hm : m = n
    · simp [erase, hm]
    · simpa [erase, hm] using ih

theorem mem_or_eq_of_mem_set {n : Node} {s : Sign} {t : Term} {ts : List Term} (h : t ∈ set n s ts) :
    t ∈ ts ∨ t = (n, s) := by
  induction ts with
  | nil => simp [set] at h
  | cons u ts ih =>
    obtain ⟨m, v⟩ := u
    by_cases hm : m = n
    · simp only [set, hm, ↓reduceIte, List.mem_cons] at h ⊢
      tauto
    · simp only [set, hm, ↓reduceIte, List.mem_cons] at h ⊢
      tauto

theorem sum_erase {w : Node → ℝ} {n : Node} {s : Sign} {ts : List Term} (h : digit? n ts = some s) :
    sum w (erase n ts) = sum w ts - s.toInt * w n := by
  induction ts with
  | nil => simp [digit?] at h
  | cons t ts ih =>
    obtain ⟨m, u⟩ := t
    by_cases hm : m = n
    · simp_all [digit?, erase]
    · rw [sum_cons, ← add_sub_assoc', ← ih (by simpa [digit?, hm] using h)]
      simp [erase, hm]

theorem sum_set {w : Node → ℝ} {n : Node} {s u : Sign} {ts : List Term} (h : digit? n ts = some s) :
    sum w (set n u ts) = sum w ts + (u.toInt - s.toInt) * w n := by
  induction ts with
  | nil => simp [digit?] at h
  | cons t ts ih =>
    obtain ⟨m, v⟩ := t
    by_cases hm : m = n
    · simp_all only [digit?, set, ↓reduceIte, Option.some.injEq, sum_cons]
      ring
    · have := ih (by simpa [digit?, hm] using h)
      simp only [set, hm, ↓reduceIte, sum_cons, this]
      ring

/-! ## Filtered lists -/

section Filter

variable {p : Node → Bool} {n : Node} {s : Sign}

theorem digit?_filter (hn : p n = true) (ts : List Term) : digit? n (ts.filter fun t => p t.1) = digit? n ts := by
  induction ts with
  | nil => rfl
  | cons t ts ih =>
    by_cases ht : t.1 = n
    · rw [List.filter_cons_of_pos (by simpa [ht] using hn)]
      simp [digit?, ht]
    · by_cases hp : p t.1 = true
      · rw [List.filter_cons_of_pos (by simpa using hp)]
        simpa [digit?, ht] using ih
      · rw [List.filter_cons_of_neg (by simpa using hp)]
        simpa [digit?, ht] using ih

theorem filter_erase (hn : p n = true) (ts : List Term) :
    (erase n ts).filter (fun t => p t.1) = erase n (ts.filter fun t => p t.1) := by
  induction ts with
  | nil => rfl
  | cons t ts ih =>
    by_cases ht : t.1 = n
    · rw [List.filter_cons_of_pos (by simpa [ht] using hn)]
      simp [erase, ht]
    · by_cases hp : p t.1 = true
      · rw [List.filter_cons_of_pos (by simpa using hp)]
        simpa [erase, ht, hp] using ih
      · rw [List.filter_cons_of_neg (by simpa using hp)]
        simpa [erase, ht, hp] using ih

theorem filter_set (hn : p n = true) (ts : List Term) :
    (set n s ts).filter (fun t => p t.1) = set n s (ts.filter fun t => p t.1) := by
  induction ts with
  | nil => rfl
  | cons t ts ih =>
    by_cases ht : t.1 = n
    · rw [List.filter_cons_of_pos (by simpa [ht] using hn)]
      simp [set, ht, hn]
    · by_cases hp : p t.1 = true
      · rw [List.filter_cons_of_pos (by simpa using hp)]
        simpa [set, ht, hp] using ih
      · rw [List.filter_cons_of_neg (by simpa using hp)]
        simpa [set, ht, hp] using ih

/-- What is filtered out does not change with an entry that is not. -/
theorem filter_erase_of_not (hn : p n = false) (ts : List Term) :
    (erase n ts).filter (fun t => p t.1) = ts.filter fun t => p t.1 := by
  induction ts with
  | nil => rfl
  | cons t ts ih =>
    by_cases ht : t.1 = n
    · simp [erase, ht, hn]
    · simp [erase, ht, List.filter_cons, ih]

theorem filter_set_of_not (hn : p n = false) (ts : List Term) :
    (set n s ts).filter (fun t => p t.1) = ts.filter fun t => p t.1 := by
  induction ts with
  | nil => rfl
  | cons t ts ih =>
    by_cases ht : t.1 = n
    · simp [set, ht, hn]
    · simp [set, ht, List.filter_cons, ih]

end Filter

/-! ## Proper lists -/

theorem proper_nil : Proper [] := ⟨by simp, by simp⟩

theorem Proper.sublist {ts us : List Term} (h : Proper us) (hs : ts.Sublist us) : Proper ts :=
  ⟨h.nodup.sublist (hs.map _), fun t ht => h.nonzero t (hs.subset ht)⟩

theorem Proper.flip {ts : List Term} (h : Proper ts) : Proper (flip ts) := by
  refine ⟨by rw [nodes_flip]; exact h.nodup, fun t ht => ?_⟩
  obtain ⟨u, hu, rfl⟩ := List.mem_map.1 ht
  exact Sign.neg_ne_zero (h.nonzero u hu)

theorem Proper.append_single {ts : List Term} {n : Node} {s : Sign} (h : Proper ts) (hn : n ∉ nodes ts)
    (hs : s ≠ .zero) : Proper (ts ++ [(n, s)]) := by
  refine ⟨?_, ?_⟩
  · rw [nodes_append]
    exact List.Nodup.append h.nodup (by simp) (by simpa using hn)
  · intro t ht
    rcases List.mem_append.1 ht with ht | ht
    · exact h.nonzero t ht
    · rw [List.mem_singleton.1 ht]
      exact hs

theorem Proper.set {ts : List Term} {n : Node} {s : Sign} (h : Proper ts) (hs : s ≠ .zero) : Proper (set n s ts) := by
  refine ⟨by rw [nodes_set]; exact h.nodup, fun t ht => ?_⟩
  rcases mem_or_eq_of_mem_set ht with ht | rfl
  · exact h.nonzero t ht
  · exact hs

theorem Proper.erase {ts : List Term} {n : Node} (h : Proper ts) : Proper (erase n ts) :=
  h.sublist (erase_sublist n ts)

theorem Proper.not_mem_erase {ts : List Term} {n : Node} (h : Proper ts) : n ∉ nodes (Terms.erase n ts) := by
  rw [nodes_erase]
  exact h.nodup.not_mem_erase

theorem Proper.digit_eq_iff {ts : List Term} {n : Node} {s : Sign} (h : Proper ts) (hs : s ≠ .zero) :
    digit n ts = s ↔ (n, s) ∈ ts := by
  constructor
  · intro hd
    cases hd' : digit? n ts with
    | none => exact absurd (hd.symm.trans (digit_of_not_mem (digit?_eq_none_iff.1 hd'))) hs
    | some u =>
      have hu : digit n ts = u := by rw [digit, hd', Option.getD_some]
      exact hu.symm.trans hd ▸ mem_of_digit?_eq_some hd'
  · intro hmem
    rw [digit, digit?_eq_some_of_mem h.nodup hmem, Option.getD_some]

theorem Proper.digit_ne_zero_iff {ts : List Term} {n : Node} (h : Proper ts) : digit n ts ≠ .zero ↔ n ∈ nodes ts := by
  constructor
  · exact fun hne => mem_nodes_of_mem ((h.digit_eq_iff hne).1 rfl)
  · intro hn
    obtain ⟨s, hs⟩ := mem_nodes.1 hn
    rw [(h.digit_eq_iff (h.nonzero _ hs)).2 hs]
    exact h.nonzero _ hs

/-- Entrywise addition keeps lists proper and brings in no node but the one it adds. -/
theorem Proper.accumulate {strict : Bool} {n : Node} {s : Sign} {ts us : List Term} (h : Proper ts)
    (ha : accumulate? strict n s ts = some us) : Proper us ∧ ∀ m ∈ nodes us, m ∈ nodes ts ∨ m = n := by
  unfold accumulate? at ha
  split_ifs at ha with hs
  · obtain rfl := Option.some.inj ha
    exact ⟨h, fun m hm => .inl hm⟩
  · split at ha
    · next hd =>
      obtain rfl := Option.some.inj ha
      refine ⟨h.append_single (digit?_eq_none_iff.1 hd) hs, fun m hm => ?_⟩
      simpa using hm
    · next old hd =>
      simp only at ha
      split_ifs at ha with hc hz
      · obtain rfl := Option.some.inj ha
        exact ⟨h.erase, fun m hm => .inl (((erase_sublist n ts).map _).subset hm)⟩
      · obtain rfl := Option.some.inj ha
        exact ⟨h.set hz, fun m hm => .inl (by rwa [nodes_set] at hm)⟩

/-- Where nothing is refused, a digit is entered for a node that has none, and the entry of a node that has one goes. -/
theorem Proper.accumulate_loose {n : Node} {s : Sign} {ts : List Term} (h : Proper ts) (hs : s ≠ .zero) :
    ∃ us, accumulate? false n s ts = some us ∧ ∀ m, m ∈ nodes us ↔ (m ∈ nodes ts ↔ m ≠ n) := by
  unfold accumulate?
  rw [if_neg hs]
  cases hd : digit? n ts with
  | none =>
    have hn := digit?_eq_none_iff.1 hd
    refine ⟨_, rfl, fun m => ?_⟩
    by_cases hm : m = n
    · simp [hm, hn]
    · simp [hm]
  | some old =>
    have hold := mem_of_digit?_eq_some hd
    have hsum : (old.addWithCarry s).1 = .zero := Sign.sum_eq_zero (h.nonzero _ hold) hs
    refine ⟨Terms.erase n ts, by simp [hsum], fun m => ?_⟩
    by_cases hm : m = n
    · simpa [hm, h.not_mem_erase] using mem_nodes_of_mem hold
    · rw [nodes_erase, List.mem_erase_of_ne hm]
      simp [hm]

end Terms

end PowerTower
