import Mathlib
import PowerTower.Proofs.Scaling

/-!
# Exact answers about new edges

What a circuit that checks itself answers when it is to add terms to the exponents of some nodes, and how that is taken
back.

* `SumBelow`, `UnionBelow` : the graph with the new edges, where edges may cancel out, and where none does;
* `Rewritten`, `Summed` : only the exponents of the targets change, and they change by the addend, digit by digit;
* `EdgeAnswer`, `WellFormed.attach_answer` : the cases in which the circuit answers;
* `Exact`, `EdgeAnswer.exact` : a refusal is given if and only if there is a reason for it;
* `Summed.undo` : adding the opposite terms at once is answered, and restores every digit.
-/

namespace PowerTower.Circuit

open Guards

variable {c d e : Circuit} {n q : Node} {targets : List Node} {ts addend : List Term}

/-! ## The graph with the new edges -/

/-- `q` has a digit other than zero in the exponent of `n` once the addend is added to the exponents of the targets. -/
def SumBelow (c : Circuit) (targets : List Node) (addend : List Term) (q n : Node) : Prop :=
  (Terms.digit q (c.successors n)).toInt + (if n ∈ targets then (Terms.digit q addend).toInt else 0) ≠ 0

/-- `q` stands in the exponent of `n`, or in an addend to it. -/
def UnionBelow (c : Circuit) (targets : List Node) (addend : List Term) (q n : Node) : Prop :=
  c.Below q n ∨ n ∈ targets ∧ q ∈ Terms.nodes addend

/-- Some live node depends on itself. -/
def Cyclic (c : Circuit) (R : Node → Node → Prop) : Prop := ∃ n, c.Live n ∧ Relation.TransGen R n n

/-- Some target has an entry of the addend already. -/
def Clashes (c : Circuit) (targets : List Node) (addend : List Term) : Prop :=
  ∃ n ∈ targets, ∃ u ∈ addend, u ∈ c.successors n

instance : Decidable (c.SumBelow targets addend q n) := inferInstanceAs (Decidable (_ ≠ _))

instance : Decidable (c.Clashes targets addend) := inferInstanceAs (Decidable (∃ n ∈ targets, _))

theorem Linked.below_iff_digit (hl : c.Linked) (hn : c.Live n) :
    c.Below q n ↔ (Terms.digit q (c.successors n)).toInt ≠ 0 :=
  (hl.exponents n hn).digit_ne_zero_iff.symm.trans Sign.toInt_ne_zero.symm

theorem unionBelow_widens : c.Widens targets addend (c.UnionBelow targets addend) where
  old_or_new := fun _ _ _ hm => hm
  kept := fun _ _ _ _ hm => .inl hm
  new := fun _ hn _ hm _ => .inr ⟨hn, hm⟩

theorem Linked.sumBelow_widens (hl : c.Linked) (hlive : ∀ n ∈ targets, c.Live n) (haddend : Terms.Proper addend) :
    c.Widens targets addend (c.SumBelow targets addend) where
  old_or_new := fun n hn q hq => by
    by_contra hnot
    rw [not_or, hl.below_iff_digit hn, not_not, ← haddend.digit_ne_zero_iff, ← Sign.toInt_ne_zero] at hnot
    rw [SumBelow, hnot.1, zero_add, ite_ne_right_iff] at hq
    exact hnot.2 hq
  kept := fun n hn hnot q hq => by
    rw [SumBelow, if_neg hnot, add_zero]
    exact (hl.below_iff_digit hn).1 hq
  new := fun n hn q hq hnot => by
    rw [hl.below_iff_digit (hlive n hn), not_not] at hnot
    rw [SumBelow, hnot, zero_add, if_pos hn]
    exact Sign.toInt_ne_zero.2 (haddend.digit_ne_zero_iff.2 hq)

/-! ## What changes -/

/-- The exponents of the targets may be other ones. Nothing else is. -/
structure Rewritten (c : Circuit) (targets : List Node) (d : Circuit) : Prop where
  /-- The markings, the order and all else but the store are the same, -/
  store : d = { c with slots := d.slots }
  size : d.slots.size = c.slots.size
  /-- each place has the same node, rank and flag, -/
  place : ∀ i, d.slotAt i = { c.slotAt i with successors := (d.slotAt i).successors }
  /-- and the same exponent, unless it is that of a target. -/
  other : ∀ i, (∀ n ∈ targets, n.index ≠ i) → (d.slotAt i).successors = (c.slotAt i).successors

theorem Rewritten.refl : Rewritten c targets c := ⟨rfl, rfl, fun _ => rfl, fun _ _ => rfl⟩

theorem Rewritten.trans (h : Rewritten c targets d) (h' : Rewritten d targets e) : Rewritten c targets e where
  store := h'.store.trans (congrArg (fun x : Circuit => { x with slots := e.slots }) h.store)
  size := h'.size.trans h.size
  place := fun i => (h'.place i).trans
    (congrArg (fun x : Slot => { x with successors := (e.slotAt i).successors }) (h.place i))
  other := fun i hi => (h'.other i hi).trans (h.other i hi)

theorem rewritten_setSuccessors (hn : n ∈ targets) : Rewritten c targets (c.setSuccessors n ts) where
  store := rfl
  size := by simp [setSuccessors, modifySlot]
  place := fun i => by
    rw [setSuccessors, slotAt_modifySlot]
    split_ifs <;> rfl
  other := fun i hi => by rw [setSuccessors, slotAt_modifySlot, if_neg fun h => hi n hn h.1]

theorem Rewritten.live_iff (h : Rewritten c targets d) : d.Live n ↔ c.Live n := by
  have hid : d.id = c.id := congrArg (·.id) h.store
  rw [Live, Live, hid, slot, h.place]
  rfl

theorem Rewritten.pending_iff (h : Rewritten c targets d) : d.Pending n ↔ c.Pending n := by
  rw [Pending, Pending, h.live_iff, rank?, slot, h.place]
  rfl

theorem Rewritten.successors_eq (h : Rewritten c targets d) (hlive : ∀ n ∈ targets, c.Live n) (hn : c.Live n)
    (hnot : n ∉ targets) : d.successors n = c.successors n :=
  h.other n.index fun t ht hi => hnot ((hlive t ht).eq_of_index hn hi ▸ ht)

theorem rewritten_extendAll : Rewritten c targets ((targets.forM (extendExponent addend)).run c).2 :=
  (forM_induction (P := Rewritten c targets) (Q := fun _ => True)
    (fun n hn d hd => ⟨hd.trans (by rw [run_extendExponent]; exact rewritten_setSuccessors hn),
      fun _ _ => trivial⟩) .refl).1

/-- Whatever the answer is, only exponents of targets change. -/
theorem rewritten_attach : Rewritten c targets ((attach targets addend).run c).2 := by
  cases hfind : targets.find? c.isReducedNode with
  | some n =>
    rw [attach_of_reduced hfind]
    exact .refl
  | none =>
    rw [attach_of_pending hfind]
    cases hedges : (if c.config.checkInvariants then c.checkEdges targets addend else .ok ()) with
    | error e =>
      rw [run_ask_error hedges]
      exact .refl
    | ok _ =>
      rw [run_ask_ok hedges]
      exact rewritten_extendAll

/-- The addend is added to the exponents of the targets, digit by digit. -/
structure Summed (c : Circuit) (targets : List Node) (addend : List Term) (d : Circuit) : Prop extends
    WellFormed d, Rewritten c targets d where
  digit : ∀ n ∈ targets, ∀ q, (Terms.digit q (d.successors n)).toInt =
    (Terms.digit q (c.successors n)).toInt + (Terms.digit q addend).toInt

theorem Joined.summed (hj : Joined c targets addend d) (hd : d.WellFormed) (hr : Rewritten c targets d) (hc : c.Linked)
    (hlive : ∀ n ∈ targets, c.Live n) (haddend : Terms.Proper addend) : Summed c targets addend d where
  toWellFormed := hd
  toRewritten := hr
  digit := fun n hn q => by
    have hsum := hj.target n hn (Pi.single q 1)
    rw [Terms.sum_single q (hd.exponents n ((hj.live n).2 (hlive n hn))).nodup,
      Terms.sum_single q (hc.exponents n (hlive n hn)).nodup, Terms.sum_single q haddend.nodup] at hsum
    exact_mod_cast hsum

/-! ## The answer -/

/-- What a circuit that checks itself answers when it is to add the addend to the exponents of the targets, and the
circuit afterwards. -/
inductive EdgeAnswer (c : Circuit) (targets : List Node) (addend : List Term) :
    Except CircuitError Unit → Circuit → Prop
  | reduced {n : Node} (target : n ∈ targets) (reduced : c.Reduced n) :
    EdgeAnswer c targets addend (.error (.targetAlreadyReduced n)) c
  | clash {n : Node} (pending : ∀ t ∈ targets, c.Pending t) (target : n ∈ targets)
    (clash : ∃ u ∈ addend, u ∈ c.successors n) : EdgeAnswer c targets addend (.error (.signOverflow n)) c
  | cycle {n : Node} (pending : ∀ t ∈ targets, c.Pending t) (free : ¬ c.Clashes targets addend) (target : n ∈ targets)
    (cycle : ∃ s ∈ Terms.nodes addend, Relation.ReflTransGen c.Below n s) :
    EdgeAnswer c targets addend (.error (.cycleDetected n)) c
  | done {d : Circuit} (pending : ∀ t ∈ targets, c.Pending t) (free : ¬ c.Clashes targets addend)
    (opened : ¬ c.Closes targets addend) (summed : Summed c targets addend d) : EdgeAnswer c targets addend (.ok ()) d

theorem clash?_eq_some (h : c.clash? targets addend = some n) : n ∈ targets ∧ ∃ u ∈ addend, u ∈ c.successors n := by
  refine ⟨List.mem_of_find?_eq_some h, ?_⟩
  simpa using List.find?_some h

/-- Pending targets without entries of the addend are refused for a cycle only. -/
theorem WellFormed.attach_answer_of_free (h : c.WellFormed) (hchecked : c.config.checkInvariants = true)
    (hpending : ∀ n ∈ targets, c.Pending n) (hnodup : targets.Nodup) (hproper : c.Proper addend)
    (hclash : c.clash? targets addend = none) :
    EdgeAnswer c targets addend ((attach targets addend).run c).1 ((attach targets addend).run c).2 := by
  have hentries := clash?_eq_none_iff.1 hclash
  have hfree : ¬ c.Clashes targets addend := by
    rintro ⟨n, hn, u, hu, hin⟩
    exact hentries n hn u hu hin
  cases hr : c.reachesAny (Terms.nodes addend) targets with
  | some n =>
    obtain ⟨hn, hreach⟩ := reachesAny_eq_some hr
    have hedges : c.checkEdges targets addend = .error (.cycleDetected n) := by simp only [checkEdges, hclash, hr]
    rw [attach_of_checkEdges_error hchecked (find?_isReducedNode_eq_none hpending) hedges]
    exact .cycle hpending hfree hn hreach
  | none =>
    have hopen : ¬ c.Closes targets addend := by
      rintro ⟨t, ht, s, hs, hreach⟩
      exact reachesAny_eq_none_iff.1 hr t ht s hs hreach
    obtain ⟨d, hrun, hd, hj⟩ := h.attach_joined hpending hnodup hproper hopen hentries
    have hrewritten : Rewritten c targets ((attach targets addend).run c).2 := rewritten_attach
    rw [hrun] at hrewritten ⊢
    exact .done hpending hfree hopen (hj.summed hd hrewritten h.toLinked
      (fun n hn => (hpending n hn).1) hproper.toProper)

theorem WellFormed.attach_answer (h : c.WellFormed) (hchecked : c.config.checkInvariants = true)
    (hlive : ∀ n ∈ targets, c.Live n) (hnodup : targets.Nodup) (hproper : c.Proper addend) :
    EdgeAnswer c targets addend ((attach targets addend).run c).1 ((attach targets addend).run c).2 := by
  cases hfind : targets.find? c.isReducedNode with
  | some n =>
    have hn := List.mem_of_find?_eq_some hfind
    have hr : c.isReducedNode n = true := List.find?_some hfind
    rw [attach_of_reduced hfind]
    exact .reduced hn ⟨hlive n hn, hr⟩
  | none =>
    have hpending := pending_of_find?_eq_none hlive hfind
    cases hclash : c.clash? targets addend with
    | some n =>
      obtain ⟨hn, hentry⟩ := clash?_eq_some hclash
      have hedges : c.checkEdges targets addend = .error (.signOverflow n) := by simp only [checkEdges, hclash]
      rw [attach_of_checkEdges_error hchecked hfind hedges]
      exact .clash hpending hn hentry
    | none => exact h.attach_answer_of_free hchecked hpending hnodup hproper hclash

/-- The refusals, in the order in which they are given, with the reasons for them, and what is done where
there is none. -/
structure Exact (c : Circuit) (targets : List Node) (addend : List Term) (r : Except CircuitError Unit) (d : Circuit) :
    Prop where
  /-- Reduced targets come first. -/
  reduced : (∃ n, r = .error (.targetAlreadyReduced n)) ↔ ∃ n ∈ targets, c.Reduced n
  /-- Then come entries that are there already, -/
  clash : (∀ n ∈ targets, ¬ c.Reduced n) → ((∃ n, r = .error (.signOverflow n)) ↔ c.Clashes targets addend)
  /-- and then cycles, -/
  cycle : (∀ n ∈ targets, ¬ c.Reduced n) → ¬ c.Clashes targets addend →
    ((∃ n, r = .error (.cycleDetected n)) ↔ c.Cyclic (c.SumBelow targets addend))
  /-- for which it does not matter whether the edges that cancel out count. -/
  union : c.Cyclic (c.SumBelow targets addend) ↔ c.Cyclic (c.UnionBelow targets addend)
  /-- All else is done. -/
  done : (∀ n ∈ targets, ¬ c.Reduced n) → ¬ c.Clashes targets addend →
    ¬ c.Cyclic (c.SumBelow targets addend) → r = .ok ()
  summed : r = .ok () → Summed c targets addend d
  /-- A refusal names a target at fault and changes nothing. -/
  refused : ∀ e, r = .error e → d = c ∧ ∃ n ∈ targets, e = .targetAlreadyReduced n ∧ c.Reduced n ∨
    e = .signOverflow n ∧ (∃ u ∈ addend, u ∈ c.successors n) ∨
    e = .cycleDetected n ∧ Relation.TransGen (c.UnionBelow targets addend) n n

theorem EdgeAnswer.exact {r : Except CircuitError Unit} (h : EdgeAnswer c targets addend r d) (hc : c.Linked)
    (hlive : ∀ n ∈ targets, c.Live n) (hproper : c.Proper addend) : Exact c targets addend r d := by
  have hcyclic : c.Cyclic (c.SumBelow targets addend) ↔ c.Closes targets addend :=
    (hc.sumBelow_widens hlive hproper.toProper).exists_cycle_iff hc hlive hproper
  have hunion : c.Cyclic (c.SumBelow targets addend) ↔ c.Cyclic (c.UnionBelow targets addend) :=
    hcyclic.trans (unionBelow_widens.exists_cycle_iff hc hlive hproper).symm
  have hreduced : (∀ t ∈ targets, c.Pending t) → ¬ ∃ n ∈ targets, c.Reduced n :=
    fun hpending ⟨n, hn, hr⟩ => (hpending n hn).not_reduced hr
  cases h with
  | @reduced n hn hr =>
    have hnot : ¬ ∀ n ∈ targets, ¬ c.Reduced n := fun hall => hall n hn hr
    exact ⟨iff_of_true ⟨n, rfl⟩ ⟨n, hn, hr⟩, fun hall => absurd hall hnot, fun hall => absurd hall hnot, hunion,
      fun hall => absurd hall hnot, nofun, fun e he => ⟨rfl, n, hn, .inl ⟨(Except.error.inj he).symm, hr⟩⟩⟩
  | @clash n hpending hn hentry =>
    have hclashes : c.Clashes targets addend := ⟨n, hn, hentry⟩
    exact ⟨iff_of_false (by simp) (hreduced hpending), fun _ => iff_of_true ⟨n, rfl⟩ hclashes,
      fun _ hfree => absurd hclashes hfree, hunion, fun _ hfree => absurd hclashes hfree, nofun,
      fun e he => ⟨rfl, n, hn, .inr (.inl ⟨(Except.error.inj he).symm, hentry⟩)⟩⟩
  | @cycle n hpending hfree hn hreach =>
    obtain ⟨s, hs, hreach⟩ := hreach
    have hcloses : c.Cyclic (c.SumBelow targets addend) := hcyclic.2 ⟨n, hn, s, hs, hreach⟩
    have hpath : Relation.ReflTransGen (c.UnionBelow targets addend) n s :=
      Relation.ReflTransGen.mono (fun _ _ => .inl) _ _ hreach
    exact ⟨iff_of_false (by simp) (hreduced hpending), fun _ => iff_of_false (by simp) hfree,
      fun _ _ => iff_of_true ⟨n, rfl⟩ hcloses, hunion, fun _ _ hopen => absurd hcloses hopen, nofun,
      fun e he => ⟨rfl, n, hn, .inr (.inr ⟨(Except.error.inj he).symm, .tail' hpath (.inr ⟨hn, hs⟩)⟩)⟩⟩
  | done hpending hfree hopen hsummed =>
    exact ⟨iff_of_false (by simp) (hreduced hpending), fun _ => iff_of_false (by simp) hfree,
      fun _ _ => iff_of_false (by simp) (hcyclic.not.2 hopen), hunion, fun _ _ _ => rfl, fun _ => hsummed, nofun⟩

/-! ## The way back -/

/-- Every digit is as it was. The exponents of the targets may be written in another order. -/
structure Restored (c : Circuit) (targets : List Node) (e : Circuit) : Prop extends WellFormed e,
    Rewritten c targets e where
  digit : ∀ n q, Terms.digit q (e.successors n) = Terms.digit q (c.successors n)

/-- No digit that was just added to is the opposite of what was added. -/
theorem Summed.not_clashes (h : Summed c targets addend d) (hlive : ∀ n ∈ targets, c.Live n)
    (haddend : Terms.Proper addend) : ¬ d.Clashes targets (Terms.flip addend) := by
  rintro ⟨n, hn, u, hu, hin⟩
  obtain ⟨⟨q, s⟩, hmem, rfl⟩ := List.mem_map.1 hu
  have hs : s ≠ .zero := haddend.nonzero _ hmem
  have hproper := h.exponents n (h.toRewritten.live_iff.2 (hlive n hn))
  have hdigit := h.digit n hn q
  rw [(hproper.digit_eq_iff (Sign.neg_ne_zero hs)).2 hin, (haddend.digit_eq_iff hs).2 hmem, Sign.toInt_neg] at hdigit
  exact Sign.neg_ne_add hs hdigit

theorem Summed.not_closes (h : Summed c targets addend d) (hlive : ∀ n ∈ targets, c.Live n) (hproper : c.Proper addend)
    (hopen : ¬ c.Closes targets addend) : ¬ d.Closes targets (Terms.flip addend) := by
  rintro ⟨_, ht, s, hs, hreach⟩
  rw [Terms.nodes_flip] at hs
  have hkept : ∀ n, d.Live n → n ∉ targets → ∀ q, d.Below q n → c.Below q n := fun n hn hnot q hq => by
    rwa [Below, successorNodes, h.successors_eq hlive (h.toRewritten.live_iff.1 hn) hnot] at hq
  obtain ⟨t, ht, -, hpath⟩ := exists_surviving_path (fun _ _ => h.toLinked.live_of_below) hkept ht
    (h.toRewritten.live_iff.2 (hproper.live s hs)) hreach
  exact hopen ⟨t, ht, s, hs, hpath⟩

theorem Summed.restored (h : Summed c targets addend d) (h' : Summed d targets (Terms.flip addend) e) :
    Restored c targets e where
  toWellFormed := h'.toWellFormed
  toRewritten := h.toRewritten.trans h'.toRewritten
  digit := fun n q => by
    by_cases hn : ∃ t ∈ targets, t.index = n.index
    · -- a name stands for its place
      obtain ⟨t, ht, hi⟩ := hn
      have hsame : ∀ x : Circuit, x.successors n = x.successors t :=
        fun x => by rw [successors, successors, slot, slot, hi]
      have hsum := h.digit t ht q
      have hsum' := h'.digit t ht q
      rw [Terms.digit_flip, Sign.toInt_neg] at hsum'
      rw [hsame, hsame]
      exact Sign.toInt_inj (by omega)
    · have hother := (h.toRewritten.trans h'.toRewritten).other n.index fun t ht hi => hn ⟨t, ht, hi⟩
      exact congrArg (Terms.digit q) hother

/-- What was added can be taken away at once. -/
theorem EdgeAnswer.undo (h : EdgeAnswer c targets addend (.ok ()) d) (hnodup : targets.Nodup)
    (hproper : c.Proper addend) :
    ∃ e, (attach targets (Terms.flip addend)).run d = (.ok (), e) ∧ Restored c targets e := by
  cases h with
  | done hpending _ hopen hsummed =>
    have hlive : ∀ n ∈ targets, c.Live n := fun n hn => (hpending n hn).1
    have hlive' : ∀ n ∈ targets, d.Live n := fun n hn => hsummed.toRewritten.live_iff.2 (hlive n hn)
    have hproper' : d.Proper (Terms.flip addend) := (hproper.mono fun n hn => hsummed.toRewritten.live_iff.2 hn).flip
    have hfree := hsummed.not_clashes hlive hproper.toProper
    obtain ⟨e, hrun, he, hj⟩ := hsummed.toWellFormed.attach_joined
      (fun n hn => hsummed.toRewritten.pending_iff.2 (hpending n hn)) hnodup hproper'
      (hsummed.not_closes hlive hproper hopen) fun n hn u hu hin => hfree ⟨n, hn, u, hu, hin⟩
    have hrewritten : Rewritten d targets ((attach targets (Terms.flip addend)).run d).2 := rewritten_attach
    rw [hrun] at hrewritten
    exact ⟨e, hrun, hsummed.restored (hj.summed he hrewritten hsummed.toLinked hlive' hproper'.toProper)⟩

/-! ## Connecting markings -/

/-- Dividing for multiplying, and multiplying for dividing. -/
def Scale.opposite : Scale → Scale
  | .multiply => .divide
  | .divide => .multiply

theorem Scale.entries_opposite {s : Scale} : s.opposite.entries ts = Terms.flip (s.entries ts) := by
  cases s with
  | multiply => rfl
  | divide => exact (Terms.flip_flip ts).symm

/-- Connecting is exact: it is refused for a reduced target, else for an entry that is there already, else for a cycle,
and for nothing else. All else adds the digits, and the opposite call takes them away again. -/
theorem connect_is_exact {m p : Marking} (h : c.WellFormed) (hchecked : c.config.checkInvariants = true) (s : Scale)
    (hown : m.circuit = c.id) (hown' : p.circuit = c.id) (hm : 0 < (c.cellAt m.id).handles)
    (hp : 0 < (c.cellAt p.id).handles) :
    Exact c (c.nodesOf m) (s.entries (c.termsOf p)) ((s.connect m p).run c).1 ((s.connect m p).run c).2 ∧
      ∀ d, (s.connect m p).run c = (.ok (), d) →
        ∃ e, (s.opposite.connect m p).run d = (.ok (), e) ∧ Restored c (c.nodesOf m) e := by
  have hlive : ∀ n ∈ c.nodesOf m, c.Live n := (h.markings m.id hm).live
  have hnodup : (c.nodesOf m).Nodup := (h.markings m.id hm).nodup
  have hproper : c.Proper (s.entries (c.termsOf p)) := Scale.proper_entries (h.markings p.id hp)
  have hanswer := h.attach_answer hchecked hlive hnodup hproper
  rw [Scale.run_connect hown hown']
  refine ⟨hanswer.exact h.toLinked hlive hproper, fun d hrun => ?_⟩
  have hrewritten : Rewritten c (c.nodesOf m) ((attach (c.nodesOf m) (s.entries (c.termsOf p))).run c).2 :=
    rewritten_attach
  rw [hrun] at hanswer hrewritten
  have hid : d.id = c.id := congrArg (·.id) hrewritten.store
  have hcells : d.cells = c.cells := congrArg (·.cells) hrewritten.store
  have hterms : ∀ k, d.termsOf k = c.termsOf k := fun k => by rw [termsOf, cellAt_of_cells_eq hcells]; rfl
  obtain ⟨e, hundo, he⟩ := hanswer.undo hnodup hproper
  refine ⟨e, ?_, he⟩
  rw [Scale.run_connect (hown.trans hid.symm) (hown'.trans hid.symm), Scale.entries_opposite, hterms, nodesOf, hterms]
  exact hundo

/-- A node of worth one, and one that is worth two to the power of minus that, with a marking for each. -/
def halfAndOne : Circuit :=
  let c := ((empty ⟨0⟩ .checked).alloc []).2
  let c := (c.alloc [(⟨⟨0⟩, 0, 0⟩, .minus)]).2
  let c := (c.newMarking [(⟨⟨0⟩, 1, 0⟩, .plus)]).2
  (c.newMarking [(⟨⟨0⟩, 0, 0⟩, .plus)]).2

theorem wellFormed_halfAndOne : halfAndOne.WellFormed := by
  have h : ((empty ⟨0⟩ .checked).alloc []).2.WellFormed := (wellFormed_empty ⟨0⟩ .checked).alloc proper_nil
  refine ((h.alloc ⟨⟨by decide, by decide⟩, ?_⟩).newMarking ⟨⟨by decide, by decide⟩, ?_⟩).newMarking
    ⟨⟨by decide, by decide⟩, ?_⟩
  all_goals exact List.forall_mem_singleton.2 ⟨rfl, rfl, rfl⟩

/-- The one has no successors, and so does not depend on the half. -/
theorem not_closes_halfAndOne : ¬ halfAndOne.Closes (halfAndOne.nodesOf ⟨⟨0⟩, 0⟩) (halfAndOne.termsOf ⟨⟨0⟩, 1⟩) := by
  rintro ⟨t, ht, s, hs, hreach⟩
  obtain rfl : t = ⟨⟨0⟩, 1, 0⟩ := List.mem_singleton.1 ht
  obtain rfl : s = ⟨⟨0⟩, 0, 0⟩ := List.mem_singleton.1 hs
  rcases hreach.cases_tail with heq | ⟨_, -, hb⟩
  · cases heq
  · cases hb

/-- The half may be multiplied by two, so that its edge goes, but not divided; and the one may not be multiplied by a
power of the half. -/
theorem connect_half_and_one : halfAndOne.WellFormed ∧
    (∃ d e, (connect ⟨⟨0⟩, 0⟩ ⟨⟨0⟩, 1⟩).run halfAndOne = (.ok (), d) ∧
      Terms.digit ⟨⟨0⟩, 0, 0⟩ (d.successors ⟨⟨0⟩, 1, 0⟩) = .zero ∧
      (connectInverse ⟨⟨0⟩, 0⟩ ⟨⟨0⟩, 1⟩).run d = (.ok (), e) ∧
      Terms.digit ⟨⟨0⟩, 0, 0⟩ (e.successors ⟨⟨0⟩, 1, 0⟩) = .minus) ∧
    (∃ n, ((connectInverse ⟨⟨0⟩, 0⟩ ⟨⟨0⟩, 1⟩).run halfAndOne).1 = .error (.signOverflow n)) ∧
    ∃ n, ((connect ⟨⟨0⟩, 1⟩ ⟨⟨0⟩, 0⟩).run halfAndOne).1 = .error (.cycleDetected n) := by
  have hhalf : ∀ n ∈ halfAndOne.nodesOf ⟨⟨0⟩, 0⟩, ¬ halfAndOne.Reduced n := by decide
  have hone : ∀ n ∈ halfAndOne.nodesOf ⟨⟨0⟩, 1⟩, ¬ halfAndOne.Reduced n := by decide
  obtain ⟨htwice, hundo⟩ := connect_is_exact wellFormed_halfAndOne rfl .multiply (m := ⟨⟨0⟩, 0⟩) (p := ⟨⟨0⟩, 1⟩)
    rfl rfl (by decide) (by decide)
  obtain ⟨hhalved, -⟩ := connect_is_exact wellFormed_halfAndOne rfl .divide (m := ⟨⟨0⟩, 0⟩) (p := ⟨⟨0⟩, 1⟩)
    rfl rfl (by decide) (by decide)
  obtain ⟨hcycle, -⟩ := connect_is_exact wellFormed_halfAndOne rfl .multiply (m := ⟨⟨0⟩, 1⟩) (p := ⟨⟨0⟩, 0⟩)
    rfl rfl (by decide) (by decide)
  refine ⟨wellFormed_halfAndOne, ?_, (hhalved.clash hhalf).2 (by decide), (hcycle.cycle hone (by decide)).2 ?_⟩
  · have hlive : ∀ n ∈ halfAndOne.nodesOf ⟨⟨0⟩, 0⟩, halfAndOne.Live n := by decide
    have hproper := wellFormed_halfAndOne.markings 1 (by decide)
    have hwidens := wellFormed_halfAndOne.toLinked.sumBelow_widens hlive hproper.toProper
    have hok := htwice.done hhalf (by decide) fun hcyclic =>
      not_closes_halfAndOne ((hwidens.exists_cycle_iff wellFormed_halfAndOne.toLinked hlive hproper).1 hcyclic)
    have hsummed := htwice.summed hok
    obtain ⟨e, hback, he⟩ := hundo _ (Prod.ext hok rfl)
    have hdigit := hsummed.digit ⟨⟨0⟩, 1, 0⟩ (by decide) ⟨⟨0⟩, 0, 0⟩
    exact ⟨_, e, Prod.ext hok rfl, Sign.toInt_inj hdigit, hback, he.digit ⟨⟨0⟩, 1, 0⟩ ⟨⟨0⟩, 0, 0⟩⟩
  · exact ⟨⟨⟨0⟩, 0, 0⟩, by decide, .tail (b := ⟨⟨0⟩, 1, 0⟩) (.single (by decide)) (by decide)⟩

end PowerTower.Circuit
