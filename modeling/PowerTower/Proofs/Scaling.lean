import Mathlib
import PowerTower.Proofs.Joining
import PowerTower.Proofs.Markings

/-!
# Multiplying by powers

A marking is multiplied by two to the power of another one by connecting a clone of it.

* `Scaled`, `WellFormed.scaled` : the clone is worth the product, and what was there before is left alone;
* `Scaled.legal_of_exponent`, `Scaled.reduce` : where no exponent of the clone is negative, its nodes are legal, and it
  is reduced with an integer for its worth;
* `Scale`, `clone_scales` : the law for multiplying and for dividing, with the refusal where an entry is there already.
-/

namespace PowerTower.Circuit

open Guards

variable {c d e : Circuit} {k m p : Marking} {n : Node} {targets : List Node} {ts us addend : List Term}

/-- A clone of `m` whose exponents got an addend. What was there before is left alone. -/
structure Scaled (c : Circuit) (m : Marking) (addend : List Term) (k : Marking) (e : Circuit) : Prop extends
    WellFormed e where
  untouched : c.Untouched e
  own : k.circuit = c.id
  held : 0 < (e.cellAt k.id).handles
  new : ¬ 0 < (c.cellAt k.id).handles
  pending : ∀ n ∈ e.nodesOf k, e.Pending n
  live : ∀ n, e.Live n → c.Live n ∨ n ∈ e.nodesOf k
  exponent : ∀ n ∈ e.nodesOf k, ∃ t ∈ c.nodesOf m,
    e.termsWorth (e.successors n) = c.termsWorth (c.successors t) + c.termsWorth addend
  below : ∀ n ∈ e.nodesOf k, ∀ b, e.Below b n → (∃ t ∈ c.nodesOf m, c.Below b t) ∨ b ∈ Terms.nodes addend
  worth : e.termsWorth (e.termsOf k) = c.termsWorth (c.termsOf m) * 2 ^ c.termsWorth addend

/-! ## The product -/

/-- What an untouched node depends on was there before. -/
theorem Untouched.live_of_reaches (h : c.Untouched d) (hc : c.Linked) {s t : Node} (hs : c.Live s)
    (hreach : Relation.ReflTransGen d.Below t s) : c.Live t := by
  induction hreach using Relation.ReflTransGen.head_induction_on with
  | refl => exact hs
  | head hb _ hlive =>
    rw [Below, successorNodes, h.successors _ hlive] at hb
    exact hc.live_of_below hlive hb

theorem Twins.not_closes (h : Twins c ts us d) (hc : c.Linked) (hlive : ∀ n ∈ Terms.nodes addend, c.Live n) :
    ¬ d.Closes (Terms.nodes us) addend := fun ⟨_, ht, s, hs, hreach⟩ =>
  h.not_live ht (h.untouched.live_of_reaches hc (hlive s hs) hreach)

/-- Where only twins get new entries, what was there before is left alone. -/
theorem Twins.joined_untouched (h : Twins c ts us d) (hj : Joined d (Terms.nodes us) addend e) : c.Untouched e where
  id := hj.id.trans h.untouched.id
  config := hj.config.trans h.untouched.config
  live := fun n hn => (hj.live n).2 (h.untouched.live n hn)
  successors := fun n hn =>
    (hj.other n (h.untouched.live n hn) fun hmem => h.not_live hmem hn).trans (h.untouched.successors n hn)
  pending := fun n hn => (hj.pending n).trans (h.untouched.pending n hn)
  cells := fun i hi => (cellAt_of_cells_eq hj.cells i).trans (h.untouched.cells i hi)

/-- The exponent of a twin that got an addend. -/
theorem Twin.joined_exponent {t u : Term} (h : Twin c d t u) (hc : c.Linked) (hu : c.Untouched e)
    (hj : Joined d targets addend e) (ht : c.Live t.1) (hmem : u.1 ∈ targets)
    (haddend : ∀ n ∈ Terms.nodes addend, c.Live n) :
    e.termsWorth (e.successors u.1) = c.termsWorth (c.successors t.1) + c.termsWorth addend := by
  rw [termsWorth, hj.target u.1 hmem, h.successors]
  exact congrArg₂ (· + ·) (hu.termsWorth_eq hc fun n hn => hc.live_of_below ht hn) (hu.termsWorth_eq hc haddend)

/-- A clone is connected to terms over nodes that were there before, unless the exponents hold one of them already. -/
theorem Cloned.attach (h : Cloned c m k d) (hc : c.WellFormed) (hm : 0 < (c.cellAt m.id).handles)
    (haddend : c.Proper addend) (hfree : ∀ n ∈ c.nodesOf m, ∀ u ∈ addend, u ∉ c.successors n) :
    ∃ e, (attach (d.nodesOf k) addend).run d = (.ok (), e) ∧ Scaled c m addend k e := by
  have hlive : ∀ t ∈ c.termsOf m, c.Live t.1 := fun t ht => (hc.markings m.id hm).live t.1 (Terms.mem_nodes_of_mem ht)
  have hfree' : ∀ n ∈ d.nodesOf k, ∀ u ∈ addend, u ∉ d.successors n := fun n hn => by
    obtain ⟨t, ht, s, htwin⟩ := h.exists_twin hn
    rw [htwin.successors]
    exact hfree t.1 (Terms.mem_nodes_of_mem ht)
  obtain ⟨e, hrun, he, hj⟩ := h.wellFormed.attach_joined (fun n hn => h.pending hn) h.proper.nodup
    (h.untouched.proper haddend)
    (h.not_closes hc.toLinked haddend.live) hfree'
  have hu := h.joined_untouched hj
  have hnodes : e.nodesOf k = d.nodesOf k := by rw [nodesOf, termsOf, cellAt_of_cells_eq hj.cells]; rfl
  refine ⟨e, hrun, he, hu, h.own, ?_, h.new, fun n hn => ?_, fun n hn => ?_, fun n hn => ?_,
    fun n hn b hb => ?_, ?_⟩
  · rw [cellAt_of_cells_eq hj.cells]
    exact h.held
  · rw [hnodes] at hn
    exact (hj.pending n).2 (h.pending hn)
  · rw [hnodes]
    exact h.live n ((hj.live n).1 hn)
  · rw [hnodes] at hn
    obtain ⟨t, ht, s, htwin⟩ := h.exists_twin hn
    exact ⟨t.1, Terms.mem_nodes_of_mem ht, htwin.joined_exponent hc.toLinked hu hj (hlive t ht) hn haddend.live⟩
  · rw [hnodes] at hn
    obtain ⟨t, ht, s, htwin⟩ := h.exists_twin hn
    refine (hj.below n hn b hb).imp_left fun hb => ⟨t.1, Terms.mem_nodes_of_mem ht, ?_⟩
    rwa [Below, successorNodes, ← htwin.successors]
  · rw [termsOf, cellAt_of_cells_eq hj.cells]
    refine sum_of_twins h.twin fun t ht u hmem htwin => ?_
    have hacc : Acc e.Below u.1 := he.acc ((hj.live u.1).2 htwin.pending.1)
    rw [worth_eq hacc, worth_eq (hc.acc (hlive t ht)), ← Real.rpow_add two_pos]
    exact congrArg _ (htwin.joined_exponent hc.toLinked hu hj (hlive t ht) (Terms.mem_nodes_of_mem hmem) haddend.live)

/-! ## The reduced product -/

/-- A node of the clone is legal as soon as its exponent is not negative. -/
theorem Scaled.legal_of_exponent (h : Scaled c m addend k e) (hc : c.Linked) (hlive : ∀ n ∈ c.nodesOf m, c.Live n)
    (hm : ∀ n ∈ c.nodesOf m, c.Legal n) (haddend : c.Proper addend) (hlegal : ∀ n ∈ Terms.nodes addend, c.Legal n)
    (hn : n ∈ e.nodesOf k) (hexponent : 0 ≤ e.termsWorth (e.successors n)) : e.Legal n := by
  have hacc : Acc e.Below n := h.acc (h.pending n hn).1
  refine legal_of_one_le_worth (fun b hb => ?_) hacc ?_
  · rcases h.below n hn b hb with ⟨t, ht, hb⟩ | hb
    · exact h.untouched.legal hc (hc.live_of_below (hlive t ht) hb) ((hm t ht).of_below b hb)
    · exact h.untouched.legal hc (haddend.live b hb) (hlegal b hb)
  · rw [worth_eq hacc]
    exact Real.one_le_rpow one_le_two hexponent

theorem Scaled.counts (h : Scaled c m addend k e) {v : ℤ} (hv : e.termsWorth (e.termsOf k) = v) : e.Counts k v :=
  ⟨h.own.trans h.untouched.id.symm, h.held, hv⟩

/-- A marking whose pending nodes are all reduced by a call is reduced by it, and keeps its worth. -/
theorem WellFormed.reduce_marks (h : c.WellFormed) (call : ReduceCall) (hheld : ∀ m ∈ call.handles, c.Held m)
    (haccepted : call.Accepted c) (hlegal : ∀ n, call.Frontier c n → c.Legal n) {v : ℤ} (hk : c.Counts k v)
    (hpending : ∀ n ∈ c.nodesOf k, c.Pending n → call.Frontier c n) :
    ∃ d, call.run.run c = (.ok (), d) ∧ d.WellFormed ∧ d.Marks k v := by
  obtain ⟨sorted, d, hrun, hmem, hreduces, hpreserves⟩ := h.reduce_preserves call hheld haccepted hlegal
  exact ⟨d, hrun, ⟨hpreserves.consistent, hreduces.sound.toStored⟩,
    hk.marks hreduces hpreserves fun n hn hp => (hmem n).2 (hpending n hn hp)⟩

theorem Scaled.reduceMarkings (h : Scaled c m addend k e) (hlegal : ∀ n ∈ e.nodesOf k, e.Legal n) {v : ℤ}
    (hv : e.termsWorth (e.termsOf k) = v) :
    ∃ f, (reduceMarkings [k]).run e = (.ok (), f) ∧ f.WellFormed ∧ f.Marks k v := by
  refine h.reduce_marks (.markings [k]) (fun m hm _ => ?_) (fun m hm => ?_) ?_ (h.counts hv)
    (fun n hn hp => ⟨hp, k, by simp, n, hn, .refl⟩)
  · rw [List.mem_singleton.1 hm]
    exact h.held
  · rw [List.mem_singleton.1 hm]
    exact (h.counts hv).own
  · rintro n ⟨-, m, hm, r, hr, hreach⟩
    rw [List.mem_singleton.1 hm] at hr
    exact (hlegal r hr).of_reaches hreach

theorem Scaled.reduce (h : Scaled c m addend k e) (hlegal : ∀ n, e.Pending n → e.Legal n) {v : ℤ}
    (hv : e.termsWorth (e.termsOf k) = v) :
    ∃ f, reduce.run e = (.ok (), f) ∧ f.WellFormed ∧ f.Marks k v :=
  h.reduce_marks .all (by simp [ReduceCall.handles]) trivial hlegal (h.counts hv) fun _ _ hp => hp

/-! ## The law -/

/-- The two ways to scale a marking by two to the power of another one. -/
inductive Scale where
  | multiply
  | divide
deriving DecidableEq, Repr

namespace Scale

/-- The call that scales. -/
def connect : Scale → Marking → Marking → Call CircuitError Unit
  | multiply => Circuit.connect
  | divide => connectInverse

/-- What is added to the exponents. -/
def entries : Scale → List Term → List Term
  | multiply, ts => ts
  | divide, ts => Terms.flip ts

/-- The power of two that the marking is multiplied by. -/
def power : Scale → ℤ → ℤ
  | multiply, v => v
  | divide, v => -v

variable {s : Scale}

theorem run_connect (hk : k.circuit = c.id) (hp : p.circuit = c.id) :
    (s.connect k p).run c = (attach (c.nodesOf k) (s.entries (c.termsOf p))).run c := by
  cases s with
  | multiply | divide => exact (run_own hk).trans (run_own hp)

theorem nodes_entries : Terms.nodes (s.entries ts) = Terms.nodes ts := by
  cases s with
  | multiply => rfl
  | divide => exact Terms.nodes_flip ts

theorem proper_entries (h : c.Proper ts) : c.Proper (s.entries ts) := by
  cases s with
  | multiply => exact h
  | divide => exact h.flip

theorem termsWorth_entries {v : ℤ} (h : c.termsWorth ts = v) : c.termsWorth (s.entries ts) = (s.power v : ℤ) := by
  cases s with
  | multiply => exact h
  | divide =>
    rw [power, Int.cast_neg, ← h]
    exact Terms.sum_flip c.worth ts

/-- What scaling a clone `k` of `m` by `p` comes to. -/
structure Law (s : Scale) (c : Circuit) (m p k : Marking) (e : Circuit) : Prop extends WellFormed e where
  /-- What was there before keeps its entries, -/
  untouched : c.Untouched e
  /-- and its worth. -/
  worth_kept : (∀ n, c.Live n → e.worth n = c.worth n) ∧
    ∀ i, 0 < (c.cellAt i).handles → e.termsWorth (e.cellAt i).terms = c.termsWorth (c.cellAt i).terms
  own : k.circuit = e.id
  held : 0 < (e.cellAt k.id).handles
  /-- The worth of the clone is the scaled one. It is an integer, in a reduced marking, after the clone has been reduced
  where its exponents are not negative. -/
  scaled : ∃ a v : ℤ, c.termsWorth (c.termsOf m) = a ∧ c.termsWorth (c.termsOf p) = v ∧
    e.termsWorth (e.termsOf k) = (a * 2 ^ s.power v : ℚ) ∧
    ((∀ n ∈ e.nodesOf k, 0 ≤ e.termsWorth (e.successors n)) → ∃ w : ℤ, w = (a * 2 ^ s.power v : ℚ) ∧
      (∃ f, (reduceMarkings [k]).run e = (.ok (), f) ∧ f.WellFormed ∧ f.Marks k w) ∧
      ((∀ n, e.Pending n → e.Legal n) → ∃ f, reduce.run e = (.ok (), f) ∧ f.WellFormed ∧ f.Marks k w))

end Scale

theorem Scaled.law {s : Scale} (h : Scaled c m (s.entries (c.termsOf p)) k e) (hc : c.WellFormed)
    (hm : 0 < (c.cellAt m.id).handles) (hp : 0 < (c.cellAt p.id).handles) (hlegal : ∀ n ∈ c.nodesOf m, c.Legal n)
    (hlegal' : ∀ n ∈ c.nodesOf p, c.Legal n) : s.Law c m p k e := by
  have hc' := hc.toLinked
  obtain ⟨a, ha⟩ := exists_int_termsWorth hlegal
  obtain ⟨v, hv⟩ := exists_int_termsWorth hlegal'
  have hproduct : e.termsWorth (e.termsOf k) = (a * 2 ^ s.power v : ℚ) := by
    rw [h.worth, ha, Scale.termsWorth_entries hv, Real.rpow_intCast]
    push_cast
    rfl
  refine ⟨h.toWellFormed, h.untouched, ⟨fun n hn => h.untouched.worth_eq hc' hn, fun i hi => ?_⟩,
    h.own.trans h.untouched.id.symm, h.held, a, v, ha, hv, hproduct, fun hexponents => ?_⟩
  · rw [h.untouched.cells i hi]
    exact h.untouched.termsWorth_eq hc' (hc.markings i hi).live
  · have hlegal'' : ∀ n ∈ e.nodesOf k, e.Legal n := fun n hn =>
      h.legal_of_exponent hc' (hc.markings m.id hm).live hlegal (Scale.proper_entries (hc.markings p.id hp))
        (fun n hn => hlegal' n (by rwa [Scale.nodes_entries] at hn)) hn (hexponents n hn)
    obtain ⟨w, hw⟩ := exists_int_termsWorth hlegal''
    refine ⟨w, by exact_mod_cast hw.symm.trans hproduct, h.reduceMarkings hlegal'' hw, fun hpending =>
      h.reduce hpending hw⟩

/-- A clone of a marking is multiplied, or divided, by two to the power of another marking, and nothing that was there
before changes. Where the exponent of a node holds one of the entries already, a circuit that checks itself refuses
that, and is left as it was. -/
theorem clone_scales (h : c.WellFormed) (s : Scale) (hown : m.circuit = c.id) (hown' : p.circuit = c.id)
    (hm : 0 < (c.cellAt m.id).handles) (hp : 0 < (c.cellAt p.id).handles) (hlegal : ∀ n ∈ c.nodesOf m, c.Legal n)
    (hlegal' : ∀ n ∈ c.nodesOf p, c.Legal n) :
    ∃ k d, (cloneMarking m).run c = (.ok k, d) ∧ Cloned c m k d ∧
      ((∀ n ∈ c.nodesOf m, ∀ u ∈ s.entries (c.termsOf p), u ∉ c.successors n) →
        ∃ e, (s.connect k p).run d = (.ok (), e) ∧ s.Law c m p k e) ∧
      ((∃ n ∈ c.nodesOf m, ∃ u ∈ s.entries (c.termsOf p), u ∈ c.successors n) → c.config.checkInvariants = true →
        ∃ t ∈ d.nodesOf k, (s.connect k p).run d = (.error (.signOverflow t), d)) := by
  obtain ⟨k, d, hrun, hk⟩ := h.cloneMarking hown hm
  have hterms : d.termsOf p = c.termsOf p := hk.untouched.termsOf_eq hp
  have hconnect : (s.connect k p).run d = (attach (d.nodesOf k) (s.entries (c.termsOf p))).run d := by
    rw [Scale.run_connect (hk.own.trans hk.untouched.id.symm) (hown'.trans hk.untouched.id.symm), hterms]
  refine ⟨k, d, hrun, hk, fun hfree => ?_, fun ⟨n, hn, u, hu, hin⟩ hchecked => ?_⟩
  · obtain ⟨e, hattach, he⟩ := hk.attach h hm (Scale.proper_entries (h.markings p.id hp)) hfree
    exact ⟨e, hconnect.trans hattach, he.law h hm hp hlegal hlegal'⟩
  · obtain ⟨b, hb, hin'⟩ := hk.exists_of_mem hn
    rw [hconnect]
    exact attach_clashes (hk.untouched.config ▸ hchecked) (fun n hn => hk.pending hn) hb hu (hin' ▸ hin)

/-- A node of worth one and one of worth two, with the marking of the second node less the first one, and the marking of
minus one. -/
def twoLessOne : Circuit :=
  let c := ((empty ⟨0⟩ .checked).alloc []).2
  let c := (c.alloc [(⟨⟨0⟩, 0, 0⟩, .plus)]).2
  let c := (c.newMarking [(⟨⟨0⟩, 1, 0⟩, .plus), (⟨⟨0⟩, 0, 0⟩, .minus)]).2
  (c.newMarking [(⟨⟨0⟩, 0, 0⟩, .minus)]).2

theorem wellFormed_twoLessOne : twoLessOne.WellFormed := by
  have h : ((empty ⟨0⟩ .checked).alloc []).2.WellFormed := (wellFormed_empty ⟨0⟩ .checked).alloc proper_nil
  refine ((h.alloc ⟨⟨by decide, by decide⟩, ?_⟩).newMarking ⟨⟨by decide, by decide⟩, ?_⟩).newMarking
    ⟨⟨by decide, by decide⟩, ?_⟩
  · exact List.forall_mem_singleton.2 ⟨rfl, rfl, rfl⟩
  · exact List.forall_mem_cons.2 ⟨⟨rfl, rfl, rfl⟩, List.forall_mem_singleton.2 ⟨rfl, rfl, rfl⟩⟩
  · exact List.forall_mem_singleton.2 ⟨rfl, rfl, rfl⟩

theorem worth_twoLessOne : twoLessOne.worth ⟨⟨0⟩, 0, 0⟩ = 1 ∧ twoLessOne.worth ⟨⟨0⟩, 1, 0⟩ = 2 := by
  have hone : twoLessOne.worth ⟨⟨0⟩, 0, 0⟩ = 1 := worth_of_successors_eq_nil rfl
  have hsuccessors : twoLessOne.successors ⟨⟨0⟩, 1, 0⟩ = [(⟨⟨0⟩, 0, 0⟩, .plus)] := rfl
  refine ⟨hone, ?_⟩
  rw [worth_eq (wellFormed_twoLessOne.acc ⟨rfl, rfl, rfl⟩), hsuccessors, termsWorth]
  simp [hone]

theorem legal_twoLessOne : twoLessOne.Legal ⟨⟨0⟩, 0, 0⟩ ∧ twoLessOne.Legal ⟨⟨0⟩, 1, 0⟩ := by
  have hacc := fun n hn => wellFormed_twoLessOne.acc (n := n) hn
  have hone : twoLessOne.Legal ⟨⟨0⟩, 0, 0⟩ :=
    legal_of_one_le_worth (fun m hm => by cases hm) (hacc _ ⟨rfl, rfl, rfl⟩) worth_twoLessOne.1.ge
  refine ⟨hone, legal_of_one_le_worth (fun m hm => ?_) (hacc _ ⟨rfl, rfl, rfl⟩) ?_⟩
  · rw [List.mem_singleton.1 hm]
    exact hone
  · rw [worth_twoLessOne.2]
    exact one_le_two

/-- Times one half: the exponent of the clone of the second node cancels out, and that of the first is minus one. -/
theorem clone_of_two_less_one : twoLessOne.WellFormed ∧ (∀ n ∈ twoLessOne.nodesOf ⟨⟨0⟩, 0⟩, twoLessOne.Legal n) ∧
    (∀ n ∈ twoLessOne.nodesOf ⟨⟨0⟩, 1⟩, twoLessOne.Legal n) ∧
    ∃ k d e, (cloneMarking ⟨⟨0⟩, 0⟩).run twoLessOne = (.ok k, d) ∧ (connect k ⟨⟨0⟩, 1⟩).run d = (.ok (), e) ∧
      e.termsWorth (e.termsOf k) = 2⁻¹ := by
  obtain ⟨hone, htwo⟩ := worth_twoLessOne
  obtain ⟨hlegal, hlegal'⟩ := legal_twoLessOne
  have hm : ∀ n ∈ twoLessOne.nodesOf ⟨⟨0⟩, 0⟩, twoLessOne.Legal n :=
    List.forall_mem_cons.2 ⟨hlegal', List.forall_mem_singleton.2 hlegal⟩
  have hp : ∀ n ∈ twoLessOne.nodesOf ⟨⟨0⟩, 1⟩, twoLessOne.Legal n := List.forall_mem_singleton.2 hlegal
  obtain ⟨k, d, hrun, -, hscales, -⟩ := clone_scales wellFormed_twoLessOne .multiply (m := ⟨⟨0⟩, 0⟩) (p := ⟨⟨0⟩, 1⟩)
    rfl rfl (by decide) (by decide) hm hp
  obtain ⟨e, hconnect, he⟩ := hscales (by decide)
  obtain ⟨a, v, ha, hv, hk, -⟩ := he.scaled
  have hm' : twoLessOne.termsOf ⟨⟨0⟩, 0⟩ = [(⟨⟨0⟩, 1, 0⟩, .plus), (⟨⟨0⟩, 0, 0⟩, .minus)] := rfl
  have hp' : twoLessOne.termsOf ⟨⟨0⟩, 1⟩ = [(⟨⟨0⟩, 0, 0⟩, .minus)] := rfl
  have ha' : a = 1 := by
    rw [hm', termsWorth, Terms.sum_cons, Terms.sum_cons, Terms.sum_nil, htwo, hone] at ha
    norm_num [Sign.toInt] at ha
    exact_mod_cast ha.symm
  have hv' : v = -1 := by
    rw [hp', termsWorth, Terms.sum_cons, Terms.sum_nil, hone] at hv
    norm_num [Sign.toInt] at hv
    exact_mod_cast hv.symm
  refine ⟨wellFormed_twoLessOne, hm, hp, k, d, e, hrun, hconnect, ?_⟩
  rw [hk, ha', hv', Scale.power]
  norm_num

end PowerTower.Circuit
