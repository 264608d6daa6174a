import Mathlib
import PowerTower.Proofs.Operations
import PowerTower.Proofs.Scaling

/-!
# Circuits of legal nodes

* `Integral` : well formed, and all nodes are legal, so that every marking is worth an integer;
* `Kept` : the live markings stay live, keep their worth, and stay reduced if they were;
* `Made` : a new marking of an integer, with all others kept;
* `Integral.createMarking`, `Integral.cloneMarking`, `Integral.invert`, `Integral.add`, `Integral.raise` : new markings
  of integers;
* `Integral.reduce` : a reduction, which keeps all markings.
-/

namespace PowerTower.Circuit

open Guards

variable {b c d : Circuit} {k m p : Marking} {n : Node} {ts us : List Term} {u v : ℤ} {i : ℕ}

/-- Well formed, and all nodes are legal. -/
structure Integral (c : Circuit) : Prop extends WellFormed c where
  natural : ∀ n, c.Live n → c.Legal n

/-- The live markings stay live, keep their worth, and stay reduced if they were. -/
structure Kept (c d : Circuit) : Prop extends Integral d where
  id : d.id = c.id
  held : ∀ i, 0 < (c.cellAt i).handles → 0 < (d.cellAt i).handles
  markings_worth : ∀ i, 0 < (c.cellAt i).handles →
    d.termsWorth (d.cellAt i).terms = c.termsWorth (c.cellAt i).terms
  markings_reduced : ∀ i, 0 < (c.cellAt i).handles → (∀ n ∈ Terms.nodes (c.cellAt i).terms, c.Reduced n) →
    ∀ n ∈ Terms.nodes (d.cellAt i).terms, d.Reduced n

/-- The marking is new and worth an integer, and all others are kept. -/
structure Made (c d : Circuit) (m : Marking) (v : ℤ) : Prop extends Kept c d where
  new : ¬ 0 < (c.cellAt m.id).handles
  counts : d.Counts m v

theorem integral_empty (id : CircuitId) (config : Config) : (empty id config).Integral where
  toWellFormed := wellFormed_empty id config
  natural := fun _ hn => absurd hn not_live_empty

/-! ## Keeping markings -/

theorem Kept.refl (h : c.Integral) : c.Kept c :=
  ⟨h, rfl, fun _ hi => hi, fun _ _ => rfl, fun _ _ hr => hr⟩

theorem Kept.trans (h : b.Kept c) (h' : c.Kept d) : b.Kept d where
  toIntegral := h'.toIntegral
  id := h'.id.trans h.id
  held := fun i hi => h'.held i (h.held i hi)
  markings_worth := fun i hi => (h'.markings_worth i (h.held i hi)).trans (h.markings_worth i hi)
  markings_reduced := fun i hi hr => h'.markings_reduced i (h.held i hi) (h.markings_reduced i hi hr)

theorem Kept.counts (h : c.Kept d) (hm : c.Counts m v) : d.Counts m v :=
  ⟨hm.own.trans h.id.symm, h.held m.id hm.held, (h.markings_worth m.id hm.held).trans hm.worth⟩

theorem Kept.marks (h : c.Kept d) (hm : c.Marks m v) : d.Marks m v :=
  ⟨hm.own.trans h.id.symm, h.held m.id hm.live, h.markings_reduced m.id hm.live hm.reduced,
    (h.markings_worth m.id hm.live).trans hm.worth⟩

theorem Kept.made (h : b.Kept c) (h' : c.Made d m v) : b.Made d m v :=
  ⟨h.trans h'.toKept, fun hm => h'.new (h.held m.id hm), h'.counts⟩

/-- Where nothing is touched, the markings are kept as long as all new nodes are legal. -/
theorem Untouched.kept (h : c.Untouched d) (hc : c.Integral) (hd : d.WellFormed)
    (hnew : ∀ n, d.Live n → c.Live n ∨ d.Legal n) : c.Kept d where
  toWellFormed := hd
  natural := fun n hn => (hnew n hn).elim (fun hlive => h.legal hc.toLinked hlive (hc.natural n hlive))
    fun hlegal => hlegal
  id := h.id
  held := fun i hi => by rwa [h.cells i hi]
  markings_worth := fun i hi => by
    rw [h.cells i hi]
    exact h.termsWorth_eq hc.toLinked (hc.markings i hi).live
  markings_reduced := fun i hi hr => by
    rw [h.cells i hi]
    exact fun n hn => h.reduced (hr n hn)

theorem release_cellAt_of_ne (h : i ≠ m.id) : (c.release m).cellAt i = c.cellAt i := by
  rw [Circuit.release, cellAt_modifyCell, if_neg (fun heq => h heq.1.symm)]

theorem ne_of_new (hm : ¬ 0 < (c.cellAt m.id).handles) (hi : 0 < (c.cellAt i).handles) : i ≠ m.id :=
  fun heq => hm (heq ▸ hi)

/-- The handle of a new marking may be returned. -/
theorem Untouched.release (h : c.Untouched d) (hm : ¬ 0 < (c.cellAt m.id).handles) : c.Untouched (d.release m) where
  id := h.id
  config := h.config
  live := h.live
  successors := h.successors
  pending := h.pending
  cells := fun i hi => (release_cellAt_of_ne (ne_of_new hm hi)).trans (h.cells i hi)

theorem Integral.release (h : c.Integral) : (c.release m).Integral where
  toWellFormed := h.toWellFormed.release
  natural := fun n hn =>
    legal_congr (c := c) (S := fun _ => True) (fun _ _ _ _ => trivial) (fun _ _ => rfl) trivial (h.natural n hn)

theorem Kept.release (h : c.Kept d) (hm : ¬ 0 < (c.cellAt m.id).handles) : c.Kept (d.release m) where
  toIntegral := h.toIntegral.release
  id := h.id
  held := fun i hi => by
    rw [release_cellAt_of_ne (ne_of_new hm hi)]
    exact h.held i hi
  markings_worth := fun i hi => by
    rw [release_cellAt_of_ne (ne_of_new hm hi)]
    exact h.markings_worth i hi
  markings_reduced := fun i hi => by
    rw [release_cellAt_of_ne (ne_of_new hm hi)]
    exact h.markings_reduced i hi

theorem Counts.release (h : c.Counts m v) (hne : m.id ≠ k.id) : (c.release k).Counts m v := by
  refine ⟨h.own, ?_, ?_⟩
  · rw [release_cellAt_of_ne hne]
    exact h.held
  · rw [termsOf, release_cellAt_of_ne hne]
    exact h.worth

theorem Made.release (h : b.Made c m v) (hk : ¬ 0 < (b.cellAt k.id).handles) (hne : m.id ≠ k.id) :
    b.Made (c.release k) m v :=
  ⟨h.toKept.release hk, h.new, h.counts.release hne⟩

/-! ## New markings -/

theorem Untouched.made (h : c.Untouched d) (hk : c.Kept d) (hts : d.Proper ts) (hv : d.termsWorth ts = v) :
    c.Made (d.newMarking ts).2 (d.newMarking ts).1 v where
  toKept := hk.trans (untouched_newMarking.kept hk.toIntegral (hk.toWellFormed.newMarking hts) fun _ hn => .inl hn)
  new := h.newMarking_new ts
  counts := ⟨rfl, newMarking_handles d ts, by rw [newMarking_termsOf]; exact hv⟩

theorem Integral.newMarking (h : c.Integral) (hts : c.Proper ts) (hv : c.termsWorth ts = v) :
    c.Made (c.newMarking ts).2 (c.newMarking ts).1 v :=
  (Untouched.refl c).made (.refl h) hts hv

theorem Carried.kept (h : c.Carried d) (hc : c.Integral) : c.Kept d := by
  have hd : d.WellFormed := h.wellFormed hc.toWellFormed
  refine h.grows.untouched.kept hc hd fun n hn => ?_
  rcases reduced_or_pending hn with hr | hp
  · exact .inr (hd.legal n hr)
  · exact .inl ((h.grows.pending n).1 hp).1

theorem Integral.createMarking (h : c.Integral) (v : ℤ) :
    ∃ m d, (createMarking v).run c = (.ok m, d) ∧ c.Made d m v ∧ d.Marks m v := by
  obtain ⟨hcarried, hproper, hreduced, hworth⟩ := h.toWellFormed.integerTerms v
  exact ⟨_, _, rfl, hcarried.grows.untouched.made (hcarried.kept h) hproper hworth, marks_newMarking hreduced hworth⟩

theorem integerTerms_one : integerTerms 1 c = ([(c.ensureUnit.1, .plus)], c.ensureUnit.2) := by
  unfold Circuit.integerTerms
  rw [if_neg one_ne_zero]
  exact binaryTerms_of_last (by decide)

/-- One is written with a node without successors. -/
theorem Integral.createOne (h : c.Integral) : ∃ m d, (Circuit.createMarking 1).run c = (.ok m, d) ∧ c.Made d m 1 ∧
    ∀ n ∈ d.nodesOf m, d.successors n = [] := by
  obtain ⟨m, d, hrun, hm, -⟩ := h.createMarking 1
  have hd : (Circuit.createMarking 1).run c = (.ok m, d) := hrun
  refine ⟨m, d, hrun, hm, ?_⟩
  obtain ⟨hm', hd'⟩ := Prod.mk.inj hd
  have hterms : d.termsOf m = (integerTerms 1 c).1 := by
    rw [← hd', ← Except.ok.inj hm']
    exact newMarking_termsOf _ _
  have hsuccessors : d.successors = c.ensureUnit.2.successors := by
    rw [← hd']
    show (integerTerms 1 c).2.successors = _
    rw [integerTerms_one]
  rw [nodesOf, hterms, integerTerms_one, hsuccessors]
  exact List.forall_mem_singleton.2 h.toWellFormed.sound.ensureUnit.2.2

/-- The nodes of a clone are legal, as those that it is a clone of. -/
theorem Twins.legal (h : Twins c ts us d) (hc : c.Integral) (hts : ∀ n ∈ Terms.nodes ts, c.Live n)
    (hn : n ∈ Terms.nodes us) : d.Legal n := by
  obtain ⟨t, ht, s, htwin⟩ := h.exists_twin hn
  have hlive : c.Live t.1 := hts t.1 (Terms.mem_nodes_of_mem ht)
  have hlegal : c.Legal t.1 := hc.natural t.1 hlive
  refine legal_of_one_le_worth (fun m hm => ?_) (h.wellFormed.acc htwin.pending.1) ?_
  · rw [Below, successorNodes, htwin.successors] at hm
    exact h.untouched.legal hc.toLinked (hc.live_of_below hlive hm) (hlegal.of_below m hm)
  · rw [htwin.worth_eq hc.toLinked h.wellFormed.toLinked h.untouched hlive]
    exact hlegal.one_le_worth

theorem Integral.cloneMarking (h : c.Integral) (hm : c.Counts m v) :
    ∃ k d, (cloneMarking m).run c = (.ok k, d) ∧ Cloned c m k d ∧ c.Made d k v := by
  obtain ⟨k, d, hrun, hk⟩ := h.toWellFormed.cloneMarking hm.own hm.held
  have hlive : ∀ n ∈ c.nodesOf m, c.Live n := (h.markings m.id hm.held).live
  refine ⟨k, d, hrun, hk, ?_, hk.new, hk.own.trans hk.untouched.id.symm, hk.held, ?_⟩
  · exact hk.untouched.kept h hk.wellFormed fun n hn => (hk.live n hn).imp_right (hk.toTwins.legal h hlive)
  · exact (hk.termsWorth_eq h.toLinked hlive).trans hm.worth

theorem Integral.invert (h : c.Integral) (hm : c.Counts m v) :
    ∃ k d, (invert m).run c = (.ok k, d) ∧ c.Made d k (-v) ∧ c.Untouched d ∧ d.nodesOf k = c.nodesOf m := by
  let ts := Terms.flip (c.termsOf m)
  have hworth : c.termsWorth ts = (-v : ℤ) := by
    rw [Int.cast_neg, ← hm.worth]
    exact Terms.sum_flip c.worth (c.termsOf m)
  refine ⟨(c.newMarking ts).1, (c.newMarking ts).2, run_own hm.own,
    h.newMarking (Proper.flip (h.markings m.id hm.held)) hworth, untouched_newMarking, ?_⟩
  rw [nodesOf, newMarking_termsOf, nodesOf]
  exact Terms.nodes_flip (c.termsOf m)

/-- Lists without a node in common are summed by putting them together. -/
theorem sumTerms_of_disjoint (strict : Bool) (hus : Terms.Proper us) (h : ∀ n ∈ Terms.nodes us, n ∉ Terms.nodes ts) :
    sumTerms strict ts us = .ok (ts ++ us) := by
  induction us generalizing ts with
  | nil => rw [List.append_nil]; rfl
  | cons t us ih =>
    obtain ⟨n, s⟩ := t
    have hn : n ∉ Terms.nodes us := (List.nodup_cons.1 hus.nodup).1
    have hdigit : Terms.digit? n ts = none := Terms.digit?_eq_none_iff.2 (h n (by simp))
    have hadd : Terms.accumulate? strict n s ts = some (ts ++ [(n, s)]) := by
      rw [Terms.accumulate?, if_neg (hus.nonzero (n, s) List.mem_cons_self), hdigit]
    rw [sumTerms, hadd]
    show sumTerms strict (ts ++ [(n, s)]) us = _
    rw [ih (hus.sublist (List.sublist_cons_self _ _)) fun m hm => ?_, List.append_assoc, List.singleton_append]
    rw [Terms.nodes_append, List.mem_append, not_or]
    exact ⟨h m (by simp [hm]), fun heq => hn ((List.mem_singleton.1 heq : m = n) ▸ hm)⟩

theorem Integral.add (h : c.Integral) (hk : c.Counts k u) (hm : c.Counts m v)
    (hdisjoint : ∀ n ∈ c.nodesOf m, n ∉ c.nodesOf k) :
    ∃ p d, (add k m).run c = (.ok p, d) ∧ c.Made d p (u + v) := by
  have hk' := h.markings k.id hk.held
  have hm' := h.markings m.id hm.held
  let ts := c.termsOf k ++ c.termsOf m
  have hsum : sumTerms c.config.checkInvariants (c.termsOf k) (c.termsOf m) = .ok ts :=
    sumTerms_of_disjoint _ hm'.toProper hdisjoint
  have hworth : c.termsWorth ts = (u + v : ℤ) := by
    rw [Int.cast_add, ← hk.worth, ← hm.worth]
    exact Terms.sum_append c.worth _ _
  refine ⟨(c.newMarking ts).1, (c.newMarking ts).2, ?_, h.newMarking (Proper.sumTerms hk' hm'.live hsum) hworth⟩
  refine (run_own hk.own).trans ((run_own hm.own).trans ?_)
  exact run_ask_ok hsum

/-- A clone of one is raised to two to the power of a marking that is not negative. -/
theorem Integral.raise (h : c.Integral) (hm : c.Counts m 1) (hnil : ∀ n ∈ c.nodesOf m, c.successors n = [])
    (hp : c.Counts p v) (hv : 0 ≤ v) : ∃ k d e, (Circuit.cloneMarking m).run c = (.ok k, d) ∧
      (connect k p).run d = (.ok (), e) ∧ c.Made e k (2 ^ v.toNat) := by
  obtain ⟨k, d, hrun, hk⟩ := h.toWellFormed.cloneMarking hm.own hm.held
  have hp' : c.Proper (c.termsOf p) := h.markings p.id hp.held
  have hlive : ∀ n ∈ c.nodesOf m, c.Live n := (h.markings m.id hm.held).live
  obtain ⟨e, hattach, he⟩ := hk.attach h.toWellFormed hm.held hp' fun n hn u _ hin => by simp [hnil n hn] at hin
  have hconnect : (connect k p).run d = (attach (d.nodesOf k) (c.termsOf p)).run d := by
    rw [← hk.untouched.termsOf_eq hp.held]
    exact Scale.run_connect (s := .multiply) (hk.own.trans hk.untouched.id.symm) (hp.own.trans hk.untouched.id.symm)
  have hexponent : ∀ n ∈ e.nodesOf k, 0 ≤ e.termsWorth (e.successors n) := fun n hn => by
    obtain ⟨t, ht, hworth⟩ := he.exponent n hn
    rw [hworth, hnil t ht, hp.worth, termsWorth, Terms.sum_nil, zero_add]
    exact_mod_cast hv
  have hlegal : ∀ n ∈ e.nodesOf k, e.Legal n := fun n hn =>
    he.legal_of_exponent h.toLinked hlive (fun n hn => h.natural n (hlive n hn)) hp'
      (fun n hn => h.natural n (hp'.live n hn)) hn (hexponent n hn)
  refine ⟨k, d, e, hrun, hconnect.trans hattach, ?_, he.new, he.counts ?_⟩
  · exact he.untouched.kept h he.toWellFormed fun n hn => (he.live n hn).imp_right (hlegal n)
  · obtain ⟨w, rfl⟩ := Int.eq_ofNat_of_zero_le hv
    rw [he.worth, hm.worth, hp.worth]
    simp

/-! ## Reduction -/

theorem ReduceCall.Accepted.pending {call : ReduceCall} (h : call.Accepted c)
    (hn : call.Frontier c n) : c.Pending n := by
  cases call with
  | all => exact hn
  | markings ms => exact hn.1
  | nodes ns ms => exact h.1 n hn

/-- A reduction keeps all markings, and those whose pending nodes it reduces are reduced afterwards. -/
theorem Integral.reduce (h : c.Integral) (call : ReduceCall) (hheld : ∀ m ∈ call.handles, c.Held m)
    (haccepted : call.Accepted c) : ∃ d, call.run.run c = (.ok (), d) ∧ c.Kept d ∧
      (∀ n, d.Pending n → c.Pending n ∧ ¬ call.Frontier c n) ∧
      ∀ m v, c.Counts m v → (∀ n ∈ c.nodesOf m, c.Pending n → call.Frontier c n) → d.Marks m v := by
  obtain ⟨sorted, d, hrun, hmem, hr, hp⟩ := h.reduce_preserves call hheld haccepted fun n hn =>
    h.natural n (haccepted.pending hn).1
  refine ⟨d, hrun, ⟨⟨⟨hp.consistent, hr.sound.toStored⟩, fun n hn => ?_⟩, hr.id, fun i hi => ?_, hp.markings,
    fun i hi hreduced => ?_⟩, fun n hn => ?_, fun m v hm hpending => ?_⟩
  · rcases reduced_or_pending hn with hn' | hn'
    · exact hp.consistent.legal n hn'
    · have hlive : c.Live n := ((hr.pending n).1 hn').1.1
      exact hp.legal hr hn (h.natural n hlive) hlive h.toLinked
  · rwa [hr.handles i]
  · exact hr.reduced_of_held hi fun n hn hpn => absurd (hreduced n hn) hpn.not_reduced
  · rw [← hmem n]
    exact (hr.pending n).1 hn
  · exact hm.marks hr hp fun n hn hpn => (hmem n).2 (hpending n hn hpn)

end PowerTower.Circuit
