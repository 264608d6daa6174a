import Mathlib
import PowerTower.Proofs.Cloning
import PowerTower.Proofs.Connecting

/-!
# Joining exponents

* `extendTerms_exact` : where no entry is there already, entrywise addition is exact, whether or not it is strict;
* `Joined`, `WellFormed.attach_joined` : connecting pending nodes to such an addend is answered, and adds it to each of
  their exponents;
* `attach_clashes` : where an entry is there already, a circuit that checks itself refuses it and changes nothing.
-/

namespace PowerTower.Circuit

open Guards

variable {c d : Circuit} {m n : Node} {targets : List Node} {ts us vs addend : List Term} {s : Sign}

/-! ## Entrywise addition -/

/-- Two digits other than zero that differ cancel. -/
theorem addWithCarry_of_ne {x y : Sign} (hx : x ≠ .zero) (hy : y ≠ .zero) (h : x ≠ y) :
    x.addWithCarry y = (.zero, .zero) := by
  cases x <;> cases y <;> simp_all [Sign.addWithCarry]

/-- An entry that is not there already is added exactly. -/
theorem accumulate?_exact (strict : Bool) (hts : Terms.Proper ts) (hs : s ≠ .zero) (h : (n, s) ∉ ts) :
    ∃ vs, Terms.accumulate? strict n s ts = some vs ∧ (∀ u ∈ vs, u ∈ ts ∨ u = (n, s)) ∧
      ∀ w, Terms.sum w vs = Terms.sum w ts + s.toInt * w n := by
  unfold Terms.accumulate?
  rw [if_neg hs]
  cases hd : Terms.digit? n ts with
  | none =>
    refine ⟨_, rfl, fun u hu => by simpa using hu, fun w => ?_⟩
    rw [Terms.sum_append, Terms.sum_cons, Terms.sum_nil, add_zero]
  | some old =>
    have hmem := Terms.mem_of_digit?_eq_some hd
    have hne : old ≠ s := fun heq => h (heq ▸ hmem)
    have hcancel := addWithCarry_of_ne (hts.nonzero _ hmem) hs hne
    refine ⟨Terms.erase n ts, by simp [hcancel], fun u hu => .inl ((Terms.erase_sublist n ts).subset hu), fun w => ?_⟩
    have hsum : (old.toInt : ℝ) + s.toInt = 0 := by
      exact_mod_cast (Sign.addWithCarry_toInt old s).trans (by rw [hcancel]; rfl)
    rw [Terms.sum_erase hd]
    linear_combination -(w n) * hsum

/-- Entries that are not there already are added exactly. -/
theorem extendTerms_exact (strict : Bool) (hts : Terms.Proper ts) (hus : Terms.Proper us) (h : ∀ u ∈ us, u ∉ ts) :
    ∃ vs, extendTerms strict ts us = (.ok (), vs) ∧ (∀ v ∈ vs, v ∈ ts ∨ v ∈ us) ∧
      ∀ w, Terms.sum w vs = Terms.sum w ts + Terms.sum w us := by
  induction us generalizing ts with
  | nil => exact ⟨ts, rfl, fun v hv => .inl hv, fun w => by simp⟩
  | cons u us ih =>
    obtain ⟨n, s⟩ := u
    obtain ⟨ws, hws, hmem, hsum⟩ := accumulate?_exact strict hts (hus.nonzero (n, s) List.mem_cons_self)
      (h (n, s) List.mem_cons_self)
    have hn : n ∉ Terms.nodes us := (List.nodup_cons.1 hus.nodup).1
    obtain ⟨vs, hvs, hmem', hsum'⟩ := ih (hts.accumulate hws).1 (hus.sublist (List.sublist_cons_self _ _))
      fun u hu hin => by
        rcases hmem u hin with hin | rfl
        · exact h u (by simp [hu]) hin
        · exact hn (Terms.mem_nodes_of_mem hu)
    refine ⟨vs, by rw [extendTerms, hws]; exact hvs, fun v hv => ?_, fun w => ?_⟩
    · rcases hmem' v hv with hv | hv
      · exact (hmem v hv).imp_right fun heq => by simp [heq]
      · exact .inr (by simp [hv])
    · rw [hsum', hsum, Terms.sum_cons, add_assoc]

/-! ## Joined exponents -/

/-- The addend is added to the exponents of the targets, and nothing else changes. -/
structure Joined (c : Circuit) (targets : List Node) (addend : List Term) (d : Circuit) : Prop where
  id : d.id = c.id
  config : d.config = c.config
  cells : d.cells = c.cells
  live : ∀ n, d.Live n ↔ c.Live n
  pending : ∀ n, d.Pending n ↔ c.Pending n
  other : ∀ n, c.Live n → n ∉ targets → d.successors n = c.successors n
  target : ∀ n ∈ targets, ∀ w, Terms.sum w (d.successors n) = Terms.sum w (c.successors n) + Terms.sum w addend
  below : ∀ n ∈ targets, ∀ m, d.Below m n → c.Below m n ∨ m ∈ Terms.nodes addend

theorem extendAll_joined (haddend : Terms.Proper addend) (hnodup : targets.Nodup) (hlive : ∀ n ∈ targets, c.Live n)
    (hproper : ∀ n ∈ targets, Terms.Proper (c.successors n)) (hfree : ∀ n ∈ targets, ∀ u ∈ addend, u ∉ c.successors n) :
    ∃ d, (targets.forM (extendExponent addend)).run c = (.ok (), d) ∧ Joined c targets addend d := by
  induction targets generalizing c with
  | nil => exact ⟨c, rfl, rfl, rfl, rfl, fun _ => Iff.rfl, fun _ => Iff.rfl, fun _ _ _ => rfl, nofun, nofun⟩
  | cons t targets ih =>
    rw [List.nodup_cons] at hnodup
    have ht := hlive t (by simp)
    obtain ⟨ts, hts, hmem, hsum⟩ := extendTerms_exact c.config.checkInvariants (hproper t (by simp)) haddend
      (hfree t (by simp))
    have hstep : (extendExponent addend t).run c = (.ok (), c.setSuccessors t ts) := by
      rw [run_extendExponent, hts]
    have hkept : ∀ n, c.Live n → n ≠ t → (c.setSuccessors t ts).successors n = c.successors n := fun n hn hne =>
      ht.successors_setSuccessors_of_ne ts hn hne
    have hrest : ∀ n ∈ targets, n ≠ t := fun n hn he => hnodup.1 (he ▸ hn)
    have hlive' : ∀ n ∈ targets, c.Live n := fun n hn => hlive n (by simp [hn])
    have hlive'' : ∀ n ∈ targets, (c.setSuccessors t ts).Live n := fun n hn => setSuccessors_live_iff.2 (hlive' n hn)
    obtain ⟨d, hrun, hd⟩ := ih (c := c.setSuccessors t ts) hnodup.2 hlive''
      (fun n hn => by rw [hkept n (hlive' n hn) (hrest n hn)]; exact hproper n (by simp [hn]))
      (fun n hn => by rw [hkept n (hlive' n hn) (hrest n hn)]; exact hfree n (by simp [hn]))
    have hself : d.successors t = ts :=
      (hd.other t (setSuccessors_live_iff.2 ht) hnodup.1).trans (ht.successors_setSuccessors ts)
    refine ⟨d, (Call.run_bind_ok hstep).trans hrun, hd.id, hd.config, hd.cells,
      fun n => (hd.live n).trans setSuccessors_live_iff, fun n => (hd.pending n).trans setSuccessors_pending_iff,
      fun n hn hnot => ?_, fun n hn w => ?_, fun n hn m hm => ?_⟩
    · rw [List.mem_cons, not_or] at hnot
      rw [hd.other n (setSuccessors_live_iff.2 hn) hnot.2, hkept n hn hnot.1]
    · rcases List.mem_cons.1 hn with rfl | hn
      · rw [hself, hsum]
      · rw [hd.target n hn, hkept n (hlive' n hn) (hrest n hn)]
    · rcases List.mem_cons.1 hn with rfl | hn
      · rw [Below, successorNodes, hself] at hm
        obtain ⟨v, hv, rfl⟩ := List.mem_map.1 hm
        exact (hmem v hv).imp Terms.mem_nodes_of_mem Terms.mem_nodes_of_mem
      · refine (hd.below n hn m hm).imp_left fun hb => ?_
        rwa [Below, successorNodes, hkept n (hlive' n hn) (hrest n hn)] at hb

theorem find?_isReducedNode_eq_none (hpending : ∀ n ∈ targets, c.Pending n) : targets.find? c.isReducedNode = none :=
  List.find?_eq_none.2 fun n hn => by simp [isReducedNode, (hpending n hn).2]

theorem clash?_eq_none_iff : c.clash? targets addend = none ↔ ∀ n ∈ targets, ∀ u ∈ addend, u ∉ c.successors n := by
  simp [clash?, List.find?_eq_none]

theorem checkEdges_eq_ok (hfree : ∀ n ∈ targets, ∀ u ∈ addend, u ∉ c.successors n)
    (hopen : ¬ c.Closes targets addend) : c.checkEdges targets addend = .ok () := by
  unfold checkEdges
  rw [clash?_eq_none_iff.2 hfree]
  have hnone : c.reachesAny (Terms.nodes addend) targets = none :=
    reachesAny_eq_none_iff.2 fun t ht s hs hreach => hopen ⟨t, ht, s, hs, hreach⟩
  rw [hnone]

/-- Pending nodes are connected to an addend of which they have no entry, as long as that closes no cycle. -/
theorem WellFormed.attach_joined (h : c.WellFormed) (hpending : ∀ n ∈ targets, c.Pending n) (hnodup : targets.Nodup)
    (hproper : c.Proper addend) (hopen : ¬ c.Closes targets addend)
    (hfree : ∀ n ∈ targets, ∀ u ∈ addend, u ∉ c.successors n) :
    ∃ d, (attach targets addend).run c = (.ok (), d) ∧ d.WellFormed ∧ Joined c targets addend d := by
  have hlive : ∀ n ∈ targets, c.Live n := fun n hn => (hpending n hn).1
  obtain ⟨d, hrun, hd⟩ := extendAll_joined hproper.toProper hnodup hlive
    (fun n hn => (h.exponents n (hlive n hn)).toProper) hfree
  have hchecked : (if c.config.checkInvariants then c.checkEdges targets addend else .ok ()) = .ok () := by
    rw [checkEdges_eq_ok hfree hopen, ite_self]
  have hattach : (attach targets addend).run c = (.ok (), d) := by
    rw [attach_of_pending (find?_isReducedNode_eq_none hpending), run_ask_ok hchecked, hrun]
  refine ⟨d, hattach, ?_, hd⟩
  have hkeeps := (h.keeps_attach hlive hproper fun _ _ => hopen).wellFormed
  rwa [hattach] at hkeeps

/-- A circuit that checks itself refuses an entry that is there already, and changes nothing. -/
theorem attach_clashes (hchecked : c.config.checkInvariants = true) (hpending : ∀ n ∈ targets, c.Pending n)
    (hn : n ∈ targets) {u : Term} (hu : u ∈ addend) (hin : u ∈ c.successors n) :
    ∃ t ∈ targets, (attach targets addend).run c = (.error (.signOverflow t), c) := by
  cases hclash : c.clash? targets addend with
  | none => exact absurd hin (clash?_eq_none_iff.1 hclash n hn u hu)
  | some t =>
    refine ⟨t, List.mem_of_find?_eq_some hclash, ?_⟩
    exact attach_of_checkEdges_error hchecked (find?_isReducedNode_eq_none hpending) (by rw [checkEdges, hclash])

end PowerTower.Circuit
