import Mathlib
import PowerTower.Proofs.Carry
import PowerTower.Proofs.Holders
import PowerTower.Proofs.Search

/-!
# Merging and inserting

* `Reduces`, `Preserves` : what taking some pending nodes out of the pending ones does to names and links, and to
  worths;
* `Sound.redirect` : a holder gets an equal node in the stead of a duplicate;
* `Sound.merge` : all holders do, and the duplicate is freed;
* `Sound.insertReduced` : a node enters the order;
* `Sound.reduceNode` : one of the two happens to a node whose successors are reduced.
-/

namespace PowerTower.Circuit

variable {c d e : Circuit} {k m n dup survivor : Node} {ts us : List Term} {h h' : Holder} {i p r : ℕ}

/-! ## Holders -/

/-- A pending node or a live marking. -/
def IsHolder (c : Circuit) : Holder → Prop
  | .node p => c.Pending p
  | .marking i => 0 < (c.cellAt i).handles

theorem holds_iff : c.Holds n h ↔ c.IsHolder h ∧ n ∈ Terms.nodes (c.heldBy h) := by
  cases h <;> exact Iff.rfl

theorem IsHolder.proper (hh : c.IsHolder h) (hl : c.Linked) : c.Proper (c.heldBy h) := by
  cases h with
  | node p => exact hl.exponents p hh.1
  | marking i => exact hl.markings i hh

theorem setHeld_live_iff : (c.setHeld h ts).Live m ↔ c.Live m := by
  cases h with
  | node p => exact setSuccessors_live_iff
  | marking i => exact Iff.rfl

theorem setHeld_pending_iff : (c.setHeld h ts).Pending m ↔ c.Pending m := by
  cases h with
  | node p => exact setSuccessors_pending_iff
  | marking i => exact Iff.rfl

theorem setHeld_handles : ((c.setHeld h ts).cellAt i).handles = (c.cellAt i).handles := by
  cases h with
  | node p => rfl
  | marking j => exact setTerms_handles

theorem setHeld_generation : ((c.setHeld h ts).slotAt i).generation = (c.slotAt i).generation := by
  cases h with
  | node p => exact (setSuccessors_frame c p ts i).2.1
  | marking j => rfl

theorem setHeld_id : (c.setHeld h ts).id = c.id := by
  cases h <;> rfl

theorem setHeld_config : (c.setHeld h ts).config = c.config := by
  cases h <;> rfl

theorem setHeld_isHolder_iff : (c.setHeld h ts).IsHolder h' ↔ c.IsHolder h' := by
  cases h' with
  | node p => exact setHeld_pending_iff
  | marking i => rw [IsHolder, setHeld_handles, IsHolder]

theorem IsHolder.setHeld_sameReduced (hh : c.IsHolder h) (ts : List Term) : c.SameReduced (c.setHeld h ts) := by
  cases h with
  | node p => exact hh.setSuccessors_sameReduced ts
  | marking i => exact withCells_sameReduced

theorem IsHolder.heldBy_setHeld (hh : c.IsHolder h) : (c.setHeld h ts).heldBy h = ts := by
  cases h with
  | node p => exact hh.1.successors_setSuccessors ts
  | marking i => exact (setTerms_terms hh).trans (if_pos rfl)

theorem IsHolder.heldBy_setHeld_of_ne (hh : c.IsHolder h) (hh' : c.IsHolder h') (hne : h' ≠ h) :
    (c.setHeld h ts).heldBy h' = c.heldBy h' := by
  cases h with
  | node p =>
    cases h' with
    | node q => exact hh.1.successors_setSuccessors_of_ne ts hh'.1 fun he => hne (congrArg _ he)
    | marking j => rfl
  | marking i =>
    cases h' with
    | node q => rfl
    | marking j => exact (setTerms_terms hh).trans (if_neg fun he => hne (congrArg _ he))

theorem IsHolder.stored_setHeld (hs : c.Stored) (h : Holder) (ts : List Term) : (c.setHeld h ts).Stored := by
  cases h with
  | node p => exact hs.setSuccessors
  | marking i => exact hs.withCells

/-- Other proper terms of a holder leave the circuit linked as long as they close no cycle. -/
theorem IsHolder.linked_setHeld (hh : c.IsHolder h) (hl : c.Linked) (hts : c.Proper ts)
    (hacyclic : (c.setHeld h ts).Acyclic) : (c.setHeld h ts).Linked := by
  cases h with
  | node p => exact (hl.tied.setSuccessors hh hts).linked hacyclic
  | marking i => exact hl.setTerms hh hts

theorem Grows.isHolder_iff (hg : c.Grows d) : d.IsHolder h ↔ c.IsHolder h := by
  cases h with
  | node p => exact hg.pending p
  | marking i => simp only [IsHolder, cellAt, hg.cells]

theorem Grows.heldBy_eq (hg : c.Grows d) (hh : c.IsHolder h) : d.heldBy h = c.heldBy h := by
  cases h with
  | node p => exact hg.successors p hh.1
  | marking i => simp only [heldBy, cellAt, hg.cells]

/-! ## What reduction does to a circuit -/

/-- Some pending nodes are pending no more: they are reduced or gone. What mentioned nodes goes on to mention the same,
or reduced nodes; and no name comes back. -/
structure Reduces (c : Circuit) (done : List Node) (d : Circuit) : Prop where
  sound : d.Sound
  id : d.id = c.id
  config : d.config = c.config
  handles : ∀ i, (d.cellAt i).handles = (c.cellAt i).handles
  chosen : ∀ n ∈ done, c.Pending n
  live : ∀ n, c.Live n → n ∉ done → d.Live n
  pending : ∀ n, d.Pending n ↔ c.Pending n ∧ n ∉ done
  entries : ∀ h, d.IsHolder h → ∀ m ∈ Terms.nodes (d.heldBy h), m ∈ Terms.nodes (c.heldBy h) ∨ d.Reduced m
  extend : c.Extends d
  generation : ∀ i, (d.slotAt i).generation = (c.slotAt i).generation ∨ ∃ n ∈ done, n.index = i
  gone : ∀ n ∈ done, d.Reduced n ∨ (d.slot n).generation ≠ n.generation

/-- All worths are kept, and the nodes that are pending no more have reduced nodes of their worth. -/
structure Preserves (c : Circuit) (done : List Node) (d : Circuit) : Prop where
  consistent : d.Consistent
  worth : ∀ n, c.Live n → d.Live n → d.worth n = c.worth n
  markings : ∀ i, 0 < (c.cellAt i).handles → d.termsWorth (d.cellAt i).terms = c.termsWorth (c.cellAt i).terms
  twin : ∀ n ∈ done, ∃ m, d.Reduced m ∧ d.worth m = c.worth n

variable {done more : List Node}

theorem Reduces.refl (hs : c.Sound) : Reduces c [] c where
  sound := hs
  id := rfl
  config := rfl
  handles := fun _ => rfl
  chosen := by simp
  live := fun _ hn _ => hn
  pending := by simp
  entries := fun _ _ _ hm => .inl hm
  extend := .refl c
  generation := fun _ => .inl rfl
  gone := by simp

theorem Preserves.refl (hc : c.Consistent) : Preserves c [] c :=
  ⟨hc, fun _ _ _ => rfl, fun _ _ => rfl, by simp⟩

theorem Reduces.isHolder (hr : Reduces c done d) (hh : d.IsHolder h) : c.IsHolder h := by
  cases h with
  | node p => exact ((hr.pending p).1 hh).1
  | marking i => rwa [IsHolder, ← hr.handles]

/-- A place is given up once only, since it holds one of the nodes that were pending at first. -/
theorem Reduces.generation_of_mem (hr : Reduces c done d) (hr' : Reduces d more e) (hn : n ∈ done) :
    (e.slot n).generation = (d.slot n).generation := by
  rcases hr'.generation n.index with he | ⟨m, hm, hi⟩
  · exact he
  · obtain ⟨hm, hnot⟩ := (hr.pending m).1 (hr'.chosen m hm)
    exact absurd (hm.1.eq_of_index (hr.chosen n hn).1 hi ▸ hn) hnot

theorem Reduces.trans (hr : Reduces c done d) (hr' : Reduces d more e) : Reduces c (done ++ more) e where
  sound := hr'.sound
  id := hr'.id.trans hr.id
  config := hr'.config.trans hr.config
  handles := fun i => (hr'.handles i).trans (hr.handles i)
  chosen := fun n hn => (List.mem_append.1 hn).elim (hr.chosen n) fun hn => ((hr.pending n).1 (hr'.chosen n hn)).1
  live := fun n hn hnot => by
    rw [List.mem_append, not_or] at hnot
    exact hr'.live n (hr.live n hn hnot.1) hnot.2
  pending := fun n => by rw [hr'.pending, hr.pending, List.mem_append, not_or, and_assoc]
  entries := fun h hh m hm => by
    rcases hr'.entries h hh m hm with hm | hm
    · rcases hr.entries h (hr'.isHolder hh) m hm with hm | hm
      · exact .inl hm
      · exact .inr (hr'.extend m hm).1
    · exact .inr hm
  extend := hr.extend.trans hr'.extend
  generation := fun i => by
    rcases hr.generation i with h1 | ⟨n, hn, hi⟩
    · rcases hr'.generation i with h2 | ⟨n, hn, hi⟩
      · exact .inl (h2.trans h1)
      · exact .inr ⟨n, List.mem_append_right _ hn, hi⟩
    · exact .inr ⟨n, List.mem_append_left _ hn, hi⟩
  gone := fun n hn => by
    rcases List.mem_append.1 hn with hn | hn
    · rcases hr.gone n hn with hred | hgen
      · exact .inl (hr'.extend n hred).1
      · exact .inr (by rwa [hr.generation_of_mem hr' hn])
    · exact hr'.gone n hn

/-- A name that is live before and after is live in between. -/
theorem Reduces.live_of_live (hr : Reduces c done d) (hr' : Reduces d more e) (hc : c.Live n) (he : e.Live n) :
    d.Live n := by
  by_cases hn : n ∈ done
  · rcases hr.gone n hn with hred | hgen
    · exact hred.1
    · exact absurd he.2.2 (by rwa [hr.generation_of_mem hr' hn])
  · exact hr.live n hc hn

theorem Preserves.trans (hr : Reduces c done d) (hr' : Reduces d more e) (hp : Preserves c done d)
    (hp' : Preserves d more e) : Preserves c (done ++ more) e where
  consistent := hp'.consistent
  worth := fun n hc he => by
    have hd := hr.live_of_live hr' hc he
    rw [hp'.worth n hd he, hp.worth n hc hd]
  markings := fun i hi => by rw [hp'.markings i (by rwa [hr.handles]), hp.markings i hi]
  twin := fun n hn => by
    rcases List.mem_append.1 hn with hn | hn
    · obtain ⟨m, hm, hw⟩ := hp.twin n hn
      have hm' := (hr'.extend m hm).1
      exact ⟨m, hm', by rw [hp'.worth m hm.1 hm'.1, hw]⟩
    · obtain ⟨m, hm, hw⟩ := hp'.twin n hn
      have hn := hr'.chosen n hn
      exact ⟨m, hm, by rw [hw, hp.worth n ((hr.pending n).1 hn).1.1 hn.1]⟩

/-! ## Changing what a holder holds -/

/-- A holder may get reduced nodes and nodes that it mentioned at first: that closes no cycle. -/
theorem Linked.acyclic_setHeld (hl : c.Linked) (hd : d.Linked) (hh : d.IsHolder h) (hts : d.Proper ts)
    (hpending : ∀ n, d.Pending n → c.Pending n)
    (hentries : ∀ h', d.IsHolder h' → h' ≠ h → ∀ m ∈ Terms.nodes (d.heldBy h'),
      d.Reduced m ∨ m ∈ Terms.nodes (c.heldBy h'))
    (hnew : ∀ m ∈ Terms.nodes ts, d.Reduced m ∨ m ∈ Terms.nodes (c.heldBy h)) : (d.setHeld h ts).Acyclic := by
  have hsame := hh.setHeld_sameReduced ts
  have hheld : ∀ n, d.Pending n → ∀ m, (d.setHeld h ts).Below m n →
      d.Live m ∧ (d.Reduced m ∨ c.Below m n) := fun n hn m hm => by
    have hholder : d.IsHolder (.node n) := hn
    by_cases he : Holder.node n = h
    · subst he
      have hm : m ∈ Terms.nodes ((d.setHeld (.node n) ts).heldBy (.node n)) := hm
      rw [hh.heldBy_setHeld] at hm
      exact ⟨hts.live m hm, hnew m hm⟩
    · have hm : m ∈ Terms.nodes ((d.setHeld h ts).heldBy (.node n)) := hm
      rw [hh.heldBy_setHeld_of_ne hholder he] at hm
      exact ⟨hd.live_of_below hn.1 hm, hentries _ hholder he m hm⟩
  have hbelow : ∀ n, d.Reduced n → ∀ m, (d.setHeld h ts).Below m n → d.Below m n := fun n hn m hm => by
    unfold Below successorNodes at hm ⊢
    rwa [(hsame.extends n hn).2] at hm
  refine hl.acyclic_of_entries (fun m hm => ?_) (fun n hn m hm => ?_)
    (fun n hn => (hpending n (setHeld_pending_iff.1 hn)).1) fun n hn m hm => ?_
  · have hm := (hsame.reduced m).1 hm
    exact acc_congr hd.closed (fun n hn => (hsame.extends n hn).2) hm (hd.acc hm.1)
  · rw [setHeld_live_iff] at hn ⊢
    rcases reduced_or_pending hn with hr | hp
    · exact hd.live_of_below hn (hbelow n hr m hm)
    · exact (hheld n hp m hm).1
  · rw [hsame.reduced]
    exact (hheld n (setHeld_pending_iff.1 hn) m hm).2

theorem IsHolder.sound_setHeld (hh : c.IsHolder h) (hs : c.Sound) (hts : c.Proper ts)
    (hnew : ∀ m ∈ Terms.nodes ts, c.Reduced m ∨ m ∈ Terms.nodes (c.heldBy h)) : (c.setHeld h ts).Sound where
  toLinked := hh.linked_setHeld hs.toLinked hts (hs.acyclic_setHeld hs.toLinked hh hts (fun _ hn => hn)
    (fun _ _ _ _ hm => .inr hm) hnew)
  toStored := IsHolder.stored_setHeld hs.toStored h ts

theorem IsHolder.sound_setHeld_nil (hh : c.IsHolder h) (hs : c.Sound) : (c.setHeld h []).Sound :=
  hh.sound_setHeld hs proper_nil (by simp)

/-! ## A holder out of the circuit

The terms of a holder are out of the circuit while a node is added to some of them, and the holder gets the result. -/

section Absorbed

variable {s : Sign}

theorem Absorbed.pending_iff (ha : Absorbed (c.setHeld h []) us n s ts d) (m : Node) : d.Pending m ↔ c.Pending m :=
  (ha.carried.grows.pending m).trans setHeld_pending_iff

theorem Absorbed.isHolder_iff (ha : Absorbed (c.setHeld h []) us n s ts d) {k : Holder} : d.IsHolder k ↔ c.IsHolder k :=
  ha.carried.grows.isHolder_iff.trans setHeld_isHolder_iff

theorem Absorbed.heldBy_of_ne (ha : Absorbed (c.setHeld h []) us n s ts d) (hh : c.IsHolder h) {k : Holder}
    (hk : c.IsHolder k) (hne : k ≠ h) : d.heldBy k = c.heldBy k := by
  rw [ha.carried.grows.heldBy_eq (setHeld_isHolder_iff.2 hk), hh.heldBy_setHeld_of_ne hk hne]

theorem Absorbed.extends (ha : Absorbed (c.setHeld h []) us n s ts d) (hh : c.IsHolder h) : c.Extends d :=
  (hh.setHeld_sameReduced []).extends.trans ha.carried.grows.extends

theorem Absorbed.reduces (ha : Absorbed (c.setHeld h []) us n s ts d) (hs : c.Sound) (hh : c.IsHolder h)
    (hsub : us.Sublist (c.heldBy h)) : Reduces c [] (d.setHeld h ts) := by
  have hg := ha.carried.grows
  have hd := ha.carried.sound
  have hhd : d.IsHolder h := ha.isHolder_iff.2 hh
  have hnew : ∀ m ∈ Terms.nodes ts, d.Reduced m ∨ m ∈ Terms.nodes (c.heldBy h) := fun m hm =>
    (ha.entries m hm).symm.imp_right fun hm => (hsub.map _).subset hm
  have hsame := hhd.setHeld_sameReduced ts
  have hlinked : (d.setHeld h ts).Linked := hhd.linked_setHeld hd.toLinked ha.proper
    (hs.acyclic_setHeld hd.toLinked hhd ha.proper (fun n hn => (ha.pending_iff n).1 hn) (fun k hk hne m hm => .inr (by
      rwa [ha.heldBy_of_ne hh (ha.isHolder_iff.1 hk) hne] at hm)) hnew)
  refine ⟨⟨hlinked, IsHolder.stored_setHeld hd.toStored h ts⟩, ?_, ?_, fun i => ?_, by simp, fun m hm _ => ?_,
    fun m => ?_, fun k hk m hm => ?_, (ha.extends hh).trans hsame.extends, fun i => .inl ?_, by simp⟩
  · rw [setHeld_id, hg.id, setHeld_id]
  · rw [setHeld_config, hg.config, setHeld_config]
  · rw [setHeld_handles, cellAt, hg.cells, ← cellAt, setHeld_handles]
  · exact setHeld_live_iff.2 (hg.live m (setHeld_live_iff.2 hm))
  · rw [setHeld_pending_iff, ha.pending_iff]
    simp
  · have hk := setHeld_isHolder_iff.1 hk
    rw [hsame.reduced]
    by_cases he : k = h
    · subst he
      rw [hhd.heldBy_setHeld] at hm
      exact (hnew m hm).symm
    · rw [hhd.heldBy_setHeld_of_ne hk he, ha.heldBy_of_ne hh (ha.isHolder_iff.1 hk) he] at hm
      exact .inl hm
  · rw [setHeld_generation, hg.generation, setHeld_generation]

open Classical in
/-- The worths before a change, and for new nodes the worths after it. -/
noncomputable def worthAcross (c d : Circuit) (m : Node) : ℝ := if c.Live m then c.worth m else d.worth m

theorem worthAcross_of_live (hm : c.Live m) : worthAcross c d m = c.worth m := if_pos hm

theorem Absorbed.worthAcross_of_reduced (ha : Absorbed (c.setHeld h []) us n s ts d) (hs : c.Sound) (hh : c.IsHolder h)
    (hm : d.Reduced m) : worthAcross c d m = d.worth m := by
  by_cases hm' : c.Live m
  · have hm' : c.Reduced m := reduced_iff.2 ⟨hm', fun hp => ((ha.pending_iff m).2 hp).not_reduced hm⟩
    rw [worthAcross_of_live hm'.1, (ha.extends hh).worth_eq hs.toLinked hm']
  · exact if_neg hm'

/-- Then what each holder holds is worth what it was worth, if the holder keeps its sum. -/
theorem Absorbed.sum_heldBy (ha : Absorbed (c.setHeld h []) us n s ts d) (hs : c.Sound) (hc : c.Consistent)
    (hh : c.IsHolder h) (hsub : us.Sublist (c.heldBy h)) (hn : c.Reduced n)
    (hsum : Terms.sum c.worth us + s.toInt * c.worth n = c.termsWorth (c.heldBy h)) {k : Holder} (hk : c.IsHolder k) :
    Terms.sum (worthAcross c d) ((d.setHeld h ts).heldBy k) = c.termsWorth (c.heldBy k) := by
  have hhd : d.IsHolder h := ha.isHolder_iff.2 hh
  by_cases he : k = h
  · subst he
    have hc1 : (c.setHeld k []).Consistent :=
      (hh.setHeld_sameReduced []).consistent hc (hh.sound_setHeld_nil hs).toLinked
    rw [hhd.heldBy_setHeld, ha.sum hc1 _ fun m hm => ha.worthAcross_of_reduced hs hh hm,
      worthAcross_of_live hn.1, ← hsum]
    refine congrArg (· + _) (Terms.sum_congr fun m hm => worthAcross_of_live ?_)
    exact (hh.proper hs.toLinked).live m ((hsub.map _).subset hm)
  · rw [hhd.heldBy_setHeld_of_ne (ha.isHolder_iff.2 hk) he, ha.heldBy_of_ne hh hk he]
    exact Terms.sum_congr fun m hm => worthAcross_of_live ((hk.proper hs.toLinked).live m hm)

/-- Nothing changes its worth by that. -/
theorem Absorbed.preserves (ha : Absorbed (c.setHeld h []) us n s ts d) (hs : c.Sound) (hc : c.Consistent)
    (hh : c.IsHolder h) (hsub : us.Sublist (c.heldBy h)) (hn : c.Reduced n)
    (hsum : Terms.sum c.worth us + s.toInt * c.worth n = c.termsWorth (c.heldBy h)) :
    Preserves c [] (d.setHeld h ts) := by
  have hd := ha.carried.sound
  have hreduces := ha.reduces hs hh hsub
  have hsame := (ha.isHolder_iff.2 hh).setHeld_sameReduced ts
  have hc1 : (c.setHeld h []).Consistent :=
    (hh.setHeld_sameReduced []).consistent hc (hh.sound_setHeld_nil hs).toLinked
  have hred := fun m hm => ha.worthAcross_of_reduced hs hh (m := m) hm
  -- the worths across the change solve the equations of the worths after it
  have hworth : ∀ m, (d.setHeld h ts).Live m → (d.setHeld h ts).worth m = worthAcross c d m := by
    intro m hm
    refine worth_eq_of_solution (S := (d.setHeld h ts).Live) (fun n hn k hk =>
      hreduces.sound.live_of_below hn hk) (fun m hm => ?_) hm (hreduces.sound.acc hm)
    rcases reduced_or_pending hm with hr | hp
    · have hr := (hsame.reduced m).1 hr
      rw [hred m hr, worth_eq (hd.acc hr.1), (hsame.extends m hr).2]
      exact congrArg _ (Terms.sum_congr fun k hk => (hred k (hd.closed m hr k hk)).symm)
    · have hp : c.Pending m := (ha.pending_iff m).1 (setHeld_pending_iff.1 hp)
      rw [worthAcross_of_live hp.1, worth_eq (hs.acc hp.1)]
      exact congrArg _ (ha.sum_heldBy hs hc hh hsub hn hsum (k := .node m) hp).symm
  refine ⟨hsame.consistent (ha.carried.consistent hc1) hreduces.sound.toLinked,
    fun m hm hm' => by rw [hworth m hm', worthAcross_of_live hm], fun i hi => ?_, by simp⟩
  refine (Terms.sum_congr fun m hm => hworth m ?_).trans (ha.sum_heldBy hs hc hh hsub hn hsum (k := .marking i) hi)
  exact (hreduces.sound.markings i (by rwa [hreduces.handles])).live m hm

end Absorbed

/-! ## Merging -/

theorem redirect_of_digit?_eq_none (hd : Terms.digit? dup (c.heldBy h) = none) : redirect dup survivor c h = c := by
  simp [redirect, hd]

theorem redirect_of_digit?_eq_some {s : Sign} (hd : Terms.digit? dup (c.heldBy h) = some s) :
    redirect dup survivor c h =
      ((c.setHeld h []).absorb (Terms.erase dup (c.heldBy h)) survivor s).2.setHeld h
        ((c.setHeld h []).absorb (Terms.erase dup (c.heldBy h)) survivor s).1 := by
  simp [redirect, hd]

/-- What putting a survivor in the stead of a duplicate does. -/
structure Redirected (c : Circuit) (dup survivor : Node) (hs : List Holder) (d : Circuit) : Prop where
  reduces : Reduces c [] d
  clean : ∀ h ∈ hs, dup ∉ Terms.nodes (d.heldBy h)
  preserves : c.Consistent → c.worth dup = c.worth survivor → Preserves c [] d

theorem Sound.redirect (hs : c.Sound) (hdup : c.Pending dup) (hsurvivor : c.Reduced survivor) (hh : c.IsHolder h) :
    Redirected c dup survivor [h] (redirect dup survivor c h) := by
  cases hd : Terms.digit? dup (c.heldBy h) with
  | none =>
    rw [redirect_of_digit?_eq_none hd]
    exact ⟨.refl hs, by simpa using Terms.digit?_eq_none_iff.1 hd, fun hc _ => .refl hc⟩
  | some s =>
    rw [redirect_of_digit?_eq_some hd]
    have hproper := hh.proper hs.toLinked
    have hsub := Terms.erase_sublist dup (c.heldBy h)
    have hs1 := hh.sound_setHeld_nil hs
    have hlive : ∀ {m}, c.Live m → (c.setHeld h []).Live m := setHeld_live_iff.2
    have hne : s ≠ .zero := hproper.nonzero _ (Terms.mem_of_digit?_eq_some hd)
    have ha := hs1.absorb ((hproper.sublist hsub).mono fun _ => hlive)
      (((hh.setHeld_sameReduced []).reduced survivor).2 hsurvivor) hne
    have hreduces := ha.reduces hs hh hsub
    refine ⟨hreduces, ?_, fun hc hw => ha.preserves hs hc hh hsub hsurvivor ?_⟩
    · rw [List.forall_mem_singleton]
      intro hmem
      rw [(ha.carried.grows.isHolder_iff.2 (setHeld_isHolder_iff.2 hh)).heldBy_setHeld] at hmem
      rcases ha.entries dup hmem with hin | hred
      · exact hproper.toProper.not_mem_erase hin
      · exact ((ha.carried.grows.pending dup).2 (setHeld_pending_iff.2 hdup)).not_reduced hred
    · rw [Terms.sum_erase hd, hw]
      simp [termsWorth]

theorem Reduces.isHolder_iff (hr : Reduces c [] d) : d.IsHolder h ↔ c.IsHolder h := by
  cases h with
  | node p => exact (hr.pending p).trans (by simp [IsHolder])
  | marking i => rw [IsHolder, hr.handles, IsHolder]

/-- All holders get the survivor in the stead of the duplicate. -/
theorem Sound.foldl_redirect (hs : c.Sound) (hdup : c.Pending dup) (hsurvivor : c.Reduced survivor)
    {holders : List Holder} (hh : ∀ h ∈ holders, c.IsHolder h) :
    Redirected c dup survivor holders (holders.foldl (Circuit.redirect dup survivor) c) := by
  induction holders generalizing c with
  | nil => exact ⟨.refl hs, by simp, fun hc _ => .refl hc⟩
  | cons h holders ih =>
    have hfirst := hs.redirect hdup hsurvivor (hh h (by simp))
    have hdup' : (Circuit.redirect dup survivor c h).Pending dup := (hfirst.reduces.pending dup).2 ⟨hdup, by simp⟩
    have hsurvivor' := (hfirst.reduces.extend survivor hsurvivor).1
    have hrest := ih hfirst.reduces.sound hdup' hsurvivor' fun h' hh' =>
      hfirst.reduces.isHolder_iff.2 (hh h' (by simp [hh']))
    have hreduces := hfirst.reduces.trans hrest.reduces
    refine ⟨hreduces, List.forall_mem_cons.2 ⟨fun hmem => ?_, hrest.clean⟩, fun hc hw => ?_⟩
    · -- a holder that is through with the duplicate does not get it back
      have hholder := hreduces.isHolder_iff.2 (hh h (by simp))
      rcases hrest.reduces.entries h hholder dup hmem with hin | hred
      · exact hfirst.clean h (by simp) hin
      · exact ((hreduces.pending dup).2 ⟨hdup, by simp⟩).not_reduced hred
    · have hp := hfirst.preserves hc hw
      refine hp.trans hfirst.reduces hrest.reduces (hrest.preserves hp.consistent ?_)
      rw [hp.worth dup hdup.1 hdup'.1, hp.worth survivor hsurvivor.1 hsurvivor'.1, hw]

theorem add_one_ne (g : UInt32) : g + 1 ≠ g := by
  intro h
  have := congrArg (· - g) h
  simp at this

/-! ### Freeing a node that no holder mentions -/

theorem Sound.not_mentioned (hs : c.Sound) (hn : c.Pending n) (hclean : ∀ h, ¬ c.Holds n h) (hm : c.Live m) :
    n ∉ c.successorNodes m := fun hb => by
  rcases reduced_or_pending hm with hr | hp
  · exact hn.not_reduced (hs.closed m hr n hb)
  · exact hclean (.node m) ⟨hp, hb⟩

theorem Live.freeNode_successors (hn : c.Live n) (hm : c.Live m) (hne : m ≠ n) :
    (c.freeNode n).successors m = c.successors m :=
  congrArg Slot.successors (hn.freeNode_slot hm hne)

theorem Pending.freeNode_pending_iff (hn : c.Pending n) : (c.freeNode n).Pending m ↔ c.Pending m ∧ m ≠ n := by
  rw [pending_iff, pending_iff, hn.1.freeNode_live_iff, hn.freeNode_sameReduced.reduced]
  tauto

theorem Sound.freeNode_worth (hs : c.Sound) (hn : c.Pending n) (hclean : ∀ h, ¬ c.Holds n h) (hm : c.Live m)
    (hne : m ≠ n) : (c.freeNode n).worth m = c.worth m :=
  worth_congr (S := fun m => c.Live m ∧ m ≠ n)
    (fun _ hm _ hk => ⟨hs.live_of_below hm.1 hk, fun he => hs.not_mentioned hn hclean hm.1 (he ▸ hk)⟩)
    (fun _ hm => hn.1.freeNode_successors hm.1 hm.2) ⟨hm, hne⟩ (hs.acc hm)

theorem Sound.free_reduces (hs : c.Sound) (hn : c.Pending n) (hclean : ∀ h, ¬ c.Holds n h) :
    Reduces c [n] (c.freeNode n) := by
  have hlinked : (c.freeNode n).Linked := hs.toLinked.freeNode hn (fun m hm => hs.not_mentioned hn hclean hm)
    fun i hi hmem => hclean (.marking i) ⟨hi, hmem⟩
  refine ⟨⟨hlinked, hs.toStored.freeNode hn.1⟩, rfl, rfl, fun _ => rfl, by simpa using hn, fun m hm hne => ?_,
    fun m => ?_, fun h hh m hm => .inl ?_, hn.freeNode_sameReduced.extends, fun i => ?_, ?_⟩
  · exact hn.1.freeNode_live_iff.2 ⟨hm, by simpa using hne⟩
  · rw [hn.freeNode_pending_iff, List.mem_singleton]
  · cases h with
    | node p =>
      obtain ⟨hp, hne⟩ := hn.freeNode_pending_iff.1 hh
      have hm : m ∈ Terms.nodes ((c.freeNode n).successors p) := hm
      rwa [hn.1.freeNode_successors hp.1 hne] at hm
    | marking i => exact hm
  · by_cases hi : i = n.index
    · exact .inr ⟨n, by simp, hi.symm⟩
    · exact .inl (by rw [hn.1.freeNode_slotAt, if_neg hi])
  · rw [List.forall_mem_singleton, slot, hn.1.freeNode_slotAt, if_pos rfl]
    refine .inr ?_
    rw [← hn.1.2.2]
    exact add_one_ne _

theorem Sound.free_preserves (hs : c.Sound) (hn : c.Pending n) (hclean : ∀ h, ¬ c.Holds n h) (hc : c.Consistent)
    (htwin : ∃ m, c.Reduced m ∧ c.worth m = c.worth n) : Preserves c [n] (c.freeNode n) := by
  have hsame := hn.freeNode_sameReduced
  refine ⟨hsame.consistent hc (hs.free_reduces hn hclean).sound.toLinked, fun m hm hm' => ?_, fun i hi => ?_, ?_⟩
  · exact hs.freeNode_worth hn hclean hm (hn.1.freeNode_live_iff.1 hm').2
  · refine Terms.sum_congr fun m hm => hs.freeNode_worth hn hclean ((hs.markings i hi).live m hm) fun he => ?_
    exact hclean (.marking i) ⟨hi, he ▸ hm⟩
  · rw [List.forall_mem_singleton]
    obtain ⟨m, hm, hw⟩ := htwin
    exact ⟨m, (hsame.reduced m).2 hm, by rw [hsame.extends.worth_eq hs.toLinked hm, hw]⟩

/-- A node whose holders are all listed is merged with a reduced node. -/
theorem Sound.merge (hs : c.Sound) (hdup : c.Pending dup) (hsurvivor : c.Reduced survivor) {holders : List Holder}
    (hh : ∀ h ∈ holders, c.IsHolder h) (hall : ∀ h, c.Holds dup h → h ∈ holders) :
    Reduces c [dup] (merge dup survivor holders c) ∧
      (c.Consistent → c.worth dup = c.worth survivor → Preserves c [dup] (merge dup survivor holders c)) := by
  have hr := hs.foldl_redirect hdup hsurvivor hh
  have hdup' := (hr.reduces.pending dup).2 ⟨hdup, by simp⟩
  have hsurvivor' := (hr.reduces.extend survivor hsurvivor).1
  have hclean : ∀ h, ¬ (holders.foldl (Circuit.redirect dup survivor) c).Holds dup h := fun h hholds => by
    obtain ⟨hholder, hmem⟩ := holds_iff.1 hholds
    rcases hr.reduces.entries h hholder dup hmem with hin | hred
    · exact hr.clean h (hall h (holds_iff.2 ⟨hr.reduces.isHolder hholder, hin⟩)) hmem
    · exact hdup'.not_reduced hred
  have hfree := hr.reduces.sound.free_reduces hdup' hclean
  refine ⟨hr.reduces.trans hfree, fun hc hw => ?_⟩
  have hp := hr.preserves hc hw
  have htwin : (holders.foldl (Circuit.redirect dup survivor) c).worth survivor =
      (holders.foldl (Circuit.redirect dup survivor) c).worth dup := by
    rw [hp.worth dup hdup.1 hdup'.1, hp.worth survivor hsurvivor.1 hsurvivor'.1, hw]
  exact hp.trans hr.reduces hfree
    (hr.reduces.sound.free_preserves hdup' hclean hp.consistent ⟨survivor, hsurvivor', htwin⟩)

/-! ## Inserting -/

theorem insertReduced_sameRanks : (c.place n p).SameRanks (c.insertReduced n p) :=
  refreshBelow_sameRanks.trans refreshDoubles_sameRanks

/-- A pending node whose successors are reduced enters the order, and all worths stay. -/
theorem Sound.insertReduced (hs : c.Sound) (hn : c.Pending n) (hb : ∀ m, c.Below m n → c.Reduced m)
    (hp : p ≤ c.order.size) : Reduces c [n] (c.insertReduced n p) ∧ (c.insertReduced n p).worth = c.worth := by
  have hsame := insertReduced_sameRanks (c := c) (n := n) (p := p)
  have hnodes := place_sameNodes.trans hsame.toSameNodes
  have hlinked : (c.insertReduced n p).Linked := hsame.linked (hs.toLinked.place hn hp hb)
  have hreduced : ∀ m, (c.insertReduced n p).Reduced m ↔ c.Reduced m ∨ m = n := fun m => by
    rw [hsame.reduced_iff, hs.toLinked.place_reduced_iff hn hp]
  have hpending : ∀ m, (c.insertReduced n p).Pending m ↔ c.Pending m ∧ m ∉ [n] := fun m => by
    rw [pending_iff, pending_iff, hnodes.live_iff, hreduced, List.mem_singleton]
    tauto
  refine ⟨⟨⟨hlinked, hnodes.stored hs.toStored⟩, hnodes.id, hnodes.config, fun i => by rw [cellAt, hnodes.cells]; rfl,
    by simpa using hn, fun m hm _ => hnodes.live_iff.2 hm, hpending, fun h _ m hm => .inl ?_,
    fun m hm => ⟨(hreduced m).2 (.inl hm), congrFun hnodes.successors_eq m⟩, fun i => .inl (hnodes.generation i),
    by simp [hreduced]⟩, hnodes.worth_eq⟩
  cases h with
  | node q => rwa [heldBy, hnodes.successors_eq] at hm
  | marking i => rwa [heldBy, cellAt, hnodes.cells] at hm

theorem Sound.insertReduced_preserves (hs : c.Sound) (hc : c.Consistent) (hn : c.Pending n) (hlegal : c.Legal n)
    (hp : p ≤ c.order.size) (hbelow : ∀ r m, r < p → c.order[r]? = some m → c.worth m < c.worth n)
    (habove : ∀ r m, p ≤ r → c.order[r]? = some m → c.worth n < c.worth m)
    (hb : ∀ m, c.Below m n → c.Reduced m) : Preserves c [n] (c.insertReduced n p) := by
  obtain ⟨hr, hw⟩ := hs.insertReduced hn hb hp
  have hplace := hs.toLinked.place hn hp hb
  have hunmentioned : ∀ m, (c.place n p).Reduced m → ¬ (c.place n p).Below n m := fun m hm hnm => by
    rw [place_sameNodes.below_eq] at hnm
    rcases (hs.toLinked.place_reduced_iff hn hp).1 hm with hm | rfl
    · exact hn.not_reduced (hs.closed m hm n hnm)
    · exact hn.not_reduced (hb m hnm)
  -- below the unit there is no place for a legal node
  have hfirst : 0 < p ∨ (c.place n p).order[p + 1]? = none := by
    rcases Nat.eq_zero_or_pos p with rfl | hpos
    · rw [place_order_succ hp le_rfl]
      cases h0 : c.order[0]? with
      | none => exact .inr rfl
      | some m =>
        have := habove 0 m le_rfl h0
        rw [hc.worth_first hs.toLinked h0] at this
        exact absurd hlegal.one_le_worth this.not_ge
    · exact .inl hpos
  have hconsistent : (c.insertReduced n p).Consistent :=
    hplace.consistent_refreshed (hc.toGraded.place hs.toLinked hn hp hlegal hbelow habove) (place_order_self hp)
      hunmentioned hfirst fun s h1 h2 => hc.place_flagTrue hp h1 h2
  have hcells : ∀ i, (c.insertReduced n p).cellAt i = c.cellAt i := fun i => by
    rw [cellAt, (place_sameNodes.trans insertReduced_sameRanks.toSameNodes).cells]
    rfl
  have hn' : (c.insertReduced n p).Reduced n := by
    rw [insertReduced_sameRanks.reduced_iff, hs.toLinked.place_reduced_iff hn hp]
    exact .inr rfl
  refine ⟨hconsistent, fun m _ _ => by rw [hw], fun i _ => ?_, ?_⟩
  · rw [termsWorth, hw, hcells]
    rfl
  · rw [List.forall_mem_singleton]
    exact ⟨n, hn', by rw [hw]⟩

/-! ## Taking one node into the order -/

/-- What becomes of a node whose successors are reduced: worths are kept if it is not a fraction, and a fraction gets
into the order. -/
structure Settled (c : Circuit) (n : Node) (d : Circuit) : Prop where
  reduces : Reduces c [n] d
  preserves : c.Consistent → 1 ≤ c.worth n → Preserves c [n] d
  fraction : c.Consistent → c.worth n < 1 → d.Reduced n ∧ d.worth n < 1

theorem reduceNode_of_taken {table : Std.HashMap Node (Array Holder)} (hf : c.search (c.successors n) = .ok (.taken r))
    (hr : c.order[r]? = some survivor) :
    (reduceNode table n).run c = (.ok (), c.merge n survivor (listed table n)) := by
  simp only [reduceNode, Call.run, hf, hr]
  rfl

theorem reduceNode_of_vacant {table : Std.HashMap Node (Array Holder)}
    (hf : c.search (c.successors n) = .ok (.vacant r)) :
    (reduceNode table n).run c = (.ok (), c.insertReduced n r) := by
  simp only [reduceNode, Call.run, hf]

theorem reduceNode_of_taken_none {table : Std.HashMap Node (Array Holder)}
    (hf : c.search (c.successors n) = .ok (.taken r))
    (hr : c.order[r]? = none) : (reduceNode table n).run c = (.ok (), c) := by
  simp only [reduceNode, Call.run, hf, hr]

theorem reduceNode_eq_error {table : Std.HashMap Node (Array Holder)} {error : CircuitError}
    (hf : c.search (c.successors n) = .error error) : (reduceNode table n).run c = (.error error, c) := by
  simp only [reduceNode, Call.run, hf]

theorem Sound.reduceNode (hs : c.Sound) (hn : c.Pending n) (hb : ∀ m, c.Below m n → c.Reduced m)
    {table : Std.HashMap Node (Array Holder)} (hh : ∀ h ∈ listed table n, c.IsHolder h)
    (hall : ∀ h, c.Holds n h → h ∈ listed table n) :
    ∃ d, (reduceNode table n).run c = (.ok (), d) ∧ Settled c n d := by
  have hproper := hs.exponents n hn.1
  by_cases hc : c.Consistent
  · have hlt : ∀ {r : ℕ} {m}, c.order[r]? = some m → (c.worth m < c.worth n ↔
        c.termsWorth (c.successors m) < c.termsWorth (c.successors n)) ∧ (c.worth n < c.worth m ↔
        c.termsWorth (c.successors n) < c.termsWorth (c.successors m)) := fun hm => by
      have hm := hs.acc (hs.reduced_of_getElem? hm).1
      exact ⟨worth_lt_iff hm (hs.acc hn.1), worth_lt_iff (hs.acc hn.1) hm⟩
    rcases hc.search hproper hb with ⟨r, m, hf, hm, heq⟩ | ⟨r, hr, hf, hbelow, habove⟩
    · have hm' := hs.reduced_of_getElem? hm
      have hw : c.worth n = c.worth m := by rw [worth_eq (hs.acc hn.1), worth_eq (hs.acc hm'.1), heq]
      obtain ⟨hreduces, hvalue⟩ := hs.merge hn hm' hh hall
      refine ⟨_, reduceNode_of_taken hf hm, hreduces, fun hc _ => hvalue hc hw, fun hc h1 => ?_⟩
      exact absurd (hc.legal m hm').one_le_worth (by rw [← hw]; exact h1.not_ge)
    · obtain ⟨hreduces, hw⟩ := hs.insertReduced hn hb hr
      refine ⟨_, reduceNode_of_vacant hf, hreduces, fun hc h1 => ?_, fun hc h1 => ⟨?_, by rwa [hw]⟩⟩
      · exact hs.insertReduced_preserves hc hn
          (legal_of_one_le_worth (fun m hm => hc.legal m (hb m hm)) (hs.acc hn.1) h1) hr
          (fun i m hi hm => (hlt hm).1.2 (hbelow i m hi hm)) (fun i m hi hm => (hlt hm).2.2 (habove i m hi hm)) hb
      · rw [insertReduced_sameRanks.reduced_iff, hs.toLinked.place_reduced_iff hn hr]
        exact .inr rfl
  · rcases hs.toLinked.search hproper hb with ⟨r, hr, hf⟩ | ⟨r, hr, hf⟩
    · have hm := Array.getElem?_eq_getElem hr
      exact ⟨_, reduceNode_of_taken hf hm, (hs.merge hn (hs.reduced_of_getElem? hm) hh hall).1,
        fun hc' => absurd hc' hc, fun hc' => absurd hc' hc⟩
    · exact ⟨_, reduceNode_of_vacant hf, (hs.insertReduced hn hb hr).1, fun hc' => absurd hc' hc,
        fun hc' => absurd hc' hc⟩

end PowerTower.Circuit
