import Mathlib
import PowerTower.Proofs.Doubling
import PowerTower.Proofs.Cloning

/-!
# What a removal leaves

* `Freed`, `foldl_freeNode_freed` : the nodes of a list are freed, one after the other, and the others stay as they are;
* `WellFormed.demoteFor_of_reduced` : the reduced order is cut off to the unit, or to nothing if the unit goes;
* `Removed`, `WellFormed.removeNodes_removed` : everything that is left when some nodes are taken out of the circuit;
* `WellFormed.reduce_all` : what is left can be reduced as soon as it is legal.
-/

namespace PowerTower.Circuit

open Guards

variable {c d : Circuit} {m : Marking} {n u : Node} {doomed : List Node}

/-! ## Freed nodes -/

/-- The nodes of a list are freed, and nothing else changes. -/
structure Freed (c : Circuit) (doomed : List Node) (d : Circuit) : Prop where
  id : d.id = c.id
  order : d.order = c.order
  cells : d.cells = c.cells
  live : ∀ n, d.Live n ↔ c.Live n ∧ n ∉ doomed
  slot : ∀ n, d.Live n → d.slot n = c.slot n
  doubles : (∀ i, (c.slotAt i).doubles = false) → ∀ i, (d.slotAt i).doubles = false

theorem Freed.refl (c : Circuit) : Freed c [] c where
  id := rfl
  order := rfl
  cells := rfl
  live := fun n => by simp
  slot := fun _ _ => rfl
  doubles := fun h => h

/-- One node is freed before the others. -/
theorem Freed.cons (hn : c.Live n) (h : Freed (c.freeNode n) doomed d) : Freed c (n :: doomed) d where
  id := h.id
  order := h.order
  cells := h.cells
  live := fun k => by
    rw [h.live, hn.freeNode_live_iff, List.mem_cons, not_or, and_assoc]
  slot := fun k hk => by
    obtain ⟨hlive, hne⟩ := hn.freeNode_live_iff.1 ((h.live k).1 hk).1
    rw [h.slot k hk, hn.freeNode_slot hlive hne]
  doubles := fun hfalse => by
    apply h.doubles
    intro i
    rw [hn.freeNode_slotAt]
    split_ifs
    · rfl
    · exact hfalse i

theorem foldl_freeNode_freed (hnodup : doomed.Nodup) (hlive : ∀ n ∈ doomed, c.Live n) :
    Freed c doomed (doomed.foldl (fun c n => c.freeNode n) c) := by
  induction doomed generalizing c with
  | nil => exact .refl c
  | cons n doomed ih =>
    apply Freed.cons (hlive n (by simp))
    apply ih hnodup.of_cons
    exact live_freeNode_of_nodup hnodup hlive

/-! ## Nodes that are forgotten -/

theorem without_ofList (doomed : List Node) (ts : List Term) :
    without (Std.HashSet.ofList doomed) ts = ts.filter fun t => t.1 ∉ doomed := by
  apply List.filter_congr
  intro t _
  rw [Std.HashSet.contains_ofList]
  simp

theorem forget_doubles (c : Circuit) (gone : Std.HashSet Node) (i : ℕ) :
    ((c.forget gone).slotAt i).doubles = (c.slotAt i).doubles := by
  rw [forget_slotAt]
  split_ifs
  · rfl
  · rfl

/-- The nodes of a list are freed, and taken out of all that mentions them. -/
structure Thinned (c : Circuit) (doomed : List Node) (d : Circuit) : Prop where
  id : d.id = c.id
  order : d.order = c.order
  live : ∀ n, d.Live n ↔ c.Live n ∧ n ∉ doomed
  rank : ∀ n, d.Live n → d.rank? n = c.rank? n
  flag : ∀ n, d.Live n → (d.slot n).doubles = (c.slot n).doubles
  doubles : (∀ i, (c.slotAt i).doubles = false) → ∀ i, (d.slotAt i).doubles = false
  successors : ∀ n, d.Live n → d.successors n = (c.successors n).filter fun t => t.1 ∉ doomed
  handles : ∀ i, (d.cellAt i).handles = (c.cellAt i).handles
  terms : ∀ i, 0 < (c.cellAt i).handles → (d.cellAt i).terms = (c.cellAt i).terms.filter fun t => t.1 ∉ doomed

theorem Freed.thinned (h : Freed c doomed d) : Thinned c doomed (d.forget (Std.HashSet.ofList doomed)) where
  id := h.id
  order := h.order
  live := fun n => forget_live_iff.trans (h.live n)
  rank := fun n hn => by
    rw [forget_rank?, rank?, h.slot n (forget_live_iff.1 hn), rank?]
  flag := fun n hn => by
    refine (forget_doubles d _ n.index).trans ?_
    exact congrArg Slot.doubles (h.slot n (forget_live_iff.1 hn))
  doubles := fun hfalse i => by
    rw [forget_doubles]
    exact h.doubles hfalse i
  successors := fun n hn => by
    have hn : d.Live n := forget_live_iff.1 hn
    rw [forget_successors hn, without_ofList, successors, h.slot n hn, successors]
  handles := fun i => by
    rw [forget_cellAt, cellAt_of_cells_eq h.cells]
    split_ifs
    · rfl
    · rfl
  terms := fun i hi => by
    rw [forget_cellAt, cellAt_of_cells_eq h.cells, if_pos hi]
    exact without_ofList doomed _

/-! ## The reduced order that stays -/

theorem demote_doubles (keep i : ℕ) : ((c.demote keep).slotAt i).doubles = false := by rw [demote_slotAt]

/-- Where nothing that goes is reduced, the order stays. -/
theorem demoteFor_of_not_reduced (hlive : ∀ n ∈ doomed, c.Live n) (h : ∀ n ∈ doomed, ¬ c.Reduced n) :
    c.demoteFor doomed = c := by
  have hnone : c.lowestRank? doomed = none := by
    apply List.min?_eq_none_iff.2
    apply List.filterMap_eq_nil_iff.2
    intro n hn
    exact (pending_iff.2 ⟨hlive n hn, h n hn⟩).2
  rw [demoteFor, hnone]

/-- Where something that goes is reduced, the first of the order stays unless it goes itself. -/
theorem Linked.demoteFor_of_reduced (h : c.Linked) (hlive : ∀ n ∈ doomed, c.Live n) (hn : n ∈ doomed)
    (hr : c.Reduced n) :
    ∃ u, c.order[0]? = some u ∧ c.demoteFor doomed = c.demote (if u ∈ doomed then 0 else 1) := by
  obtain ⟨r, hrank⟩ := hr.exists_rank
  have hmem : r ∈ doomed.filterMap c.rank? := List.mem_filterMap.2 ⟨n, hn, hrank⟩
  obtain ⟨lowest, hlow⟩ : ∃ lowest, c.lowestRank? doomed = some lowest :=
    Option.ne_none_iff_exists'.1 fun hnone => List.ne_nil_of_mem hmem (List.min?_eq_none_iff.1 hnone)
  obtain ⟨hlowest, hleast⟩ := List.min?_eq_some_iff.1 hlow
  obtain ⟨k, hk, hkrank⟩ := List.mem_filterMap.1 hlowest
  obtain ⟨hsize, -⟩ := Array.getElem?_eq_some_iff.1 (h.getElem?_of_rank? (hlive n hn) hrank)
  obtain ⟨u, hu⟩ : ∃ u, c.order[0]? = some u := ⟨_, Array.getElem?_eq_getElem (Nat.zero_lt_of_lt hsize)⟩
  have hiff : lowest = 0 ↔ u ∈ doomed := by
    constructor
    · rintro rfl
      obtain rfl := Option.some.inj ((h.getElem?_of_rank? (hlive k hk) hkrank).symm.trans hu)
      exact hk
    · intro hudoomed
      have hle := hleast 0 (List.mem_filterMap.2 ⟨u, hudoomed, h.rank?_of_getElem? hu⟩)
      omega
  refine ⟨u, hu, ?_⟩
  rw [demoteFor, hlow]
  simp only [hiff]

/-- The unit is all that is left of an order that is cut off. -/
theorem demote_order_eq (hu : c.order[0]? = some u) :
    (c.demote (if u ∈ doomed then 0 else 1)).order = if u ∈ doomed then #[] else #[u] := by
  apply Array.ext_getElem?
  intro r
  rw [demote_order]
  by_cases hdoomed : u ∈ doomed
  · rw [if_pos hdoomed, if_pos hdoomed, if_neg (Nat.not_lt_zero r)]
    rfl
  · rw [if_neg hdoomed, if_neg hdoomed]
    cases r with
    | zero => exact hu
    | succ r => rw [if_neg (by omega), Array.getElem?_eq_none (by simp)]

/-- Cut off to one node at most, the order has no other node than the first. -/
theorem Linked.demote_rank?_eq_none (h : c.Linked) (hu : c.order[0]? = some u) (hn : c.Live n) (hne : n ≠ u) :
    (c.demote (if u ∈ doomed then 0 else 1)).rank? n = none := by
  apply Option.eq_none_iff_forall_not_mem.2
  intro r hr
  obtain ⟨hrank, hlt⟩ := (h.demote_rank?_iff hn).1 hr
  obtain rfl : r = 0 := by split_ifs at hlt <;> omega
  exact hne (Option.some.inj ((h.getElem?_of_rank? hn hrank).symm.trans hu))

/-! ## What is left -/

/-- What is left when some nodes are taken out of a circuit. -/
structure Removed (c : Circuit) (doomed : List Node) (d : Circuit) : Prop where
  wellFormed : d.WellFormed
  id : d.id = c.id
  config : d.config = c.config
  /-- Exactly those nodes are gone, and their names are stale. -/
  live : ∀ n, d.Live n ↔ c.Live n ∧ n ∉ doomed
  stale : ∀ n ∈ doomed, d.checkNode n = .error (.staleNode n)
  /-- The exponents of the others go on without them, -/
  successors : ∀ n, d.Live n → d.successors n = (c.successors n).filter fun t => t.1 ∉ doomed
  /-- and so do the live markings, which are the same ones. -/
  handles : ∀ i, (d.cellAt i).handles = (c.cellAt i).handles
  terms : ∀ i, 0 < (c.cellAt i).handles → (d.cellAt i).terms = (c.cellAt i).terms.filter fun t => t.1 ∉ doomed
  /-- If none of them was reduced, then the order stays, with its ranks and flags. -/
  kept : (∀ n ∈ doomed, ¬ c.Reduced n) →
    d.order = c.order ∧ ∀ n, d.Live n → d.rank? n = c.rank? n ∧ (d.slot n).doubles = (c.slot n).doubles
  /-- Otherwise nothing but the unit stays in it, and that only if it is not one of them. -/
  demoted : (∃ n ∈ doomed, c.Reduced n) → ∃ u, c.order[0]? = some u ∧ c.worth u = 1 ∧
    d.order = (if u ∈ doomed then #[] else #[u]) ∧ (∀ n, d.Live n → n ≠ u → d.Pending n) ∧
    ∀ i, (d.slotAt i).doubles = false

theorem Removed.refl (h : c.WellFormed) : Removed c [] c where
  wellFormed := h
  id := rfl
  config := rfl
  live := fun n => by simp
  stale := by simp
  successors := fun n _ => by simp
  handles := fun _ => rfl
  terms := fun i _ => by simp
  kept := fun _ => ⟨rfl, fun _ _ => ⟨rfl, rfl⟩⟩
  demoted := by simp

theorem removeNodes_thinned (hne : doomed ≠ []) (hnodup : doomed.Nodup)
    (hlive : ∀ n ∈ doomed, (c.demoteFor doomed).Live n) :
    Thinned (c.demoteFor doomed) doomed (c.removeNodes doomed) := by
  rw [removeNodes, if_neg (by simpa using hne)]
  exact (foldl_freeNode_freed hnodup hlive).thinned

/-- The nodes of a list go. The rest of the circuit is cut off and thinned out, and is well formed. -/
theorem WellFormed.removeNodes_removed (h : c.WellFormed) (hnodup : doomed.Nodup) (hlive : ∀ n ∈ doomed, c.Live n) :
    Removed c doomed (c.removeNodes doomed) := by
  by_cases hempty : doomed = []
  · subst hempty
    exact .refl h
  obtain ⟨-, hsame, -⟩ := h.demoteFor doomed
  have hthinned := removeNodes_thinned hempty hnodup fun n hn => hsame.live_iff.2 (hlive n hn)
  have hid : (c.removeNodes doomed).id = c.id := hthinned.id.trans hsame.id
  have hlive_iff : ∀ n, (c.removeNodes doomed).Live n ↔ c.Live n ∧ n ∉ doomed := fun n => by
    rw [hthinned.live, hsame.live_iff]
  have hcell := cellAt_of_cells_eq hsame.cells
  exact {
    wellFormed := h.removeNodes hnodup hlive
    id := hid
    config := removeNodes_config
    live := hlive_iff
    stale := fun n hn => by
      apply checkNode_of_not_live ((hlive n hn).1.trans hid.symm)
      intro hl
      exact ((hlive_iff n).1 hl).2 hn
    successors := fun n hn => by
      rw [hthinned.successors n hn, hsame.successors_eq]
    handles := fun i => by
      rw [hthinned.handles, hcell]
    terms := fun i hi => by
      rw [hthinned.terms i (by rwa [hcell]), hcell]
    kept := fun hkept => by
      rw [demoteFor_of_not_reduced hlive hkept] at hthinned
      exact ⟨hthinned.order, fun n hn => ⟨hthinned.rank n hn, hthinned.flag n hn⟩⟩
    demoted := by
      rintro ⟨n, hn, hr⟩
      obtain ⟨u, hu, hdemote⟩ := h.demoteFor_of_reduced hlive hn hr
      rw [hdemote] at hthinned
      refine ⟨u, hu, h.worth_first h.toLinked hu, ?_, ?_, hthinned.doubles (demote_doubles _)⟩
      · rw [hthinned.order, demote_order_eq hu]
      · intro k hk hne
        refine ⟨hk, ?_⟩
        rw [hthinned.rank k hk]
        exact h.demote_rank?_eq_none hu ((hlive_iff k).1 hk).1 hne }

/-! ## Afterwards -/

/-- A circuit of legal nodes is reduced altogether. -/
theorem WellFormed.reduce_all (h : c.WellFormed) (hlegal : ∀ n, c.Live n → c.Legal n) :
    ∃ d, reduce.run c = (.ok (), d) ∧ Canonical c c.Pending d ∧ ∀ n, d.Live n → d.Reduced n := by
  obtain ⟨d, hrun, hd⟩ := h.runReduce_canonical closed_pendingNodes fun n hn => hlegal n (mem_pendingNodes.1 hn).1
  rw [mem_pendingNodes_eq] at hd
  refine ⟨d, hrun, hd, fun n hn => ?_⟩
  apply (reduced_or_pending hn).resolve_right
  intro hp
  obtain ⟨hpending, hnot⟩ := (hd.pending n).1 hp
  exact hnot hpending

/-- The removal of a marking is always answered. It takes the nodes of the marking out of the circuit and of all that
mentions them, and gives up the reduced order down to the unit where one of them was in it. If the nodes that are left
are legal, a reduction rebuilds the order, of all of them, and every marking is worth what its remaining entries were
worth. -/
theorem removal_is_exact (h : c.WellFormed) (hm : m.circuit = c.id) (hheld : c.Held m) :
    ∃ d, (remove m).run c = (.ok (), d) ∧ Removed c (c.nodesOf m) d ∧
      ((∀ n, d.Live n → d.Legal n) →
        ∃ e, reduce.run d = (.ok (), e) ∧ Canonical d d.Pending e ∧ (∀ n, e.Live n → e.Reduced n) ∧
          ∀ i, 0 < (c.cellAt i).handles → e.termsWorth (e.cellAt i).terms =
            d.termsWorth ((c.cellAt i).terms.filter fun t => t.1 ∉ c.nodesOf m)) := by
  have hproper := h.proper_termsOf hheld hm
  have hremoved : Removed c (c.nodesOf m) (c.removeNodes (c.nodesOf m)) :=
    h.removeNodes_removed hproper.nodup hproper.live
  refine ⟨_, run_own hm, hremoved, fun hlegal => ?_⟩
  obtain ⟨e, hrun, he, hreduced⟩ := hremoved.wellFormed.reduce_all hlegal
  refine ⟨e, hrun, he, hreduced, fun i hi => ?_⟩
  rw [← hremoved.terms i hi]
  exact he.markings_worth i (by rwa [hremoved.handles])

/-- The nodes of worth one, two and eight, with a marking of two, and one of eight less two and one. -/
def fiveWithTwo : Circuit :=
  let c := (withoutFour.newMarking [(⟨⟨0⟩, 1, 0⟩, .plus)]).2
  (c.newMarking [(⟨⟨0⟩, 2, 0⟩, .plus), (⟨⟨0⟩, 1, 0⟩, .minus), (⟨⟨0⟩, 0, 0⟩, .minus)]).2

theorem wellFormed_fiveWithTwo : fiveWithTwo.WellFormed := by
  refine (wellFormed_withoutFour.newMarking ⟨⟨by decide, by decide⟩, by decide⟩).newMarking ⟨⟨by decide, by decide⟩, ?_⟩
  exact fun n hn => by revert n; decide

/-- Of a node of worth one and a node above it the second is worth two, and both are legal. -/
theorem WellFormed.legal_of_successors (h : d.WellFormed) {one two : Node} (hlive : ∀ n, d.Live n ↔ n = one ∨ n = two)
    (hone : d.successors one = []) (htwo : d.successors two = [(one, .plus)]) :
    d.worth one = 1 ∧ d.worth two = 2 ∧ ∀ n, d.Live n → d.Legal n := by
  have hworth : d.worth one = 1 := worth_of_successors_eq_nil hone
  have hexponent : d.termsWorth (d.successors two) = 1 := by
    rw [htwo, termsWorth, Terms.sum_cons, Terms.sum_nil, hworth]
    simp
  have hlegal : d.Legal one := by
    refine .intro 0 (fun m hm => ?_) (by rw [hone]; simp [termsWorth])
    rw [Below, successorNodes, hone] at hm
    cases hm
  refine ⟨hworth, ?_, fun n hn => ?_⟩
  · rw [worth_eq (h.acc ((hlive two).2 (.inr rfl))), hexponent, Real.rpow_one]
  · rcases (hlive n).1 hn with rfl | rfl
    · exact hlegal
    · refine .intro 1 (fun m hm => ?_) (by rw [hexponent, Nat.cast_one])
      rw [Below, successorNodes, htwo] at hm
      rwa [List.mem_singleton.1 hm]

/-- Without two, the node that was worth two to the power of one and two is worth two, and the other marking one. -/
theorem removal_of_two : fiveWithTwo.WellFormed ∧ ∃ d e, (remove ⟨⟨0⟩, 0⟩).run fiveWithTwo = (.ok (), d) ∧
    d.order = #[⟨⟨0⟩, 0, 0⟩] ∧ d.Pending ⟨⟨0⟩, 2, 0⟩ ∧ d.checkNode ⟨⟨0⟩, 1, 0⟩ = .error (.staleNode ⟨⟨0⟩, 1, 0⟩) ∧
    reduce.run d = (.ok (), e) ∧ e.termsWorth (e.termsOf ⟨⟨0⟩, 1⟩) = 1 := by
  obtain ⟨d, hrun, hd, hrest⟩ := removal_is_exact wellFormed_fiveWithTwo (m := ⟨⟨0⟩, 0⟩) rfl fun _ => by decide
  have hone : d.Live ⟨⟨0⟩, 0, 0⟩ := (hd.live _).2 (by decide)
  have htwo : d.Live ⟨⟨0⟩, 2, 0⟩ := (hd.live _).2 (by decide)
  have hlive : ∀ n, d.Live n ↔ n = ⟨⟨0⟩, 0, 0⟩ ∨ n = ⟨⟨0⟩, 2, 0⟩ := by
    intro n
    constructor
    · intro hn
      obtain ⟨hn, hkept⟩ := (hd.live n).1 hn
      have hothers : ∀ n, fiveWithTwo.Live n → n ∉ fiveWithTwo.nodesOf ⟨⟨0⟩, 0⟩ → n = ⟨⟨0⟩, 0, 0⟩ ∨ n = ⟨⟨0⟩, 2, 0⟩ :=
        forall_live (by decide)
      exact hothers n hn hkept
    · rintro (rfl | rfl)
      · exact hone
      · exact htwo
  obtain ⟨hworth, hworth', hlegal⟩ := hd.wellFormed.legal_of_successors hlive (hd.successors _ hone)
    (hd.successors _ htwo)
  obtain ⟨e, hreduce, -, -, he⟩ := hrest hlegal
  obtain ⟨u, hu, -, horder, hpending, -⟩ := hd.demoted ⟨⟨⟨0⟩, 1, 0⟩, by decide, by decide⟩
  obtain rfl : ⟨⟨0⟩, 0, 0⟩ = u := Option.some.inj hu
  refine ⟨wellFormed_fiveWithTwo, d, e, hrun, horder, hpending _ htwo (by decide), hd.stale _ (by decide), hreduce, ?_⟩
  have hterms : ((fiveWithTwo.cellAt 1).terms.filter fun t => t.1 ∉ fiveWithTwo.nodesOf ⟨⟨0⟩, 0⟩) =
      [(⟨⟨0⟩, 2, 0⟩, .plus), (⟨⟨0⟩, 0, 0⟩, .minus)] := rfl
  rw [termsOf, he 1 (by decide), hterms, termsWorth, Terms.sum_cons, Terms.sum_cons, Terms.sum_nil, hworth, hworth']
  norm_num [Sign.toInt]

end PowerTower.Circuit
