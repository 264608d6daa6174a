import Mathlib
import PowerTower.Proofs.Stepwise

/-!
# What stands until something is removed

A place that has a rank and is not free keeps its node until something is removed: carries write ranks and flags only,
and what reductions and connections change or free has no rank. Markings that mention such places only keep their terms.
This is so in every state that a circuit can be in.

* `Firm` : a place that has a rank and is not free;
* `Stands`, `stepwise_stands` : firm places keep their nodes and some markings their terms, whatever carries do;
* `Operation.stands` : and whatever a call does, unless it removes;
* `Unremoved`, `Unremoved.extends`, `Unremoved.termsOf_eq` : along a run without removals reduced nodes stay reduced and
  keep their exponents, and reduced markings keep their terms.
-/

namespace PowerTower

/-- What there is to a place but its rank and its flag. -/
def Slot.core (s : Slot) : Slot := { s with rank := none, doubles := false }

namespace Circuit

variable {P Q K L : ℕ → Prop} {c d e : Circuit} {m : Marking} {n : Node} {ts : List Term} {i p : ℕ}

/-- A place that has a rank and is not free. -/
structure Firm (c : Circuit) (i : ℕ) : Prop where
  rank : (c.slotAt i).rank.isSome = true
  used : i ∉ c.free

/-- Firm places among those of a set stay firm, with the same nodes, and the markings of another set keep
their terms. -/
structure Stands (P K : ℕ → Prop) (c d : Circuit) : Prop where
  id : d.id = c.id
  size : c.cells.size ≤ d.cells.size
  terms : ∀ i, K i → i < c.cells.size → (d.cellAt i).terms = (c.cellAt i).terms
  firm : ∀ i, P i → c.Firm i → d.Firm i
  core : ∀ i, P i → c.Firm i → (d.slotAt i).core = (c.slotAt i).core

theorem Stands.refl (P K : ℕ → Prop) (c : Circuit) : Stands P K c c :=
  ⟨rfl, le_rfl, fun _ _ _ => rfl, fun _ _ h => h, fun _ _ _ => rfl⟩

theorem Stands.trans (h : Stands P K c d) (h' : Stands P K d e) : Stands P K c e where
  id := h'.id.trans h.id
  size := h.size.trans h'.size
  terms := fun i hi hlt => (h'.terms i hi (hlt.trans_le h.size)).trans (h.terms i hi hlt)
  firm := fun i hi hf => h'.firm i hi (h.firm i hi hf)
  core := fun i hi hf => (h'.core i hi (h.firm i hi hf)).trans (h.core i hi hf)

theorem Stands.mono (h : Stands Q L c d) (hPQ : ∀ i, P i → c.Firm i → Q i) (hKL : ∀ i, K i → i < c.cells.size → L i) :
    Stands P K c d where
  id := h.id
  size := h.size
  terms := fun i hi hlt => h.terms i (hKL i hi hlt) hlt
  firm := fun i hi hf => h.firm i (hPQ i hi hf) hf
  core := fun i hi hf => h.core i (hPQ i hi hf) hf

/-! ## Steps -/

theorem Firm.ne_freshIndex (h : c.Firm i) : i ≠ c.freshIndex := by
  rintro rfl
  cases hfree : c.free with
  | nil =>
    have hrank := h.rank
    rw [freshIndex_nil hfree] at hrank
    simp [slotAt] at hrank
  | cons j free =>
    refine h.used ?_
    rw [freshIndex_cons hfree, hfree]
    exact List.mem_cons_self

theorem stands_alloc (P K : ℕ → Prop) (c : Circuit) (ts : List Term) : Stands P K c (c.alloc ts).2 where
  id := alloc_id
  size := by rw [alloc_cells]
  terms := fun i _ _ => by rw [cellAt, alloc_cells, cellAt]
  firm := fun i _ hf => by
    refine ⟨by rw [alloc_slotAt_of_ne hf.ne_freshIndex]; exact hf.rank, fun hmem => ?_⟩
    rw [alloc_free] at hmem
    exact hf.used (List.mem_of_mem_tail hmem)
  core := fun i _ hf => by rw [alloc_slotAt_of_ne hf.ne_freshIndex]

theorem SameNodes.stands (h : c.SameNodes d)
    (hrank : ∀ i, (c.slotAt i).rank.isSome = true → (d.slotAt i).rank.isSome = true) : Stands P K c d where
  id := h.id
  size := by rw [h.cells]
  terms := fun i _ _ => by rw [cellAt, h.cells, cellAt]
  firm := fun i _ hf => ⟨hrank i hf.rank, by rw [h.free]; exact hf.used⟩
  core := fun i _ _ => by rw [Slot.core, Slot.core, h.live, h.generation, h.successors]

theorem stands_withCells {cells : Array Cell} (hsize : c.cells.size ≤ cells.size)
    (hterms : ∀ i, K i → i < c.cells.size → ((c.withCells cells).cellAt i).terms = (c.cellAt i).terms) :
    Stands P K c (c.withCells cells) :=
  ⟨rfl, hsize, hterms, fun _ _ hf => ⟨hf.rank, hf.used⟩, fun _ _ _ => rfl⟩

theorem stands_modifyCell {f : Cell → Cell} (h : K i → ∀ k, (f k).terms = k.terms) :
    Stands P K c (c.modifyCell i f) := by
  refine stands_withCells (by simp) fun j hj _ => ?_
  show ((c.modifyCell i f).cellAt j).terms = _
  rw [cellAt_modifyCell]
  split_ifs with hij
  · exact h (hij.1 ▸ hj) _
  · rfl

/-- Ranks are written, and none is taken away. -/
theorem rank_foldl_recordRank (l : List ℕ) (h : (c.slotAt i).rank.isSome = true) :
    ((l.foldl recordRank c).slotAt i).rank.isSome = true := by
  induction l generalizing c with
  | nil => exact h
  | cons r l ih =>
    refine ih ?_
    unfold recordRank
    split
    · rw [setRank_slotAt]
      split_ifs
      · rfl
      · exact h
    · exact h

theorem rank_place (h : (c.slotAt i).rank.isSome = true) : ((c.place n p).slotAt i).rank.isSome = true := by
  rw [place_eq, renumber_eq]
  exact rank_foldl_recordRank _ h

/-- Carries change neither the nodes of firm places nor the terms of markings, and take no node off its rank. -/
theorem stepwise_stands (P K : ℕ → Prop) : Stepwise (Stands P K) where
  refl := .refl P K
  trans := .trans
  alloc := stands_alloc P K
  place := fun _ _ _ => place_sameNodes.stands fun _ => rank_place
  setDoubles := fun _ n b => (setDoubles_sameRanks n b).toSameNodes.stands fun i h => by
    rwa [(setDoubles_sameRanks n b).rank i]
  newMarking := fun c ts => stands_withCells (by simp) fun i _ hi => by
    rw [← newMarking_eq, newMarking_cellAt, if_neg hi.ne]
  modifyCell := fun _ _ _ hterms => stands_modifyCell fun _ => hterms

theorem stands_modifySlot (hi : ¬ P i) (f : Slot → Slot) : Stands P K c (c.modifySlot i f) := by
  have hslot : ∀ j, P j → (c.modifySlot i f).slotAt j = c.slotAt j := fun j hj => by
    have hne : ¬ (i = j ∧ j < c.slots.size) := fun hij => hi (hij.1 ▸ hj)
    rw [slotAt_modifySlot, if_neg hne]
  exact ⟨rfl, le_rfl, fun _ _ _ => rfl, fun j hj hf => ⟨by rw [hslot j hj]; exact hf.rank, hf.used⟩,
    fun j hj _ => by rw [hslot j hj]⟩

theorem stands_freeNode (hn : ¬ P n.index) : Stands P K c (c.freeNode n) := by
  have h : Stands P K c (c.modifySlot n.index fun s => { generation := s.generation + 1 }) := stands_modifySlot hn _
  refine ⟨rfl, le_rfl, fun _ _ _ => rfl, fun i hi hf => ⟨(h.firm i hi hf).rank, ?_⟩, h.core⟩
  exact List.not_mem_cons_of_ne_of_not_mem (fun he => hn (he ▸ hi)) hf.used

/-! ## Calls -/

/-- The places that have a rank. -/
def Ranked (c : Circuit) (i : ℕ) : Prop := (c.slotAt i).rank.isSome = true

/-- The markings that mention such places only. -/
def RankedCell (c : Circuit) (i : ℕ) : Prop := ∀ n ∈ Terms.nodes (c.cellAt i).terms, c.Ranked n.index

/-- A call that does not remove leaves firm places and the markings of such places alone, with whatever arguments and in
whatever state. -/
theorem Operation.stands {op : Operation} (hremove : ∀ m, op ≠ .remove m) :
    Stands c.Ranked c.RankedCell c (op.run.run c).2 := by
  have hunranked : ∀ {n}, c.isReducedNode n = false → ¬ c.Ranked n.index := fun {n} hn hr => by
    rw [show c.isReducedNode n = true from hr] at hn
    cases hn
  have hset : ∀ n, c.isReducedNode n = false → ∀ d us, Stands c.Ranked c.RankedCell d (d.setSuccessors n us) :=
    fun n hn d us => stands_modifySlot (hunranked hn) _
  by_cases hreduce : ∃ call, op = .reduce call
  · obtain ⟨call, rfl⟩ := hreduce
    refine (stepwise_stands c.Ranked c.RankedCell).reduceCall (fun n holder hn hholds d us => ?_)
      (fun n hn d => stands_freeNode (hunranked hn)) call
    cases holder with
    | node q => exact hset q (by simp [isReducedNode, hholds.1.2]) d us
    | marking i => exact stands_modifyCell fun hi => absurd (hi n hholds.2) (hunranked hn)
  · exact (stepwise_stands c.Ranked c.RankedCell).operation hremove (fun call he => hreduce ⟨call, he⟩)
      fun n _ => hset n

/-- The states that a circuit comes to without removals, by whatever calls. -/
inductive Unremoved (c : Circuit) : Circuit → Prop
  | start : Unremoved c c
  | call {d : Circuit} (before : Unremoved c d) (op : Operation) (hremove : ∀ m, op ≠ .remove m) :
      Unremoved c (op.run.run d).2

/-- The markings that mention firm places only. -/
def FirmCell (c : Circuit) (i : ℕ) : Prop := i < c.cells.size ∧ ∀ n ∈ Terms.nodes (c.cellAt i).terms, c.Firm n.index

theorem Unremoved.stands (h : c.Unremoved d) : Stands c.Firm c.FirmCell c d := by
  induction h with
  | start => exact .refl _ _ c
  | @call d _ op hremove ih =>
    refine ih.trans ((op.stands hremove).mono (fun i _ hf => hf.rank) fun i hi _ n hn => ?_)
    rw [ih.terms i hi hi.1] at hn
    exact (ih.firm n.index (hi.2 n hn) (hi.2 n hn)).rank

theorem Reduced.firm (h : c.Reduced n) (hs : c.Stored) : c.Firm n.index := by
  refine ⟨h.2, fun hmem => ?_⟩
  have hdead := ((hs.mem_free n.index).1 hmem).2
  rw [show (c.slotAt n.index).live = true from h.1.2.1] at hdead
  cases hdead

/-- Until something is removed, reduced nodes stay reduced and keep their exponents, whether or not the circuit stays
well formed meanwhile. -/
theorem Unremoved.extends (h : c.Unremoved d) (hs : c.Stored) : c.Extends d := by
  intro n hn
  have hfirm := hn.firm hs
  have hstands := h.stands
  have hcore := hstands.core n.index hfirm hfirm
  obtain ⟨hgeneration, hlive, -, -, hsuccessors⟩ := Slot.mk.inj hcore
  refine ⟨⟨⟨?_, ?_, ?_⟩, (hstands.firm n.index hfirm hfirm).rank⟩, hsuccessors⟩
  · exact hn.1.1.trans hstands.id.symm
  · exact hlive.trans hn.1.2.1
  · exact hgeneration.trans hn.1.2.2

/-- And reduced markings keep their terms. -/
theorem Unremoved.termsOf_eq (h : c.Unremoved d) (hs : c.Stored) (hheld : 0 < (c.cellAt m.id).handles)
    (hr : ∀ n ∈ c.nodesOf m, c.Reduced n) : d.termsOf m = c.termsOf m :=
  have hlt := lt_size_of_handles hheld
  h.stands.terms m.id ⟨hlt, fun n hn => (hr n hn).firm hs⟩ hlt

end Circuit

end PowerTower
