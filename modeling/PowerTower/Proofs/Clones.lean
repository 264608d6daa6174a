import Mathlib
import PowerTower.Proofs.Replies

/-!
# A copy behaves like its source

A circuit is copied with all its live markings, in the order of their creation. The copy numbers them anew from zero,
and each further marking gets the next number in both circuits; so the names of the copy are those of the source under a
renaming that keeps the order of the markings. Under it the copy mirrors its source, and goes on to do so.

* `toCopy` : the renaming;
* `spareHandles` : the caller has as many handles of a marking of the copy as of the source's;
* `Tied.mirror_shared` : the copy mirrors its source;
* `copy_answers_alike` : so do the two whatever is asked of them from then on, and they give the same answers.
-/

namespace PowerTower.Circuit

variable {c : Circuit} {id : CircuitId} {n : Node} {ts : List Term} {i j : ℕ}

/-! ## The numbers of the markings -/

theorem pairwise_liveMarkingIds : c.liveMarkingIds.Pairwise (· < ·) := List.pairwise_lt_range.filter _

theorem lt_of_mem_liveMarkingIds (hi : i ∈ c.liveMarkingIds) : i < c.cells.size :=
  List.mem_range.1 (List.mem_of_mem_filter hi)

/-- The marking that has a number in the copy. -/
def sourceNumber (c : Circuit) (j : ℕ) : ℕ := c.liveMarkingIds[j]?.getD (c.cells.size + (j - c.liveMarkingIds.length))

/-- The number of a marking in the copy, if it is live or still to come. -/
def copyNumber (c : Circuit) (i : ℕ) : ℕ :=
  if i < c.cells.size then c.liveMarkingIds.idxOf i else c.liveMarkingIds.length + (i - c.cells.size)

theorem sourceNumber_of_lt (hj : j < c.liveMarkingIds.length) : c.sourceNumber j = c.liveMarkingIds[j] := by
  rw [sourceNumber, List.getElem?_eq_getElem hj, Option.getD_some]

theorem sourceNumber_of_le (hj : c.liveMarkingIds.length ≤ j) :
    c.sourceNumber j = c.cells.size + (j - c.liveMarkingIds.length) := by
  rw [sourceNumber, List.getElem?_eq_none hj, Option.getD_none]

theorem sourceNumber_mem (hj : j < c.liveMarkingIds.length) : c.sourceNumber j ∈ c.liveMarkingIds := by
  rw [sourceNumber_of_lt hj]
  exact List.getElem_mem hj

theorem strictMono_sourceNumber : StrictMono c.sourceNumber := by
  intro i j hij
  by_cases hj : j < c.liveMarkingIds.length
  · rw [sourceNumber_of_lt hj, sourceNumber_of_lt (hij.trans hj)]
    exact List.pairwise_iff_getElem.1 pairwise_liveMarkingIds i j _ _ hij
  · rw [sourceNumber_of_le (not_lt.1 hj)]
    by_cases hi : i < c.liveMarkingIds.length
    · exact (lt_of_mem_liveMarkingIds (sourceNumber_mem hi)).trans_le (Nat.le_add_right _ _)
    · rw [sourceNumber_of_le (not_lt.1 hi)]
      omega

theorem copyNumber_sourceNumber (j : ℕ) : c.copyNumber (c.sourceNumber j) = j := by
  by_cases hj : j < c.liveMarkingIds.length
  · rw [copyNumber, if_pos (lt_of_mem_liveMarkingIds (sourceNumber_mem hj)), sourceNumber_of_lt hj]
    exact List.Nodup.idxOf_getElem (pairwise_liveMarkingIds.imp ne_of_lt) j hj
  · rw [sourceNumber_of_le (not_lt.1 hj), copyNumber, if_neg (by omega)]
    omega

theorem sourceNumber_copyNumber (hi : i ∈ c.liveMarkingIds) : c.sourceNumber (c.copyNumber i) = i := by
  obtain ⟨j, hj, rfl⟩ := List.getElem_of_mem hi
  rw [← sourceNumber_of_lt hj, copyNumber_sourceNumber]

/-- The names of a copy for those of its source. -/
def toCopy (c : Circuit) (id : CircuitId) : Renaming where
  circuit := Equiv.swap c.id id
  injective := (Equiv.swap c.id id).injective
  marking := c.copyNumber
  source := c.sourceNumber
  increasing := strictMono_sourceNumber
  marking_source := copyNumber_sourceNumber
  config := fun k => k

theorem toCopy_node (hn : n.circuit = c.id) : (c.toCopy id).node n = n.rehome id := by
  show { n with circuit := Equiv.swap c.id id n.circuit } = _
  rw [hn, Equiv.swap_apply_left]
  rfl

theorem toCopy_terms (hts : ∀ n ∈ Terms.nodes ts, n.circuit = c.id) : (c.toCopy id).terms ts = Terms.rehome id ts :=
  List.map_congr_left fun t ht => by
    show ((c.toCopy id).node t.1, t.2) = (t.1.rehome id, t.2)
    rw [toCopy_node (hts t.1 (List.mem_map_of_mem ht))]

theorem Proper.toCopy_terms (h : c.Proper ts) : (c.toCopy id).terms ts = Terms.rehome id ts :=
  Circuit.toCopy_terms fun n hn => (h.live n hn).1

/-! ## A copy of all live markings -/

/-- By induction on the term lists. -/
theorem newMarkings_eq {tss : List (List Term)} : newMarkings tss c =
    ((List.range tss.length).map fun j => ⟨c.id, c.cells.size + j⟩,
      c.withCells (c.cells ++ (tss.map fun ts => Cell.mk ts 1).toArray)) := by
  induction tss generalizing c with
  | nil => simp [newMarkings, withCells]
  | cons ts tss ih =>
    rw [newMarkings_cons, ih, List.length_cons, List.range_succ_eq_map, List.map_cons, List.map_map]
    refine Prod.ext ?_ ?_
    · simp only [newMarking_eq, withCells, Array.size_push, Function.comp_def, Nat.succ_eq_add_one]
      refine congrArg (_ :: ·) (List.map_congr_left fun j _ => ?_)
      rw [Nat.add_right_comm, Nat.add_assoc]
    · simp [newMarking_eq, withCells]

/-- The cells of a copy of all live markings. -/
def copiedCells (c : Circuit) (id : CircuitId) : Array Cell :=
  (c.liveMarkingIds.map fun i => Cell.mk (Terms.rehome id (c.cellAt i).terms) 1).toArray

theorem copy_markings : c.copy id c.markings =
    .ok ((c.rehomed id).withCells (c.copiedCells id), c.markings.map (c.toCopy id).handle) := by
  have hown : c.markings.forM c.checkMarking = .ok () := Guards.forM_eq_ok.2 fun m hm => by
    obtain ⟨i, -, rfl⟩ := List.mem_map.1 hm
    exact if_pos rfl
  have hnumbers : (List.range c.liveMarkingIds.length).map (fun j => Marking.mk id j) =
      c.markings.map (c.toCopy id).handle := by
    refine List.ext_getElem (by simp [markings]) fun j hj hj' => ?_
    have hlt : j < c.liveMarkingIds.length := by simpa using hj
    rw [List.getElem_map, List.getElem_range, List.getElem_map]
    show _ = Marking.mk (Equiv.swap c.id id _) (c.copyNumber _)
    simp only [markings, List.getElem_map]
    rw [Equiv.swap_apply_left, ← sourceNumber_of_lt hlt, copyNumber_sourceNumber]
  rw [copy_of_own hown, newMarkings_eq, ← hnumbers]
  simp [markings, copiedCells, rehomed, withCells, termsOf, Function.comp_def]

/-! ## Handles -/

/-- A further handle of a marking of the copy for each further handle of the source's. -/
def spareHandles (c : Circuit) (id : CircuitId) : List Marking :=
  (List.range c.liveMarkingIds.length).flatMap fun j =>
    List.replicate ((c.cellAt (c.sourceNumber j)).handles - 1) ⟨id, j⟩

/-- By induction on the handles. -/
theorem retainAll_eq (ms : List Marking) : c.retainAll ms = c.withCells (c.retainAll ms).cells ∧
    (c.retainAll ms).cells.size = c.cells.size := by
  induction ms generalizing c with
  | nil => exact ⟨rfl, rfl⟩
  | cons m ms ih =>
    obtain ⟨heq, hsize⟩ := ih (c := c.retain m)
    exact ⟨heq, hsize.trans (by simp [retain, modifyCell])⟩

/-- By induction on the handles. -/
theorem retainAll_cellAt (ms : List Marking) (hi : i < c.cells.size) : (c.retainAll ms).cellAt i =
    ⟨(c.cellAt i).terms, (c.cellAt i).handles + ms.countP fun m => m.id = i⟩ := by
  induction ms generalizing c with
  | nil => rfl
  | cons m ms ih =>
    show ((c.retain m).retainAll ms).cellAt i = _
    rw [ih (by simpa [retain, modifyCell] using hi), retain, cellAt_modifyCell, List.countP_cons]
    by_cases hm : m.id = i
    · rw [if_pos ⟨hm, hi⟩]
      simp only [hm, decide_true, if_true, Nat.add_right_comm _ 1, Nat.add_assoc]
    · rw [if_neg fun h => hm h.1]
      simp [hm]

theorem countP_spareHandles (hj : j < c.liveMarkingIds.length) :
    (c.spareHandles id).countP (fun m => m.id = j) = (c.cellAt (c.sourceNumber j)).handles - 1 := by
  have hone : ∀ i, (List.replicate ((c.cellAt (c.sourceNumber i)).handles - 1) (Marking.mk id i)).countP
      (fun m => m.id = j) = if i = j then (c.cellAt (c.sourceNumber i)).handles - 1 else 0 := fun i => by
    simp [List.countP_replicate]
  rw [spareHandles, List.countP_flatMap]
  simp only [Function.comp_def, hone]
  have hsum : ((List.range c.liveMarkingIds.length).map fun i =>
      if i = j then (c.cellAt (c.sourceNumber i)).handles - 1 else 0).sum =
      ∑ i ∈ Finset.range c.liveMarkingIds.length,
        if i = j then (c.cellAt (c.sourceNumber i)).handles - 1 else 0 := rfl
  rw [hsum, Finset.sum_ite_eq' (Finset.range _) j, if_pos (Finset.mem_range.2 hj)]

/-- A copy with as many handles of its markings as there are of the source's. -/
def shared (c : Circuit) (id : CircuitId) : Circuit :=
  ((c.rehomed id).withCells (c.copiedCells id)).retainAll (c.spareHandles id)

theorem shared_eq : c.shared id = (c.rehomed id).withCells (c.shared id).cells := (retainAll_eq _).1

theorem shared_cells_size : (c.shared id).cells.size = c.liveMarkingIds.length := by
  rw [shared, (retainAll_eq _).2]
  simp [withCells, copiedCells]

theorem shared_cellAt (ht : c.Tied) (j : ℕ) :
    (c.shared id).cellAt j = (c.toCopy id).cell (c.cellAt (c.sourceNumber j)) := by
  by_cases hj : j < c.liveMarkingIds.length
  · have hcell : ((c.rehomed id).withCells (c.copiedCells id)).cellAt j =
        ⟨Terms.rehome id (c.cellAt (c.sourceNumber j)).terms, 1⟩ := by
      simp [cellAt, withCells, copiedCells, hj, sourceNumber_of_lt hj]
    have hlive := mem_liveMarkingIds.1 (sourceNumber_mem hj)
    rw [shared, retainAll_cellAt _ (by simpa [withCells, copiedCells] using hj), hcell, countP_spareHandles hj,
      ← (ht.markings _ hlive).toCopy_terms]
    exact congrArg (Cell.mk _) (Nat.add_sub_cancel' hlive)
  · have hnone : ∀ (e : Circuit) (i : ℕ), e.cells.size ≤ i → e.cellAt i = ⟨[], 0⟩ := fun e i hi => by
      rw [cellAt, Array.getElem?_eq_none hi, Option.getD_none]
    rw [hnone _ j (by rw [shared_cells_size]; omega), hnone c _ (by rw [sourceNumber_of_le (not_lt.1 hj)]; omega)]
    rfl

/-! ## The copy and its source -/

/-- The places that hold a node. -/
def livePlaces (c : Circuit) : Set ℕ := {i | (c.slotAt i).live = true}

theorem Proper.among (h : c.Proper ts) : Terms.Among c.livePlaces ts := fun n hn => (h.live n hn).2.1

/-- The copy mirrors its source. -/
theorem Tied.mirror_shared (ht : c.Tied) (id : CircuitId) : Mirror (c.toCopy id) c.livePlaces c (c.shared id) := by
  have hslotAt : ∀ i, (c.shared id).slotAt i = (c.rehomed id).slotAt i := fun i => by
    rw [shared_eq]
    rfl
  have hproper : ∀ i, (c.slotAt i).live = true → c.Proper (c.slotAt i).successors := fun i hi =>
    ht.exponents (c.nodeAt i) ⟨rfl, hi, rfl⟩
  have horder : ∀ k n, c.order[k]? = some n → c.Live n := fun k n hn => ((ht.ranked k n).1 hn).1
  exact {
    id := by
      rw [shared_eq]
      exact (Equiv.swap_apply_left c.id id).symm
    config := by
      rw [shared_eq]
      rfl
    free := by
      rw [shared_eq]
      rfl
    liveNodes := by
      rw [shared_eq]
      rfl
    size := by
      rw [shared_eq]
      exact Array.size_map
    slots := fun i => by
      rw [hslotAt, rehomed_slotAt]
      exact ⟨rfl, rfl, rfl, rfl, fun hi => (hproper i hi).toCopy_terms.symm,
        fun hi => (hproper i hi).among, fun hi => hi⟩
    order := by
      rw [shared_eq]
      refine Array.ext_getElem? fun k => ?_
      rw [Array.getElem?_map]
      show (c.order.map _)[k]? = _
      rw [Array.getElem?_map]
      cases hk : c.order[k]? with
      | none => rfl
      | some n => exact congrArg some (toCopy_node (horder k n hk).1).symm
    ranked := fun k n hn => (horder k n hn).2.1
    cells := shared_cellAt ht
    mentioned := fun j => by
      show Terms.Among _ (c.cellAt (c.sourceNumber j)).terms
      by_cases hj : j < c.liveMarkingIds.length
      · exact (ht.markings _ (mem_liveMarkingIds.1 (sourceNumber_mem hj))).among
      · rw [cellAt, Array.getElem?_eq_none (by rw [sourceNumber_of_le (not_lt.1 hj)]; omega), Option.getD_none]
        exact Terms.among_nil
    fresh := fun k => by
      show c.sourceNumber _ = _
      rw [shared_cells_size, sourceNumber_of_le (Nat.le_add_right _ _)]
      omega
    held := fun i hi => sourceNumber_copyNumber (mem_liveMarkingIds.2 hi) }

/-- A circuit and its copy stay alike. The copy keeps all live markings, and the caller has as many handles of each as
of the source's. Whatever is asked of the source, then of the copy under its own names, the answers are the same under
these names, and in the end the copy is what the source is under other names. -/
theorem copy_answers_alike (h : c.WellFormed) (id : CircuitId) {qs : List Request} (hheld : Request.HeldAlong c qs) :
    ∃ copy, c.copy id c.markings = .ok (copy, c.markings.map (c.toCopy id).handle) ∧
      Accord (c.toCopy id) qs c (copy.retainAll (c.spareHandles id)) := by
  have hmirror := h.tied.mirror_shared id
  obtain ⟨⟨T, -, hT⟩, hmatched⟩ := hmirror.replies (E := fun _ => False) (I := fun _ => True) (fun k => .inl rfl)
    (fun c _ call _ => .inl fun k => rfl) (fun c _ q _ _ => trivial) trivial hheld fun e _ hE => hE
  exact ⟨_, copy_markings, c.livePlaces, T, hmirror, hmatched, hT⟩

/-- A marking of the unit with two handles is kept. Afterwards it is cloned, one of its handles is returned, and the
clone is merged with it. -/
theorem copy_of_a_shared_unit : let c := onlyUnit.retain ⟨⟨0⟩, 0⟩
    let qs : List Request := [.call (.cloneMarking ⟨⟨0⟩, 0⟩), .marking ⟨⟨0⟩, 1⟩, .call (.release ⟨⟨0⟩, 0⟩),
      .call (.reduce .all)]
    c.WellFormed ∧ Request.HeldAlong c qs ∧ ∃ copy, c.copy ⟨1⟩ c.markings = .ok (copy, [⟨⟨1⟩, 0⟩]) ∧
      Accord (c.toCopy ⟨1⟩) qs c (copy.retainAll [⟨⟨1⟩, 0⟩]) := by
  intro c qs
  have h : c.WellFormed := wellFormed_onlyUnit.retain (by decide)
  have hheld : Request.HeldAlong c qs := by
    refine ⟨fun m hm _ => ?_, ⟨rfl, fun _ => by decide⟩, fun m hm _ => ?_, fun m hm => ?_, trivial⟩
    · obtain rfl := List.mem_singleton.1 hm
      decide
    · obtain rfl := List.mem_singleton.1 hm
      decide
    · cases hm
  have hmarkings : c.markings.map (c.toCopy ⟨1⟩).handle = [⟨⟨1⟩, 0⟩] := by decide
  have hspare : c.spareHandles ⟨1⟩ = [⟨⟨1⟩, 0⟩] := by decide
  obtain ⟨copy, hcopy, haccord⟩ := copy_answers_alike h ⟨1⟩ hheld
  rw [hmarkings] at hcopy
  rw [hspare] at haccord
  exact ⟨h, hheld, copy, hcopy, haccord⟩

end PowerTower.Circuit
