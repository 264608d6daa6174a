import Mathlib
import PowerTower.Proofs.Veil

/-!
# Reduction behind a veil

The nodes of a frontier do not depend on the places behind a veil, but such a place may hold a node that mentions them,
and its exponent changes when they merge. The entries behind the veil stay (`Along`), and all else goes as in the veiled
circuit.

* `Apart.redirect`, `Apart.merge`, `Apart.insertReduced` : the steps of a reduction;
* `Apart.reduceNode`, `Apart.reduceAll` : one node and all nodes of a frontier;
* `veil_referrers` : the table of holders is the same.
-/

namespace PowerTower.Circuit

open Guards

variable {B : ℕ → Bool} {c d e : Circuit} {dup survivor m n : Node} {ts us : List Term} {s : Sign} {i r p : ℕ}
  {done : List Node}

/-- The places still hold pending nodes, with the same entries for one another, and the markings are the same that
mention none of the nodes that are taken care of. -/
structure Along (B : ℕ → Bool) (done : List Node) (c d : Circuit) : Prop extends Apart B d where
  slots : ∀ i, B i = true → ∃ ts, d.slotAt i = { c.slotAt i with successors := ts } ∧
    inside B ts = inside B (c.slotAt i).successors
  size : d.cells.size = c.cells.size
  cells : ∀ i, (∀ n ∈ done, n ∉ Terms.nodes (c.cellAt i).terms) → d.cellAt i = c.cellAt i

theorem Along.refl (h : Apart B c) : Along B done c c := ⟨h, fun _ _ => ⟨_, rfl, rfl⟩, rfl, fun _ _ => rfl⟩

theorem Along.trans (h : Along B done c d) (h' : Along B done d e) : Along B done c e where
  toApart := h'.toApart
  slots := fun i hi => by
    obtain ⟨ts, hslot, hts⟩ := h.slots i hi
    obtain ⟨us, hslot', hus⟩ := h'.slots i hi
    exact ⟨us, by rw [hslot', hslot], by rw [hus, hslot, hts]⟩
  size := h'.size.trans h.size
  cells := fun i hi => by
    have hcell := h.cells i hi
    rw [h'.cells i (by rwa [hcell]), hcell]

theorem Along.mono {more : List Node} (h : Along B done c d) (hsub : ∀ n ∈ done, n ∈ more) : Along B more c d :=
  ⟨h.toApart, h.slots, h.size, fun i hi => h.cells i fun n hn => hi n (hsub n hn)⟩

theorem Beside.along (h : Beside B c d) : Along B done c d :=
  ⟨h.toApart, fun i hi => ⟨_, h.slots i hi, rfl⟩, by rw [h.cells], fun i _ => by rw [cellAt, h.cells, cellAt]⟩

/-! ## Holders -/

/-- The entries of a holder that are not behind the veil. -/
def seen (B : ℕ → Bool) : Holder → Node → Bool
  | .node p, m => !B p.index || !B m.index
  | .marking _, _ => true

variable {h : Holder}

theorem seen_of_not (hm : B m.index = false) : seen B h m = true := by
  cases h with
  | node p => rw [seen, hm, Bool.not_false, Bool.or_true]
  | marking i => rfl

theorem cut_eq_filter (i : ℕ) (ts : List Term) : cut B i ts = ts.filter fun t => !B i || !B t.1.index := by
  unfold cut outside
  cases B i <;> simp

theorem veil_successors (n : Node) : (c.veil B).successors n = cut B n.index (c.successors n) := by
  rw [successors, slot, veil_slotAt, veilSlot, cut]
  split_ifs <;> rfl

theorem veil_heldBy : (c.veil B).heldBy h = (c.heldBy h).filter fun t => seen B h t.1 := by
  cases h with
  | node p => exact (veil_successors p).trans (cut_eq_filter _ _)
  | marking i => exact (List.filter_true _).symm

theorem veil_setHeld (ts : List Term) :
    (c.veil B).setHeld h (ts.filter fun t => seen B h t.1) = (c.setHeld h ts).veil B := by
  cases h with
  | node p => exact (congrArg ((c.veil B).setSuccessors p) (cut_eq_filter _ _).symm).trans (veil_setSuccessors ts)
  | marking i => exact congrArg ((c.veil B).setTerms i) (List.filter_true _)

theorem Apart.setHeld (ha : Apart B c) (ts : List Term) : Apart B (c.setHeld h ts) where
  pending := fun i hi => by
    cases h with
    | node p =>
      obtain ⟨hlive, -, hrank⟩ := setSuccessors_frame c p ts i
      rw [Circuit.setHeld, hlive, hrank]
      exact ha.pending i hi
    | marking j => exact ha.pending i hi
  order := by cases h <;> exact ha.order
  free := by cases h <;> exact ha.free

/-- A holder gets other terms with the same entries behind the veil, after a carry. -/
theorem Apart.setHeld_slots (ha : Apart B c) (hb : Beside B (c.setHeld h []) d)
    (hts : (ts.filter fun t => !seen B h t.1) = (c.heldBy h).filter fun t => !seen B h t.1) (hi : B i = true) :
    ∃ us, (d.setHeld h ts).slotAt i = { c.slotAt i with successors := us } ∧
      inside B us = inside B (c.slotAt i).successors := by
  have hslot := hb.slots i hi
  cases h with
  | marking j => exact ⟨_, hslot, rfl⟩
  | node p =>
    have hsize : i < c.slots.size := lt_size_of_live (ha.pending i hi).1
    have hsize' : i < d.slots.size := lt_size_of_live (hb.pending i hi).1
    by_cases hp : p.index = i
    · subst hp
      refine ⟨ts, ?_, ?_⟩
      · rw [Circuit.setHeld, Circuit.setSuccessors, slotAt_modifySlot, if_pos ⟨rfl, hsize'⟩, hslot, Circuit.setHeld,
          Circuit.setSuccessors, slotAt_modifySlot, if_pos ⟨rfl, hsize⟩]
      · simpa [seen, hi, inside, heldBy, successors, slot] using hts
    · refine ⟨_, ?_, rfl⟩
      rw [Circuit.setHeld, Circuit.setSuccessors, slotAt_modifySlot, if_neg fun hij => hp hij.1, hslot, Circuit.setHeld,
        Circuit.setSuccessors, slotAt_modifySlot, if_neg fun hij => hp hij.1]

theorem setHeld_cells_size : (c.setHeld h ts).cells.size = c.cells.size := by
  cases h with
  | node p => rfl
  | marking i => exact Array.size_modify

theorem setHeld_cellAt (hi : h ≠ .marking i) : (c.setHeld h ts).cellAt i = c.cellAt i := by
  cases h with
  | node p => rfl
  | marking j =>
    rw [Circuit.setHeld, Circuit.setTerms, cellAt_modifyCell, if_neg fun hij => hi (by rw [hij.1])]

/-! ## One node -/

theorem Apart.redirect (ha : Apart B c) (hdup : B dup.index = false) (hsurvivor : B survivor.index = false) :
    redirect dup survivor (c.veil B) h = (redirect dup survivor c h).veil B ∧
      Along B [dup] c (redirect dup survivor c h) := by
  have hdigit : Terms.digit? dup ((c.veil B).heldBy h) = Terms.digit? dup (c.heldBy h) := by
    rw [veil_heldBy]
    exact Terms.digit?_filter (seen_of_not hdup) _
  cases hd : Terms.digit? dup (c.heldBy h) with
  | none =>
    rw [redirect_of_digit?_eq_none hd, redirect_of_digit?_eq_none (hdigit.trans hd)]
    exact ⟨rfl, .refl ha⟩
  | some s =>
    have habsorb := (ha.setHeld (h := h) []).absorb (seen B h) (fun _ hm => seen_of_not hm) hsurvivor
      (Terms.erase dup (c.heldBy h)) s
    have hnil : (c.veil B).setHeld h [] = (c.setHeld h []).veil B := veil_setHeld []
    have herase := Terms.filter_erase (p := seen B h) (seen_of_not hdup) (c.heldBy h)
    rw [redirect_of_digit?_eq_some hd, redirect_of_digit?_eq_some (hdigit.trans hd)]
    refine ⟨?_, habsorb.beside.toApart.setHeld _, fun i hi => ?_, ?_, fun i hi => ?_⟩
    · rw [veil_heldBy, ← herase, hnil, habsorb.eq, veil_setHeld]
    · refine ha.setHeld_slots habsorb.beside (habsorb.rest.trans ?_) hi
      exact Terms.filter_erase_of_not (p := fun m => !seen B h m) (by rw [seen_of_not hdup]; rfl) _
    · rw [setHeld_cells_size, habsorb.beside.cells, setHeld_cells_size]
    · have hne : h ≠ .marking i := fun heq => by
        subst heq
        exact hi dup (by simp) (Terms.mem_nodes.2 ⟨s, Terms.mem_of_digit?_eq_some hd⟩)
      rw [setHeld_cellAt hne, cellAt, habsorb.beside.cells, ← cellAt, setHeld_cellAt hne]

theorem Apart.freeNode (ha : Apart B c) (hn : B n.index = false) :
    (c.veil B).freeNode n = (c.freeNode n).veil B ∧ Beside B c (c.freeNode n) := by
  have hb := ha.modifySlot hn fun s => { generation := s.generation + 1 }
  refine ⟨?_, ⟨⟨hb.pending, hb.order, fun i hi => ?_⟩, hb.slots, hb.cells⟩⟩
  · unfold Circuit.freeNode
    rw [veil_modifySlot_of_not hn]
    rfl
  · rcases List.mem_cons.1 hi with rfl | hi
    · exact hn
    · exact ha.free i hi

theorem Apart.foldl_redirect (ha : Apart B c) (hdup : B dup.index = false) (hsurvivor : B survivor.index = false)
    (holders : List Holder) : holders.foldl (Circuit.redirect dup survivor) (c.veil B) =
      (holders.foldl (Circuit.redirect dup survivor) c).veil B ∧
        Along B [dup] c (holders.foldl (Circuit.redirect dup survivor) c) := by
  induction holders generalizing c with
  | nil => exact ⟨rfl, .refl ha⟩
  | cons h holders ih =>
    obtain ⟨heq, halong⟩ := ha.redirect hdup hsurvivor (h := h)
    obtain ⟨heq', halong'⟩ := ih halong.toApart
    exact ⟨by rw [List.foldl_cons, List.foldl_cons, heq, heq'], halong.trans halong'⟩

theorem Apart.merge (ha : Apart B c) (hdup : B dup.index = false) (hsurvivor : B survivor.index = false)
    (holders : List Holder) : (c.veil B).merge dup survivor holders = (c.merge dup survivor holders).veil B ∧
      Along B [dup] c (c.merge dup survivor holders) := by
  obtain ⟨heq, halong⟩ := ha.foldl_redirect hdup hsurvivor holders
  obtain ⟨heq', hbeside⟩ := halong.toApart.freeNode hdup
  exact ⟨by rw [Circuit.merge, heq, heq', Circuit.merge], halong.trans hbeside.along⟩

theorem Apart.refreshBelow (ha : Apart B c) (p : ℕ) :
    (c.veil B).refreshBelow p = (c.refreshBelow p).veil B ∧ Beside B c (c.refreshBelow p) := by
  cases p with
  | zero => exact ⟨rfl, .refl ha⟩
  | succ r =>
    cases hr : c.order[r]? with
    | none =>
      have hnone : ∀ d : Circuit, d.order[r]? = none → d.refreshBelow (r + 1) = d := fun d hd => by
        simp only [Circuit.refreshBelow, hd]
      rw [hnone c hr, hnone (c.veil B) hr]
      exact ⟨rfl, .refl ha⟩
    | some below =>
      have hsome : ∀ d : Circuit, d.order[r]? = some below → d.refreshBelow (r + 1) = d.refreshDoubles below :=
        fun d hd => by simp only [Circuit.refreshBelow, hd]
      rw [hsome c hr, hsome (c.veil B) hr]
      exact ha.refreshDoubles below

theorem Apart.insertReduced (ha : Apart B c) (hn : B n.index = false) (p : ℕ) :
    (c.veil B).insertReduced n p = (c.insertReduced n p).veil B ∧ Beside B c (c.insertReduced n p) := by
  have hplace := ha.place hn p
  obtain ⟨hbelow, hbeside⟩ := hplace.toApart.refreshBelow p
  obtain ⟨hself, hbeside'⟩ := hbeside.toApart.refreshDoubles n
  exact ⟨by rw [Circuit.insertReduced, veil_place, hbelow, hself, Circuit.insertReduced],
    (hplace.trans hbeside).trans hbeside'⟩

theorem Apart.veil_search (ha : Apart B c) (ts : List Term) : (c.veil B).search ts = c.search ts := by
  have hat : (c.veil B).compareAt ts = c.compareAt ts := by
    funext r
    cases hr : c.order[r]? with
    | none =>
      have hnone : ∀ d : Circuit, d.order[r]? = none → d.compareAt ts r = .error .notReduced := fun d hd => by
        simp only [compareAt, hd]
      rw [hnone c hr, hnone (c.veil B) hr]
    | some n =>
      have hsome : ∀ d : Circuit, d.order[r]? = some n → d.compareAt ts r = d.compareTerms (d.successors n) ts 0 :=
        fun d hd => by simp only [compareAt, hd]
      rw [hsome c hr, hsome (c.veil B) hr, veil_successors_of_not (ha.order _ _ hr), veil_compareTerms]
  unfold search
  rw [hat]
  rfl

/-- A node of the frontier is reduced in the veiled circuit in the same way. -/
theorem Apart.reduceNode (ha : Apart B c) (table : Std.HashMap Node (Array Holder)) (hn : B n.index = false) :
    (reduceNode table n).run (c.veil B) =
      (((reduceNode table n).run c).1, ((reduceNode table n).run c).2.veil B) ∧
    Along B [n] c ((reduceNode table n).run c).2 := by
  have hsearch : (c.veil B).search ((c.veil B).successors n) = c.search (c.successors n) := by
    rw [ha.veil_search, veil_successors_of_not hn]
  cases hs : c.search (c.successors n) with
  | error e =>
    rw [reduceNode_eq_error hs, reduceNode_eq_error (hsearch.trans hs)]
    exact ⟨rfl, .refl ha⟩
  | ok spot =>
    cases spot with
    | vacant r =>
      obtain ⟨heq, hbeside⟩ := ha.insertReduced hn r
      rw [reduceNode_of_vacant hs, reduceNode_of_vacant (hsearch.trans hs), heq]
      exact ⟨rfl, hbeside.along⟩
    | taken r =>
      cases hr : c.order[r]? with
      | some survivor =>
        obtain ⟨heq, halong⟩ := ha.merge hn (ha.order r survivor hr) (listed table n)
        rw [reduceNode_of_taken hs hr, reduceNode_of_taken (hsearch.trans hs) hr, heq]
        exact ⟨rfl, halong⟩
      | none =>
        rw [reduceNode_of_taken_none hs hr, reduceNode_of_taken_none (hsearch.trans hs) hr]
        exact ⟨rfl, .refl ha⟩

/-! ## A frontier -/

/-- By induction along the frontier. -/
theorem Apart.reduceAll (ha : Apart B c) (table : Std.HashMap Node (Array Holder)) {frontier : List Node}
    (hn : ∀ n ∈ frontier, B n.index = false) : (frontier.forM (Circuit.reduceNode table)).run (c.veil B) =
      (((frontier.forM (Circuit.reduceNode table)).run c).1,
        ((frontier.forM (Circuit.reduceNode table)).run c).2.veil B) ∧
    Along B frontier c ((frontier.forM (Circuit.reduceNode table)).run c).2 := by
  induction frontier generalizing c with
  | nil => exact ⟨rfl, .refl ha⟩
  | cons n frontier ih =>
    obtain ⟨heq, halong⟩ := ha.reduceNode table (hn n (by simp))
    have hfirst : ∀ m ∈ [n], m ∈ n :: frontier := by simp
    have hstep : (n :: frontier).forM (Circuit.reduceNode table) =
        Circuit.reduceNode table n >>= fun _ => frontier.forM (Circuit.reduceNode table) := rfl
    rw [hstep]
    generalize hx : (Circuit.reduceNode table n).run c = x at heq halong
    obtain ⟨answer, d⟩ := x
    cases answer with
    | error e =>
      rw [Call.run_bind_error hx, Call.run_bind_error heq]
      exact ⟨rfl, halong.mono hfirst⟩
    | ok u =>
      obtain ⟨heq', halong'⟩ := ih halong.toApart fun m hm => hn m (by simp [hm])
      rw [Call.run_bind_ok hx, Call.run_bind_ok heq, heq']
      exact ⟨rfl, (halong.mono hfirst).trans (halong'.mono fun m hm => by simp [hm])⟩

theorem mention_filter {members : Std.HashSet Node} {holder : Holder} {keep : Node → Bool}
    (hkeep : ∀ n ∈ members, keep n = true) (table : Std.HashMap Node (Array Holder)) (nodes : List Node) :
    mention members holder table (nodes.filter keep) = mention members holder table nodes := by
  unfold mention
  rw [List.foldl_filter]
  refine List.foldl_ext _ _ _ fun table n hn => ?_
  by_cases hk : keep n = true
  · rw [if_pos hk]
  · rw [if_neg hk, if_neg fun hm => hk (hkeep n hm)]

theorem nodes_cut (i : ℕ) (ts : List Term) :
    Terms.nodes (cut B i ts) = (Terms.nodes ts).filter fun n => !B i || !B n.index := by
  rw [cut_eq_filter, Terms.nodes, Terms.nodes, List.filter_map]
  rfl

theorem veil_pendingNodes : (c.veil B).pendingNodes = c.pendingNodes := by
  unfold pendingNodes
  rw [veil_size]
  have hpending : (c.veil B).isPendingAt = c.isPendingAt := by
    funext i
    obtain ⟨hlive, -, hrank, -⟩ := veil_frame (c := c) (B := B) i
    rw [isPendingAt, isPendingAt, hlive, hrank]
  rw [hpending, show (c.veil B).nodeAt = c.nodeAt from funext fun i => veil_nodeAt]

/-- No node of the frontier is behind the veil, and so the table lists the same holders. -/
theorem veil_referrers {frontier : List Node} (hn : ∀ n ∈ frontier, B n.index = false) :
    (c.veil B).referrers frontier = c.referrers frontier := by
  have hmention : (fun table n => mention (.ofList frontier) (.node n) table ((c.veil B).successorNodes n)) =
      fun table n => mention (.ofList frontier) (.node n) table (c.successorNodes n) := by
    funext table n
    rw [successorNodes, veil_successors, nodes_cut, mention_filter]
    · rfl
    · intro m hm
      rw [hn m (by simpa using hm), Bool.not_false, Bool.or_true]
  simp only [referrers, veil_pendingNodes, hmention]
  rfl

end PowerTower.Circuit
