import Mathlib
import PowerTower.Proofs.Renaming
import PowerTower.Proofs.Veil

/-!
# Mirrored circuits

A circuit mirrors another one if it holds the same under other names. What the free places of a circuit hold does not
matter before they are used, and need not be the same: only some places are known to be, and these mention no others.

* `Mirror` : the known places and the markings are the same under other names;
* `Mirror.compareTerms`, `Mirror.alloc`, `Mirror.place`, … : the circuits are read and changed alike;
* `Abreast` : two steps that answer alike, and leave mirrored circuits;
* `Mirror.absorb`, `Mirror.integerTerms`, … : carries are such steps;
* `Outcome` : the same for calls, which may be refused, and some refusals of the first may be excused.
-/

namespace PowerTower

namespace Terms

variable {S T : Set ℕ} {n : Node} {s : Sign} {ts us : List Term}

/-- All nodes are at places of the set. -/
def Among (S : Set ℕ) (ts : List Term) : Prop := ∀ n ∈ nodes ts, n.index ∈ S

theorem among_nil : Among S [] := by simp [Among]

theorem Among.mono (h : Among S ts) (hST : S ⊆ T) : Among T ts := fun n hn => hST (h n hn)

theorem Among.of_subset (h : Among S us) (hsub : ∀ n ∈ nodes ts, n ∈ nodes us) : Among S ts :=
  fun n hn => h n (hsub n hn)

theorem Among.sublist (h : Among S us) (hsub : ts.Sublist us) : Among S ts :=
  h.of_subset fun _ hn => (hsub.map _).subset hn

theorem Among.append (h : Among S ts) (h' : Among S us) : Among S (ts ++ us) := fun n hn => by
  rw [nodes, List.map_append] at hn
  exact (List.mem_append.1 hn).elim (h n) (h' n)

theorem among_single (hn : n.index ∈ S) : Among S [(n, s)] := by simpa [Among, nodes] using hn

theorem among_cons : Among S ((n, s) :: ts) ↔ n.index ∈ S ∧ Among S ts := List.forall_mem_cons

theorem Among.erase (h : Among S ts) (n : Node) : Among S (Terms.erase n ts) := h.sublist (erase_sublist n ts)

theorem Among.set (h : Among S ts) (n : Node) (s : Sign) : Among S (Terms.set n s ts) := h.of_subset fun m hm => by
  rwa [nodes_set] at hm

theorem Among.flip (h : Among S ts) : Among S (Terms.flip ts) := h.of_subset fun m hm => by rwa [nodes_flip] at hm

end Terms

namespace Circuit

variable {r : Renaming} {S T : Set ℕ} {c d : Circuit} {m n : Node} {ts us : List Term} {s : Sign} {i j k p : ℕ}

/-- A place mirrors another one; if it is known, so does its exponent, which mentions known places only. -/
structure Likeness (r : Renaming) (S : Set ℕ) (known : Prop) (s s' : Slot) : Prop where
  live : s'.live = s.live
  generation : s'.generation = s.generation
  rank : s'.rank = s.rank
  doubles : s'.doubles = s.doubles
  exponent : known → s'.successors = r.terms s.successors
  among : known → Terms.Among S s.successors
  known_of_live : s.live = true → known

theorem Likeness.eq {known : Prop} {s s' : Slot} (h : Likeness r S known s s') (hknown : known) :
    s' = { s with successors := r.terms s.successors } := by
  obtain ⟨hlive, hgeneration, hrank, hdoubles, hexponent, -, -⟩ := h
  cases s'
  simp only [Slot.mk.injEq]
  exact ⟨hgeneration, hlive, hrank, hdoubles, hexponent hknown⟩

/-- A circuit holds the same as another one under other names. The places of the set are known, and all names that stand
in the order, in markings or at known places lead to known places. -/
structure Mirror (r : Renaming) (S : Set ℕ) (c d : Circuit) : Prop where
  id : d.id = r.circuit c.id
  config : d.config = r.config c.config
  free : d.free = c.free
  liveNodes : d.liveNodes = c.liveNodes
  size : d.slots.size = c.slots.size
  slots : ∀ i, Likeness r S (i ∈ S) (c.slotAt i) (d.slotAt i)
  order : d.order = c.order.map r.node
  ranked : ∀ (k : ℕ) (n : Node), c.order[k]? = some n → n.index ∈ S
  cells : ∀ j, d.cellAt j = r.cell (c.cellAt (r.source j))
  mentioned : ∀ j, Terms.Among S (c.cellAt (r.source j)).terms
  fresh : ∀ k, r.source (d.cells.size + k) = c.cells.size + k
  held : ∀ i, 0 < (c.cellAt i).handles → r.source (r.marking i) = i

/-! ## Looking up -/

theorem Mirror.rank? (h : Mirror r S c d) (n : Node) : d.rank? (r.node n) = c.rank? n := (h.slots n.index).rank

theorem Mirror.isReducedNode (h : Mirror r S c d) (n : Node) : d.isReducedNode (r.node n) = c.isReducedNode n :=
  congrArg Option.isSome (h.rank? n)

theorem Mirror.successors (h : Mirror r S c d) (hn : n.index ∈ S) :
    d.successors (r.node n) = r.terms (c.successors n) :=
  (h.slots n.index).exponent hn

theorem Mirror.among (h : Mirror r S c d) (hn : n.index ∈ S) : Terms.Among S (c.successors n) :=
  (h.slots n.index).among hn

theorem Mirror.doubles (h : Mirror r S c d) (n : Node) : (d.slot (r.node n)).doubles = (c.slot n).doubles :=
  (h.slots n.index).doubles

theorem Mirror.known (h : Mirror r S c d) (hn : c.Live n) : n.index ∈ S := (h.slots n.index).known_of_live hn.2.1

theorem Mirror.nodeAt (h : Mirror r S c d) (i : ℕ) : d.nodeAt i = r.node (c.nodeAt i) := by
  rw [Circuit.nodeAt, h.id, (h.slots i).generation]
  rfl

theorem Mirror.termsReduced (h : Mirror r S c d) (ts : List Term) :
    d.termsReduced (r.terms ts) = c.termsReduced ts := by
  rw [Circuit.termsReduced, Renaming.terms, List.all_map, Circuit.termsReduced]
  exact congrArg ts.all (funext fun t => h.isReducedNode t.1)

theorem Mirror.getElem? (h : Mirror r S c d) (k : ℕ) : d.order[k]? = (c.order[k]?).map r.node := by
  rw [h.order, Array.getElem?_map]

theorem Mirror.order_size (h : Mirror r S c d) : d.order.size = c.order.size := by rw [h.order, Array.size_map]

/-- A marking is read under its other number. -/
theorem Mirror.termsOf (h : Mirror r S c d) {m : Marking} (hm : r.source (r.marking m.id) = m.id) :
    d.termsOf (r.handle m) = r.terms (c.termsOf m) := by
  rw [Circuit.termsOf, Renaming.handle, h.cells, hm]
  rfl

theorem Mirror.among_termsOf (h : Mirror r S c d) {m : Marking} (hm : r.source (r.marking m.id) = m.id) :
    Terms.Among S (c.termsOf m) := by
  have hover := h.mentioned (r.marking m.id)
  rwa [hm] at hover

/-! ## Comparisons -/

theorem Mirror.digits (h : Mirror r S c d) (ts : List Term) : d.digits (r.terms ts) = c.digits ts := by
  rw [Circuit.digits, Renaming.terms, List.mapM_map, Circuit.digits]
  congr 2
  funext t
  have hrank : d.rank? (r.term t).1 = c.rank? t.1 := h.rank? t.1
  rw [Function.comp_apply, hrank]
  rfl

theorem Mirror.doublesAt (h : Mirror r S c d) (k : ℕ) : d.doublesAt k = c.doublesAt k := by
  rw [doublesAt_eq, doublesAt_eq, h.getElem?]
  cases c.order[k]? with
  | none => rfl
  | some n => exact h.doubles n

/-- Comparisons read ranks and flags only. -/
theorem Mirror.compareTerms (h : Mirror r S c d) (ts us : List Term) (bias : ℤ) :
    d.compareTerms (r.terms ts) (r.terms us) bias = c.compareTerms ts us bias := by
  have hweigh := weigh_congr (c := c) (d := d) h.doublesAt
  rw [Circuit.compareTerms, Circuit.compareTerms, h.digits, h.digits]
  simp only [hweigh]

/-! ## Changes of single places -/

theorem Mirror.withSlots (h : Mirror r S c d) {slots slots' : Array Slot} (hsize : slots'.size = slots.size)
    (hslots : ∀ i, Likeness r S (i ∈ S) (slots[i]?.getD {}) (slots'[i]?.getD {})) :
    Mirror r S { c with slots } { d with slots := slots' } :=
  { h with size := hsize, slots := hslots }

theorem Mirror.modifySlot (h : Mirror r S c d) {f f' : Slot → Slot}
    (hf : ∀ s s', Likeness r S (i ∈ S) s s' → Likeness r S (i ∈ S) (f s) (f' s')) :
    Mirror r S (c.modifySlot i f) (d.modifySlot i f') := by
  refine h.withSlots (by simp [h.size]) fun j => ?_
  show Likeness r S (j ∈ S) ((c.modifySlot i f).slotAt j) ((d.modifySlot i f').slotAt j)
  rw [slotAt_modifySlot, slotAt_modifySlot, h.size]
  split_ifs with hij
  · obtain ⟨rfl, -⟩ := hij
    exact hf _ _ (h.slots i)
  · exact h.slots j

theorem Mirror.setRank (h : Mirror r S c d) (n : Node) (k : Option ℕ) :
    Mirror r S (c.setRank n k) (d.setRank (r.node n) k) :=
  h.modifySlot fun _ _ hs => { hs with rank := rfl }

theorem Mirror.setDoubles (h : Mirror r S c d) (n : Node) (b : Bool) :
    Mirror r S (c.setDoubles n b) (d.setDoubles (r.node n) b) :=
  h.modifySlot fun _ _ hs => { hs with doubles := rfl }

theorem Mirror.setSuccessors (h : Mirror r S c d) (n : Node) (hts : Terms.Among S ts) :
    Mirror r S (c.setSuccessors n ts) (d.setSuccessors (r.node n) (r.terms ts)) :=
  h.modifySlot fun _ _ hs => { hs with exponent := fun _ => rfl, among := fun _ => hts }

theorem Mirror.freeNode (h : Mirror r S c d) (n : Node) : Mirror r S (c.freeNode n) (d.freeNode (r.node n)) := by
  have hslot : Mirror r S (c.modifySlot n.index fun s => { generation := s.generation + 1 })
      (d.modifySlot n.index fun s => { generation := s.generation + 1 }) :=
    h.modifySlot fun s s' hs => ⟨rfl, by rw [hs.generation], rfl, rfl, fun _ => rfl, fun _ => Terms.among_nil,
      fun hlive => absurd hlive (by simp)⟩
  exact { hslot with
    free := congrArg (n.index :: ·) h.free
    liveNodes := congrArg (· - 1) h.liveNodes }

/-! ## The reduced order -/

theorem map_insertIdxIfInBounds {α β : Type} (g : α → β) (a : Array α) (p : ℕ) (x : α) :
    (a.insertIdxIfInBounds p x).map g = (a.map g).insertIdxIfInBounds p (g x) := by
  by_cases hp : p ≤ a.size
  · simp [Array.insertIdxIfInBounds, hp, ← Array.toList_inj, List.map_insertIdx]
  · simp [Array.insertIdxIfInBounds, hp]

theorem Mirror.recordRank (h : Mirror r S c d) (k : ℕ) : Mirror r S (c.recordRank k) (d.recordRank k) := by
  unfold Circuit.recordRank
  rw [h.getElem?]
  cases c.order[k]? with
  | none => exact h
  | some n => exact h.setRank n (some k)

theorem Mirror.foldl_recordRank (h : Mirror r S c d) (l : List ℕ) :
    Mirror r S (l.foldl Circuit.recordRank c) (l.foldl Circuit.recordRank d) := by
  induction l generalizing c d with
  | nil => exact h
  | cons k l ih => exact ih (h.recordRank k)

theorem Mirror.enter (h : Mirror r S c d) (hn : n.index ∈ S) (p : ℕ) :
    Mirror r S (c.enter n p) (d.enter (r.node n) p) :=
  { h with
    order := by
      rw [Circuit.enter, Circuit.enter, h.order, map_insertIdxIfInBounds]
    ranked := fun k m hm => by
      rcases mem_enter hm with rfl | ⟨l, hl⟩
      · exact hn
      · exact h.ranked l m hl }

theorem Mirror.place (h : Mirror r S c d) (hn : n.index ∈ S) (p : ℕ) :
    Mirror r S (c.place n p) (d.place (r.node n) p) := by
  have henter := h.enter hn p
  rw [place_eq, place_eq, renumber_eq, renumber_eq, henter.order_size]
  exact henter.foldl_recordRank _

theorem Mirror.isDoubled (h : Mirror r S c d) (hn : n.index ∈ S) (k : ℕ) :
    d.isDoubled (r.node n) k = c.isDoubled n k := by
  cases hk : c.order[k + 1]? with
  | none => rw [isDoubled_of_none hk, isDoubled_of_none (by rw [h.getElem?, hk]; rfl)]
  | some m =>
    have hk' : d.order[k + 1]? = some (r.node m) := by rw [h.getElem?, hk]; rfl
    rw [isDoubled_of_some hk, isDoubled_of_some hk', h.successors hn, h.successors (h.ranked _ _ hk), h.compareTerms]

theorem Mirror.refreshDoubles (h : Mirror r S c d) (hn : n.index ∈ S) :
    Mirror r S (c.refreshDoubles n) (d.refreshDoubles (r.node n)) := by
  unfold Circuit.refreshDoubles
  rw [h.rank?]
  cases c.rank? n with
  | none => exact h
  | some k =>
    show Mirror r S (c.setDoubles n (c.isDoubled n k)) (d.setDoubles (r.node n) (d.isDoubled (r.node n) k))
    rw [h.isDoubled hn]
    exact h.setDoubles n _

/-! ## Steps side by side -/

section Steps

variable {α β : Type} {R : Set ℕ → α → β → Prop} {x : α × Circuit} {y : β × Circuit}

/-- Two steps answer alike and leave mirrored circuits. More places may be known afterwards. -/
def Abreast (r : Renaming) (S : Set ℕ) (R : Set ℕ → α → β → Prop) (x : α × Circuit) (y : β × Circuit) : Prop :=
  ∃ T, S ⊆ T ∧ Mirror r T x.2 y.2 ∧ R T x.1 y.1

theorem Abreast.widen (h : Abreast r T R x y) (hST : S ⊆ T) : Abreast r S R x y := by
  obtain ⟨U, hTU, hm, hR⟩ := h
  exact ⟨U, hST.trans hTU, hm, hR⟩

end Steps

/-- A node at a known place, under its two names. -/
def SameNode (r : Renaming) (S : Set ℕ) (m n : Node) : Prop := n = r.node m ∧ m.index ∈ S

/-- Terms over known places, under their two names. -/
def SameTerms (r : Renaming) (S : Set ℕ) (ts us : List Term) : Prop := us = r.terms ts ∧ Terms.Among S ts

theorem Mirror.abreast_node (h : Mirror r S c d) (hn : n.index ∈ S) : Abreast r S (SameNode r) (n, c) (r.node n, d) :=
  ⟨S, subset_rfl, h, rfl, hn⟩

theorem Mirror.abreast_terms (h : Mirror r S c d) (hts : Terms.Among S ts) :
    Abreast r S (SameTerms r) (ts, c) (r.terms ts, d) := ⟨S, subset_rfl, h, rfl, hts⟩

/-! ## Making a node -/

theorem Mirror.freshIndex (h : Mirror r S c d) : d.freshIndex = c.freshIndex := by
  unfold Circuit.freshIndex
  rw [h.free, h.size]

theorem alloc_liveNodes : (c.alloc ts).2.liveNodes = c.liveNodes + 1 := by
  unfold Circuit.alloc
  split <;> rfl

/-- A place that does not exist is not made by naming it among the free ones. -/
theorem alloc_slotAt_fresh : (c.alloc ts).2.slotAt c.freshIndex =
    if c.free ≠ [] ∧ c.slots.size ≤ c.freshIndex then {}
    else { c.slotAt c.freshIndex with live := true, successors := ts } := by
  cases hfree : c.free with
  | nil =>
    rw [alloc_of_nil hfree, freshIndex_nil hfree, if_neg (by simp)]
    simp [slotAt]
  | cons i free =>
    rw [alloc_of_cons hfree, freshIndex_cons hfree, slotAt_modifySlot]
    by_cases hi : i < c.slots.size
    · rw [if_pos ⟨rfl, hi⟩, if_neg (by simp [hi])]
      rfl
    · rw [if_neg fun hlt => hi hlt.2, if_pos ⟨by simp, not_lt.1 hi⟩]
      simp [slotAt, hi]

theorem Mirror.alloc (h : Mirror r S c d) (hts : Terms.Among S ts) :
    Abreast r S (SameNode r) (c.alloc ts) (d.alloc (r.terms ts)) := by
  have hsub : S ⊆ insert c.freshIndex S := Set.subset_insert _ _
  have hsize : (d.alloc (r.terms ts)).2.slots.size = (c.alloc ts).2.slots.size := by
    cases hfree : c.free with
    | nil => rw [alloc_of_nil hfree, alloc_of_nil (h.free.trans hfree), Array.size_push, Array.size_push, h.size]
    | cons i free =>
      rw [alloc_of_cons hfree, alloc_of_cons (h.free.trans hfree), Circuit.modifySlot, Circuit.modifySlot,
        Array.size_modify, Array.size_modify, h.size]
  have hslots : ∀ j, Likeness r (insert c.freshIndex S) (j ∈ insert c.freshIndex S) ((c.alloc ts).2.slotAt j)
      ((d.alloc (r.terms ts)).2.slotAt j) := fun j => by
    by_cases hj : j = c.freshIndex
    · subst hj
      have hslot := h.slots c.freshIndex
      rw [alloc_slotAt_fresh, ← h.freshIndex, alloc_slotAt_fresh, h.freshIndex, h.free, h.size]
      split_ifs
      · exact ⟨rfl, rfl, rfl, rfl, fun _ => rfl, fun _ => Terms.among_nil, fun _ => Set.mem_insert _ _⟩
      · exact ⟨rfl, hslot.generation, hslot.rank, hslot.doubles, fun _ => rfl, fun _ => hts.mono hsub,
          fun _ => Set.mem_insert _ _⟩
    · have hslot := h.slots j
      rw [alloc_slotAt_of_ne hj, alloc_slotAt_of_ne (by rwa [h.freshIndex]), Set.mem_insert_iff, or_iff_right hj]
      exact { hslot with among := fun hknown => (hslot.among hknown).mono hsub }
  have hmirror : Mirror r (insert c.freshIndex S) (c.alloc ts).2 (d.alloc (r.terms ts)).2 :=
    { id := by rw [alloc_id, alloc_id, h.id]
      config := by rw [alloc_config, alloc_config, h.config]
      free := by rw [alloc_free, alloc_free, h.free]
      liveNodes := by rw [alloc_liveNodes, alloc_liveNodes, h.liveNodes]
      size := hsize
      slots := hslots
      order := by rw [alloc_order, alloc_order, h.order]
      ranked := fun k n hn => hsub (h.ranked k n (by rwa [alloc_order] at hn))
      cells := fun j => by
        rw [cellAt, cellAt, alloc_cells, alloc_cells]
        exact h.cells j
      mentioned := fun j => by
        rw [cellAt, alloc_cells]
        exact (h.mentioned j).mono hsub
      fresh := fun k => by rw [alloc_cells, alloc_cells, h.fresh]
      held := fun i hi => h.held i (by rwa [cellAt, alloc_cells] at hi) }
  refine ⟨_, hsub, hmirror, ?_, ?_⟩
  · rw [alloc_fst, alloc_fst, h.freshIndex, hmirror.nodeAt]
  · rw [alloc_fst]
    exact Set.mem_insert _ _

/-! ## Units and doubles -/

theorem Mirror.unit? (h : Mirror r S c d) : d.unit? = c.unit?.map r.node := by
  rw [unit?_eq, unit?_eq, h.getElem?]
  cases hn : c.order[0]? with
  | none => rfl
  | some n =>
    rw [Option.map_some, Option.filter_some, Option.filter_some, h.successors (h.ranked _ _ hn), r.isEmpty_terms]
    split_ifs <;> rfl

/-- A new node is placed in the order at a rank. -/
theorem Mirror.insertNew (h : Mirror r S c d) (hts : Terms.Among S ts) (p : ℕ) :
    ∃ T, S ⊆ T ∧ Mirror r T (c.insertNew ts p) (d.insertNew (r.terms ts) p) ∧
      SameNode r T (c.alloc ts).1 (d.alloc (r.terms ts)).1 := by
  obtain ⟨T, hST, hmirror, hnode, hknown⟩ := h.alloc hts
  refine ⟨T, hST, ?_, hnode, hknown⟩
  rw [Circuit.insertNew, Circuit.insertNew, hnode]
  exact hmirror.place hknown p

theorem ensureUnit_of_none (h : c.unit? = none) : c.ensureUnit =
    ((c.alloc []).1, (c.insertNew [] 0).refreshDoubles (c.alloc []).1) := by
  simp only [ensureUnit, h]
  rfl

theorem ensureUnit_of_some (h : c.unit? = some n) : c.ensureUnit = (n, c) := by simp only [ensureUnit, h]

theorem Mirror.ensureUnit (h : Mirror r S c d) : Abreast r S (SameNode r) c.ensureUnit d.ensureUnit := by
  have hunit := h.unit?
  cases hu : c.unit? with
  | some first =>
    rw [hu] at hunit
    rw [ensureUnit_of_some hu, ensureUnit_of_some hunit]
    exact h.abreast_node (h.ranked _ _ (order_of_unit? hu))
  | none =>
    rw [hu] at hunit
    rw [ensureUnit_of_none hu, ensureUnit_of_none hunit]
    obtain ⟨T, hST, hmirror, hnode, hknown⟩ := h.insertNew Terms.among_nil 0
    rw [r.terms_nil] at hmirror hnode
    rw [hnode]
    exact ⟨T, hST, hmirror.refreshDoubles hknown, rfl, hknown⟩

theorem knownDouble?_eq : c.knownDouble? n =
    if (c.slot n).doubles then (c.rank? n).bind fun k => c.order[k + 1]? else none := by
  unfold knownDouble?
  cases c.rank? n <;> rfl

theorem Mirror.knownDouble? (h : Mirror r S c d) (n : Node) :
    d.knownDouble? (r.node n) = (c.knownDouble? n).map r.node := by
  rw [knownDouble?_eq, knownDouble?_eq, h.doubles, h.rank?]
  split_ifs
  · cases c.rank? n with
    | none => rfl
    | some k => exact h.getElem? (k + 1)
  · rfl

theorem Mirror.known_double (h : Mirror r S c d) (hm : c.knownDouble? n = some m) : m.index ∈ S := by
  rw [knownDouble?_eq] at hm
  split_ifs at hm
  obtain ⟨k, -, hk⟩ := Option.bind_eq_some_iff.1 hm
  exact h.ranked _ _ hk

theorem Mirror.above (h : Mirror r S c d) (n : Node) : d.above (r.node n) = c.above n := by
  unfold Circuit.above
  rw [h.rank?, h.order_size]

theorem Mirror.finishDouble (h : Mirror r S c d) (n : Node) (hts : Terms.Among S ts) :
    Abreast r S (SameNode r) (c.finishDouble n ts) (d.finishDouble (r.node n) (r.terms ts)) := by
  have hdouble := h.knownDouble? n
  cases hm : c.knownDouble? n with
  | some m =>
    rw [hm] at hdouble
    rw [Circuit.finishDouble, Circuit.finishDouble, hm, hdouble]
    exact h.abreast_node (h.known_double hm)
  | none =>
    rw [hm] at hdouble
    obtain ⟨T, hST, hmirror, hnode, hknown⟩ := h.insertNew hts (c.above n)
    rw [finishDouble_of_none hm, finishDouble_of_none hdouble, h.above]
    rw [Circuit.insertNew, Circuit.insertNew] at hmirror
    rw [hnode] at hmirror ⊢
    exact ⟨T, hST, (hmirror.setDoubles n true).refreshDoubles hknown, rfl, hknown⟩

/-! ## Carries -/

/-- Doubles come into being alike. -/
def Mirrors (r : Renaming) (double : Node → Circuit → Option (Node × Circuit)) : Prop :=
  ∀ ⦃S c d n⦄, Mirror r S c d → n.index ∈ S →
    Option.Rel (Abreast r S (SameNode r)) (double n c) (double (r.node n) d)

/-- By induction on the number of terms. -/
theorem Mirrors.absorbWith {double : Node → Circuit → Option (Node × Circuit)} (hdouble : Mirrors r double)
    (h : Mirror r S c d) (hn : n.index ∈ S) (hts : Terms.Among S ts) (s : Sign) :
    Option.Rel (Abreast r S (SameTerms r)) (absorbWith double ts n s c)
      (absorbWith double (r.terms ts) (r.node n) s d) := by
  induction hlen : ts.length using Nat.strong_induction_on generalizing ts n s c d S with
  | _ l ih =>
    have hdigit := r.digit?_terms n ts
    cases hd : Terms.digit? n ts with
    | none =>
      rw [absorbWith_of_none hd, absorbWith_of_none (hdigit.trans hd)]
      have happend := h.abreast_terms (hts.append (Terms.among_single (s := s) hn))
      rw [r.terms_append] at happend
      exact .some happend
    | some old =>
      by_cases hc : (old.addWithCarry s).2 = .zero
      · rw [absorbWith_of_settled hd hc, absorbWith_of_settled (hdigit.trans hd) hc, r.erase_terms, r.set_terms]
        refine .some ?_
        split_ifs
        · exact h.abreast_terms (hts.erase n)
        · exact h.abreast_terms (hts.set n _)
      · rw [absorbWith_of_carry hd hc, absorbWith_of_carry (hdigit.trans hd) hc, r.erase_terms]
        have hstep := hdouble h hn
        generalize double n c = x at hstep ⊢
        generalize double (r.node n) d = y at hstep ⊢
        cases hstep with
        | none => exact .none
        | @some q q' hq =>
          obtain ⟨T, hST, hmirror, hnode, hknown⟩ := hq
          rw [Option.bind_some, Option.bind_some, hnode]
          exact rel_imp (ih _ (hlen ▸ Terms.length_erase_lt hd) hmirror hknown ((hts.erase n).mono hST) _ rfl)
            fun _ _ hrest => hrest.widen hST

/-- By induction on the room for doubles under construction. -/
theorem mirrors_doubleWithin (room : ℕ) : Mirrors r (doubleWithin room) := by
  induction room with
  | zero =>
    intro S c d n h hn
    rw [doubleWithin, doubleWithin, h.knownDouble?]
    cases hm : c.knownDouble? n with
    | none => exact .none
    | some m => exact .some (h.abreast_node (h.known_double hm))
  | succ room ih =>
    intro S c d n h hn
    have hdouble := h.knownDouble? n
    cases hm : c.knownDouble? n with
    | some m =>
      rw [hm] at hdouble
      rw [doubleWithin, doubleWithin, hm, hdouble]
      exact .some (h.abreast_node (h.known_double hm))
    | none =>
      rw [hm] at hdouble
      rw [doubleWithin_of_none hm, doubleWithin_of_none hdouble]
      obtain ⟨T, hST, hmirror, hunit, hknown⟩ := h.ensureUnit
      rw [hunit, hmirror.successors (hST hn)]
      have habsorb := ih.absorbWith hmirror hknown (hmirror.among (hST hn)) .plus
      generalize absorbWith (doubleWithin room) _ _ _ c.ensureUnit.2 = x at habsorb ⊢
      generalize absorbWith (doubleWithin room) _ _ _ d.ensureUnit.2 = y at habsorb ⊢
      cases habsorb with
      | none => exact .none
      | some hq =>
        obtain ⟨U, hTU, hmirror', hterms, hamong⟩ := hq
        rw [Option.map_some, Option.map_some, hterms]
        exact .some ((hmirror'.finishDouble n hamong).widen (hST.trans hTU))

theorem mirrors_double? : Mirrors r fun n c => c.double? n := fun _ _ _ _ h hn => by
  show Option.Rel _ (doubleWithin _ _ _) (doubleWithin _ _ _)
  rw [h.size]
  exact mirrors_doubleWithin _ h hn

theorem Mirror.double (h : Mirror r S c d) (hn : n.index ∈ S) :
    Abreast r S (SameNode r) (c.double n) (d.double (r.node n)) := by
  have hrel : Option.Rel (Abreast r S (SameNode r)) (c.double? n) (d.double? (r.node n)) := mirrors_double? h hn
  unfold Circuit.double
  generalize c.double? n = x at hrel ⊢
  generalize d.double? (r.node n) = y at hrel ⊢
  cases hrel with
  | none => exact h.abreast_node hn
  | some hq => exact hq

theorem Mirror.absorb (h : Mirror r S c d) (hn : n.index ∈ S) (hts : Terms.Among S ts) (s : Sign) :
    Abreast r S (SameTerms r) (c.absorb ts n s) (d.absorb (r.terms ts) (r.node n) s) := by
  have hrel := mirrors_double?.absorbWith h hn hts s
  unfold Circuit.absorb
  generalize absorbWith (fun n c => c.double? n) ts n s c = x at hrel ⊢
  generalize absorbWith (fun n c => c.double? n) _ _ s d = y at hrel ⊢
  cases hrel with
  | none => exact h.abreast_terms hts
  | some hq => exact hq

theorem Mirror.incrementTerms (h : Mirror r S c d) (hts : Terms.Among S ts) :
    Abreast r S (SameTerms r) (c.incrementTerms ts) (d.incrementTerms (r.terms ts)) := by
  obtain ⟨T, hST, hmirror, hunit, hknown⟩ := h.ensureUnit
  show Abreast r S (SameTerms r) (c.ensureUnit.2.absorb ts c.ensureUnit.1 .plus)
    (d.ensureUnit.2.absorb (r.terms ts) d.ensureUnit.1 .plus)
  rw [hunit]
  exact (hmirror.absorb hknown (hts.mono hST) .plus).widen hST

/-! ## The terms of a new marking -/

theorem terms_bitTerms (n : Node) (s : Sign) (bits : ℕ) : r.terms (bitTerms n s bits) = bitTerms (r.node n) s bits := by
  unfold bitTerms
  split_ifs <;> rfl

theorem among_bitTerms {bits : ℕ} (hn : n.index ∈ S) : Terms.Among S (bitTerms n s bits) := fun m hm => by
  rwa [mem_nodes_bitTerms hm]

/-- By induction on the number of bits. -/
theorem Mirror.binaryTerms (h : Mirror r S c d) (hn : n.index ∈ S) (bits : ℕ) :
    Abreast r S (SameTerms r) (binaryTerms s bits n c) (binaryTerms s bits (r.node n) d) := by
  induction bits using Nat.strong_induction_on generalizing n c d S with
  | _ bits ih =>
    by_cases hb : bits / 2 = 0
    · rw [binaryTerms_of_last hb, binaryTerms_of_last hb, ← terms_bitTerms]
      exact h.abreast_terms (among_bitTerms hn)
    · obtain ⟨T, hST, hmirror, hnode, hknown⟩ := h.double hn
      obtain ⟨U, hTU, hmirror', hterms, hamong⟩ := ih (bits / 2) (by omega) hmirror hknown
      rw [binaryTerms_of_more hb, binaryTerms_of_more hb, hnode]
      refine ⟨U, hST.trans hTU, hmirror', ?_, (among_bitTerms (hTU (hST hn))).append hamong⟩
      rw [hterms, ← terms_bitTerms, r.terms_append]

theorem Mirror.integerTerms (h : Mirror r S c d) (v : ℤ) :
    Abreast r S (SameTerms r) (integerTerms v c) (integerTerms v d) := by
  unfold Circuit.integerTerms
  split_ifs
  · exact h.abreast_terms Terms.among_nil
  · obtain ⟨T, hST, hmirror, hunit, hknown⟩ := h.ensureUnit
    show Abreast r S (SameTerms r) (Circuit.binaryTerms (Sign.of v) v.natAbs c.ensureUnit.1 c.ensureUnit.2)
      (Circuit.binaryTerms (Sign.of v) v.natAbs d.ensureUnit.1 d.ensureUnit.2)
    rw [hunit]
    exact (hmirror.binaryTerms hknown v.natAbs).widen hST

theorem Mirror.looseUnit (h : Mirror r S c d) : Abreast r S (SameNode r) c.looseUnit d.looseUnit := by
  have hempty : d.order.isEmpty = c.order.isEmpty := by rw [Array.isEmpty, Array.isEmpty, h.order_size]
  unfold Circuit.looseUnit
  rw [hempty]
  split_ifs
  · exact h.ensureUnit
  · exact h.alloc Terms.among_nil

theorem Mirror.incremented (h : Mirror r S c d) (hts : Terms.Among S ts) :
    Abreast r S (SameTerms r) (incremented ts c) (incremented (r.terms ts) d) := by
  unfold Circuit.incremented
  rw [h.termsReduced]
  split_ifs
  · exact h.incrementTerms hts
  · obtain ⟨T, hST, hmirror, hunit, hknown⟩ := h.looseUnit
    refine ⟨T, hST, hmirror, ?_, (hts.mono hST).append (Terms.among_single hknown)⟩
    show r.terms ts ++ [(d.looseUnit.1, .plus)] = r.terms (ts ++ [(c.looseUnit.1, .plus)])
    rw [hunit, r.terms_append]
    rfl

/-- By induction on the terms. -/
theorem Mirror.cloneTerms (h : Mirror r S c d) (hts : Terms.Among S ts) :
    Abreast r S (SameTerms r) (cloneTerms ts c) (cloneTerms (r.terms ts) d) := by
  induction ts generalizing c d S with
  | nil => exact h.abreast_terms Terms.among_nil
  | cons t ts ih =>
    obtain ⟨n, s⟩ := t
    obtain ⟨hn, hts⟩ := Terms.among_cons.1 hts
    obtain ⟨T, hST, hmirror, hnode, hknown⟩ := h.alloc (h.among hn)
    obtain ⟨U, hTU, hmirror', hterms, hamong⟩ := ih hmirror (hts.mono hST)
    rw [r.terms_cons, cloneTerms_cons, cloneTerms_cons, h.successors hn]
    refine ⟨U, hST.trans hTU, hmirror', ?_, Terms.among_cons.2 ⟨hTU hknown, hamong⟩⟩
    rw [hnode, hterms]
    rfl

/-! ## Calls side by side -/

section Calls

variable {ε α β α' β' : Type} {g : ε → ε} {E : ε → Prop} {R : Set ℕ → α → β → Prop} {R' : Set ℕ → α' → β' → Prop}

/-- Two calls are answered alike or refused alike, and leave mirrored circuits. Where the first is refused for an
excused reason, nothing is said of the second. -/
inductive Outcome (g : ε → ε) (E : ε → Prop) (r : Renaming) (S : Set ℕ) (R : Set ℕ → α → β → Prop) :
    Except ε α × Circuit → Except ε β × Circuit → Prop
  | answered {T : Set ℕ} {a : α} {b : β} {c d : Circuit} (sub : S ⊆ T) (mirror : Mirror r T c d) (answer : R T a b) :
      Outcome g E r S R (.ok a, c) (.ok b, d)
  | refused {T : Set ℕ} {e : ε} {c d : Circuit} (sub : S ⊆ T) (mirror : Mirror r T c d) :
      Outcome g E r S R (.error e, c) (.error (g e), d)
  | excused {e : ε} {c : Circuit} {y : Except ε β × Circuit} (reason : E e) : Outcome g E r S R (.error e, c) y

theorem Outcome.widen {x : Except ε α × Circuit} {y : Except ε β × Circuit} (h : Outcome g E r T R x y) (hST : S ⊆ T) :
    Outcome g E r S R x y := by
  cases h with
  | answered sub mirror answer => exact .answered (hST.trans sub) mirror answer
  | refused sub mirror => exact .refused (hST.trans sub) mirror
  | excused reason => exact .excused reason

theorem Outcome.imp {R' : Set ℕ → α → β → Prop} {x : Except ε α × Circuit} {y : Except ε β × Circuit}
    (h : Outcome g E r S R x y) (hR : ∀ T a b, R T a b → R' T a b) : Outcome g E r S R' x y := by
  cases h with
  | answered sub mirror answer => exact .answered sub mirror (hR _ _ _ answer)
  | refused sub mirror => exact .refused sub mirror
  | excused reason => exact .excused reason

theorem Outcome.bind {x : Call ε α} {y : Call ε β} {f : α → Call ε α'} {f' : β → Call ε β'}
    (h : Outcome g E r S R (x.run c) (y.run d))
    (hf : ∀ T a b c' d', S ⊆ T → Mirror r T c' d' → R T a b → Outcome g E r T R' ((f a).run c') ((f' b).run d')) :
    Outcome g E r S R' ((x >>= f).run c) ((y >>= f').run d) := by
  rw [Call.run_bind, Call.run_bind]
  generalize x.run c = p at h ⊢
  generalize y.run d = q at h ⊢
  cases h with
  | answered sub mirror answer => exact (hf _ _ _ _ _ sub mirror answer).widen sub
  | refused sub mirror => exact .refused sub mirror
  | excused reason => exact .excused reason

theorem Abreast.outcome {f : Circuit → α × Circuit} {f' : Circuit → β × Circuit} (h : Abreast r S R (f c) (f' d)) :
    Outcome g E r S R ((Call.change f).run c) ((Call.change f').run d) := by
  obtain ⟨T, hST, hmirror, hR⟩ := h
  exact .answered hST hmirror hR

/-- A question is answered alike, or refused alike, unless its refusal is excused. -/
theorem Mirror.outcome_ask (h : Mirror r S c d) {q : Circuit → Except CircuitError α}
    {q' : Circuit → Except CircuitError β}
    {k : α → β} {E : CircuitError → Prop} (hq : (∃ e, q c = .error e ∧ E e) ∨ q' d = r.answer k (q c)) :
    Outcome r.error E r S (fun _ a b => b = k a) ((Call.ask q).run c) ((Call.ask q').run d) := by
  rw [Call.run_ask, Call.run_ask]
  rcases hq with ⟨e, he, reason⟩ | hq
  · rw [he]
    exact .excused reason
  · rw [hq]
    cases q c with
    | error e => exact .refused subset_rfl h
    | ok a => exact .answered subset_rfl h rfl

/-- Where the question is answered, the calls go on from there. -/
theorem Mirror.outcome_ask_bind (h : Mirror r S c d) {q : Circuit → Except CircuitError α}
    {q' : Circuit → Except CircuitError β} {k : α → β} {E : CircuitError → Prop} {f : α → Call CircuitError α'}
    {f' : β → Call CircuitError β'} (hq : (∃ e, q c = .error e ∧ E e) ∨ q' d = r.answer k (q c))
    (hf : ∀ a, q c = .ok a → Outcome r.error E r S R' ((f a).run c) ((f' (k a)).run d)) :
    Outcome r.error E r S R' ((Call.ask q >>= f).run c) ((Call.ask q' >>= f').run d) := by
  cases ha : q c with
  | error e =>
    rw [ha] at hq
    rw [Guards.run_ask_error ha]
    rcases hq with ⟨_, he, reason⟩ | hq
    · obtain rfl := Except.error.inj he
      exact .excused reason
    · rw [Guards.run_ask_error hq]
      exact .refused subset_rfl h
  | ok a =>
    rw [ha] at hq
    rcases hq with ⟨_, he, -⟩ | hq
    · cases he
    · rw [Guards.run_ask_ok ha, Guards.run_ask_ok hq]
      exact hf a ha

/-- By induction on the list. -/
theorem Mirror.outcome_forM {k : α → β} {f : α → Call ε Unit} {f' : β → Call ε Unit} {l : List α} {P : Set ℕ → α → Prop}
    (hP : ∀ S T a, S ⊆ T → P S a → P T a)
    (hf : ∀ S c d, Mirror r S c d → ∀ a ∈ l, P S a →
      Outcome g E r S (fun _ _ _ => True) ((f a).run c) ((f' (k a)).run d))
    (h : Mirror r S c d) (hl : ∀ a ∈ l, P S a) :
    Outcome g E r S (fun _ _ _ => True) ((l.forM f).run c) (((l.map k).forM f').run d) := by
  induction l generalizing c d S with
  | nil => exact .answered subset_rfl h trivial
  | cons a l ih =>
    refine (hf S c d h a (by simp) (hl a (by simp))).bind fun T _ _ c' d' hST hmirror _ => ?_
    exact ih (fun S c d h b hb => hf S c d h b (by simp [hb])) hmirror fun b hb => hP S T b hST (hl b (by simp [hb]))

end Calls

end Circuit

end PowerTower
