import Mathlib
import PowerTower.Proofs.Arena
import PowerTower.Proofs.Comparison

/-!
# The reduced order

Putting a node into the reduced order and keeping its doubling flags true.

* `SameNodes` : all but ranks, flags and order is the same, and therefore all worths are (`SameNodes.worth_eq`);
* `SameRanks` : all but flags is the same;
* `Linked.place`, `Graded.place`, `FlagTrue.place_*` : a pending node enters the order at a rank;
* `refreshDoubles_flagTrue` : a refreshed flag is true, as soon as the flags are true that the comparison reads;
* `consistent_of_refreshed` : after a node has been placed, refreshing the flags of its rank and of the rank below
  is enough.
-/

namespace PowerTower.Circuit

variable {c d e : Circuit} {m n : Node} {ts us : List Term} {i p r s : ℕ}

/-! ## Changes of ranks, flags and order -/

/-- All but ranks, flags and order is the same. -/
structure SameNodes (c d : Circuit) : Prop where
  id : d.id = c.id
  config : d.config = c.config
  cells : d.cells = c.cells
  free : d.free = c.free
  liveNodes : d.liveNodes = c.liveNodes
  size : d.slots.size = c.slots.size
  live : ∀ i, (d.slotAt i).live = (c.slotAt i).live
  generation : ∀ i, (d.slotAt i).generation = (c.slotAt i).generation
  successors : ∀ i, (d.slotAt i).successors = (c.slotAt i).successors

theorem SameNodes.refl (c : Circuit) : c.SameNodes c :=
  ⟨rfl, rfl, rfl, rfl, rfl, rfl, fun _ => rfl, fun _ => rfl, fun _ => rfl⟩

theorem SameNodes.trans (h : c.SameNodes d) (h' : d.SameNodes e) : c.SameNodes e where
  id := h'.id.trans h.id
  config := h'.config.trans h.config
  cells := h'.cells.trans h.cells
  free := h'.free.trans h.free
  liveNodes := h'.liveNodes.trans h.liveNodes
  size := h'.size.trans h.size
  live := fun i => (h'.live i).trans (h.live i)
  generation := fun i => (h'.generation i).trans (h.generation i)
  successors := fun i => (h'.successors i).trans (h.successors i)

theorem SameNodes.live_iff (h : c.SameNodes d) : d.Live n ↔ c.Live n := by
  rw [Live, slot, h.id, h.live, h.generation]
  rfl

theorem SameNodes.successors_eq (h : c.SameNodes d) : d.successors = c.successors :=
  funext fun n => h.successors n.index

theorem SameNodes.below_eq (h : c.SameNodes d) : d.Below = c.Below := by
  funext m n
  rw [Below, successorNodes, h.successors_eq]
  rfl

theorem SameNodes.worth_eq (h : c.SameNodes d) : d.worth = c.worth := by
  funext n
  by_cases hn : Acc c.Below n
  · exact worth_congr (S := fun _ => True) (by simp) (fun _ _ => congrFun h.successors_eq _) trivial hn
  · rw [worth, worth, dif_neg hn, dif_neg (by rwa [h.below_eq])]

theorem SameNodes.legal (h : c.SameNodes d) (hn : c.Legal n) : d.Legal n :=
  legal_congr (S := fun _ => True) (by simp) (fun _ _ => congrFun h.successors_eq _) trivial hn

theorem SameNodes.proper (h : c.SameNodes d) (hts : c.Proper ts) : d.Proper ts := hts.mono fun _ => h.live_iff.2

theorem SameNodes.stored (h : c.SameNodes d) (hs : c.Stored) : d.Stored := hs.congr h.free h.liveNodes h.size h.live

theorem SameNodes.exponents (h : c.SameNodes d) (hl : c.Linked) (n : Node) (hn : d.Live n) :
    d.Proper (d.successors n) := by
  rw [h.successors_eq]
  exact h.proper (hl.exponents n (h.live_iff.1 hn))

theorem SameNodes.markings (h : c.SameNodes d) (hl : c.Linked) (i : ℕ) (hi : 0 < (d.cellAt i).handles) :
    d.Proper (d.cellAt i).terms := by
  simp only [cellAt, h.cells] at hi ⊢
  exact h.proper (hl.markings i hi)

theorem SameNodes.acyclic (h : c.SameNodes d) (hl : c.Linked) : d.Acyclic := fun n hn => by
  rw [h.below_eq]
  exact hl.acyclic n (h.live_iff.1 hn)

/-- All but flags is the same. -/
structure SameRanks (c d : Circuit) : Prop extends SameNodes c d where
  order : d.order = c.order
  rank : ∀ i, (d.slotAt i).rank = (c.slotAt i).rank

theorem SameRanks.refl (c : Circuit) : c.SameRanks c := ⟨.refl c, rfl, fun _ => rfl⟩

theorem SameRanks.trans (h : c.SameRanks d) (h' : d.SameRanks e) : c.SameRanks e :=
  ⟨h.toSameNodes.trans h'.toSameNodes, h'.order.trans h.order, fun i => (h'.rank i).trans (h.rank i)⟩

theorem SameRanks.rank?_eq (h : c.SameRanks d) : d.rank? n = c.rank? n := h.rank n.index

theorem SameRanks.reduced_iff (h : c.SameRanks d) : d.Reduced n ↔ c.Reduced n := by
  rw [Reduced, h.live_iff, h.rank?_eq, Reduced]

theorem SameRanks.pending_iff (h : c.SameRanks d) : d.Pending n ↔ c.Pending n := by
  rw [Pending, h.live_iff, h.rank?_eq, Pending]

theorem SameRanks.linked (h : c.SameRanks d) (hl : c.Linked) : d.Linked where
  exponents := h.exponents hl
  markings := h.markings hl
  acyclic := h.acyclic hl
  ranked := fun r n => by rw [h.order, h.live_iff, h.rank?_eq, hl.ranked]
  unranked := fun i hi => by rw [h.rank, hl.unranked i ((h.live i).symm.trans hi)]
  closed := fun n hn m hm => h.reduced_iff.2 (hl.closed n (h.reduced_iff.1 hn) m (by rwa [← h.below_eq]))

theorem SameRanks.graded (h : c.SameRanks d) (hg : c.Graded) : d.Graded where
  legal := fun n hn => h.legal (hg.legal n (h.reduced_iff.1 hn))
  increasing := by
    rw [h.order, h.worth_eq]
    exact hg.increasing

theorem SameRanks.flagTrue_iff (h : c.SameRanks d) (hr : c.order[r]? = some n)
    (hd : (d.slot n).doubles = (c.slot n).doubles) : d.FlagTrue r ↔ c.FlagTrue r := by
  simp only [FlagTrue, h.order, hr, Option.some.injEq, forall_eq', hd, h.worth_eq]

/-! ## Writing ranks -/

/-- Writes the position of the reduced node of a rank into its place. -/
def recordRank (c : Circuit) (r : ℕ) : Circuit :=
  match c.order[r]? with
  | some n => c.setRank n (some r)
  | none => c

theorem renumber_eq (start : ℕ) (c : Circuit) :
    c.renumber start = (List.range' start (c.order.size - start)).foldl recordRank c := rfl

theorem recordRank_order : (c.recordRank r).order = c.order := by
  unfold recordRank
  split <;> rfl

theorem setRank_slotAt (n : Node) (k : Option ℕ) (i : ℕ) : (c.setRank n k).slotAt i =
    if n.index = i ∧ i < c.slots.size then { c.slotAt i with rank := k } else c.slotAt i :=
  c.slotAt_modifySlot n.index i _

theorem setRank_sameNodes (n : Node) (k : Option ℕ) : c.SameNodes (c.setRank n k) := by
  have hslot := fun i => setRank_slotAt (c := c) n k i
  refine ⟨rfl, rfl, rfl, rfl, rfl, by simp [setRank, modifySlot], fun i => ?_, fun i => ?_, fun i => ?_⟩
  all_goals
    rw [hslot]
    split_ifs <;> rfl

theorem recordRank_sameNodes : c.SameNodes (c.recordRank r) := by
  unfold recordRank
  split
  · exact setRank_sameNodes _ _
  · exact .refl c

theorem foldl_recordRank_order (l : List ℕ) : (l.foldl recordRank c).order = c.order := by
  induction l generalizing c with
  | nil => rfl
  | cons s l ih => rw [List.foldl_cons, ih, recordRank_order]

theorem foldl_recordRank_sameNodes (l : List ℕ) : c.SameNodes (l.foldl recordRank c) := by
  induction l generalizing c with
  | nil => exact .refl c
  | cons s l ih => exact recordRank_sameNodes.trans ih

theorem recordRank_slotAt_of_ne (h : ∀ m, c.order[r]? = some m → m.index ≠ i) :
    (c.recordRank r).slotAt i = c.slotAt i := by
  unfold recordRank
  split
  · next m hm => rw [setRank_slotAt, if_neg fun hi => h m hm hi.1]
  · rfl

theorem recordRank_slotAt (hr : c.order[r]? = some m) (hm : m.index < c.slots.size) :
    (c.recordRank r).slotAt m.index = { c.slotAt m.index with rank := some r } := by
  unfold recordRank
  rw [hr, setRank_slotAt, if_pos ⟨rfl, hm⟩]

theorem foldl_recordRank_of_ne {l : List ℕ} (h : ∀ r ∈ l, ∀ m, c.order[r]? = some m → m.index ≠ i) :
    (l.foldl recordRank c).slotAt i = c.slotAt i := by
  induction l generalizing c with
  | nil => rfl
  | cons s l ih =>
    rw [List.foldl_cons, ih fun r hr m hm => h r (by simp [hr]) m (by rwa [recordRank_order] at hm),
      recordRank_slotAt_of_ne (h s (by simp))]

/-- A place that one of the ranks leads to gets this rank. -/
theorem foldl_recordRank_of_mem {l : List ℕ} (hr : c.order[r]? = some m) (hm : m.index < c.slots.size) (hmem : r ∈ l)
    (huniq : ∀ s ∈ l, ∀ k, c.order[s]? = some k → k.index = m.index → s = r) :
    (l.foldl recordRank c).slotAt m.index = { c.slotAt m.index with rank := some r } := by
  induction l generalizing c with
  | nil => simp at hmem
  | cons s l ih =>
    rw [List.foldl_cons]
    have hother : ∀ t ∈ l, ∀ k, (c.recordRank s).order[t]? = some k → k.index = m.index → t = r := fun t ht k hk =>
      huniq t (by simp [ht]) k (by rwa [recordRank_order] at hk)
    by_cases hl : r ∈ l
    · rw [ih (by rwa [recordRank_order]) (by rwa [recordRank_sameNodes.size]) hl hother]
      by_cases hs : s = r
      · rw [hs, recordRank_slotAt hr hm]
      · rw [recordRank_slotAt_of_ne fun k hk hi => hs (huniq s (by simp) k hk hi)]
    · obtain rfl := (List.mem_cons.1 hmem).resolve_right hl
      rw [foldl_recordRank_of_ne fun t ht k hk hi => hl (hother t ht k hk hi ▸ ht), recordRank_slotAt hr hm]

theorem foldl_recordRank_doubles (l : List ℕ) (i : ℕ) :
    ((l.foldl recordRank c).slotAt i).doubles = (c.slotAt i).doubles := by
  induction l generalizing c with
  | nil => rfl
  | cons s l ih =>
    rw [List.foldl_cons, ih, recordRank]
    split
    · rw [setRank_slotAt]
      split_ifs <;> rfl
    · rfl

/-! ## Placing a node -/

/-- The circuit with a node entered in the order, before the ranks are written. -/
def enter (c : Circuit) (n : Node) (p : ℕ) : Circuit := { c with order := c.order.insertIdxIfInBounds p n }

theorem place_eq : c.place n p = (c.enter n p).renumber p := rfl

theorem enter_order (hp : p ≤ c.order.size) (k : ℕ) : (c.enter n p).order[k]? =
    if k < p then c.order[k]? else if k = p then some n else c.order[k - 1]? := by
  have : (c.enter n p).order = c.order.insertIdx p n hp := by simp [enter, Array.insertIdxIfInBounds, hp]
  rw [this, Array.getElem?_insertIdx hp]
  split_ifs <;> first | rfl | omega

theorem place_order (hp : p ≤ c.order.size) (k : ℕ) : (c.place n p).order[k]? =
    if k < p then c.order[k]? else if k = p then some n else c.order[k - 1]? := by
  rw [place_eq, renumber_eq, foldl_recordRank_order, enter_order hp]

theorem place_order_of_lt (hp : p ≤ c.order.size) (hr : r < p) : (c.place n p).order[r]? = c.order[r]? := by
  rw [place_order hp, if_pos hr]

theorem place_order_self (hp : p ≤ c.order.size) : (c.place n p).order[p]? = some n := by
  rw [place_order hp, if_neg (lt_irrefl p), if_pos rfl]

theorem place_order_succ (hp : p ≤ c.order.size) (hr : p ≤ r) : (c.place n p).order[r + 1]? = c.order[r]? := by
  rw [place_order hp, if_neg (by omega), if_neg (by omega), Nat.add_sub_cancel]

theorem place_sameNodes : c.SameNodes (c.place n p) := by
  rw [place_eq, renumber_eq]
  have henter : c.SameNodes (c.enter n p) :=
    ⟨rfl, rfl, rfl, rfl, rfl, rfl, fun _ => rfl, fun _ => rfl, fun _ => rfl⟩
  exact henter.trans (foldl_recordRank_sameNodes _)

theorem place_doubles (m : Node) : ((c.place n p).slot m).doubles = (c.slot m).doubles := by
  rw [place_eq, renumber_eq, slot, foldl_recordRank_doubles]
  rfl

/-- What stands in the order after a node has been placed. -/
theorem place_order_cases (hp : p ≤ c.order.size) (h : (c.place n p).order[r]? = some m) :
    m = n ∧ r = p ∨ r < p ∧ c.order[r]? = some m ∨ p < r ∧ c.order[r - 1]? = some m := by
  rw [place_order hp] at h
  split_ifs at h with h1 h2
  · exact .inr (.inl ⟨h1, h⟩)
  · exact .inl ⟨(Option.some.inj h).symm, h2⟩
  · exact .inr (.inr ⟨by omega, h⟩)

theorem Linked.place_live (hl : c.Linked) (hn : c.Pending n) (hp : p ≤ c.order.size)
    (hm : (c.place n p).order[r]? = some m) : c.Live m := by
  rcases place_order_cases hp hm with ⟨rfl, -⟩ | ⟨-, hm⟩ | ⟨-, hm⟩
  · exact hn.1
  · exact (hl.reduced_of_getElem? hm).1
  · exact (hl.reduced_of_getElem? hm).1

/-- After a node has been placed, still no node stands at two ranks. -/
theorem Linked.place_rank_unique (hl : c.Linked) (hn : c.Pending n) (hp : p ≤ c.order.size)
    (hr : (c.place n p).order[r]? = some m) (hs : (c.place n p).order[s]? = some m) : r = s := by
  have hfresh : ∀ t : ℕ, c.order[t]? ≠ some n := fun t ht => hn.not_reduced (hl.reduced_of_getElem? ht)
  rcases place_order_cases hp hr with ⟨rfl, rfl⟩ | ⟨h1, hr⟩ | ⟨h1, hr⟩ <;>
    rcases place_order_cases hp hs with ⟨hm, h2⟩ | ⟨h2, hs⟩ | ⟨h2, hs⟩
  · exact h2.symm
  · exact absurd hs (hfresh _)
  · exact absurd hs (hfresh _)
  · exact absurd (hm ▸ hr) (hfresh _)
  · exact hl.rank_unique hr hs
  · have := hl.rank_unique hr hs
    omega
  · exact absurd (hm ▸ hr) (hfresh _)
  · have := hl.rank_unique hr hs
    omega
  · have := hl.rank_unique hr hs
    omega

theorem enter_order_place (hp : p ≤ c.order.size) : (c.enter n p).order[r]? = (c.place n p).order[r]? := by
  rw [enter_order hp, place_order hp]

/-- A node that does not stand behind the place keeps its rank. -/
theorem Linked.place_rank?_of_forall_ne (hl : c.Linked) (hn : c.Pending n) (hp : p ≤ c.order.size) (hm : c.Live m)
    (hnot : ∀ s : ℕ, p ≤ s → (c.place n p).order[s]? ≠ some m) : (c.place n p).rank? m = c.rank? m := by
  rw [rank?, slot, place_eq, renumber_eq, foldl_recordRank_of_ne fun s hs j hj hi => ?_]
  · rfl
  · rw [enter_order_place hp] at hj
    obtain rfl := (hl.place_live hn hp hj).eq_of_index hm hi
    exact hnot s (List.mem_range'_1.1 hs).1 hj

theorem Linked.place_rank?_of_getElem? (hl : c.Linked) (hn : c.Pending n) (hp : p ≤ c.order.size)
    (hm : (c.place n p).order[r]? = some m) : (c.place n p).rank? m = some r := by
  have hlive := hl.place_live hn hp hm
  by_cases hr : p ≤ r
  · have henter := (enter_order_place hp).trans hm
    have hsize : r < (c.enter n p).order.size := (Array.getElem?_eq_some_iff.1 henter).1
    rw [rank?, slot, place_eq, renumber_eq, foldl_recordRank_of_mem henter hlive.index_lt
      (List.mem_range'_1.2 ⟨hr, by omega⟩) fun t _ j hj hi => ?_]
    rw [enter_order_place hp] at hj
    obtain rfl := (hl.place_live hn hp hj).eq_of_index hlive hi
    exact hl.place_rank_unique hn hp hj hm
  · have hr : r < p := by omega
    rw [hl.place_rank?_of_forall_ne hn hp hlive fun t ht hj => by
      have := hl.place_rank_unique hn hp hj hm
      omega]
    rw [place_order_of_lt hp hr] at hm
    exact hl.rank?_of_getElem? hm

theorem Linked.place_ranked (hl : c.Linked) (hn : c.Pending n) (hp : p ≤ c.order.size) (r : ℕ) (m : Node) :
    (c.place n p).order[r]? = some m ↔ (c.place n p).Live m ∧ (c.place n p).rank? m = some r := by
  constructor
  · intro h
    exact ⟨place_sameNodes.live_iff.2 (hl.place_live hn hp h), hl.place_rank?_of_getElem? hn hp h⟩
  · rintro ⟨hm, hr⟩
    have hm := place_sameNodes.live_iff.1 hm
    by_cases hin : ∃ s : ℕ, (c.place n p).order[s]? = some m
    · obtain ⟨s, hs⟩ := hin
      rwa [Option.some.inj ((hl.place_rank?_of_getElem? hn hp hs).symm.trans hr)] at hs
    · rw [hl.place_rank?_of_forall_ne hn hp hm fun s _ hs => hin ⟨s, hs⟩] at hr
      have hr := hl.getElem?_of_rank? hm hr
      by_cases hrp : r < p
      · exact absurd ⟨r, (place_order_of_lt hp hrp).trans hr⟩ hin
      · exact absurd ⟨r + 1, (place_order_succ hp (by omega)).trans hr⟩ hin

theorem Linked.place_reduced_iff (hl : c.Linked) (hn : c.Pending n) (hp : p ≤ c.order.size) :
    (c.place n p).Reduced m ↔ c.Reduced m ∨ m = n := by
  constructor
  · intro hm
    obtain ⟨r, hr⟩ := hm.exists_rank
    rcases place_order_cases hp ((hl.place_ranked hn hp r m).2 ⟨hm.1, hr⟩) with ⟨rfl, -⟩ | ⟨-, hm⟩ | ⟨-, hm⟩
    · exact .inr rfl
    · exact .inl (hl.reduced_of_getElem? hm)
    · exact .inl (hl.reduced_of_getElem? hm)
  · intro hm
    have hin : ∃ r : ℕ, (c.place n p).order[r]? = some m := by
      rcases hm with hm | rfl
      · obtain ⟨r, hr⟩ := hl.exists_getElem? hm
        by_cases hrp : r < p
        · exact ⟨r, (place_order_of_lt hp hrp).trans hr⟩
        · exact ⟨r + 1, (place_order_succ hp (by omega)).trans hr⟩
      · exact ⟨p, place_order_self hp⟩
    obtain ⟨r, hr⟩ := hin
    obtain ⟨hl, hr⟩ := (hl.place_ranked hn hp r m).1 hr
    exact ⟨hl, by simp [hr]⟩

/-- A pending node whose successors are reduced may be placed anywhere, as far as names and ranks are concerned. -/
theorem Linked.place (hl : c.Linked) (hn : c.Pending n) (hp : p ≤ c.order.size)
    (hs : ∀ m, c.Below m n → c.Reduced m) : (c.place n p).Linked where
  exponents := place_sameNodes.exponents hl
  markings := place_sameNodes.markings hl
  acyclic := place_sameNodes.acyclic hl
  ranked := hl.place_ranked hn hp
  unranked := by
    intro i hi
    rw [place_sameNodes.live] at hi
    rw [place_eq, renumber_eq, foldl_recordRank_of_ne fun s _ k hk he => ?_]
    · exact hl.unranked i hi
    · have hk : (c.place n p).order[s]? = some k := by rwa [place_order hp, ← enter_order hp]
      have hlive := place_sameNodes.live_iff.1 ((hl.place_ranked hn hp s k).1 hk).1
      have := hlive.2.1
      rw [slot, he, hi] at this
      cases this
  closed := by
    intro k hk m hm
    rw [place_sameNodes.below_eq] at hm
    rw [hl.place_reduced_iff hn hp] at hk ⊢
    rcases hk with hk | rfl
    · exact .inl (hl.closed k hk m hm)
    · exact .inl (hs m hm)

/-- A legal node may be placed where the nodes below are worth less and the nodes above are worth more. -/
theorem Graded.place (hg : c.Graded) (hl : c.Linked) (hn : c.Pending n) (hp : p ≤ c.order.size) (hlegal : c.Legal n)
    (hbelow : ∀ r m, r < p → c.order[r]? = some m → c.worth m < c.worth n)
    (habove : ∀ r m, p ≤ r → c.order[r]? = some m → c.worth n < c.worth m) : (c.place n p).Graded where
  legal := fun m hm => by
    rcases (hl.place_reduced_iff hn hp).1 hm with hm | rfl
    · exact place_sameNodes.legal (hg.legal m hm)
    · exact place_sameNodes.legal hlegal
  increasing := by
    rw [pairwise_order_iff, place_sameNodes.worth_eq]
    intro i j k m hij hk hm
    rcases place_order_cases hp hk with ⟨rfl, h1⟩ | ⟨h1, hk⟩ | ⟨h1, hk⟩ <;>
      rcases place_order_cases hp hm with ⟨hm', h2⟩ | ⟨h2, hm⟩ | ⟨h2, hm⟩
    · omega
    · omega
    · exact habove _ m (by omega) hm
    · exact hm' ▸ hbelow i k h1 hk
    · exact hg.worth_lt hk hm hij
    · exact hg.worth_lt hk hm (by omega)
    · omega
    · omega
    · exact hg.worth_lt hk hm (by omega)

/-- Away from the new rank the flags stay true. -/
theorem FlagTrue.place_of_lt (hf : c.FlagTrue r) (hp : p ≤ c.order.size) (hr : r + 1 < p) :
    (c.place n p).FlagTrue r := by
  intro m hm
  rw [place_order_of_lt hp (by omega)] at hm
  rw [place_doubles, place_order_of_lt hp hr, place_sameNodes.worth_eq]
  exact hf m hm

theorem FlagTrue.place_of_gt (hf : c.FlagTrue r) (hp : p ≤ c.order.size) (hr : p ≤ r) :
    (c.place n p).FlagTrue (r + 1) := by
  intro m hm
  rw [place_order_succ hp hr] at hm
  rw [place_doubles, place_order_succ hp (by omega), place_sameNodes.worth_eq]
  exact hf m hm

/-- After a node has been placed, all flags but those of its rank and of the rank below are true. -/
theorem Consistent.place_flagTrue (h : c.Consistent) (hp : p ≤ c.order.size) (hr : r ≠ p) (hr' : r + 1 ≠ p) :
    (c.place n p).FlagTrue r := by
  rcases Nat.lt_or_ge (r + 1) p with hlt | hge
  · exact (h.flags r).place_of_lt hp hlt
  · obtain ⟨k, rfl⟩ : ∃ k, r = k + 1 := ⟨r - 1, by omega⟩
    exact (h.flags k).place_of_gt hp (by omega)

/-! ## Refreshing flags -/

theorem setDoubles_slotAt (n : Node) (b : Bool) (i : ℕ) : (c.setDoubles n b).slotAt i =
    if n.index = i ∧ i < c.slots.size then { c.slotAt i with doubles := b } else c.slotAt i :=
  c.slotAt_modifySlot n.index i _

theorem setDoubles_sameRanks (n : Node) (b : Bool) : c.SameRanks (c.setDoubles n b) := by
  have hslot := fun i => setDoubles_slotAt (c := c) n b i
  refine ⟨⟨rfl, rfl, rfl, rfl, rfl, by simp [setDoubles, modifySlot], fun i => ?_, fun i => ?_, fun i => ?_⟩, rfl,
    fun i => ?_⟩
  all_goals
    rw [hslot]
    split_ifs <;> rfl

theorem Live.setDoubles_doubles (hn : c.Live n) (b : Bool) : ((c.setDoubles n b).slot n).doubles = b := by
  rw [slot, setDoubles_slotAt, if_pos ⟨rfl, hn.index_lt⟩]

theorem setDoubles_doubles_of_ne (hn : c.Live n) (hm : c.Live m) (hne : m ≠ n) (b : Bool) :
    ((c.setDoubles n b).slot m).doubles = (c.slot m).doubles := by
  rw [slot, setDoubles_slotAt, if_neg fun h => hne (hm.eq_of_index hn h.1.symm)]
  rfl

theorem Linked.setDoubles_flagTrue_of_ne (hl : c.Linked) (hr : c.order[r]? = some n) (b : Bool) (hs : s ≠ r) :
    (c.setDoubles n b).FlagTrue s ↔ c.FlagTrue s := by
  cases hm : c.order[s]? with
  | none => simp [FlagTrue, (setDoubles_sameRanks n b).order, hm]
  | some m =>
    have hn := hl.reduced_of_getElem? hr
    have hne : m ≠ n := fun he => hs (hl.rank_unique hm (he ▸ hr))
    exact (setDoubles_sameRanks n b).flagTrue_iff hm
      (setDoubles_doubles_of_ne hn.1 (hl.reduced_of_getElem? hm).1 hne b)

theorem Linked.setDoubles_flagTrue (hl : c.Linked) (hr : c.order[r]? = some n) {b : Bool}
    (hb : b = true ↔ ∃ m, c.order[r + 1]? = some m ∧ c.worth m = 2 * c.worth n) : (c.setDoubles n b).FlagTrue r := by
  intro m hm
  rw [(setDoubles_sameRanks n b).order, hr] at hm
  obtain rfl := Option.some.inj hm
  rw [(hl.reduced_of_getElem? hr).1.setDoubles_doubles, (setDoubles_sameRanks n b).order,
    (setDoubles_sameRanks n b).worth_eq]
  exact hb

/-- The comparison that a flag is refreshed by tells the truth, if the flags that it reads do. -/
theorem Linked.isDoubled_iff (hl : c.Linked) (hg : c.Graded) (hr : c.order[r]? = some n)
    (hf : ∀ m, c.order[r + 1]? = some m → ∀ s, c.Mentioned (c.successors m) (c.successors n) 1 s →
      c.Mentioned (c.successors m) (c.successors n) 1 (s + 1) → c.FlagTrue s) :
    c.isDoubled n r = true ↔ ∃ m, c.order[r + 1]? = some m ∧ c.worth m = 2 * c.worth n := by
  unfold isDoubled
  cases hm : c.order[r + 1]? with
  | none => simp
  | some m =>
    have hn := hl.reduced_of_getElem? hr
    have hm' := hl.reduced_of_getElem? hm
    simp only [compareTerms_of_flags hl hg (hl.exponents m hm'.1) (hl.exponents n hn.1) (hl.closed m hm')
      (hl.closed n hn) (show |(1 : ℤ)| ≤ 1 by simp) (hf m hm), Option.some.injEq, exists_eq_left', decide_eq_true_eq]
    rw [worth_eq_two_mul_iff (hl.acc hm'.1) (hl.acc hn.1), compare_eq_iff_eq, Int.cast_one]

theorem refreshDoubles_sameRanks : c.SameRanks (c.refreshDoubles n) := by
  unfold refreshDoubles
  split
  · exact setDoubles_sameRanks _ _
  · exact .refl c

theorem Linked.refreshDoubles_eq (hl : c.Linked) (hr : c.order[r]? = some n) :
    c.refreshDoubles n = c.setDoubles n (c.isDoubled n r) := by
  rw [refreshDoubles, hl.rank?_of_getElem? hr]

theorem Linked.refreshDoubles_flagTrue_of_ne (hl : c.Linked) (hr : c.order[r]? = some n) (hs : s ≠ r) :
    (c.refreshDoubles n).FlagTrue s ↔ c.FlagTrue s := by
  rw [hl.refreshDoubles_eq hr]
  exact hl.setDoubles_flagTrue_of_ne hr _ hs

/-- A node of the order that no exponent of a reduced node holds is not mentioned when two of these are compared. -/
theorem Linked.ne_of_mentioned (hl : c.Linked) (hr : c.order[p]? = some n) (hp : 0 < p)
    (hun : ∀ m, c.Reduced m → ¬ c.Below n m) {j k : Node} (hj : c.Reduced j) (hk : c.Reduced k) {bias : ℤ}
    (h : c.Mentioned (c.successors j) (c.successors k) bias s) : s ≠ p := by
  have hrank : c.rankOf n = p := by rw [rankOf, hl.rank?_of_getElem? hr, Option.getD_some]
  have hexp : ∀ {m}, c.Reduced m → s ∈ (Terms.nodes (c.successors m)).map c.rankOf → s ≠ p := by
    rintro m hm hs rfl
    obtain ⟨q, hq, he⟩ := List.mem_map.1 hs
    rw [← hrank] at he
    rw [hl.rankOf_inj (hl.closed m hm q hq) (hl.reduced_of_getElem? hr) he] at hq
    exact hun m hm hq
  rcases h with h | h | h
  · exact hexp hj h
  · exact hexp hk h
  · exact fun he => by omega

/-- The flag of a rank becomes true by refreshing it, if the flags are true of the ranks other than `p`, where a node
stands that no exponent of a reduced node holds, and the one below `p`. -/
theorem Linked.refreshDoubles_flagTrue (hl : c.Linked) (hg : c.Graded) (hr : c.order[r]? = some m)
    (hn : c.order[p]? = some n) (hun : ∀ m, c.Reduced m → ¬ c.Below n m)
    (hp : 0 < p ∨ c.order[r + 1]? = none) (hf : ∀ s, s ≠ p → s + 1 ≠ p → c.FlagTrue s) :
    (c.refreshDoubles m).FlagTrue r := by
  rw [hl.refreshDoubles_eq hr]
  refine hl.setDoubles_flagTrue hr (hl.isDoubled_iff hg hr fun k hk s hs hs' => ?_)
  rcases hp with hp | hp
  · have hm := hl.reduced_of_getElem? hr
    have hk := hl.reduced_of_getElem? hk
    exact hf s (hl.ne_of_mentioned hn hp hun hk hm hs) (hl.ne_of_mentioned hn hp hun hk hm hs')
  · rw [hp] at hk
    cases hk

/-- After a node has been placed above another one of half its worth, refreshing its own flag is enough. -/
theorem Linked.consistent_refreshDoubles (hl : c.Linked) (hg : c.Graded) (hn : c.order[p]? = some n)
    (hun : ∀ m, c.Reduced m → ¬ c.Below n m) (hp : 0 < p ∨ c.order[p + 1]? = none)
    (hf : ∀ s, s ≠ p → c.FlagTrue s) : (c.refreshDoubles n).Consistent where
  toLinked := refreshDoubles_sameRanks.linked hl
  toGraded := refreshDoubles_sameRanks.graded hg
  flags := fun s => by
    by_cases hs : s = p
    · rw [hs]
      exact hl.refreshDoubles_flagTrue hg hn hn hun hp fun s hs _ => hf s hs
    · exact (hl.refreshDoubles_flagTrue_of_ne hn hs).2 (hf s hs)

theorem refreshBelow_sameRanks : c.SameRanks (c.refreshBelow p) := by
  unfold refreshBelow
  split
  · exact .refl c
  · split
    · exact refreshDoubles_sameRanks
    · exact .refl c

/-- After a node has been placed, refreshing the flags of its rank and of the rank below is enough. -/
theorem Linked.consistent_refreshed (hl : c.Linked) (hg : c.Graded) (hn : c.order[p]? = some n)
    (hun : ∀ m, c.Reduced m → ¬ c.Below n m) (hp : 0 < p ∨ c.order[p + 1]? = none)
    (hf : ∀ s, s ≠ p → s + 1 ≠ p → c.FlagTrue s) : ((c.refreshBelow p).refreshDoubles n).Consistent := by
  have hsame := refreshBelow_sameRanks (c := c) (p := p)
  refine (hsame.linked hl).consistent_refreshDoubles (hsame.graded hg) (p := p) (by rwa [hsame.order])
    (fun m hm => by rw [hsame.below_eq]; exact hun m (hsame.reduced_iff.1 hm)) (by rwa [hsame.order]) fun s hs => ?_
  cases p with
  | zero => exact hf s hs (by omega)
  | succ r =>
    obtain ⟨m, hm⟩ : ∃ m, c.order[r]? = some m :=
      ⟨_, Array.getElem?_eq_getElem ((Nat.lt_succ_self r).trans (Array.getElem?_eq_some_iff.1 hn).1)⟩
    rw [refreshBelow, hm]
    by_cases hsr : s = r
    · rw [hsr]
      exact hl.refreshDoubles_flagTrue hg hm hn hun (.inl (Nat.succ_pos r)) hf
    · exact (hl.refreshDoubles_flagTrue_of_ne hm hsr).2 (hf s hs (by omega))

end PowerTower.Circuit
