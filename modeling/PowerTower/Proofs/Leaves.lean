import Mathlib
import PowerTower.Proofs.Cloning
import PowerTower.Proofs.Veil

/-!
# Leaves

A leaf is a pending node whose successors are reduced. A frontier of leaves is reduced in the order in which it is
given, and a leaf that is mentioned by one marking only takes nothing with it when it is merged: the marking gets the
equal node in its stead, and nothing carries where that one is not mentioned yet.

* `Traversal.discover_of_leaves`, `Traversal.dependencyOrder_of_leaves` : walks over nodes that lead to no others;
* `Leaves`, `Leaves.run_reduceMarkings` : the reduction of a marking of leaves goes through them one by one;
* `WellFormed.holds_iff_of_new` : when one marking is all that mentions a node;
* `Consistent.search_of_worth` : a worth that is there is found where it is;
* `Folded`, `WellFormed.reduceNode_folded` : what merging such a leaf leaves behind;
* `Placed`, `WellFormed.reduceNode_placed` : what becomes of a marking of one leaf, whether it is merged or enters the
  order.
-/

namespace PowerTower

/-! ## Walks that lead nowhere -/

namespace Traversal

variable {α : Type} [DecidableEq α] [Hashable α] {next : α → List α} {unseen members : Std.HashSet α} {p : Progress α}
  {l rest stack : List α}

theorem discover_append_of_not_mem (h : ∀ m ∈ l, m ∉ unseen) :
    discover next unseen (l ++ rest) = discover next unseen rest := by
  induction l with
  | nil => rfl
  | cons m l ih =>
    obtain ⟨hm, hl⟩ := List.forall_mem_cons.1 h
    rw [List.cons_append, discover, if_neg hm, ih hl]

/-- Unseen nodes that lead to no unseen node are discovered as they are given. -/
theorem discover_of_leaves (hnodup : stack.Nodup) (hunseen : ∀ n ∈ stack, n ∈ unseen)
    (hnext : ∀ n ∈ stack, ∀ m ∈ next n, m ∉ unseen) : discover next unseen stack = stack := by
  induction stack generalizing unseen with
  | nil => rw [discover]
  | cons n rest ih =>
    obtain ⟨hn, hrest⟩ := List.nodup_cons.1 hnodup
    have herase : ∀ {m}, m ∈ unseen.erase n ↔ n ≠ m ∧ m ∈ unseen := by simp [Std.HashSet.mem_erase]
    rw [discover, if_pos (hunseen n (by simp)), discover_append_of_not_mem fun m hm hmem =>
      hnext n (by simp) m hm (herase.1 hmem).2, ih hrest]
    · exact fun m hm => herase.2 ⟨fun heq => hn (heq ▸ hm), hunseen m (by simp [hm])⟩
    · exact fun m hm k hk hmem => hnext m (by simp [hm]) k hk (herase.1 hmem).2

/-- Members without successors are put in order as they are given. -/
theorem settle_of_leaves (hnodup : l.Nodup) (hmem : ∀ n ∈ l, n ∈ members) (hnext : ∀ n ∈ l, next n = [])
    (hnew : ∀ n ∈ l, n ∉ p.finished) :
    ∃ q, settle next members [] p l = .ok q ∧ q.sorted.toList = p.sorted.toList ++ l := by
  induction l generalizing p with
  | nil => exact ⟨p, by rw [settle], by simp⟩
  | cons n rest ih =>
    obtain ⟨hn, hrest⟩ := List.nodup_cons.1 hnodup
    have hlater : ∀ m ∈ rest, m ∉ (p.finish n).finished := fun m hm hmem => by
      rcases Std.HashSet.mem_insert.1 hmem with heq | hmem
      · exact hn (beq_iff_eq.1 heq ▸ hm)
      · exact hnew m (by simp [hm]) hmem
    obtain ⟨q, hq, hsorted⟩ := ih hrest (fun m hm => hmem m (by simp [hm])) (fun m hm => hnext m (by simp [hm])) hlater
    refine ⟨q, ?_, ?_⟩
    · rw [settle, if_neg (hnew n (by simp)), if_pos (hmem n (by simp)), if_neg List.not_mem_nil,
        hnext n (by simp), settle]
      exact hq
    · rw [hsorted, Progress.finish, Array.toList_push, List.append_assoc]
      rfl

theorem dependencyOrder_of_leaves (hnodup : l.Nodup) (hnext : ∀ n ∈ l, next n = []) :
    dependencyOrder next l = .ok l := by
  have hmem : ∀ n ∈ l, n ∈ Std.HashSet.ofList l := fun n hn => mem_ofList_iff.2 hn
  obtain ⟨q, hq, hsorted⟩ := settle_of_leaves (p := {}) hnodup hmem hnext (by simp)
  rw [dependencyOrder, orderWithin, hq]
  exact congrArg _ (hsorted.trans (List.nil_append l))

end Traversal

namespace Circuit

open Traversal

variable {c d : Circuit} {k : Marking} {m n t u : Node} {ns : List Node} {ts rest : List Term} {s : Sign} {i : ℕ}
  {holders : List Holder}

/-! ## Frontiers of leaves -/

/-- Pending nodes, each of them once, whose successors are reduced. -/
structure Leaves (c : Circuit) (ns : List Node) : Prop where
  nodup : ns.Nodup
  pending : ∀ n ∈ ns, c.Pending n
  below : ∀ n ∈ ns, ∀ m, c.Below m n → c.Reduced m

theorem Pending.isReducedNode_eq (hn : c.Pending n) : c.isReducedNode n = false := by
  rw [isReducedNode, hn.2]
  rfl

/-- Nothing but the leaves is pending and reached from them. -/
theorem Leaves.pendingReachable_eq (h : Leaves c ns) : c.pendingReachable ns = ns := by
  unfold pendingReachable
  split_ifs with hall
  · refine (List.eq_nil_iff_forall_not_mem.2 fun n hn => ?_).symm
    have hreduced := List.all_eq_true.1 hall n hn
    rw [(h.pending n hn).isReducedNode_eq] at hreduced
    cases hreduced
  · refine discover_of_leaves h.nodup (fun n hn => ?_) fun n hn m hm hmem => ?_
    · rw [mem_ofList_iff, List.mem_filter]
      exact ⟨List.mem_append_left _ hn, by rw [(h.pending n hn).isReducedNode_eq]; rfl⟩
    · have hreduced : c.isReducedNode m = true := (h.below n hn m hm).2
      rw [mem_ofList_iff, List.mem_filter, hreduced] at hmem
      cases hmem.2

theorem Leaves.dependencyOrder_eq (h : Leaves c ns) : c.dependencyOrder ns = .ok ns := by
  have hnone : ∀ n ∈ ns, c.pendingSuccessors n = [] := fun n hn => by
    refine List.filter_eq_nil_iff.2 fun m hm => ?_
    have hreduced : c.isReducedNode m = true := (h.below n hn m hm).2
    simp [hreduced]
  rw [Circuit.dependencyOrder, dependencyOrder_of_leaves h.nodup hnone]

/-- The leaves of a marking are reduced one after the other, as they stand there. -/
theorem Leaves.run_reduceMarkings (h : Leaves c (c.nodesOf k)) (hown : k.circuit = c.id)
    (hrun : ((c.nodesOf k).forM (reduceNode (c.referrers (c.nodesOf k)))).run c = (.ok (), d)) (hd : d.Consistent) :
    (reduceMarkings [k]).run c = (.ok (), d) := by
  have hroots : [k].flatMap c.nodesOf = c.nodesOf k := List.flatMap_singleton ..
  rw [run_reduceMarkings_of_own (by simpa using hown), hroots, h.pendingReachable_eq, runReduce,
    Call.run_bind_ok ((run_reduceFrontier h.dependencyOrder_eq).trans hrun), Call.run_ask,
      check_eq_ok_iff_consistent.2 hd,
    ite_self]

/-- A new node is mentioned by one marking only, if no other marking has changed and all pending nodes depend on nodes
that were there before. -/
theorem WellFormed.holds_iff_of_new (hc : c.WellFormed) (hu : ¬ c.Live u)
    (hbelow : ∀ p, d.Pending p → ∀ b, d.Below b p → c.Live b) (hcells : ∀ j, j ≠ i → d.cellAt j = c.cellAt j)
    (hi : 0 < (d.cellAt i).handles) (hmem : u ∈ Terms.nodes (d.cellAt i).terms) (holder : Holder) :
    d.Holds u holder ↔ holder = .marking i := by
  constructor
  · intro hholds
    cases holder with
    | node p => exact absurd (hbelow p hholds.1 u hholds.2) hu
    | marking j =>
      obtain ⟨hj, hmem⟩ := hholds
      by_contra hne
      rw [hcells j fun heq => hne (congrArg Holder.marking heq)] at hj hmem
      exact hu ((hc.markings j hj).live u hmem)
  · rintro rfl
    exact ⟨hi, hmem⟩

/-! ## One leaf -/

theorem worth_eq_of_exponent_eq (hm : Acc c.Below m) (hn : Acc c.Below n)
    (h : c.termsWorth (c.successors m) = c.termsWorth (c.successors n)) : c.worth m = c.worth n := by
  rw [worth_eq hm, worth_eq hn, h]

/-- The node of a worth is found by any exponent of that worth. -/
theorem Consistent.search_of_worth (hc : c.Consistent) (hts : c.Proper ts) (hr : ∀ n ∈ Terms.nodes ts, c.Reduced n)
    (ht : c.Reduced t) (heq : c.termsWorth (c.successors t) = c.termsWorth ts) :
    ∃ r, c.search ts = .ok (.taken r) ∧ c.order[r]? = some t := by
  rcases hc.search hts hr with ⟨r, n, hsearch, hn, hsum⟩ | ⟨r, -, -, hbelow, habove⟩
  · have hreduced := hc.reduced_of_getElem? hn
    have hworth : c.worth n = c.worth t :=
      worth_eq_of_exponent_eq (hc.acc hreduced.1) (hc.acc ht.1) (hsum.trans heq.symm)
    exact ⟨r, hsearch, hc.eq_of_worth_eq hc.toLinked hreduced ht hworth ▸ hn⟩
  · obtain ⟨j, hj⟩ := hc.exists_getElem? ht
    rcases Nat.lt_or_ge j r with hlt | hge
    · exact absurd heq (hbelow j t hlt hj).ne
    · exact absurd heq (habove j t hge hj).ne'

theorem setTerms_setTerms (c : Circuit) (i : ℕ) (ts us : List Term) :
    (c.setTerms i ts).setTerms i us = c.setTerms i us := by
  have hcells : ∀ cells : Array Cell, (cells.modify i fun k => { k with terms := ts }).modify i
      (fun k => { k with terms := us }) = cells.modify i fun k => { k with terms := us } := fun cells => by
    refine Array.ext_getElem? fun j => ?_
    rw [Array.getElem?_modify, Array.getElem?_modify, Array.getElem?_modify]
    split_ifs <;> cases cells[j]? <;> rfl
  exact congrArg (fun cells => { c with cells }) (hcells c.cells)

/-- Where the survivor is not mentioned yet it is entered as it is. -/
theorem redirect_marking (hterms : (c.cellAt i).terms = (u, s) :: rest)
    (ht : t ∉ Terms.nodes rest) : redirect u t c (.marking i) = c.setTerms i (rest ++ [(t, s)]) := by
  have hdigit : Terms.digit? u (c.heldBy (.marking i)) = some s := by
    show Terms.digit? u (c.cellAt i).terms = _
    rw [hterms, Terms.digit?, if_pos rfl]
  have herase : Terms.erase u (c.heldBy (.marking i)) = rest := by
    show Terms.erase u (c.cellAt i).terms = _
    rw [hterms, Terms.erase, if_pos rfl]
  rw [redirect_of_digit?_eq_some hdigit, herase, absorb, absorbWith_of_none (Terms.digit?_eq_none_iff.2 ht)]
  exact setTerms_setTerms c i [] _

theorem foldl_redirect_of_clean (hholders : ∀ h ∈ holders, u ∉ Terms.nodes (c.heldBy h)) :
    holders.foldl (redirect u t) c = c := by
  induction holders with
  | nil => rfl
  | cons h holders ih =>
    obtain ⟨hh, hholders⟩ := List.forall_mem_cons.1 hholders
    rw [List.foldl_cons, redirect_of_digit?_eq_none (Terms.digit?_eq_none_iff.2 hh)]
    exact ih hholders

/-- The first time that the marking is listed it gets the survivor, and then it does not mention the leaf any more. -/
theorem merge_marking (hi : 0 < (c.cellAt i).handles) (hterms : (c.cellAt i).terms = (u, s) :: rest)
    (ht : t ∉ Terms.nodes rest) (hu : u ∉ Terms.nodes rest) (hne : u ≠ t)
    (hlisted : ∀ h, h ∈ holders ↔ h = .marking i) :
    c.merge u t holders = (c.setTerms i (rest ++ [(t, s)])).freeNode u := by
  cases holders with
  | nil => exact absurd ((hlisted _).2 rfl) List.not_mem_nil
  | cons h holders =>
    obtain rfl := (hlisted h).1 (by simp)
    rw [merge, List.foldl_cons, redirect_marking hterms ht, foldl_redirect_of_clean]
    intro h hh
    obtain rfl := (hlisted h).1 (by simp [hh])
    show u ∉ Terms.nodes ((c.setTerms i _).cellAt i).terms
    rw [setTerms_terms hi, if_pos rfl]
    simp [hu, hne]

/-- A leaf is gone, and a marking has other terms. -/
structure Folded (c : Circuit) (i : ℕ) (u : Node) (ts : List Term) (d : Circuit) : Prop extends WellFormed d where
  id : d.id = c.id
  config : d.config = c.config
  order : d.order = c.order
  live : ∀ n, d.Live n ↔ c.Live n ∧ n ≠ u
  slot : ∀ n, c.Live n → n ≠ u → d.slot n = c.slot n
  cells : ∀ j, j ≠ i → d.cellAt j = c.cellAt j
  handles : (d.cellAt i).handles = (c.cellAt i).handles
  terms : (d.cellAt i).terms = ts

/-- A leaf that stands first in a marking, and is mentioned by nothing else, is merged with the reduced node of its
worth, which takes the last place in the marking. -/
theorem WellFormed.reduceNode_folded (h : c.WellFormed) (hu : c.Pending u) (hb : ∀ m, c.Below m u → c.Reduced m)
    (ht : c.Reduced t) (hworth : c.termsWorth (c.successors t) = c.termsWorth (c.successors u))
    (hi : 0 < (c.cellAt i).handles) (hterms : (c.cellAt i).terms = (u, s) :: rest) (hnew : t ∉ Terms.nodes rest)
    (honly : ∀ h, c.Holds u h → h = .marking i) {table : Std.HashMap Node (Array Holder)}
    (hlisted : ∀ h, h ∈ listed table u ↔ h = .marking i) :
    ∃ d, (reduceNode table u).run c = (.ok (), d) ∧ Folded c i u (rest ++ [(t, s)]) d := by
  have hproper := h.exponents u hu.1
  have hu' : u ∉ Terms.nodes rest := by
    have hnodup := (h.markings i hi).nodup
    rw [hterms, Terms.nodes_cons, List.nodup_cons] at hnodup
    exact hnodup.1
  have hne : u ≠ t := fun heq => hu.not_reduced (heq ▸ ht)
  obtain ⟨r, hsearch, hr⟩ := h.search_of_worth hproper hb ht hworth
  have hholders : ∀ h ∈ listed table u, c.IsHolder h := fun h hh => by
    rw [(hlisted h).1 hh]
    exact hi
  obtain ⟨hreduces, hpreserves⟩ := h.sound.merge hu ht hholders fun h hh => (hlisted h).2 (honly h hh)
  have hmerge := hpreserves h.toConsistent (worth_eq_of_exponent_eq (h.acc hu.1) (h.acc ht.1) hworth.symm)
  have heq := merge_marking hi hterms hnew hu' hne hlisted
  have hlive : (c.setTerms i (rest ++ [(t, s)])).Live u := hu.1
  refine ⟨_, reduceNode_of_taken hsearch hr, ⟨⟨hmerge.consistent, hreduces.sound.toStored⟩,
    hreduces.id, hreduces.config,
    ?_, fun n => ?_, fun n hn hnu => ?_, fun j hj => ?_, hreduces.handles i, ?_⟩⟩
  · rw [heq]
    rfl
  · rw [heq, hlive.freeNode_live_iff]
    rfl
  · rw [heq, hlive.freeNode_slot hn hnu]
    rfl
  · rw [heq]
    show (c.setTerms i _).cellAt j = _
    rw [setTerms, cellAt_modifyCell, if_neg fun hij => hj hij.1.symm]
  · rw [heq]
    show ((c.setTerms i _).cellAt i).terms = _
    rw [setTerms_terms hi, if_pos rfl]

/-! ## A marking of one leaf -/

/-- A marking of a leaf is a marking of a reduced node of the same worth. The leaf itself is reduced if there was no
such node, and gone otherwise. -/
structure Placed (c : Circuit) (i : ℕ) (u : Node) (s : Sign) (d : Circuit) : Prop extends WellFormed d where
  id : d.id = c.id
  config : d.config = c.config
  live : ∀ n, d.Live n ↔ c.Live n ∧ (n = u → ∀ t, c.Reduced t → c.worth t ≠ c.worth u)
  successors : ∀ n, d.Live n → d.successors n = c.successors n
  pending : ∀ n, d.Pending n ↔ c.Pending n ∧ n ≠ u
  cells : ∀ j, j ≠ i → d.cellAt j = c.cellAt j
  handles : (d.cellAt i).handles = (c.cellAt i).handles
  entry : ∃ t, (d.cellAt i).terms = [(t, s)] ∧ d.Reduced t ∧ d.worth t = c.worth u

theorem Placed.worth_eq (h : Placed c i u s d) (hc : c.Linked) (hn : d.Live n) : d.worth n = c.worth n := by
  refine worth_congr (S := d.Live) (fun n hn m hm => ?_) (fun n hn => h.successors n hn) hn (hc.acc ((h.live n).1 hn).1)
  rw [Below, successorNodes, ← h.successors n hn] at hm
  exact h.live_of_below hn hm

theorem Folded.placed (h : Folded c i u [(t, s)] d) (hc : c.Linked) (hu : c.Pending u) (ht : c.Reduced t)
    (hworth : c.worth t = c.worth u) : Placed c i u s d where
  toWellFormed := h.toWellFormed
  id := h.id
  config := h.config
  live := fun n => (h.live n).trans (and_congr_right fun _ => ⟨fun hne heq => absurd heq hne, fun hnone heq =>
    hnone heq t ht hworth⟩)
  successors := fun n hn =>
    have ⟨hl, hne⟩ := (h.live n).1 hn
    congrArg Slot.successors (h.slot n hl hne)
  pending := fun n => by
    constructor
    · rintro ⟨hl, hr⟩
      obtain ⟨hl, hne⟩ := (h.live n).1 hl
      exact ⟨⟨hl, (congrArg Slot.rank (h.slot n hl hne)).symm.trans hr⟩, hne⟩
    · exact fun ⟨⟨hl, hr⟩, hne⟩ => ⟨(h.live n).2 ⟨hl, hne⟩, (congrArg Slot.rank (h.slot n hl hne)).trans hr⟩
  cells := h.cells
  handles := h.handles
  entry := by
    have hne : ∀ {n}, c.Reduced n → n ≠ u := fun hn heq => hu.not_reduced (heq ▸ hn)
    have hslot : ∀ {n}, c.Reduced n → d.slot n = c.slot n := fun hn => h.slot _ hn.1 (hne hn)
    have hreduced : ∀ {n}, c.Reduced n → d.Reduced n := fun hn =>
      ⟨(h.live _).2 ⟨hn.1, hne hn⟩, by rw [rank?, hslot hn]; exact hn.2⟩
    have hextends : c.Extends d := fun n hn => ⟨hreduced hn, congrArg Slot.successors (hslot hn)⟩
    exact ⟨t, h.terms, hreduced ht, (hextends.worth_eq hc ht).trans hworth⟩

/-- A legal leaf that no reduced node is worth as much as enters the order. -/
theorem WellFormed.insertReduced_placed (h : c.WellFormed) (hu : c.Pending u) (hb : ∀ m, c.Below m u → c.Reduced m)
    (hlegal : c.Legal u) (hterms : (c.cellAt i).terms = [(u, s)]) {p : ℕ} (hp : p ≤ c.order.size)
    (hbelow : ∀ r m, r < p → c.order[r]? = some m → c.worth m < c.worth u)
    (habove : ∀ r m, p ≤ r → c.order[r]? = some m → c.worth u < c.worth m) :
    Placed c i u s (c.insertReduced u p) := by
  obtain ⟨hreduces, hworth⟩ := h.sound.insertReduced hu hb hp
  have hpreserves := h.sound.insertReduced_preserves h.toConsistent hu hlegal hp hbelow habove hb
  have hnodes := place_sameNodes.trans (insertReduced_sameRanks (c := c) (n := u) (p := p)).toSameNodes
  have hcells : ∀ j, (c.insertReduced u p).cellAt j = c.cellAt j := cellAt_of_cells_eq hnodes.cells
  have hvacant : ∀ t, c.Reduced t → c.worth t ≠ c.worth u := fun t ht => by
    obtain ⟨j, hj⟩ := h.exists_getElem? ht
    rcases Nat.lt_or_ge j p with hlt | hge
    · exact (hbelow j t hlt hj).ne
    · exact (habove j t hge hj).ne'
  have hpending : ∀ n, (c.insertReduced u p).Pending n ↔ c.Pending n ∧ n ≠ u := fun n => by
    rw [hreduces.pending, List.mem_singleton]
  refine ⟨⟨hpreserves.consistent, hreduces.sound.toStored⟩, hnodes.id, hnodes.config, fun n => ?_,
    fun n _ => congrFun hnodes.successors_eq n, hpending, fun j _ => hcells j, by rw [hcells], u,
      by rw [hcells, hterms],
    ?_, by rw [hworth]⟩
  · rw [hnodes.live_iff]
    exact ⟨fun hn => ⟨hn, fun _ => hvacant⟩, fun hn => hn.1⟩
  · exact reduced_iff.2 ⟨hnodes.live_iff.2 hu.1, fun hu' => ((hpending u).1 hu').2 rfl⟩

/-- A marking of a legal leaf that nothing else mentions. -/
theorem WellFormed.reduceNode_placed (h : c.WellFormed) (hu : c.Pending u) (hb : ∀ m, c.Below m u → c.Reduced m)
    (hlegal : c.Legal u) (hi : 0 < (c.cellAt i).handles) (hterms : (c.cellAt i).terms = [(u, s)])
    (honly : ∀ h, c.Holds u h → h = .marking i) {table : Std.HashMap Node (Array Holder)}
    (hlisted : ∀ h, h ∈ listed table u ↔ h = .marking i) :
    ∃ d, (reduceNode table u).run c = (.ok (), d) ∧ Placed c i u s d := by
  have hacc : ∀ {r : ℕ} {m}, c.order[r]? = some m → Acc c.Below m := fun hm => h.acc (h.reduced_of_getElem? hm).1
  rcases h.search (h.exponents u hu.1) hb with ⟨r, t, hsearch, hr, heq⟩ | ⟨r, hr, hsearch, hbelow, habove⟩
  · have ht := h.reduced_of_getElem? hr
    obtain ⟨d, hrun, hd⟩ := h.reduceNode_folded hu hb ht heq hi hterms (by simp) honly hlisted
    exact ⟨d, hrun, hd.placed h.toLinked hu ht (worth_eq_of_exponent_eq (hacc hr) (h.acc hu.1) heq)⟩
  · refine ⟨_, reduceNode_of_vacant hsearch, h.insertReduced_placed hu hb hlegal hterms hr (fun r m hlt hm => ?_)
      fun r m hge hm => ?_⟩
    · exact (worth_lt_iff (hacc hm) (h.acc hu.1)).2 (hbelow r m hlt hm)
    · exact (worth_lt_iff (h.acc hu.1) (hacc hm)).2 (habove r m hge hm)

theorem WellFormed.reduceMarkings_placed (h : c.WellFormed) (hown : k.circuit = c.id) (hk : 0 < (c.cellAt k.id).handles)
    (hterms : c.termsOf k = [(u, s)]) (hu : c.Pending u) (hb : ∀ m, c.Below m u → c.Reduced m) (hlegal : c.Legal u)
    (honly : ∀ holder, c.Holds u holder ↔ holder = .marking k.id) :
    ∃ d, (reduceMarkings [k]).run c = (.ok (), d) ∧ Placed c k.id u s d := by
  have hnodes : c.nodesOf k = [u] := congrArg Terms.nodes hterms
  have hleaves : Leaves c (c.nodesOf k) := by
    rw [hnodes]
    exact ⟨List.nodup_singleton u, by simpa using hu, by simpa using hb⟩
  have hlisted : ∀ holder, holder ∈ listed (c.referrers (c.nodesOf k)) u ↔ holder = .marking k.id := fun holder =>
    (mem_referrers (by simp [hnodes])).trans (honly holder)
  obtain ⟨d, hrun, hd⟩ := h.reduceNode_placed hu hb hlegal hk hterms (fun holder => (honly holder).1) hlisted
  refine ⟨d, hleaves.run_reduceMarkings hown ?_ hd.toConsistent, hd⟩
  rw [hnodes] at hrun ⊢
  show (reduceNode (c.referrers [u]) u >>= fun _ => pure ()).run c = _
  rw [Call.run_bind_ok hrun, Call.run_pure]

end Circuit

end PowerTower
