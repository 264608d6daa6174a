import Mathlib
import PowerTower.Proofs.Mirror
import PowerTower.Proofs.Depth
import PowerTower.Proofs.Reduction

/-!
# Reductions of mirrored circuits

A reduction takes the same course in a mirrored circuit: the walks meet the same nodes in the same order, each node is
looked up with the same outcome, and a merge visits the same holders one after the other. So do the checks, and report
the same.

* `Mirror.reachesAny`, `Mirror.dependencyOrder`, … : walks;
* `Mirror.liveMarkingIds`, `Mirror.referrers` : the live markings in the order of their creation, and who mentions a
  node;
* `Mirror.merge`, `Mirror.reduceNode`, `Mirror.reduceFrontier` : reductions;
* `Mirror.check` : the check.
-/

namespace PowerTower.Circuit

open Traversal

variable {r : Renaming} {S T : Set ℕ} {c d : Circuit} {m n dup survivor : Node} {ts us : List Term} {i j k p : ℕ}
  {frontier roots sources targets : List Node}

/-! ## Walks -/

theorem Mirror.successorNodes (h : Mirror r S c d) (hn : n.index ∈ S) :
    d.successorNodes (r.node n) = (c.successorNodes n).map r.node := by
  rw [Circuit.successorNodes, h.successors hn, r.nodes_terms, Circuit.successorNodes]

theorem Mirror.pendingSuccessors (h : Mirror r S c d) (hn : n.index ∈ S) :
    d.pendingSuccessors (r.node n) = (c.pendingSuccessors n).map r.node := by
  rw [Circuit.pendingSuccessors, h.successorNodes hn, List.filter_map, Circuit.pendingSuccessors]
  congr 2
  funext m
  exact congrArg (!·) (h.isReducedNode m)

/-- A root of a walk or a name that stands in a known exponent. -/
def Met (S : Set ℕ) (c : Circuit) (roots : List Node) (n : Node) : Prop :=
  n.index ∈ S ∧ (n ∈ roots ∨ ∃ k : Node, k.index ∈ S ∧ c.Below n k)

theorem met_root (hroots : ∀ n ∈ roots, n.index ∈ S) (hn : n ∈ roots) : Met S c roots n := ⟨hroots n hn, .inl hn⟩

theorem Mirror.met_below (h : Mirror r S c d) (hn : Met S c roots n) (hm : c.Below m n) : Met S c roots m :=
  ⟨h.among hn.1 m hm, .inr ⟨n, hn.1, hm⟩⟩

theorem Met.mem (h : Met S c roots n) : n ∈ roots ++ c.mentionedNodes := by
  rw [List.mem_append]
  exact h.2.imp_right fun ⟨k, _, hk⟩ => mem_mentionedNodes hk

/-- What is met in a circuit is met in a circuit that mirrors it. -/
theorem Mirror.met_mem (h : Mirror r S c d) (hn : Met S c roots n) :
    r.node n ∈ roots.map r.node ++ d.mentionedNodes := by
  rw [List.mem_append]
  refine hn.2.imp List.mem_map_of_mem fun ⟨k, hk, hbelow⟩ => mem_mentionedNodes (n := r.node k) ?_
  rw [Below, h.successorNodes hk]
  exact List.mem_map_of_mem hbelow

theorem Mirror.follows (h : Mirror r S c d) : Follows r.node (Met S c roots) c.successorNodes d.successorNodes :=
  fun _ hn => ⟨h.successorNodes hn.1, fun _ hm => h.met_below hn hm⟩

theorem Mirror.reachesAny (h : Mirror r S c d) (hsources : ∀ n ∈ sources, n.index ∈ S) (targets : List Node) :
    d.reachesAny (sources.map r.node) (targets.map r.node) = (c.reachesAny sources targets).map r.node := by
  have hfollows : Follows r.node (Met S c sources) (fun n => (c.successorNodes n).reverse)
      fun n => (d.successorNodes n).reverse := fun n hn => by
    obtain ⟨heq, hmet⟩ := h.follows n hn
    refine ⟨?_, fun m hm => hmet m (List.mem_reverse.1 hm)⟩
    dsimp only
    rw [heq, List.map_reverse]
  have hunseen : Agrees r.node (Met S c sources) (.ofList (sources ++ c.mentionedNodes))
      (.ofList (sources.map r.node ++ d.mentionedNodes)) := fun n hn => by
    rw [mem_ofList_iff, mem_ofList_iff]
    exact iff_of_true (h.met_mem hn) hn.mem
  have hstack : ∀ n ∈ sources.reverse, Met S c sources n := fun n hn => met_root hsources (List.mem_reverse.1 hn)
  have hwalk := discover_map r.node_injective hfollows hunseen hstack
  unfold Circuit.reachesAny
  rw [← List.map_reverse, hwalk, List.find?_map]
  congr 2
  funext n
  rw [Function.comp_apply, Bool.eq_iff_iff, Std.HashSet.contains_iff_mem, Std.HashSet.contains_iff_mem, mem_ofList_iff,
    mem_ofList_iff, mem_map_iff r.node_injective]

theorem Mirror.pendingReachable (h : Mirror r S c d) (hroots : ∀ n ∈ roots, n.index ∈ S) :
    d.pendingReachable (roots.map r.node) = (c.pendingReachable roots).map r.node := by
  have hall : (roots.map r.node).all d.isReducedNode = roots.all c.isReducedNode := by
    rw [List.all_map]
    exact congrArg roots.all (funext h.isReducedNode)
  have hunseen : Agrees r.node (Met S c roots)
      (.ofList ((roots ++ c.mentionedNodes).filter fun n => !c.isReducedNode n))
      (.ofList ((roots.map r.node ++ d.mentionedNodes).filter fun n => !d.isReducedNode n)) := fun n hn => by
    rw [mem_ofList_iff, mem_ofList_iff, List.mem_filter, List.mem_filter, h.isReducedNode]
    exact and_congr_left fun _ => iff_of_true (h.met_mem hn) hn.mem
  unfold Circuit.pendingReachable
  rw [hall]
  split_ifs
  · rfl
  · exact discover_map r.node_injective h.follows hunseen fun n hn => met_root hroots hn

theorem Mirror.dependencyOrder (h : Mirror r S c d) (hfrontier : ∀ n ∈ frontier, n.index ∈ S) :
    d.dependencyOrder (frontier.map r.node) = r.answer (List.map r.node) (c.dependencyOrder frontier) := by
  have hfollows : Follows r.node (fun n => n.index ∈ S) c.pendingSuccessors d.pendingSuccessors := fun n hn =>
    ⟨h.pendingSuccessors hn, fun m hm => h.among hn m (List.mem_of_mem_filter hm)⟩
  have hmembers : Agrees r.node (fun n => n.index ∈ S) (.ofList frontier) (.ofList (frontier.map r.node)) :=
    agrees_ofList r.node_injective frontier
  unfold Circuit.dependencyOrder Traversal.dependencyOrder
  rw [orderWithin_map r.node_injective hfollows hmembers hfrontier]
  rcases orderWithin c.pendingSuccessors frontier frontier with o | sorted
  · cases o <;> rfl
  · rfl

/-! ## Listings -/

theorem Mirror.liveNodeList (h : Mirror r S c d) : d.liveNodeList = c.liveNodeList.map r.node := by
  have hlive : d.liveIndices = c.liveIndices := by
    rw [liveIndices, liveIndices, h.size]
    exact List.filter_congr fun i _ => (h.slots i).live
  rw [Circuit.liveNodeList, Circuit.liveNodeList, hlive, List.map_map]
  exact List.map_congr_left fun i _ => h.nodeAt i

theorem Mirror.pendingNodes (h : Mirror r S c d) : d.pendingNodes = c.pendingNodes.map r.node := by
  have hpending : d.isPendingAt = c.isPendingAt := funext fun i => by
    rw [isPendingAt, isPendingAt, (h.slots i).live, (h.slots i).rank]
  rw [Circuit.pendingNodes, Circuit.pendingNodes, hpending, h.size, List.map_map]
  exact List.map_congr_left fun i _ => h.nodeAt i

theorem Mirror.known_pending (h : Mirror r S c d) : ∀ n ∈ c.pendingNodes, n.index ∈ S := fun _ hn =>
  h.known (mem_pendingNodes.1 hn).1

theorem Mirror.cycle? (h : Mirror r S c d) : d.cycle? = c.cycle?.map r.node := by
  have hlive : ∀ n ∈ c.liveNodeList, n.index ∈ S := fun n hn => h.known (mem_liveNodeList.1 hn)
  have hmembers : Agrees r.node (Met S c c.liveNodeList) (.ofList (c.liveNodeList ++ c.mentionedNodes))
      (.ofList (c.liveNodeList.map r.node ++ d.mentionedNodes)) := fun n hn => by
    rw [mem_ofList_iff, mem_ofList_iff]
    exact iff_of_true (h.met_mem hn) hn.mem
  unfold Circuit.cycle?
  rw [h.liveNodeList, orderWithin_map r.node_injective h.follows hmembers fun n hn => met_root hlive hn]
  rcases orderWithin c.successorNodes _ c.liveNodeList with o | sorted
  · cases o <;> rfl
  · rfl

/-- The live markings are the same, in the order of their creation. -/
theorem Mirror.liveMarkingIds (h : Mirror r S c d) : d.liveMarkingIds = c.liveMarkingIds.map r.marking := by
  have hincreasing : ∀ e : Circuit, e.liveMarkingIds.Pairwise (· < ·) := fun e => List.pairwise_lt_range.filter _
  refine List.Pairwise.eq_of_mem_iff (hincreasing d) (List.pairwise_map.2 ?_) fun j => ?_
  · refine (hincreasing c).imp_of_mem fun {a b} ha hb hab => ?_
    exact (r.marking_lt_iff (h.held a (mem_liveMarkingIds.1 ha)) (h.held b (mem_liveMarkingIds.1 hb))).2 hab
  · have hcell : (d.cellAt j).handles = (c.cellAt (r.source j)).handles := by
      rw [h.cells]
      rfl
    rw [mem_liveMarkingIds, hcell, List.mem_map]
    constructor
    · exact fun hj => ⟨r.source j, mem_liveMarkingIds.2 hj, r.marking_source j⟩
    · rintro ⟨i, hi, rfl⟩
      have hlive := mem_liveMarkingIds.1 hi
      rwa [h.held i hlive]

theorem Mirror.cellAt (h : Mirror r S c d) (hi : r.source (r.marking i) = i) :
    d.cellAt (r.marking i) = r.cell (c.cellAt i) := by rw [h.cells, hi]

theorem Mirror.among_cellAt (h : Mirror r S c d) (hi : r.source (r.marking i) = i) :
    Terms.Among S (c.cellAt i).terms := by
  have hamong := h.mentioned (r.marking i)
  rwa [hi] at hamong

/-! ## Markings -/

theorem Mirror.lt_size_iff (h : Mirror r S c d) : j < d.cells.size ↔ r.source j < c.cells.size := by
  rw [← r.increasing.lt_iff_lt, show r.source d.cells.size = c.cells.size from h.fresh 0]

theorem Mirror.modifyCell (h : Mirror r S c d) (hi : r.source (r.marking i) = i) {f f' : Cell → Cell}
    (hf : ∀ k, f' (r.cell k) = r.cell (f k)) (hamong : ∀ k, Terms.Among S k.terms → Terms.Among S (f k).terms) :
    Mirror r S (c.modifyCell i f) (d.modifyCell (r.marking i) f') := by
  have hsize : ∀ (e : Circuit) (i : ℕ) (f : Cell → Cell), (e.modifyCell i f).cells.size = e.cells.size :=
    fun e i f => Array.size_modify
  have hiff : ∀ j, r.marking i = j ↔ i = r.source j := fun j =>
    ⟨fun heq => by rw [← heq, hi], fun heq => by rw [heq, r.marking_source]⟩
  exact { h with
    cells := fun j => by
      rw [cellAt_modifyCell, cellAt_modifyCell, h.cells, if_congr (and_congr (hiff j) h.lt_size_iff) rfl rfl]
      split_ifs
      · rw [hf]
      · rfl
    mentioned := fun j => by
      rw [cellAt_modifyCell]
      split_ifs
      · exact hamong _ (h.mentioned j)
      · exact h.mentioned j
    fresh := fun k => by rw [hsize, hsize, h.fresh]
    held := fun j hj => by
      rw [cellAt_modifyCell] at hj
      split_ifs at hj with hij
      · rw [← hij.1, hi]
      · exact h.held j hj }

theorem Mirror.setTerms (h : Mirror r S c d) (hi : r.source (r.marking i) = i) (hts : Terms.Among S ts) :
    Mirror r S (c.setTerms i ts) (d.setTerms (r.marking i) (r.terms ts)) :=
  h.modifyCell hi (fun _ => rfl) fun _ _ => hts

/-! ## Holders -/

/-- A pending node at a known place, or a marking that has another number. -/
def Holder.Known (r : Renaming) (S : Set ℕ) : Holder → Prop
  | .node n => n.index ∈ S
  | .marking i => r.source (r.marking i) = i

variable {h h' : Holder}

theorem Holder.Known.mono (hh : Holder.Known r S h) (hST : S ⊆ T) : Holder.Known r T h := by
  cases h with
  | node n => exact hST hh
  | marking i => exact hh

theorem Mirror.heldBy (hm : Mirror r S c d) (hh : Holder.Known r S h) :
    d.heldBy (r.holder h) = r.terms (c.heldBy h) ∧ Terms.Among S (c.heldBy h) := by
  cases h with
  | node n => exact ⟨hm.successors hh, hm.among hh⟩
  | marking i => exact ⟨congrArg Cell.terms (hm.cellAt hh), hm.among_cellAt hh⟩

theorem Mirror.setHeld (hm : Mirror r S c d) (hh : Holder.Known r S h) (hts : Terms.Among S ts) :
    Mirror r S (c.setHeld h ts) (d.setHeld (r.holder h) (r.terms ts)) := by
  cases h with
  | node n => exact hm.setSuccessors n hts
  | marking i => exact hm.setTerms hh hts

theorem listed_alter {table : Std.HashMap Node (Array Holder)} {k : Node} :
    listed (table.alter k fun hs => some ((hs.getD #[]).push h)) n =
      if k = n then listed table n ++ [h] else listed table n := by
  unfold listed
  rw [Std.HashMap.getD_alter]
  split_ifs with hk hk hk
  · obtain rfl : k = n := by simpa using hk
    simp [← Std.HashMap.getD_eq_getD_getElem?]
  all_goals simp_all

/-- Two tables list the same holders under other names. -/
def SameTable (r : Renaming) (table table' : Std.HashMap Node (Array Holder)) : Prop :=
  ∀ n, listed table' (r.node n) = (listed table n).map r.holder

/-- By induction on the nodes. -/
theorem SameTable.mention {table table' : Std.HashMap Node (Array Holder)} (ht : SameTable r table table')
    (frontier : List Node) (h : Holder) (nodes : List Node) :
    SameTable r (mention (.ofList frontier) h table nodes)
      (mention (.ofList (frontier.map r.node)) (r.holder h) table' (nodes.map r.node)) := by
  induction nodes generalizing table table' with
  | nil => exact ht
  | cons m nodes ih =>
    have hmem : r.node m ∈ Std.HashSet.ofList (frontier.map r.node) ↔ m ∈ Std.HashSet.ofList frontier := by
      rw [mem_ofList_iff, mem_ofList_iff, mem_map_iff r.node_injective]
    refine ih fun n => ?_
    dsimp only
    rw [if_congr hmem rfl rfl]
    split_ifs
    · rw [listed_alter, listed_alter, if_congr r.node_inj rfl rfl, ht n]
      split_ifs <;> simp
    · exact ht n

theorem SameTable.foldl {α : Type} {table table' : Std.HashMap Node (Array Holder)} (ht : SameTable r table table')
    (frontier : List Node) {name name' : α → Holder} {nodes nodes' : α → List Node} {l : List α}
    (hname : ∀ a ∈ l, name' a = r.holder (name a)) (hnodes : ∀ a ∈ l, nodes' a = (nodes a).map r.node) :
    SameTable r (l.foldl (fun table a => Circuit.mention (.ofList frontier) (name a) table (nodes a)) table)
      (l.foldl (fun table a => Circuit.mention (.ofList (frontier.map r.node)) (name' a) table (nodes' a)) table') := by
  induction l generalizing table table' with
  | nil => exact ht
  | cons a l ih =>
    refine ih ?_ (fun b hb => hname b (by simp [hb])) fun b hb => hnodes b (by simp [hb])
    dsimp only
    rw [hname a (by simp), hnodes a (by simp)]
    exact ht.mention frontier (name a) (nodes a)

/-- The same holders mention a node, in the same order. -/
theorem Mirror.referrers (hm : Mirror r S c d) (frontier : List Node) :
    SameTable r (c.referrers frontier) (d.referrers (frontier.map r.node)) := by
  unfold Circuit.referrers
  rw [hm.pendingNodes, hm.liveMarkingIds, List.foldl_map, List.foldl_map]
  refine SameTable.foldl (SameTable.foldl (fun n => by simp [listed]) frontier (fun _ _ => rfl) fun n hn => ?_) frontier
    (fun _ _ => rfl) fun i hi => ?_
  · exact hm.successorNodes (hm.known_pending n hn)
  · rw [hm.cellAt (hm.held i (mem_liveMarkingIds.1 hi))]
    exact r.nodes_terms _

theorem Mirror.known_listed (hm : Mirror r S c d) (hn : n ∈ frontier) (hh : h ∈ listed (c.referrers frontier) n) :
    Holder.Known r S h := by
  have hholds := (mem_referrers hn).1 hh
  cases h with
  | node p => exact hm.known hholds.1.1
  | marking i => exact hm.held i hholds.1

/-! ## One node -/

theorem Mirror.redirect (hm : Mirror r S c d) (hh : Holder.Known r S h) (dup : Node) (hsurvivor : survivor.index ∈ S) :
    ∃ T, S ⊆ T ∧
      Mirror r T (redirect dup survivor c h) (redirect (r.node dup) (r.node survivor) d (r.holder h)) := by
  obtain ⟨hheld, hamong⟩ := hm.heldBy hh
  have hdigit : Terms.digit? (r.node dup) (d.heldBy (r.holder h)) = Terms.digit? dup (c.heldBy h) := by
    rw [hheld, r.digit?_terms]
  cases hs : Terms.digit? dup (c.heldBy h) with
  | none =>
    rw [redirect_of_digit?_eq_none hs, redirect_of_digit?_eq_none (hdigit.trans hs)]
    exact ⟨S, subset_rfl, hm⟩
  | some s =>
    rw [redirect_of_digit?_eq_some hs, redirect_of_digit?_eq_some (hdigit.trans hs), hheld, r.erase_terms]
    have hnil : Mirror r S (c.setHeld h []) (d.setHeld (r.holder h) []) := hm.setHeld hh Terms.among_nil
    obtain ⟨T, hST, hmirror, hterms, hamong'⟩ := hnil.absorb hsurvivor (hamong.erase dup) s
    refine ⟨T, hST, ?_⟩
    rw [hterms]
    exact hmirror.setHeld (hh.mono hST) hamong'

/-- By induction on the holders. -/
theorem Mirror.foldl_redirect (hm : Mirror r S c d) {holders : List Holder} (hh : ∀ h ∈ holders, Holder.Known r S h)
    (dup : Node) (hsurvivor : survivor.index ∈ S) : ∃ T, S ⊆ T ∧
      Mirror r T (holders.foldl (Circuit.redirect dup survivor) c)
      ((holders.map r.holder).foldl (Circuit.redirect (r.node dup) (r.node survivor)) d) := by
  induction holders generalizing c d S with
  | nil => exact ⟨S, subset_rfl, hm⟩
  | cons h holders ih =>
    obtain ⟨T, hST, hmirror⟩ := hm.redirect (hh h (by simp)) dup hsurvivor
    obtain ⟨U, hTU, hmirror'⟩ := ih hmirror (fun k hk => (hh k (by simp [hk])).mono hST) (hST hsurvivor)
    exact ⟨U, hST.trans hTU, hmirror'⟩

theorem Mirror.merge (hm : Mirror r S c d) {holders : List Holder} (hh : ∀ h ∈ holders, Holder.Known r S h) (dup : Node)
    (hsurvivor : survivor.index ∈ S) : ∃ T, S ⊆ T ∧
      Mirror r T (c.merge dup survivor holders) (d.merge (r.node dup) (r.node survivor) (holders.map r.holder)) := by
  obtain ⟨T, hST, hmirror⟩ := hm.foldl_redirect hh dup hsurvivor
  exact ⟨T, hST, hmirror.freeNode dup⟩

theorem refreshBelow_succ : c.refreshBelow (k + 1) = (c.order[k]?).elim c c.refreshDoubles := by
  cases hk : c.order[k]? <;> simp only [refreshBelow, hk] <;> rfl

theorem Mirror.refreshBelow (hm : Mirror r S c d) (p : ℕ) : Mirror r S (c.refreshBelow p) (d.refreshBelow p) := by
  cases p with
  | zero => exact hm
  | succ k =>
    rw [refreshBelow_succ, refreshBelow_succ, hm.getElem?]
    cases hk : c.order[k]? with
    | none => exact hm
    | some n => exact hm.refreshDoubles (hm.ranked _ _ hk)

theorem Mirror.insertReduced (hm : Mirror r S c d) (hn : n.index ∈ S) (p : ℕ) :
    Mirror r S (c.insertReduced n p) (d.insertReduced (r.node n) p) :=
  ((hm.place hn p).refreshBelow p).refreshDoubles hn

theorem compareAt_eq : c.compareAt ts k =
    (c.order[k]?).elim (.error .notReduced) fun n => c.compareTerms (c.successors n) ts 0 := by
  cases hk : c.order[k]? <;> simp only [compareAt, hk] <;> rfl

theorem Mirror.search (hm : Mirror r S c d) (ts : List Term) : d.search (r.terms ts) = c.search ts := by
  have hat : d.compareAt (r.terms ts) = c.compareAt ts := funext fun k => by
    rw [compareAt_eq, compareAt_eq, hm.getElem?]
    cases hk : c.order[k]? with
    | none => rfl
    | some n =>
      show d.compareTerms (d.successors (r.node n)) (r.terms ts) 0 = c.compareTerms (c.successors n) ts 0
      rw [hm.successors (hm.ranked _ _ hk), hm.compareTerms]
  unfold Circuit.search
  rw [hat, hm.order_size]

/-! ## Refusals that name nothing -/

/-- Refused only because a node is pending, and the refusal does not say which. -/
def Nameless {α : Type} (x : Except CircuitError α) : Prop := ∀ e, x = .error e → e = .notReduced

theorem Nameless.answer {α : Type} {x : Except CircuitError α} (h : Nameless x) : r.answer (fun a => a) x = x := by
  cases x with
  | ok a => rfl
  | error e =>
    obtain rfl := h e rfl
    rfl

theorem nameless_compareTerms {bias : ℤ} : Nameless (c.compareTerms ts us bias) := fun e he => by
  by_cases hreduced : c.termsReduced ts = true ∧ c.termsReduced us = true
  · rw [compareTerms, digits_eq, digits_eq, if_pos hreduced.1, if_pos hreduced.2] at he
    cases he
  · rw [compareTerms_eq_error hreduced] at he
    exact (Except.error.inj he).symm

theorem nameless_compareAt : Nameless (c.compareAt ts k) := fun e he => by
  rw [compareAt_eq] at he
  cases hk : c.order[k]? with
  | none =>
    rw [hk] at he
    exact (Except.error.inj he).symm
  | some n =>
    rw [hk] at he
    exact nameless_compareTerms e he

/-- A search is refused only where a comparison is. -/
theorem exists_of_narrow_eq_error {ε : Type} {order : ℕ → Except ε Ordering} {base size : ℕ} {e : ε}
    (he : narrow order base size = .error e) : ∃ k, order k = .error e := by
  fun_induction narrow order base size with
  | case1 => cases he
  | case2 base size _ half e' hk => exact ⟨_, hk.trans (congrArg _ (Except.error.inj he))⟩
  | case3 _ _ _ _ _ ih => exact ih he
  | case4 _ _ _ _ _ _ _ ih => exact ih he

theorem nameless_search : Nameless (c.search ts) := fun e he => by
  unfold Circuit.search at he
  split_ifs at he
  rcases Guards.bind_eq_error.1 he with he | ⟨k, -, he⟩
  · obtain ⟨k, hk⟩ := exists_of_narrow_eq_error he
    exact nameless_compareAt e hk
  · rcases Guards.bind_eq_error.1 he with he | ⟨o, -, he⟩
    · exact nameless_compareAt e he
    · cases o <;> cases he

/-! ## A frontier -/

variable {E : CircuitError → Prop}

theorem Mirror.reduceNode (hm : Mirror r S c d) {table table' : Std.HashMap Node (Array Holder)}
    (ht : SameTable r table table') (hn : n.index ∈ S) (hh : ∀ h ∈ listed table n, Holder.Known r S h) :
    Outcome r.error E r S (fun _ _ _ => True) ((reduceNode table n).run c) ((reduceNode table' (r.node n)).run d) := by
  have hsearch : d.search (d.successors (r.node n)) = c.search (c.successors n) := by rw [hm.successors hn, hm.search]
  cases hs : c.search (c.successors n) with
  | error e =>
    rw [reduceNode_eq_error hs, reduceNode_eq_error (hsearch.trans hs)]
    obtain rfl := nameless_search e hs
    exact .refused subset_rfl hm
  | ok spot =>
    cases spot with
    | vacant k =>
      rw [reduceNode_of_vacant hs, reduceNode_of_vacant (hsearch.trans hs)]
      exact .answered subset_rfl (hm.insertReduced hn k) trivial
    | taken k =>
      have hk' := hm.getElem? k
      cases hk : c.order[k]? with
      | none =>
        rw [hk] at hk'
        rw [reduceNode_of_taken_none hs hk, reduceNode_of_taken_none (hsearch.trans hs) hk']
        exact .answered subset_rfl hm trivial
      | some survivor =>
        rw [hk] at hk'
        obtain ⟨T, hST, hmirror⟩ := hm.merge hh n (hm.ranked _ _ hk)
        rw [reduceNode_of_taken hs hk, reduceNode_of_taken (hsearch.trans hs) hk', ht n]
        exact .answered hST hmirror trivial

theorem Mirror.reduceFrontier (hm : Mirror r S c d) (hfrontier : ∀ n ∈ frontier, n.index ∈ S) :
    Outcome r.error E r S (fun _ _ _ => True) ((reduceFrontier frontier).run c)
      ((reduceFrontier (frontier.map r.node)).run d) := by
  refine hm.outcome_ask_bind (.inr (hm.dependencyOrder hfrontier)) fun sorted hsorted => ?_
  have hempty : (sorted.map r.node).isEmpty = sorted.isEmpty := List.isEmpty_map
  by_cases hs : sorted.isEmpty = true
  · rw [if_pos hs, if_pos (hempty.trans hs)]
    exact .answered subset_rfl hm trivial
  · rw [if_neg hs, if_neg (by rwa [hempty])]
    obtain ⟨-, hmem⟩ := sorted_of_dependencyOrder hsorted
    exact Mirror.outcome_forM (P := fun S n => n.index ∈ S ∧ ∀ h ∈ listed (c.referrers sorted) n, Holder.Known r S h)
      (fun S T n hST hn => ⟨hST hn.1, fun h hh => (hn.2 h hh).mono hST⟩)
      (fun S' c' d' hm' n _ hn => hm'.reduceNode (hm.referrers sorted) hn.1 hn.2) hm
      fun n hn => ⟨hfrontier n ((hmem n).1 hn), fun h hh => hm.known_listed hn hh⟩

/-! ## The check -/

theorem Mirror.checkNode (hm : Mirror r S c d) (n : Node) :
    d.checkNode (r.node n) = r.answer (fun u => u) (c.checkNode n) := by
  have hslot := hm.slots n.index
  have hown : (r.node n).circuit ≠ d.id ↔ n.circuit ≠ c.id := by
    rw [hm.id]
    exact r.injective.ne_iff
  have hlive : (d.slot (r.node n)).live = true ∧ (d.slot (r.node n)).generation = (r.node n).generation ↔
      (c.slot n).live = true ∧ (c.slot n).generation = n.generation := by
    show (d.slotAt n.index).live = true ∧ (d.slotAt n.index).generation = n.generation ↔ _
    rw [hslot.live, hslot.generation]
    rfl
  unfold Circuit.checkNode
  rw [if_congr hown rfl (if_congr hlive rfl rfl), hm.id]
  split_ifs <;> rfl

/-- By induction on the terms. -/
theorem Mirror.checkTerms (hm : Mirror r S c d) (owner : TermOwner) (seen : List Node) (ts : List Term) :
    d.checkTerms (r.owner owner) (seen.map r.node) (r.terms ts) =
      r.answer (fun u => u) (c.checkTerms owner seen ts) := by
  induction ts generalizing seen with
  | nil => rfl
  | cons t ts ih =>
    obtain ⟨n, s⟩ := t
    rw [r.terms_cons, Circuit.checkTerms, Circuit.checkTerms]
    have hseen : r.node n ∈ seen.map r.node ↔ n ∈ seen := mem_map_iff r.node_injective
    refine r.answer_bind (hm.checkNode n) fun _ _ => ?_
    rw [if_congr hseen rfl rfl]
    split_ifs
    · rfl
    · rfl
    · exact ih (n :: seen)

theorem Mirror.checkSlot (hm : Mirror r S c d) (i : ℕ) : d.checkSlot i = r.answer (fun u => u) (c.checkSlot i) := by
  have hslot := hm.slots i
  unfold Circuit.checkSlot
  rw [hslot.live, hslot.rank]
  split_ifs with hlive
  · rw [hslot.exponent (hslot.known_of_live hlive), hm.nodeAt]
    exact hm.checkTerms (.successors (c.nodeAt i)) [] _
  · rfl
  · rfl

theorem Mirror.checkCell (hm : Mirror r S c d) (hi : r.source (r.marking i) = i) :
    d.checkCell (r.marking i) = r.answer (fun u => u) (c.checkCell i) := by
  unfold Circuit.checkCell
  rw [hm.cellAt hi]
  exact hm.checkTerms (.marking i) [] _

theorem Mirror.checkRank (hm : Mirror r S c d) (hn : n.index ∈ S) (k : ℕ) :
    d.checkRank (r.node n, k) = r.answer (fun u => u) (c.checkRank (n, k)) := by
  have hfind : (d.successorNodes (r.node n)).find? (fun m => !d.isReducedNode m) =
      ((c.successorNodes n).find? fun m => !c.isReducedNode m).map r.node := by
    rw [hm.successorNodes hn, List.find?_map]
    congr 2
    exact funext fun m => congrArg (!·) (hm.isReducedNode m)
  unfold Circuit.checkRank
  refine r.answer_bind (hm.checkNode n) fun _ _ => ?_
  rw [hm.rank?, hfind]
  split_ifs
  · rfl
  · cases (c.successorNodes n).find? fun m => !c.isReducedNode m <;> rfl

theorem Mirror.rankedCount (hm : Mirror r S c d) : d.rankedCount = c.rankedCount := by
  rw [rankedCount_eq_length, rankedCount_eq_length, rankedIndices, rankedIndices, hm.size]
  exact congrArg List.length (List.filter_congr fun i _ => congrArg Option.isSome (hm.slots i).rank)

theorem Mirror.checkRankCount (hm : Mirror r S c d) :
    d.checkRankCount = r.answer (fun u => u) c.checkRankCount := by
  unfold Circuit.checkRankCount
  rw [hm.rankedCount, hm.order_size]
  split_ifs <;> rfl

theorem Mirror.checkAcyclic (hm : Mirror r S c d) : d.checkAcyclic = r.answer (fun u => u) c.checkAcyclic := by
  unfold Circuit.checkAcyclic
  rw [hm.cycle?]
  cases c.cycle? <;> rfl

theorem Mirror.answer_compareTerms (hm : Mirror r S c d) (ts us : List Term) (bias : ℤ) :
    d.compareTerms (r.terms ts) (r.terms us) bias = r.answer (fun o => o) (c.compareTerms ts us bias) := by
  rw [nameless_compareTerms.answer, hm.compareTerms]

theorem Mirror.checkNeighbours (hm : Mirror r S c d) (hm' : m.index ∈ S) (hn : n.index ∈ S) :
    d.checkNeighbours (r.node m) (r.node n) = r.answer (fun u => u) (c.checkNeighbours m n) := by
  unfold Circuit.checkNeighbours
  rw [hm.successors hm', hm.successors hn, hm.doubles]
  refine r.answer_bind (hm.answer_compareTerms _ _ 0) fun o _ => ?_
  split_ifs
  · rfl
  · refine r.answer_bind (hm.answer_compareTerms _ _ 1) fun o _ => ?_
    split_ifs <;> rfl

/-- By induction on the stretch. -/
theorem Mirror.checkIncreasing (hm : Mirror r S c d) {l : List Node} (hl : ∀ n ∈ l, n.index ∈ S) :
    d.checkIncreasing (l.map r.node) = r.answer (fun u => u) (c.checkIncreasing l) := by
  induction l with
  | nil => rfl
  | cons low l ih =>
    cases l with
    | nil => rfl
    | cons high rest =>
      refine r.answer_bind (hm.checkNeighbours (hl low (by simp)) (hl high (by simp))) fun _ _ => ?_
      exact ih fun n hn => hl n (List.mem_cons_of_mem _ hn)

theorem Mirror.checkTop (hm : Mirror r S c d) : d.checkTop = r.answer (fun u => u) c.checkTop := by
  have hback : d.order.back? = c.order.back?.map r.node := by
    rw [Array.back?_eq_getElem?, Array.back?_eq_getElem?, hm.order_size, hm.getElem?]
  unfold Circuit.checkTop
  rw [hback]
  cases c.order.back? with
  | none => rfl
  | some top =>
    show (if (d.slot (r.node top)).doubles then _ else _) = _
    rw [hm.doubles]
    dsimp only
    split_ifs <;> rfl

theorem Mirror.checkBottom (hm : Mirror r S c d) : d.checkBottom = r.answer (fun u => u) c.checkBottom := by
  unfold Circuit.checkBottom
  rw [hm.getElem?]
  cases hfirst : c.order[0]? with
  | none => rfl
  | some first =>
    show (d.compareTerms (d.successors (r.node first)) (r.terms []) 0 >>= _) = _
    rw [hm.successors (hm.ranked _ _ hfirst)]
    refine r.answer_bind (hm.answer_compareTerms _ _ 0) fun o _ => ?_
    split_ifs <;> rfl

theorem Mirror.known_order (hm : Mirror r S c d) : ∀ n ∈ c.order.toList, n.index ∈ S := fun n hn => by
  obtain ⟨k, hk⟩ := Array.mem_iff_getElem?.1 (Array.mem_toList_iff.1 hn)
  exact hm.ranked k n hk

/-- The checks come to the same, and report the same. -/
theorem Mirror.check (hm : Mirror r S c d) : d.check = r.answer (fun u => u) c.check := by
  have horder : d.order.toList = c.order.toList.map r.node := by rw [hm.order, Array.toList_map]
  have hslots : (List.range c.slots.size).forM d.checkSlot =
      r.answer (fun u => u) ((List.range c.slots.size).forM c.checkSlot) := by
    have hforM := r.answer_forM (g := fun i => i) (l := List.range c.slots.size) fun i _ => hm.checkSlot i
    rwa [List.map_id'] at hforM
  have hcells : (c.liveMarkingIds.map r.marking).forM d.checkCell =
      r.answer (fun u => u) (c.liveMarkingIds.forM c.checkCell) :=
    r.answer_forM fun i hi => hm.checkCell (hm.held i (mem_liveMarkingIds.1 hi))
  have hranks : (c.order.toList.zipIdx.map (Prod.map r.node fun k => k)).forM d.checkRank =
      r.answer (fun u => u) (c.order.toList.zipIdx.forM c.checkRank) :=
    r.answer_forM fun entry hentry => hm.checkRank (hm.known_order _ (List.fst_mem_of_mem_zipIdx hentry)) entry.2
  unfold Circuit.check
  rw [hm.size, hm.liveMarkingIds, horder, List.zipIdx_map]
  exact r.answer_bind hslots fun _ _ => r.answer_bind hcells fun _ _ => r.answer_bind hranks fun _ _ =>
    r.answer_bind hm.checkRankCount fun _ _ => r.answer_bind hm.checkAcyclic fun _ _ =>
    r.answer_bind (hm.checkIncreasing hm.known_order) fun _ _ => r.answer_bind hm.checkTop fun _ _ => hm.checkBottom

end PowerTower.Circuit
