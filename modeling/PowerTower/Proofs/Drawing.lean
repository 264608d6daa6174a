import Mathlib
import PowerTower.Proofs.Depiction
import PowerTower.Proofs.Encoding
import PowerTower.Proofs.MirroredCalls
import PowerTower.Proofs.Smallest

/-!
# What a drawing shows

The nodes of a drawing come from two sources, the reduced order and the places that hold pending nodes, and they are
named by their places, without their generations. In a well-formed circuit the two sources have each live node once, and
live nodes do not share places, so that the drawing leaves out nothing, repeats nothing and joins nothing but what
belongs together.

* `figures`, `drawing_eq` : the parts of the drawing of a linked circuit, or the first marking of another circuit;
* `Shows` : what a part says of the circuit;
* `Linked.depicts`, `Linked.readable` : what the lines of these parts read, in their order and each by itself;
* `drawing_is_faithful` : the drawing is refused for a marking of another circuit only, and otherwise its text reads
  what the circuit has.
-/

namespace PowerTower

namespace Circuit

open Guards

variable {c : Circuit} {m n : Node} {shown : List Marking} {k : ℕ}

/-! ## The parts of a drawing -/

/-- A node with its rank. -/
def nodeFigure (c : Circuit) (n : Node) : Figure := .node n (c.rank? n)

/-- The entries of an exponent. -/
def exponentFigures (c : Circuit) (n : Node) : List Figure := (c.successors n).map fun t => .edge n.index t.1.index t.2

/-- The terms of a marking. -/
def pointerFigures (c : Circuit) (entry : Marking × String × ℕ) : List Figure :=
  (c.termsOf entry.1).map fun t => .pointer entry.2.2 entry.2.1 t.1.index t.2

/-- A marking: its box, then its terms. -/
def markingFigures (c : Circuit) (entry : Marking × String × ℕ) : List Figure :=
  .box entry.2.2 entry.2.1 entry.1.id :: c.pointerFigures entry

/-- The markings that are drawn, with their colours and their numbers in the drawing. -/
def highlighted (shown : List Marking) : List (Marking × String × ℕ) := shown.zip highlightColours.zipIdx

/-- The parts of a drawing in which nothing is refused. -/
def figures (c : Circuit) (shown : List Marking) : List Figure :=
  c.nodes.map c.nodeFigure ++ (c.nodes.flatMap c.exponentFigures ++ (highlighted shown).flatMap c.markingFigures)

/-! ### Refusals -/

/-- The first element that is refused refuses them all. -/
theorem mapM_eq_find? {α β : Type} {f : α → Except CircuitError β} {p : α → Bool} {e : α → CircuitError} {g : α → β}
    (hf : ∀ x, f x = if p x then .error (e x) else .ok (g x)) (xs : List α) :
    xs.mapM f = match xs.find? p with
      | some x => .error (e x)
      | none => .ok (xs.map g) := by
  induction xs with
  | nil => rfl
  | cons x xs ih =>
    rw [List.mapM_cons, hf, ih, List.find?_cons]
    cases p x with
    | true => rfl
    | false => cases xs.find? p <;> rfl

theorem map_fst_highlighted (shown : List Marking) : (highlighted shown).map Prod.fst = shown.take 9 := by
  rw [highlighted, List.zip_eq_zip_take_min, List.map_fst_zip (by simp)]
  simp [highlightColours, List.take_eq_take_iff, Nat.min_comm]

theorem drawMarking_eq (entry : Marking × String × ℕ) : c.drawMarking entry =
    if decide (entry.1.circuit ≠ c.id) then .error (.foreignCircuit c.id entry.1.circuit)
    else .ok (c.markingFigures entry) := by
  unfold drawMarking checkMarking
  by_cases hown : entry.1.circuit = c.id
  · simp [hown, markingFigures, pointerFigures, bind, Except.bind, pure, Except.pure]
  · simp [hown, bind, Except.bind]

theorem Linked.mem_nodes_iff (h : c.Linked) : n ∈ c.nodes ↔ c.Live n := by
  rw [nodes, List.mem_append, h.mem_order, mem_pendingNodes]
  exact ⟨fun hn => hn.elim (·.1) (·.1), reduced_or_pending⟩

/-- Nothing but a marking of another circuit is refused. -/
theorem Linked.drawing_eq (h : c.Linked) (shown : List Marking) :
    c.drawing shown = match (shown.take 9).find? fun m => m.circuit ≠ c.id with
      | some m => .error (.foreignCircuit c.id m.circuit)
      | none => .ok (c.figures shown) := by
  have hnodes : c.nodes.mapM c.drawNode = .ok (c.nodes.map c.nodeFigure) := mapM_eq_ok fun n hn => by
    rw [drawNode, orderOf, live_iff_checkNode.1 (h.mem_nodes_iff.1 hn)]
    rfl
  have hedges : c.nodes.mapM c.drawExponent = .ok (c.nodes.map c.exponentFigures) := mapM_eq_ok fun n hn => by
    rw [drawExponent, successorTerms, live_iff_checkNode.1 (h.mem_nodes_iff.1 hn)]
    rfl
  have hboxes := mapM_eq_find? (f := c.drawMarking) drawMarking_eq (highlighted shown)
  rw [← map_fst_highlighted, List.find?_map, drawing, hnodes, hedges]
  show ((highlighted shown).mapM c.drawMarking >>= fun boxes => _) = _
  rw [hboxes]
  simp only [Function.comp_def]
  cases (highlighted shown).find? fun entry => decide (entry.1.circuit ≠ c.id) with
  | none => simp [figures, List.flatMap, pure, Except.pure, bind, Except.bind]
  | some entry => rfl

/-! ## What the parts say -/

/-- What a part says of the circuit and of the markings that are drawn. -/
def Shows (c : Circuit) (shown : List Marking) : Figure → Prop
  | .node n rank => c.Live n ∧ rank = c.rank? n
  | .edge i j s => ∃ n, c.Live n ∧ ∃ m, (m, s) ∈ c.successors n ∧ n.index = i ∧ m.index = j
  | .box k colour number => ∃ m, shown[k]? = some m ∧ highlightColours[k]? = some colour ∧ number = m.id
  | .pointer k colour j s => ∃ m, shown[k]? = some m ∧ highlightColours[k]? = some colour ∧
      ∃ n, (n, s) ∈ c.termsOf m ∧ n.index = j

theorem mem_highlighted {m : Marking} {colour : String} :
    (m, colour, k) ∈ highlighted shown ↔ shown[k]? = some m ∧ highlightColours[k]? = some colour := by
  rw [highlighted, List.mem_iff_getElem?]
  simp only [List.getElem?_zip_eq_some, List.getElem?_zipIdx, Option.map_eq_some_iff, Prod.mk.injEq, Nat.zero_add]
  constructor
  · rintro ⟨_, hm, _, hcolour, rfl, rfl⟩
    exact ⟨hm, hcolour⟩
  · exact fun ⟨hm, hcolour⟩ => ⟨k, hm, colour, hcolour, rfl, rfl⟩

/-- There are nine colours, so that what has one is among the first nine. -/
theorem mem_take_of_coloured {m : Marking} {colour : String} (hm : shown[k]? = some m)
    (hcolour : highlightColours[k]? = some colour) : m ∈ shown.take 9 := by
  rw [← map_fst_highlighted]
  exact List.mem_map_of_mem (mem_highlighted.2 ⟨hm, hcolour⟩)

theorem Linked.mem_figures_iff (h : c.Linked) (f : Figure) : f ∈ c.figures shown ↔ c.Shows shown f := by
  simp only [figures, List.mem_append, List.mem_map, List.mem_flatMap, h.mem_nodes_iff]
  cases f <;>
    simp [Shows, nodeFigure, exponentFigures, markingFigures, pointerFigures, mem_highlighted, and_assoc, eq_comm]

/-! ### Each part once -/

theorem Linked.nodup_nodes (h : c.Linked) (horder : c.order.toList.Nodup) : c.nodes.Nodup := by
  refine List.nodup_append.2 ⟨horder, nodup_pendingNodes, fun m hm n hn heq => ?_⟩
  exact (mem_pendingNodes.1 hn).not_reduced (heq ▸ h.mem_order.1 hm)

theorem Proper.index_injOn {ts : List Term} (h : c.Proper ts) {t u : Term} (ht : t ∈ ts) (hu : u ∈ ts)
    (heq : t.1.index = u.1.index) : t = u := by
  have hnode := (h.live t.1 (Terms.mem_nodes_of_mem ht)).eq_of_index (h.live u.1 (Terms.mem_nodes_of_mem hu)) heq
  exact List.inj_on_of_nodup_map h.nodup ht hu hnode

theorem Linked.nodup_exponentFigures (h : c.Linked) (hnodes : c.nodes.Nodup) :
    (c.nodes.flatMap c.exponentFigures).Nodup := by
  refine List.nodup_flatMap.2 ⟨fun n hn => ?_, hnodes.pairwise_of_forall_ne fun m hm n hn hne f hf hf' => ?_⟩
  · have hproper := h.exponents n (h.mem_nodes_iff.1 hn)
    refine List.Nodup.map_on (fun t ht u hu heq => ?_) hproper.toProper.nodup.of_map
    exact hproper.index_injOn ht hu (Figure.edge.inj heq).2.1
  · obtain ⟨t, -, rfl⟩ := List.mem_map.1 hf
    obtain ⟨u, -, heq⟩ := List.mem_map.1 hf'
    exact hne ((h.mem_nodes_iff.1 hm).eq_of_index (h.mem_nodes_iff.1 hn) (Figure.edge.inj heq).1.symm)

theorem nodup_highlighted (shown : List Marking) : (highlighted shown).Nodup := by
  have hcolours : highlightColours.zipIdx.Nodup := by decide
  refine List.Nodup.of_map Prod.snd ?_
  rw [highlighted, List.zip_eq_zip_take_min, List.map_snd_zip (by simp)]
  exact hcolours.sublist (List.take_sublist _ _)

theorem nodup_markingFigures (hmarked : ∀ m ∈ shown.take 9, c.Proper (c.termsOf m)) :
    ((highlighted shown).flatMap c.markingFigures).Nodup := by
  have hnumber : ∀ entry f, f ∈ c.markingFigures entry → f.number = entry.2.2 := fun entry f hf => by
    rcases List.mem_cons.1 hf with rfl | hf
    · rfl
    · obtain ⟨t, -, rfl⟩ := List.mem_map.1 hf
      rfl
  refine List.nodup_flatMap.2 ⟨fun entry hentry => ?_, (nodup_highlighted shown).pairwise_of_forall_ne
    fun a ha b hb hne f hf hf' => hne ?_⟩
  · have hproper := hmarked entry.1 (map_fst_highlighted shown ▸ List.mem_map_of_mem hentry)
    refine List.nodup_cons.2 ⟨by simp [pointerFigures],
      List.Nodup.map_on (fun t ht u hu heq => ?_) hproper.toProper.nodup.of_map⟩
    exact hproper.index_injOn ht hu (Figure.pointer.inj heq).2.2.1
  · obtain ⟨m, colour, k⟩ := a
    obtain ⟨m', colour', k'⟩ := b
    obtain rfl : k = k' := (hnumber _ f hf).symm.trans (hnumber _ f hf')
    obtain ⟨hm, hcolour⟩ := mem_highlighted.1 ha
    obtain ⟨hm', hcolour'⟩ := mem_highlighted.1 hb
    rw [Option.some.inj (hm.symm.trans hm'), Option.some.inj (hcolour.symm.trans hcolour')]

theorem Linked.nodup_figures (h : c.Linked) (horder : c.order.toList.Nodup)
    (hmarked : ∀ m ∈ shown.take 9, c.Proper (c.termsOf m)) : (c.figures shown).Nodup := by
  have hnodes := h.nodup_nodes horder
  refine List.nodup_append.2 ⟨hnodes.map fun _ _ heq => (Figure.node.inj heq).1, List.nodup_append.2
    ⟨h.nodup_exponentFigures hnodes, nodup_markingFigures hmarked, ?_⟩, ?_⟩
  · simp only [exponentFigures, markingFigures, pointerFigures, List.mem_flatMap, List.mem_map, List.mem_cons]
    rintro _ ⟨n, -, t, -, rfl⟩ _ ⟨entry, -, rfl | ⟨u, -, rfl⟩⟩ <;> simp
  · simp only [nodeFigure, exponentFigures, markingFigures, pointerFigures, List.mem_append, List.mem_flatMap,
      List.mem_map, List.mem_cons]
    rintro _ ⟨n, -, rfl⟩ _ (⟨m, -, t, -, rfl⟩ | ⟨entry, -, rfl | ⟨u, -, rfl⟩⟩) <;> simp

/-! ## What the lines read -/

theorem marked_edgeLabel {s : Sign} (hs : s ≠ .zero) : Marked s s.edgeLabel := by
  cases s with
  | zero => exact absurd rfl hs
  | plus => exact .plus
  | minus => exact .minus

theorem titled_render (n : Node) : Titled n n.render := by
  unfold Node.render
  split_ifs with hfirst
  · exact .first hfirst
  · exact .later hfirst

theorem Linked.nodeLine (h : c.Linked) (hn : c.Live n) : c.NodeLine n (c.nodeFigure n).line := by
  unfold nodeFigure
  cases hr : c.rank? n with
  | some r =>
    have hlabel : (Figure.node n (some r)).line = s!"  n{n.index} [label=\"R{r}\", tooltip=\"{n.render}\"];" := by
      rw [← String.toList_inj]
      simp [Figure.line, rankLabel, toString]
    exact hlabel ▸ .reduced ((h.ranked r n).2 ⟨hn, hr⟩) (titled_render n)
  | none =>
    have hlabel : (Figure.node n none).line = s!"  n{n.index} [label=\"\", tooltip=\"{n.render}\"];" := by
      rw [← String.toList_inj]
      simp [Figure.line, rankLabel, toString]
    exact hlabel ▸ .pending ⟨hn, hr⟩ (titled_render n)

theorem Proper.termLines {ts : List Term} (h : c.Proper ts) (k : ℕ) (colour : String) :
    List.Forall₂ (TermLine k colour) ts (ts.map fun t => (Figure.pointer k colour t.1.index t.2).line) := by
  rw [List.forall₂_map_right_iff, List.forall₂_same]
  exact fun t ht => .entry (marked_edgeLabel (h.nonzero t ht))

/-- The markings that are drawn are numbered from zero on. -/
theorem zipIdx_take_nine (shown : List Marking) :
    (shown.take 9).zipIdx = (highlighted shown).map fun e => (e.1, e.2.2) := by
  rw [← map_fst_highlighted]
  refine List.ext_getElem? fun k => ?_
  simp only [List.getElem?_map, List.getElem?_zipIdx, Nat.zero_add]
  cases hk : (highlighted shown)[k]? with
  | none => rfl
  | some e =>
    obtain ⟨m, colour, k'⟩ := e
    have hnumber : highlightColours.zipIdx[k]? = some (colour, k') := (List.getElem?_zip_eq_some.1 hk).2
    rw [List.getElem?_zipIdx] at hnumber
    obtain ⟨_, _, hpair⟩ := Option.map_eq_some_iff.1 hnumber
    obtain rfl : 0 + k = k' := (Prod.mk.inj hpair).2
    simp

/-- As many as the circuit counts. -/
theorem Linked.length_edges (h : c.Linked) (horder : c.order.toList.Nodup) :
    (c.nodes.flatMap c.exponentFigures).length = c.stats.edges := by
  have hperm : c.nodes.Perm c.liveNodeList :=
    (List.perm_ext_iff_of_nodup (h.nodup_nodes horder) nodup_liveNodeList).2 fun n => by
    rw [h.mem_nodes_iff, mem_liveNodeList]
  calc (c.nodes.flatMap c.exponentFigures).length = (c.nodes.map fun n => (c.successors n).length).sum := by
        simp [List.length_flatMap, exponentFigures]
    _ = (c.liveNodeList.map fun n => (c.successors n).length).sum := (hperm.map _).sum_eq
    _ = c.stats.edges := by
        rw [stats, edgeCount_eq, liveNodeList, liveIndices, List.map_map, List.sum_map_ite]
        simp [Function.comp_def, nodeAt, successors, slot]

theorem Linked.depicts (h : c.Linked) (horder : c.order.toList.Nodup)
    (hmarked : ∀ m ∈ shown.take 9, c.Proper (c.termsOf m)) :
    c.Depicts shown c.nodes (c.nodes.map fun n => (c.nodeFigure n).line)
      ((c.nodes.flatMap c.exponentFigures).map Figure.line)
      ((highlighted shown).map fun e => (c.markingFigures e).map Figure.line) where
  live := fun n => h.mem_nodes_iff
  once := h.nodup_nodes horder
  reducedFirst := ⟨c.pendingNodes, rfl, fun n hn => mem_pendingNodes.1 hn⟩
  declared := by
    rw [List.forall₂_map_right_iff, List.forall₂_same]
    exact fun n hn => h.nodeLine (h.mem_nodes_iff.1 hn)
  entries := by
    have hentries : (c.nodes.flatMap c.exponentFigures).map Figure.line =
        (c.nodes.flatMap fun n => (c.successors n).map (n, ·)).map fun e =>
          (Figure.edge e.1.index e.2.1.index e.2.2).line := by
      simp [List.map_flatMap, exponentFigures, Function.comp_def]
    rw [hentries, List.forall₂_map_right_iff, List.forall₂_same]
    rintro ⟨n, t⟩ hentry
    obtain ⟨n, hn, hentry⟩ := List.mem_flatMap.1 hentry
    obtain ⟨t, ht, heq⟩ := List.mem_map.1 hentry
    obtain ⟨rfl, rfl⟩ := Prod.mk.inj heq
    exact .entry (marked_edgeLabel ((h.exponents n (h.mem_nodes_iff.1 hn)).nonzero t ht))
  edgeCount := by rw [List.length_map, h.length_edges horder]
  markings := by
    rw [zipIdx_take_nine, List.forall₂_map_left_iff, List.forall₂_map_right_iff, List.forall₂_same]
    rintro ⟨m, colour, k⟩ hm
    obtain ⟨hshown, hcolour⟩ := mem_highlighted.1 hm
    refine .box hcolour ?_
    rw [pointerFigures, List.map_map]
    exact (hmarked m (mem_take_of_coloured hshown hcolour)).termLines k colour

/-! ## What a line tells -/

theorem Linked.legible (h : c.Linked) (hmarked : ∀ m ∈ shown.take 9, c.Proper (c.termsOf m)) {f : Figure}
    (hf : f ∈ c.figures shown) : f.Legible c.id := by
  have hshows := (h.mem_figures_iff f).1 hf
  cases f with
  | node n rank => exact hshows.1.1
  | edge i j s =>
    obtain ⟨n, hn, m, hm, -, -⟩ := hshows
    exact (h.exponents n hn).nonzero _ hm
  | box k colour number =>
    obtain ⟨m, -, hcolour, -⟩ := hshows
    exact List.mem_of_getElem? hcolour
  | pointer k colour j s =>
    obtain ⟨m, hm, hcolour, n, hn, -⟩ := hshows
    exact ⟨List.mem_of_getElem? hcolour, (hmarked m (mem_take_of_coloured hm hcolour)).nonzero _ hn⟩

/-- The lines of a drawing in which nothing is refused. -/
def drawnLines (c : Circuit) (shown : List Marking) : List String :=
  dotHead ++ (c.figures shown).map Figure.line ++ [dotFoot]

theorem drawnLines_eq (c : Circuit) (shown : List Marking) :
    c.drawnLines shown = dotLines (c.nodes.map fun n => (c.nodeFigure n).line)
      ((c.nodes.flatMap c.exponentFigures).map Figure.line)
      ((highlighted shown).map fun e => (c.markingFigures e).map Figure.line) := by
  simp [drawnLines, dotLines, figures, dotHead, dotFoot, List.flatMap, Function.comp_def]

theorem Linked.line_mem_drawnLines (h : c.Linked) {f : Figure} (hf : c.Shows shown f) :
    f.line ∈ c.drawnLines shown := by
  refine List.mem_append_left _ (List.mem_append_right _ (List.mem_map_of_mem ?_))
  exact (h.mem_figures_iff f).2 hf

/-- A line that opens with a letter and a number is that of a part. -/
theorem Linked.exists_figure (h : c.Linked) {line : String} {x : Char} {k : ℕ} {rest : List Char}
    (hline : line ∈ c.drawnLines shown) (hopens : Opens line x k rest) : ∃ f, c.Shows shown f ∧ f.line = line := by
  have hpart : line ∈ (c.figures shown).map Figure.line := by
    by_contra hout
    refine not_opens_frame ?_ hopens
    simp only [drawnLines, List.mem_append] at hline ⊢
    tauto
  obtain ⟨f, hf, rfl⟩ := List.mem_map.1 hpart
  exact ⟨f, (h.mem_figures_iff f).1 hf, rfl⟩

theorem Linked.exists_declares (h : c.Linked) (hn : c.Live n) : ∃ d ∈ c.drawnLines shown, Declares d s!"n{n.index}" :=
  ⟨_, h.line_mem_drawnLines (f := c.nodeFigure n) ⟨hn, rfl⟩, declares_node n (c.rank? n)⟩

/-- A line that declares a node is the line of this node. -/
theorem Linked.eq_line_of_declares (h : c.Linked) (hn : c.Live n) {line : String} (hline : line ∈ c.drawnLines shown)
    (hdeclares : Declares line s!"n{n.index}") : line = (c.nodeFigure n).line := by
  obtain ⟨rest, hopens⟩ := (declares_iff (node_name n.index)).1 hdeclares
  obtain ⟨f, hf, rfl⟩ := h.exists_figure hline hopens
  obtain ⟨m, rank, rfl, hindex⟩ := eq_node_of_declares hdeclares
  obtain ⟨hm, rfl⟩ := hf
  rw [hm.eq_of_index hn hindex, nodeFigure]

theorem Linked.nodup_drawnLines (h : c.Linked) (horder : c.order.toList.Nodup)
    (hmarked : ∀ m ∈ shown.take 9, c.Proper (c.termsOf m)) : (c.drawnLines shown).Nodup := by
  have hparts : ((c.figures shown).map Figure.line).Nodup :=
    (h.nodup_figures horder hmarked).map_on fun f hf g hg heq =>
      Figure.line_inj (h.legible hmarked hf) (h.legible hmarked hg) heq
  have hframe : (dotHead ++ [dotFoot]).Nodup := by decide
  have hperm : (c.drawnLines shown).Perm ((dotHead ++ [dotFoot]) ++ (c.figures shown).map Figure.line) := by
    rw [drawnLines, List.append_assoc, List.append_assoc]
    exact List.perm_append_comm.append_left dotHead
  refine hperm.nodup_iff.2 (List.nodup_append.2 ⟨hframe, hparts, ?_⟩)
  rintro line hline _ hpart rfl
  obtain ⟨f, -, rfl⟩ := List.mem_map.1 hpart
  exact not_opens_frame hline f.opens_line

theorem Linked.readable (h : c.Linked) (horder : c.order.toList.Nodup)
    (hmarked : ∀ m ∈ shown.take 9, c.Proper (c.termsOf m)) :
    c.Readable (c.drawnLines shown) ((c.nodes.flatMap c.exponentFigures).map Figure.line) where
  once := h.nodup_drawnLines horder hmarked
  declared := fun n hn => by
    obtain ⟨d, hd, hdeclares⟩ : ∃ d ∈ c.drawnLines shown, Declares d s!"n{n.index}" := h.exists_declares hn
    refine ⟨d, ⟨hd, hdeclares⟩, fun line hline => ?_⟩
    rw [h.eq_line_of_declares hn hd hdeclares, h.eq_line_of_declares hn hline.1 hline.2]
  named := fun m n hm hn hname => hm.eq_of_index hn (dotName_inj hname)
  joined := fun line hline i j hjoins => by
    obtain ⟨rest, hopens⟩ := hjoins.opens (node_name i)
    obtain ⟨f, hf, rfl⟩ := h.exists_figure hline hopens
    obtain ⟨s, rfl⟩ := eq_edge_of_joins hjoins
    obtain ⟨n, hn, m, hm, rfl, rfl⟩ := hf
    refine ⟨List.mem_map_of_mem ?_, h.exists_declares hn, h.exists_declares (h.live_of_below hn (below_of_mem hm))⟩
    exact List.mem_flatMap.2 ⟨n, h.mem_nodes_iff.2 hn, List.mem_map.2 ⟨(m, s), hm, rfl⟩⟩
  pointed := fun line hline k j hjoins => by
    obtain ⟨rest, hopens⟩ := hjoins.opens (box_name k)
    obtain ⟨f, hf, rfl⟩ := h.exists_figure hline hopens
    obtain ⟨colour, s, rfl⟩ := eq_pointer_of_joins hjoins
    obtain ⟨m, hm, hcolour, n, hn, rfl⟩ := hf
    have hbox : c.Shows shown (.box k colour m.id) := ⟨m, hm, hcolour, rfl⟩
    have hlive := (hmarked m (mem_take_of_coloured hm hcolour)).live n (Terms.mem_nodes_of_mem hn)
    exact ⟨⟨_, h.line_mem_drawnLines hbox, declares_box k colour m.id⟩, h.exists_declares hlive⟩

theorem Linked.newline_notMem_drawnLines (h : c.Linked) (hmarked : ∀ m ∈ shown.take 9, c.Proper (c.termsOf m)) :
    ∀ line ∈ c.drawnLines shown, '\n' ∉ line.toList := by
  have hhead : ∀ line ∈ dotHead, '\n' ∉ line.toList := by decide
  have hfoot : ∀ line ∈ [dotFoot], '\n' ∉ line.toList := by decide
  have hparts : ∀ line ∈ (c.figures shown).map Figure.line, '\n' ∉ line.toList := by
    rintro _ hline
    obtain ⟨f, hf, rfl⟩ := List.mem_map.1 hline
    exact Figure.newline_notMem_line (h.legible hmarked hf)
  exact List.forall_mem_append.2 ⟨List.forall_mem_append.2 ⟨hhead, hparts⟩, hfoot⟩

/-- A drawing is refused if and only if one of the first nine markings is of another circuit, and the first one of these
is named. Otherwise its lines declare each live node once, the reduced ones first and by rank, have each entry of their
exponents and the first nine of the markings that are shown, and join only what is declared. -/
theorem drawing_is_faithful (h : c.WellFormed) (shown : List Marking) (hheld : ∀ m ∈ shown.take 9, c.Held m) :
    (∀ e, c.toDot shown = .error e ↔
      ∃ m, ((shown.take 9).find? fun m => m.circuit ≠ c.id) = some m ∧ e = .foreignCircuit c.id m.circuit) ∧
    ((∀ m ∈ shown.take 9, m.circuit = c.id) → ∃ text nodes nodeLines edgeLines markingLines, c.toDot shown = .ok text ∧
      linesOf text = dotLines nodeLines edgeLines markingLines ++ [""] ∧
      c.Depicts shown nodes nodeLines edgeLines markingLines ∧
      c.Readable (dotLines nodeLines edgeLines markingLines) edgeLines) := by
  have hdrawing := h.drawing_eq shown
  have htext : ∀ figures, c.drawing shown = .ok figures → c.toDot shown =
      .ok (String.join ((dotHead ++ figures.map Figure.line ++ [dotFoot]).map (· ++ "\n"))) := fun figures heq => by
    rw [toDot, heq]
    rfl
  refine ⟨fun e => ?_, fun hown => ?_⟩
  · cases hfind : (shown.take 9).find? fun m => m.circuit ≠ c.id with
    | some m =>
      rw [hfind] at hdrawing
      rw [toDot, hdrawing]
      show (Except.error (.foreignCircuit c.id m.circuit) : Except CircuitError String) = .error e ↔ _
      simp [eq_comm]
    | none =>
      rw [hfind] at hdrawing
      rw [htext _ hdrawing]
      simp
  · have hmarked : ∀ m ∈ shown.take 9, c.Proper (c.termsOf m) := fun m hm => (hheld m hm).proper h.tied (hown m hm)
    have hfind : ((shown.take 9).find? fun m => m.circuit ≠ c.id) = none :=
      List.find?_eq_none.2 fun m hm => by simp [hown m hm]
    rw [hfind] at hdrawing
    have hnodup := h.grounded.nodup_order
    refine ⟨_, _, _, _, _, htext _ hdrawing, ?_, h.depicts hnodup hmarked,
      drawnLines_eq c shown ▸ h.readable hnodup hmarked⟩
    rw [← drawnLines_eq]
    exact linesOf_join (h.newline_notMem_drawnLines hmarked)

/-- Three nodes with three edges, and the markings of seven with two and three terms. A marking of another circuit is
refused. -/
theorem drawing_of_sevens : sevenTwice.WellFormed ∧
    (∃ text nodes nodeLines edgeLines markingLines, sevenTwice.toDot [⟨⟨0⟩, 0⟩, ⟨⟨0⟩, 1⟩] = .ok text ∧
      linesOf text = dotLines nodeLines edgeLines markingLines ++ [""] ∧
      sevenTwice.Depicts [⟨⟨0⟩, 0⟩, ⟨⟨0⟩, 1⟩] nodes nodeLines edgeLines markingLines ∧
      sevenTwice.Readable (dotLines nodeLines edgeLines markingLines) edgeLines ∧
      edgeLines.length = 3 ∧ markingLines.length = 2) ∧
    sevenTwice.toDot [⟨⟨0⟩, 0⟩, ⟨⟨1⟩, 0⟩] = .error (.foreignCircuit ⟨0⟩ ⟨1⟩) := by
  have hheld : ∀ m ∈ [⟨⟨0⟩, 0⟩, ⟨⟨0⟩, 1⟩].take 9, sevenTwice.Held m := fun m hm _ => by revert m; decide
  have hforeign : ∀ m ∈ [⟨⟨0⟩, 0⟩, ⟨⟨1⟩, 0⟩].take 9, sevenTwice.Held m := fun m hm _ => by revert m; decide
  obtain ⟨-, hdrawn⟩ := drawing_is_faithful wellFormed_sevenTwice _ hheld
  obtain ⟨hrefused, -⟩ := drawing_is_faithful wellFormed_sevenTwice _ hforeign
  obtain ⟨text, nodes, nodeLines, edgeLines, markingLines, htext, hlines, hdepicts, hreadable⟩ := hdrawn (by decide)
  exact ⟨wellFormed_sevenTwice, ⟨text, nodes, nodeLines, edgeLines, markingLines, htext, hlines, hdepicts, hreadable,
    hdepicts.edgeCount, hdepicts.markings.length_eq.symm⟩, (hrefused _).2 ⟨⟨⟨1⟩, 0⟩, rfl, rfl⟩⟩

example : sevenTwice.toDot [⟨⟨0⟩, 0⟩] = .ok
    ("digraph power_circuit \x7b\n  rankdir=BT;\n  node [shape=circle, fontsize=10];\n" ++
      "  n0 [label=\"R0\", tooltip=\"n0\"];\n  n1 [label=\"R1\", tooltip=\"n1\"];\n" ++
      "  n2 [label=\"R2\", tooltip=\"n2\"];\n" ++
      "  n1 -> n0 [label=\"+\"];\n  n2 -> n0 [label=\"+\"];\n  n2 -> n1 [label=\"+\"];\n" ++
      "  h0 [shape=box, color=\"#e41a1c\", fontcolor=\"#e41a1c\", label=\"m0\"];\n" ++
      "  h0 -> n2 [color=\"#e41a1c\", label=\"+\"];\n  h0 -> n0 [color=\"#e41a1c\", label=\"-\"];\n\x7d\n") := by
  decide +kernel

end Circuit

end PowerTower
