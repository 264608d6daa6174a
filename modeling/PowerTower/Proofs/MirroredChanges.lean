import Mathlib
import PowerTower.Proofs.MirroredReduction
import PowerTower.Proofs.Connecting
import PowerTower.Proofs.Copying
import PowerTower.Proofs.Removing

/-!
# Calls on mirrored circuits

Every call of the interface has the same outcome in a mirrored circuit, under other names. The one circuit may check
itself where the other one does not; then the refusals that come from these checks are excused.

* `Renaming.Lenient` : the settings are the same, or the other circuit is unchecked and the refusals of checks are
  excused;
* `Mirror.accumulate?`, `Mirror.attach`, … : calls that check;
* `Mirror.removeNodes`, `Mirror.copy`, … : calls that do not.
-/

namespace PowerTower

/-- The other circuit checks itself if the one does; or it does not, and to be refused by a check is an excuse. -/
def Renaming.Lenient (r : Renaming) (E : CircuitError → Prop) : Prop :=
  ∀ k : Config, (r.config k).checkInvariants = k.checkInvariants ∨
    (r.config k).checkInvariants = false ∧ ∀ n, E (.signOverflow n) ∧ E (.cycleDetected n)

/-- The same other circuits and settings, with the markings as they are. -/
def Renaming.plain (r : Renaming) : Renaming :=
  { r with marking := fun i => i, source := fun j => j, increasing := strictMono_id, marking_source := fun _ => rfl }

theorem Terms.accumulate?_false {strict : Bool} {n : Node} {s : Sign} {ts us : List Term}
    (h : Terms.accumulate? strict n s ts = some us) : Terms.accumulate? false n s ts = some us := by
  unfold Terms.accumulate? at h ⊢
  split_ifs at h ⊢
  · exact h
  · cases hd : Terms.digit? n ts with
    | none =>
      rw [hd] at h
      exact h
    | some old =>
      rw [hd] at h
      dsimp only at h ⊢
      split_ifs at h ⊢ <;> simp_all

theorem Terms.Among.accumulate? {S : Set ℕ} {strict : Bool} {n : Node} {s : Sign} {ts us : List Term}
    (h : Terms.Among S ts)
    (hn : n.index ∈ S) (hus : Terms.accumulate? strict n s ts = some us) : Terms.Among S us := by
  unfold Terms.accumulate? at hus
  split_ifs at hus
  · rwa [← Option.some.inj hus]
  · cases hd : Terms.digit? n ts with
    | none =>
      rw [hd] at hus
      rw [← Option.some.inj hus]
      exact h.append (Terms.among_single hn)
    | some old =>
      rw [hd] at hus
      dsimp only at hus
      split_ifs at hus
      · rw [← Option.some.inj hus]
        exact h.erase n
      · rw [← Option.some.inj hus]
        exact h.set n _

namespace Circuit

variable {r : Renaming} {S T : Set ℕ} {c d : Circuit} {m n : Node} {ts us : List Term} {i j k p : ℕ}
  {E : CircuitError → Prop} {targets : List Node} {addend : List Term}

/-! ## Sums without carries -/

theorem Mirror.accumulate? (hm : Mirror r S c d) (hE : r.Lenient E) (n : Node) (s : Sign) (ts : List Term) :
    (Terms.accumulate? c.config.checkInvariants n s ts = none ∧ E (.signOverflow n)) ∨
      Terms.accumulate? d.config.checkInvariants (r.node n) s (r.terms ts) =
        (Terms.accumulate? c.config.checkInvariants n s ts).map r.terms := by
  rw [hm.config]
  rcases hE c.config with heq | ⟨hfalse, hexcused⟩
  · rw [heq]
    exact .inr (r.accumulate?_terms _ n s ts)
  · rw [hfalse, r.accumulate?_terms]
    cases hus : Terms.accumulate? c.config.checkInvariants n s ts with
    | none => exact .inl ⟨rfl, (hexcused n).1⟩
    | some us => exact .inr (congrArg _ (Terms.accumulate?_false hus))

/-- By induction on the summands. -/
theorem Mirror.sumTerms (hm : Mirror r S c d) (hE : r.Lenient E) (ts us : List Term) :
    (∃ e, sumTerms c.config.checkInvariants ts us = .error e ∧ E e) ∨
      sumTerms d.config.checkInvariants (r.terms ts) (r.terms us) =
        r.answer r.terms (sumTerms c.config.checkInvariants ts us) := by
  induction us generalizing ts with
  | nil => exact .inr rfl
  | cons t us ih =>
    obtain ⟨n, s⟩ := t
    rw [r.terms_cons, Circuit.sumTerms, Circuit.sumTerms]
    rcases hm.accumulate? hE n s ts with ⟨hnone, hexcused⟩ | heq
    · rw [hnone]
      exact .inl ⟨_, rfl, hexcused⟩
    · rw [heq]
      cases Terms.accumulate? c.config.checkInvariants n s ts with
      | none => exact .inr rfl
      | some vs => exact ih vs

/-- By induction on the summands. -/
theorem among_sumTerms {strict : Bool} {vs : List Term} (hts : Terms.Among S ts) (hus : Terms.Among S us)
    (h : sumTerms strict ts us = .ok vs) : Terms.Among S vs := by
  induction us generalizing ts with
  | nil => rwa [← Except.ok.inj h]
  | cons t us ih =>
    obtain ⟨n, s⟩ := t
    obtain ⟨hn, hus⟩ := Terms.among_cons.1 hus
    rw [sumTerms] at h
    cases ha : Terms.accumulate? strict n s ts with
    | none =>
      rw [ha] at h
      cases h
    | some ws =>
      rw [ha] at h
      exact ih (hts.accumulate? hn ha) hus h

/-- By induction on the summands. -/
theorem Mirror.sumSigned (hm : Mirror r S c d) (hE : r.Lenient E) (ts us : List Term) :
    (∃ e, c.sumSigned ts us = .error e ∧ E e) ∨
      d.sumSigned (r.terms ts) (r.terms us) = r.answer r.terms (c.sumSigned ts us) := by
  induction us generalizing ts with
  | nil => exact .inr rfl
  | cons t us ih =>
    obtain ⟨n, s⟩ := t
    rw [r.terms_cons, Circuit.sumSigned, Circuit.sumSigned, hm.checkNode]
    cases c.checkNode n with
    | error e => exact .inr rfl
    | ok u =>
      rcases hm.accumulate? hE n s ts with ⟨hnone, hexcused⟩ | heq
      · refine .inl ⟨.signOverflow n, ?_, hexcused⟩
        rw [hnone]
        rfl
      · rw [heq]
        cases Terms.accumulate? c.config.checkInvariants n s ts with
        | none => exact .inr rfl
        | some vs => exact ih vs

/-- By induction on the summands, all of which are live. -/
theorem Mirror.among_sumSigned (hm : Mirror r S c d) {vs : List Term} (hts : Terms.Among S ts)
    (h : c.sumSigned ts us = .ok vs) : Terms.Among S vs := by
  induction us generalizing ts with
  | nil => rwa [← Except.ok.inj h]
  | cons t us ih =>
    obtain ⟨n, s⟩ := t
    rw [Circuit.sumSigned, Guards.unit_bind_eq_ok, ← live_iff_checkNode] at h
    obtain ⟨hlive, h⟩ := h
    cases ha : Terms.accumulate? c.config.checkInvariants n s ts with
    | none =>
      rw [ha] at h
      cases h
    | some ws =>
      rw [ha] at h
      exact ih (hts.accumulate? (hm.known hlive) ha) h

/-! ## Handles -/

/-- The handle is another circuit's, or its marking has another number. -/
def Numbered (r : Renaming) (c : Circuit) (m : Marking) : Prop := m.circuit = c.id → r.source (r.marking m.id) = m.id

theorem Mirror.numbered (hm : Mirror r S c d) {m : Marking} (hheld : c.Held m) : Numbered r c m := fun hown =>
  hm.held m.id (hheld hown)

/-- A marking and its handle under the other number. -/
def SameMarking (r : Renaming) (_ : Set ℕ) (m k : Marking) : Prop := k = r.handle m

theorem Mirror.checkMarking (hm : Mirror r S c d) (m : Marking) :
    d.checkMarking (r.handle m) = r.answer (fun u => u) (c.checkMarking m) := by
  have hown : (r.handle m).circuit = d.id ↔ m.circuit = c.id := by
    rw [hm.id]
    exact r.injective.eq_iff
  unfold Circuit.checkMarking
  rw [if_congr hown rfl rfl, hm.id]
  split_ifs <;> rfl

section Guarded

variable {α β : Type} {R : Set ℕ → α → β → Prop} {x : Call CircuitError α} {y : Call CircuitError β}

/-- A foreign handle is refused alike, and with an own one the calls go on. -/
theorem Mirror.outcome_own (hm : Mirror r S c d) {m : Marking}
    (hx : m.circuit = c.id → Outcome r.error E r S R (x.run c) (y.run d)) :
    Outcome r.error E r S R ((Call.ask (fun c => c.checkMarking m) >>= fun _ => x).run c)
      ((Call.ask (fun c => c.checkMarking (r.handle m)) >>= fun _ => y).run d) :=
  hm.outcome_ask_bind (.inr (hm.checkMarking m)) fun _ hok => hx (checkMarking_eq_ok_iff.1 hok)

/-- A foreign or stale name is refused alike, and with a live one the calls go on. -/
theorem Mirror.outcome_live (hm : Mirror r S c d) (hx : n.index ∈ S → Outcome r.error E r S R (x.run c) (y.run d)) :
    Outcome r.error E r S R ((Call.ask (fun c => c.checkNode n) >>= fun _ => x).run c)
      ((Call.ask (fun c => c.checkNode (r.node n)) >>= fun _ => y).run d) :=
  hm.outcome_ask_bind (.inr (hm.checkNode n)) fun _ hok => hx (hm.known (live_iff_checkNode.2 hok))

end Guarded

/-! ## Making markings and nodes -/

theorem Mirror.newMarking (hm : Mirror r S c d) (hts : Terms.Among S ts) :
    Abreast r S (SameMarking r) (c.newMarking ts) (d.newMarking (r.terms ts)) := by
  have hsize : r.source d.cells.size = c.cells.size := hm.fresh 0
  have hnumber : r.marking c.cells.size = d.cells.size := by rw [← hsize, r.marking_source]
  have hiff : ∀ j, j = d.cells.size ↔ r.source j = c.cells.size := fun j => by
    rw [← hsize, r.increasing.injective.eq_iff]
  have hmirror : Mirror r S (c.newMarking ts).2 (d.newMarking (r.terms ts)).2 :=
    { hm with
      cells := fun j => by
        rw [newMarking_cellAt, newMarking_cellAt, if_congr (hiff j) rfl rfl, hm.cells]
        split_ifs <;> rfl
      mentioned := fun j => by
        rw [newMarking_cellAt]
        split_ifs
        · exact hts
        · exact hm.mentioned j
      fresh := fun k => by
        rw [newMarking_eq, newMarking_eq, withCells, withCells, Array.size_push, Array.size_push, Nat.add_assoc,
          Nat.add_assoc, hm.fresh]
      held := fun i hi => by
        rw [newMarking_cellAt] at hi
        split_ifs at hi with hnew
        · rw [hnew, hnumber, hsize]
        · exact hm.held i hi }
  refine ⟨S, subset_rfl, hmirror, ?_⟩
  show Marking.mk d.id d.cells.size = ⟨r.circuit c.id, r.marking c.cells.size⟩
  rw [hm.id, hnumber]

theorem Abreast.newMarking {x y : List Term × Circuit} (h : Abreast r S (SameTerms r) x y) :
    Abreast r S (SameMarking r) (x.2.newMarking x.1) (y.2.newMarking y.1) := by
  obtain ⟨T, hST, hmirror, hterms, hamong⟩ := h
  rw [hterms]
  exact (hmirror.newMarking hamong).widen hST

/-- A call that makes a marking of some terms. -/
theorem Abreast.outcome_newMarking (f f' : Circuit → List Term × Circuit) (h : Abreast r S (SameTerms r) (f c) (f' d)) :
    Outcome r.error E r S (SameMarking r)
      ((Call.change fun c => (f c).2.newMarking (f c).1 : Call CircuitError Marking).run c)
      ((Call.change fun d => (f' d).2.newMarking (f' d).1 : Call CircuitError Marking).run d) :=
  h.newMarking.outcome

theorem Mirror.createMarking (hm : Mirror r S c d) (v : ℤ) : Outcome r.error E r S (SameMarking r)
    ((createMarking v).run c) ((createMarking v).run d) :=
  Abreast.outcome_newMarking (Circuit.integerTerms v) (Circuit.integerTerms v) (hm.integerTerms v)

theorem Mirror.markSigned (hm : Mirror r S c d) (hE : r.Lenient E) (ns : List Node) (ss : List Sign) :
    Outcome r.error E r S (SameMarking r) ((markSigned ns ss).run c) ((markSigned (ns.map r.node) ss).run d) := by
  have hzip : (ns.map r.node).zip ss = r.terms (ns.zip ss) := by
    rw [Renaming.terms, List.zip_map_left]
    rfl
  unfold Circuit.markSigned
  rw [List.length_map, hzip]
  split_ifs
  · exact .refused subset_rfl hm
  · exact hm.outcome_ask_bind (hm.sumSigned hE [] _) fun ts hts =>
      (hm.newMarking (hm.among_sumSigned Terms.among_nil hts)).outcome

theorem Mirror.markNodes (hm : Mirror r S c d) (hE : r.Lenient E) (ns : List Node) :
    Outcome r.error E r S (SameMarking r) ((markNodes ns).run c) ((markNodes (ns.map r.node)).run d) := by
  have hplus : (ns.map r.node).map (fun _ => Sign.plus) = ns.map fun _ => Sign.plus := by
    rw [List.map_map]
    rfl
  unfold Circuit.markNodes
  rw [hplus]
  exact hm.markSigned hE ns _

section Reading

variable {a b : Marking}

theorem Mirror.same_termsOf (hm : Mirror r S c d) (ha : Numbered r c a) (hown : a.circuit = c.id) :
    SameTerms r S (c.termsOf a) (d.termsOf (r.handle a)) :=
  ⟨hm.termsOf (ha hown), hm.among_termsOf (ha hown)⟩

theorem Mirror.createNode (hm : Mirror r S c d) (ha : Numbered r c a) :
    Outcome r.error E r S (SameNode r) ((createNode a).run c) ((createNode (r.handle a)).run d) := by
  refine hm.outcome_own fun hown => Abreast.outcome ?_
  obtain ⟨hterms, hamong⟩ := hm.same_termsOf ha hown
  rw [hterms]
  exact hm.alloc hamong

theorem Mirror.cloneNode (hm : Mirror r S c d) (n : Node) :
    Outcome r.error E r S (SameNode r) ((cloneNode n).run c) ((cloneNode (r.node n)).run d) := by
  refine hm.outcome_live fun hn => Abreast.outcome ?_
  rw [hm.successors hn]
  exact hm.alloc (hm.among hn)

theorem Mirror.cloneMarking (hm : Mirror r S c d) (ha : Numbered r c a) :
    Outcome r.error E r S (SameMarking r) ((cloneMarking a).run c) ((cloneMarking (r.handle a)).run d) := by
  refine hm.outcome_own fun hown => ?_
  obtain ⟨hterms, hamong⟩ := hm.same_termsOf ha hown
  have hclone : Abreast r S (SameTerms r) (Circuit.cloneTerms (c.termsOf a) c)
      (Circuit.cloneTerms (d.termsOf (r.handle a)) d) := by
    rw [hterms]
    exact hm.cloneTerms hamong
  exact Abreast.outcome_newMarking (fun c => Circuit.cloneTerms (c.termsOf a) c)
    (fun d => Circuit.cloneTerms (d.termsOf (r.handle a)) d) hclone

theorem Mirror.copyMarking (hm : Mirror r S c d) (ha : Numbered r c a) :
    Outcome r.error E r S (SameMarking r) ((copyMarking a).run c) ((copyMarking (r.handle a)).run d) := by
  refine hm.outcome_own fun hown => Abreast.outcome ?_
  obtain ⟨hterms, hamong⟩ := hm.same_termsOf ha hown
  rw [hterms]
  exact hm.newMarking hamong

theorem Mirror.successorMarking (hm : Mirror r S c d) (n : Node) :
    Outcome r.error E r S (SameMarking r) ((successorMarking n).run c) ((successorMarking (r.node n)).run d) := by
  refine hm.outcome_live fun hn => Abreast.outcome ?_
  rw [hm.successors hn]
  exact hm.newMarking (hm.among hn)

theorem Mirror.invert (hm : Mirror r S c d) (ha : Numbered r c a) :
    Outcome r.error E r S (SameMarking r) ((invert a).run c) ((invert (r.handle a)).run d) := by
  refine hm.outcome_own fun hown => Abreast.outcome ?_
  obtain ⟨hterms, hamong⟩ := hm.same_termsOf ha hown
  rw [hterms, r.flip_terms]
  exact hm.newMarking hamong.flip

theorem Mirror.add (hm : Mirror r S c d) (hE : r.Lenient E) (ha : Numbered r c a) (hb : Numbered r c b) :
    Outcome r.error E r S (SameMarking r) ((add a b).run c) ((add (r.handle a) (r.handle b)).run d) := by
  refine hm.outcome_own fun hown => hm.outcome_own fun hown' => ?_
  obtain ⟨hterms, hamong⟩ := hm.same_termsOf ha hown
  obtain ⟨hterms', hamong'⟩ := hm.same_termsOf hb hown'
  refine hm.outcome_ask_bind (k := r.terms) ?_ fun ts hts =>
    (hm.newMarking (among_sumTerms hamong hamong' hts)).outcome
  rw [hterms, hterms']
  exact hm.sumTerms hE _ _

theorem Mirror.intersect (hm : Mirror r S c d) (ha : Numbered r c a) (hb : Numbered r c b) :
    Outcome r.error E r S (SameMarking r) ((intersect a b).run c) ((intersect (r.handle a) (r.handle b)).run d) := by
  refine hm.outcome_own fun hown => hm.outcome_own fun hown' => Abreast.outcome ?_
  obtain ⟨hterms, hamong⟩ := hm.same_termsOf ha hown
  have hfilter : (d.termsOf (r.handle a)).filter (fun t => d.digitOf (r.handle b) t.1 = t.2) =
      r.terms ((c.termsOf a).filter fun t => c.digitOf b t.1 = t.2) := by
    rw [hterms, Renaming.terms, List.filter_map, Renaming.terms]
    congr 2
    funext t
    show decide (Terms.digit (r.node t.1) (d.termsOf (r.handle b)) = t.2) = _
    rw [hm.termsOf (hb hown'), r.digit_terms]
    rfl
  rw [hfilter]
  exact hm.newMarking (hamong.sublist List.filter_sublist)

theorem Mirror.increment (hm : Mirror r S c d) (ha : Numbered r c a) :
    Outcome r.error E r S (SameMarking r) ((increment a).run c) ((increment (r.handle a)).run d) := by
  refine hm.outcome_own fun hown => ?_
  obtain ⟨hterms, hamong⟩ := hm.same_termsOf ha hown
  have hmore : Abreast r S (SameTerms r) (Circuit.incremented (c.termsOf a) c)
      (Circuit.incremented (d.termsOf (r.handle a)) d) := by
    rw [hterms]
    exact hm.incremented hamong
  exact Abreast.outcome_newMarking (fun c => Circuit.incremented (c.termsOf a) c)
    (fun d => Circuit.incremented (d.termsOf (r.handle a)) d) hmore

end Reading

/-! ## Connecting -/

/-- By induction on the addend. -/
theorem Mirror.extendTerms (hm : Mirror r S c d) (hE : r.Lenient E) (ts us : List Term) :
    (∃ e, (extendTerms c.config.checkInvariants ts us).1 = .error e ∧ E e) ∨
      extendTerms d.config.checkInvariants (r.terms ts) (r.terms us) =
        (r.answer (fun u => u) (extendTerms c.config.checkInvariants ts us).1,
          r.terms (extendTerms c.config.checkInvariants ts us).2) := by
  induction us generalizing ts with
  | nil => exact .inr rfl
  | cons t us ih =>
    obtain ⟨n, s⟩ := t
    rw [r.terms_cons, Circuit.extendTerms, Circuit.extendTerms]
    rcases hm.accumulate? hE n s ts with ⟨hnone, hexcused⟩ | heq
    · rw [hnone]
      exact .inl ⟨_, rfl, hexcused⟩
    · rw [heq]
      cases Terms.accumulate? c.config.checkInvariants n s ts with
      | none => exact .inr rfl
      | some vs => exact ih vs

/-- By induction on the addend. -/
theorem among_extendTerms {strict : Bool} (hts : Terms.Among S ts) (hus : Terms.Among S us) :
    Terms.Among S (extendTerms strict ts us).2 := by
  induction us generalizing ts with
  | nil => exact hts
  | cons t us ih =>
    obtain ⟨n, s⟩ := t
    obtain ⟨hn, hus⟩ := Terms.among_cons.1 hus
    rw [extendTerms]
    cases ha : Terms.accumulate? strict n s ts with
    | none => exact hts
    | some vs => exact ih (hts.accumulate? hn ha) hus

theorem Mirror.extendExponent (hm : Mirror r S c d) (hE : r.Lenient E) (hn : n.index ∈ S)
    (haddend : Terms.Among S addend) :
    Outcome r.error E r S (fun _ _ _ => True) ((extendExponent addend n).run c)
      ((extendExponent (r.terms addend) (r.node n)).run d) := by
  have hextended : Terms.Among S (Circuit.extendTerms c.config.checkInvariants (c.successors n) addend).2 :=
    among_extendTerms (hm.among hn) haddend
  have hmirror := hm.setSuccessors n hextended
  rw [run_extendExponent, run_extendExponent, hm.successors hn]
  rcases hm.extendTerms hE (c.successors n) addend with ⟨e, he, hexcused⟩ | heq
  · rw [he]
    exact .excused hexcused
  · rw [heq]
    cases (Circuit.extendTerms c.config.checkInvariants (c.successors n) addend).1 with
    | error e => exact .refused subset_rfl hmirror
    | ok u => exact .answered subset_rfl hmirror trivial

theorem Mirror.clash? (hm : Mirror r S c d) (htargets : ∀ n ∈ targets, n.index ∈ S) (addend : List Term) :
    d.clash? (targets.map r.node) (r.terms addend) = (c.clash? targets addend).map r.node := by
  unfold Circuit.clash?
  rw [List.find?_map]
  refine congrArg (Option.map r.node) (List.find?_congr fun n hn => ?_)
  rw [Function.comp_apply, hm.successors (htargets n hn), Renaming.terms, List.any_map]
  refine congrArg addend.any (funext fun t => ?_)
  rw [Function.comp_apply, Bool.eq_iff_iff, List.contains_iff_mem, List.contains_iff_mem]
  exact r.mem_terms

theorem Mirror.checkEdges (hm : Mirror r S c d) (htargets : ∀ n ∈ targets, n.index ∈ S)
    (haddend : Terms.Among S addend) :
    d.checkEdges (targets.map r.node) (r.terms addend) = r.answer (fun u => u) (c.checkEdges targets addend) := by
  unfold Circuit.checkEdges
  rw [hm.clash? htargets, r.nodes_terms, hm.reachesAny haddend]
  cases c.clash? targets addend with
  | some n => rfl
  | none => cases c.reachesAny (Terms.nodes addend) targets <;> rfl

/-- Edges are refused for an overflow or a cycle. -/
theorem refusal_of_checkEdges {e : CircuitError} (h : c.checkEdges targets addend = .error e) :
    ∃ n, e = .signOverflow n ∨ e = .cycleDetected n := by
  unfold Circuit.checkEdges at h
  split at h
  · exact ⟨_, .inl (Except.error.inj h).symm⟩
  · split at h
    · exact ⟨_, .inr (Except.error.inj h).symm⟩
    · cases h

theorem Mirror.attach (hm : Mirror r S c d) (hE : r.Lenient E) (htargets : ∀ n ∈ targets, n.index ∈ S)
    (haddend : Terms.Among S addend) : Outcome r.error E r S (fun _ _ _ => True) ((attach targets addend).run c)
      ((attach (targets.map r.node) (r.terms addend)).run d) := by
  have hfind : (targets.map r.node).find? d.isReducedNode = (targets.find? c.isReducedNode).map r.node := by
    rw [List.find?_map]
    exact congrArg (fun q => (targets.find? q).map r.node) (funext hm.isReducedNode)
  cases hreduced : targets.find? c.isReducedNode with
  | some n =>
    rw [hreduced] at hfind
    rw [attach_of_reduced hreduced, attach_of_reduced hfind]
    exact .refused subset_rfl hm
  | none =>
    rw [hreduced] at hfind
    rw [attach_of_pending hreduced, attach_of_pending hfind]
    refine hm.outcome_ask_bind (k := fun u => u) ?_ fun _ _ => ?_
    · rw [hm.checkEdges htargets haddend, hm.config]
      rcases hE c.config with heq | ⟨hfalse, hexcused⟩
      · rw [heq]
        refine .inr ?_
        split_ifs <;> rfl
      · rw [hfalse, if_neg Bool.false_ne_true]
        split_ifs
        · cases hedges : c.checkEdges targets addend with
          | ok u => exact .inr rfl
          | error e =>
            obtain ⟨n, rfl | rfl⟩ := refusal_of_checkEdges hedges
            · exact .inl ⟨_, rfl, (hexcused n).1⟩
            · exact .inl ⟨_, rfl, (hexcused n).2⟩
        · exact .inr rfl
    · exact Mirror.outcome_forM (P := fun S n => n.index ∈ S ∧ Terms.Among S addend)
        (fun S T n hST hn => ⟨hST hn.1, hn.2.mono hST⟩) (fun S c d hm n _ hn => hm.extendExponent hE hn.1 hn.2) hm
        fun n hn => ⟨htargets n hn, haddend⟩

section Connecting

variable {a b : Marking}

theorem Mirror.connect (hm : Mirror r S c d) (hE : r.Lenient E) (ha : Numbered r c a) (hb : Numbered r c b) :
    Outcome r.error E r S (fun _ _ _ => True) ((connect a b).run c) ((connect (r.handle a) (r.handle b)).run d) := by
  refine hm.outcome_own fun hown => hm.outcome_own fun hown' => ?_
  obtain ⟨hterms, hamong⟩ := hm.same_termsOf ha hown
  obtain ⟨hterms', hamong'⟩ := hm.same_termsOf hb hown'
  show Outcome _ _ _ _ _ ((Circuit.attach (c.nodesOf a) (c.termsOf b)).run c)
    ((Circuit.attach (d.nodesOf (r.handle a)) (d.termsOf (r.handle b))).run d)
  rw [nodesOf, nodesOf, hterms, hterms', r.nodes_terms]
  exact hm.attach hE hamong hamong'

theorem Mirror.connectInverse (hm : Mirror r S c d) (hE : r.Lenient E) (ha : Numbered r c a) (hb : Numbered r c b) :
    Outcome r.error E r S (fun _ _ _ => True) ((connectInverse a b).run c)
      ((connectInverse (r.handle a) (r.handle b)).run d) := by
  refine hm.outcome_own fun hown => hm.outcome_own fun hown' => ?_
  obtain ⟨hterms, hamong⟩ := hm.same_termsOf ha hown
  obtain ⟨hterms', hamong'⟩ := hm.same_termsOf hb hown'
  show Outcome _ _ _ _ _ ((Circuit.attach (c.nodesOf a) (Terms.flip (c.termsOf b))).run c)
    ((Circuit.attach (d.nodesOf (r.handle a)) (Terms.flip (d.termsOf (r.handle b)))).run d)
  rw [nodesOf, nodesOf, hterms, hterms', r.nodes_terms, r.flip_terms]
  exact hm.attach hE hamong hamong'.flip

end Connecting

/-! ## Removing -/

theorem Mirror.lowestRank? (hm : Mirror r S c d) (doomed : List Node) :
    d.lowestRank? (doomed.map r.node) = c.lowestRank? doomed := by
  unfold Circuit.lowestRank?
  rw [List.filterMap_map]
  exact congrArg (fun q => (doomed.filterMap q).min?) (funext hm.rank?)

/-- By induction on the nodes. -/
theorem Mirror.foldl_setRank (hm : Mirror r S c d) (l : List Node) (k : Option ℕ) :
    Mirror r S (l.foldl (fun c n => c.setRank n k) c) ((l.map r.node).foldl (fun c n => c.setRank n k) d) := by
  induction l generalizing c d with
  | nil => exact hm
  | cons n l ih => exact ih (hm.setRank n k)

theorem Mirror.demote (hm : Mirror r S c d) (keep : ℕ) : Mirror r S (c.demote keep) (d.demote keep) := by
  have hfold := hm.foldl_setRank (c.order.toList.drop keep) none
  have horder : d.order.toList.drop keep = (c.order.toList.drop keep).map r.node := by
    rw [hm.order, Array.toList_map, List.map_drop]
  rw [← horder] at hfold
  exact { hfold with
    size := by rw [demote_sameNodes.size, demote_sameNodes.size, hm.size]
    slots := fun i => by
      have hslot := hfold.slots i
      have hflags : ∀ (e : Circuit) (l : List Node), l = e.order.toList.drop keep → (e.demote keep).slotAt i =
          { (l.foldl (fun c n => c.setRank n none) e).slotAt i with doubles := false } := fun e l hl => by
        rw [demote_slotAt, foldl_setRank_none_slotAt, hl]
      rw [hflags c _ rfl, hflags d _ rfl]
      exact { hslot with doubles := rfl }
    order := Array.ext_getElem? fun k => by
      rw [Array.getElem?_map, demote_order, demote_order, hm.getElem?]
      split_ifs <;> rfl
    ranked := fun k n hn => by
      rw [demote_order] at hn
      split_ifs at hn
      exact hm.ranked k n hn }

theorem Mirror.demoteFor (hm : Mirror r S c d) (doomed : List Node) :
    Mirror r S (c.demoteFor doomed) (d.demoteFor (doomed.map r.node)) := by
  unfold Circuit.demoteFor
  rw [hm.lowestRank?]
  cases c.lowestRank? doomed with
  | none => exact hm
  | some lowest => exact hm.demote _

/-- By induction on the nodes. -/
theorem Mirror.foldl_freeNode (hm : Mirror r S c d) (doomed : List Node) :
    Mirror r S (doomed.foldl (fun c n => c.freeNode n) c) ((doomed.map r.node).foldl (fun c n => c.freeNode n) d) := by
  induction doomed generalizing c d with
  | nil => exact hm
  | cons n doomed ih => exact ih (hm.freeNode n)

theorem without_terms (doomed : List Node) (ts : List Term) :
    without (.ofList (doomed.map r.node)) (r.terms ts) = r.terms (without (.ofList doomed) ts) := by
  unfold without
  rw [Renaming.terms, List.filter_map, Renaming.terms]
  refine congrArg (List.map r.term) (List.filter_congr fun t _ => congrArg (!·) ?_)
  rw [Bool.eq_iff_iff, Std.HashSet.contains_iff_mem, Std.HashSet.contains_iff_mem, Traversal.mem_ofList_iff,
    Traversal.mem_ofList_iff]
  exact Traversal.mem_map_iff r.node_injective

theorem Mirror.forget (hm : Mirror r S c d) (doomed : List Node) :
    Mirror r S (c.forget (.ofList doomed)) (d.forget (.ofList (doomed.map r.node))) := by
  have hsize : ∀ (e : Circuit) (gone : Std.HashSet Node), (e.forget gone).cells.size = e.cells.size :=
    fun e gone => Array.size_map
  exact { hm with
    size := by
      rw [Circuit.forget, Circuit.forget, Array.size_map, Array.size_map, hm.size]
    slots := fun i => by
      have hslot := hm.slots i
      rw [forget_slotAt, forget_slotAt, hslot.live]
      split_ifs with hlive
      · exact { hslot with
          exponent := fun hknown => by rw [hslot.exponent hknown, without_terms]
          among := fun hknown => (hslot.among hknown).sublist without_sublist }
      · exact hslot
    cells := fun j => by
      rw [forget_cellAt, forget_cellAt, hm.cells]
      show (if 0 < (c.cellAt (r.source j)).handles then _ else _) = _
      split_ifs
      · exact congrArg (Cell.mk · _) (without_terms doomed _)
      · rfl
    mentioned := fun j => by
      rw [forget_cellAt]
      split_ifs
      · exact (hm.mentioned j).sublist without_sublist
      · exact hm.mentioned j
    fresh := fun k => by rw [hsize, hsize, hm.fresh]
    held := fun i hi => by
      rw [forget_cellAt] at hi
      split_ifs at hi <;> exact hm.held i hi }

theorem Mirror.removeNodes (hm : Mirror r S c d) (doomed : List Node) :
    Mirror r S (c.removeNodes doomed) (d.removeNodes (doomed.map r.node)) := by
  have hempty : (doomed.map r.node).isEmpty = doomed.isEmpty := List.isEmpty_map
  unfold Circuit.removeNodes
  rw [hempty]
  split_ifs
  · exact hm
  · exact ((hm.demoteFor doomed).foldl_freeNode doomed).forget doomed

theorem Mirror.remove (hm : Mirror r S c d) {a : Marking} (ha : Numbered r c a) :
    Outcome r.error E r S (fun _ _ _ => True) ((remove a).run c) ((remove (r.handle a)).run d) := by
  refine hm.outcome_own fun hown => .answered subset_rfl ?_ trivial
  rw [nodesOf, nodesOf, hm.termsOf (ha hown), r.nodes_terms]
  exact hm.removeNodes _

/-! ## Copies -/

theorem rehome_terms (id : CircuitId) (ts : List Term) :
    Terms.rehome (r.circuit id) (r.terms ts) = r.terms (Terms.rehome id ts) := by
  unfold Terms.rehome Renaming.terms
  rw [List.map_map, List.map_map]
  rfl

theorem among_rehome (h : Terms.Among S ts) (id : CircuitId) : Terms.Among S (Terms.rehome id ts) := fun n hn => by
  rw [nodes_rehome] at hn
  obtain ⟨m, hm, rfl⟩ := List.mem_map.1 hn
  exact h m hm

theorem Mirror.rehomed (hm : Mirror r S c d) (id : CircuitId) :
    Mirror r.plain S (c.rehomed id) (d.rehomed (r.circuit id)) where
  id := rfl
  config := hm.config
  free := hm.free
  liveNodes := hm.liveNodes
  size := by rw [Circuit.rehomed, Circuit.rehomed, Array.size_map, Array.size_map, hm.size]
  slots := fun i => by
    have hslot := hm.slots i
    rw [rehomed_slotAt, rehomed_slotAt]
    exact { hslot with
      exponent := fun hknown => by
        rw [hslot.exponent hknown]
        exact rehome_terms id _
      among := fun hknown => among_rehome (hslot.among hknown) id }
  order := by
    rw [Circuit.rehomed, Circuit.rehomed, hm.order, Array.map_map, Array.map_map]
    rfl
  ranked := fun k n hn => by
    obtain ⟨m, hk, rfl⟩ := rehomed_order.1 hn
    exact hm.ranked k m hk
  cells := fun j => by simp [Circuit.rehomed, Circuit.cellAt, Renaming.cell]
  mentioned := fun j => by
    simp only [Circuit.rehomed, Circuit.cellAt]
    exact Terms.among_nil
  fresh := fun k => rfl
  held := fun i _ => rfl

/-- By induction on the term lists. -/
theorem Mirror.newMarkings (hm : Mirror r S c d) {tss : List (List Term)} (htss : ∀ ts ∈ tss, Terms.Among S ts) :
    ∃ T, S ⊆ T ∧ Mirror r T (newMarkings tss c).2 (newMarkings (tss.map r.terms) d).2 ∧
      (Circuit.newMarkings (tss.map r.terms) d).1 = (Circuit.newMarkings tss c).1.map r.handle := by
  induction tss generalizing c d S with
  | nil => exact ⟨S, subset_rfl, hm, rfl⟩
  | cons ts tss ih =>
    obtain ⟨T, hST, hmirror, hmarking⟩ := hm.newMarking (htss ts (by simp))
    obtain ⟨U, hTU, hmirror', hmarkings⟩ := ih hmirror fun us hus => (htss us (by simp [hus])).mono hST
    rw [List.map_cons, newMarkings_cons, newMarkings_cons, List.map_cons, hmarkings, hmarking]
    exact ⟨U, hST.trans hTU, hmirror', rfl⟩

end Circuit

end PowerTower
