import Mathlib
import PowerTower.Proofs.Cloning
import PowerTower.Proofs.Markings
import PowerTower.Proofs.Frozen

/-!
# Runs that take nothing out

* `Freezes` : a call leaves the circuit grounded, and all that is reduced as it was;
* `Grounded.freezes_createMarking`, …, `Grounded.freezes_attach` : what makes nodes and markings does so, and what gives
  pending nodes other exponents, cycles or not;
* `Grounded.runReduce`, `Grounded.freezes_reduce` : so does a reduction of legal nodes;
* `Undisturbed` : the states that a circuit comes to by such calls;
* `reduced_structure_is_frozen` : in all of them what was reduced is as it was.
-/

namespace PowerTower.Circuit

open Guards

variable {B : ℕ → Bool} {c d : Circuit} {a b m : Marking} {n : Node} {ts : List Term} {targets frontier : List Node}
  {addend : List Term} {done sorted : List Node}

/-- The circuit is grounded after the call, and what was reduced is as it was. -/
structure Freezes {α : Type} (x : Call CircuitError α) (c : Circuit) : Prop where
  grounded : (x.run c).2.Grounded
  frozen : Frozen c (x.run c).2

section Freezing

variable {α β : Type} {x : Call CircuitError α} {f : α → Call CircuitError β}

theorem Grounded.freezes_of_unchanged (h : c.Grounded) (hrun : (x.run c).2 = c) : Freezes x c :=
  ⟨by rwa [hrun], by rw [hrun]; exact .refl c⟩

theorem Freezes.of_run_eq {y : Call CircuitError α} (h : Freezes y c) (hrun : x.run c = y.run c) : Freezes x c :=
  ⟨hrun ▸ h.grounded, hrun ▸ h.frozen⟩

theorem Freezes.silent (h : Freezes x c) : Freezes (silent x) c := by
  refine ⟨?_, ?_⟩
  all_goals rw [run_silent]
  exacts [h.grounded, h.frozen]

theorem Grounded.freezes_ask (h : c.Grounded) (q : Circuit → Except CircuitError α) : Freezes (Call.ask q) c :=
  h.freezes_of_unchanged rfl

theorem Grounded.freezes_read (h : c.Grounded) (q : Circuit → α) : Freezes (Circuit.silent (Call.read q)) c :=
  (h.freezes_of_unchanged rfl).silent

theorem Grounded.freezes_ask_bind (h : c.Grounded) {q : Circuit → Except CircuitError α}
    (hf : ∀ a, q c = .ok a → Freezes (f a) c) : Freezes (Call.ask q >>= f) c := by
  cases hq : q c with
  | error e => exact h.freezes_of_unchanged (by rw [run_ask_error hq])
  | ok a => exact (hf a hq).of_run_eq (run_ask_ok hq)

theorem Grounded.freezes_own (h : c.Grounded) (hx : m.circuit = c.id → Freezes x c) :
    Freezes (Call.ask (fun c => c.checkMarking m) >>= fun _ => x) c :=
  h.freezes_ask_bind fun _ hm => hx (checkMarking_eq_ok_iff.1 hm)

theorem Grounded.freezes_live (h : c.Grounded) (hx : c.Live n → Freezes x c) :
    Freezes (Call.ask (fun c => c.checkNode n) >>= fun _ => x) c :=
  h.freezes_ask_bind fun _ hn => hx (live_iff_checkNode.2 hn)

theorem freezes_change {g : Circuit → α × Circuit} (hg : (g c).2.Grounded) (hz : Frozen c (g c).2) :
    Freezes (Call.change g : Call _ α) c := ⟨hg, hz⟩

end Freezing

/-! ## Nodes and markings -/

theorem Grounded.freezes_markSigned (h : c.Grounded) (ns : List Node) (ss : List Sign) :
    Freezes (markSigned ns ss) c := by
  unfold markSigned
  split_ifs
  · exact h.freezes_of_unchanged rfl
  · exact h.freezes_ask_bind fun ts hts =>
      freezes_change (h.newMarking (proper_nil.sumSigned hts)) frozen_newMarking

theorem Grounded.freezes_createNode (h : c.Grounded) (hm : c.Held m) : Freezes (createNode m) c :=
  h.freezes_own fun hown => freezes_change (h.alloc (hm.proper h.toTied hown)) (h.frozen_alloc _)

theorem Grounded.freezes_cloneNode (h : c.Grounded) (n : Node) : Freezes (cloneNode n) c :=
  h.freezes_live fun hn => freezes_change (h.alloc (h.exponents n hn)) (h.frozen_alloc _)

theorem Grounded.freezes_cloneMarking (h : c.Grounded) (hm : c.Held m) : Freezes (cloneMarking m) c := by
  refine h.freezes_own fun hown => ?_
  have hts := hm.proper h.toTied hown
  obtain ⟨⟨hg, hz⟩, hproper, -⟩ := cloneTerms_induction (P := fun d => d.Grounded ∧ Frozen c d)
    (fun d hd => ⟨hd.1.toTied, hd.1.toStored⟩)
    (fun d us hd hus => ⟨hd.1.alloc hus, hd.2.trans (hd.1.frozen_alloc us)⟩) ⟨h, .refl c⟩ hts.live hts.nonzero
  exact freezes_change (hg.newMarking hproper) (hz.trans frozen_newMarking)

theorem Grounded.freezes_copyMarking (h : c.Grounded) (hm : c.Held m) : Freezes (copyMarking m) c :=
  h.freezes_own fun hown => freezes_change (h.newMarking (hm.proper h.toTied hown)) frozen_newMarking

theorem Grounded.freezes_successorMarking (h : c.Grounded) (n : Node) : Freezes (successorMarking n) c :=
  h.freezes_live fun hn => freezes_change (h.newMarking (h.exponents n hn)) frozen_newMarking

theorem Grounded.freezes_invert (h : c.Grounded) (hm : c.Held m) : Freezes (invert m) c :=
  h.freezes_own fun hown => freezes_change (h.newMarking (hm.proper h.toTied hown).flip) frozen_newMarking

theorem Grounded.freezes_add (h : c.Grounded) (ha : c.Held a) (hb : c.Held b) : Freezes (add a b) c :=
  h.freezes_own fun hown => h.freezes_own fun hown' => h.freezes_ask_bind fun _ hts =>
    freezes_change (h.newMarking ((ha.proper h.toTied hown).sumTerms (hb.live h.toTied hown') hts)) frozen_newMarking

theorem Grounded.freezes_intersect (h : c.Grounded) (ha : c.Held a) : Freezes (intersect a b) c :=
  h.freezes_own fun hown => h.freezes_own fun _ =>
    freezes_change (h.newMarking ((ha.proper h.toTied hown).sublist List.filter_sublist)) frozen_newMarking

/-! ## Carries -/

/-- What a step leaves behind that leaves the veiled circuit well formed. -/
theorem Along.grounded_frozen (h : Along B done c d) (hc : c.Grounded) (hapart : Apart B c)
    (hdone : ∀ n ∈ done, c.Pending n) (hwf : (d.veil B).WellFormed) (hext : (c.veil B).Extends (d.veil B))
    (hid : d.id = c.id) (hconfig : d.config = c.config) : d.Grounded ∧ Frozen c d :=
  ⟨h.grounded hc hid hwf, h.frozen hapart hdone hext hid hconfig⟩

theorem Beside.grounded_frozen (hb : Beside (c.unlisted []) c d) (h : c.Grounded)
    (hwf : (d.veil (c.unlisted [])).WellFormed) (hu : (c.veil (c.unlisted [])).Untouched (d.veil (c.unlisted []))) :
    d.Grounded ∧ Frozen c d :=
  (hb.along : Along _ [] c d).grounded_frozen h (h.apart []) (fun _ hn => absurd hn List.not_mem_nil) hwf hu.extends
    hu.id hu.config

theorem Grounded.freezes_createMarking (h : c.Grounded) (v : ℤ) : Freezes (createMarking v) c := by
  have hwf := h.wellFormed_veil_all
  obtain ⟨heq, hbeside⟩ := (h.apart []).integerTerms v
  obtain ⟨hcarried, hproper, -⟩ := hwf.integerTerms v
  rw [heq] at hcarried hproper
  obtain ⟨hg, hz⟩ := hbeside.grounded_frozen h (hcarried.wellFormed hwf) hcarried.grows.untouched
  exact freezes_change (hg.newMarking (veil_proper_iff.1 hproper)) (hz.trans frozen_newMarking)

theorem WellFormed.incremented_untouched (h : c.WellFormed) (hts : c.Proper ts) :
    c.Untouched (Circuit.incremented ts c).2 := by
  unfold Circuit.incremented
  split_ifs with hr
  · exact (h.sound.incrementTerms hts (hts.reduced_of_termsReduced hr)).1.grows.untouched
  · unfold Circuit.looseUnit
    split_ifs
    · exact h.sound.ensureUnit.1.grows.untouched
    · exact h.alloc_untouched []

theorem Grounded.freezes_increment (h : c.Grounded) (hm : c.Held m) : Freezes (increment m) c := by
  refine h.freezes_own fun hown => ?_
  have hwf := h.wellFormed_veil_all
  have hts : (c.veil (c.unlisted [])).Proper (c.termsOf m) := veil_proper_iff.2 (hm.proper h.toTied hown)
  obtain ⟨heq, hbeside⟩ := (h.apart []).incremented (c.termsOf m)
  obtain ⟨hwf', -, hproper⟩ := hwf.incremented hts
  have hu := hwf.incremented_untouched hts
  rw [heq] at hwf' hproper hu
  obtain ⟨hg, hz⟩ := hbeside.grounded_frozen h hwf' hu
  exact freezes_change (hg.newMarking (veil_proper_iff.1 hproper)) (hz.trans frozen_newMarking)

/-! ## Handles -/

theorem Grounded.modifyCell (h : c.Grounded) {i : ℕ} {f : Cell → Cell} (hterms : ∀ k, (f k).terms = k.terms)
    (hhandles : 0 < (f (c.cellAt i)).handles → 0 < (c.cellAt i).handles) : (c.modifyCell i f).Grounded :=
  h.withCells (h.toTied.modifyCell_markings hterms hhandles)

theorem Grounded.retain (h : c.Grounded) (hm : 0 < (c.cellAt m.id).handles) :
    (c.retain m).Grounded ∧ Frozen c (c.retain m) :=
  ⟨h.modifyCell (fun _ => rfl) fun _ => hm, frozen_modifyCell fun _ => rfl⟩

theorem Grounded.release (h : c.Grounded) : (c.release m).Grounded ∧ Frozen c (c.release m) :=
  ⟨h.modifyCell (fun _ => rfl) handles_pos_of_release, frozen_modifyCell fun _ => rfl⟩

theorem Grounded.retainAll (h : c.Grounded) {ms : List Marking} (hms : ∀ m ∈ ms, 0 < (c.cellAt m.id).handles) :
    (c.retainAll ms).Grounded ∧ Frozen c (c.retainAll ms) := by
  induction ms generalizing c with
  | nil => exact ⟨h, .refl c⟩
  | cons m ms ih =>
    obtain ⟨hg, hz⟩ := h.retain (hms m (by simp))
    obtain ⟨hg', hz'⟩ := ih hg fun k hk => (hms k (by simp [hk])).trans_le retain_handles_le
    exact ⟨hg', hz.trans hz'⟩

theorem Grounded.freezes_atHome (h : c.Grounded) {f : Circuit → Circuit}
    (hf : m.circuit = c.id → (f c).Grounded ∧ Frozen c (f c)) : Freezes (atHome m f) c := by
  by_cases hm : m.circuit = c.id
  · obtain ⟨hg, hz⟩ := hf hm
    have hrun : ((atHome m f).run c).2 = f c := if_pos hm
    exact ⟨hrun ▸ hg, hrun ▸ hz⟩
  · exact h.freezes_of_unchanged (if_neg hm)

/-! ## Connecting -/

/-- The circuit while the exponents of pending nodes are extended. -/
structure Extended (c d : Circuit) : Prop where
  grounded : d.Grounded
  frozen : Frozen c d
  live : ∀ n, d.Live n ↔ c.Live n
  pending : ∀ n, d.Pending n ↔ c.Pending n

theorem Extended.extendExponent (h : Extended c d) (hn : c.Pending n) (hproper : c.Proper addend) :
    Extended c ((extendExponent addend n).run d).2 := by
  have hp := (h.pending n).2 hn
  obtain ⟨hts, -⟩ := Proper.extendTerms d.config.checkInvariants (h.grounded.exponents n hp.1)
    fun m hm => (h.live m).2 (hproper.live m hm)
  rw [run_extendExponent]
  exact ⟨h.grounded.setSuccessors hp hts, h.frozen.trans (hp.frozen_setSuccessors _),
    fun m => setSuccessors_live_iff.trans (h.live m), fun m => setSuccessors_pending_iff.trans (h.pending m)⟩

/-- The exponents of pending nodes are extended one after the other, whether or not that closes a cycle. -/
theorem Grounded.freezes_attach (h : c.Grounded) (hlive : ∀ n ∈ targets, c.Live n) (hproper : c.Proper addend) :
    Freezes (attach targets addend) c := by
  cases hfind : targets.find? c.isReducedNode with
  | some n => exact h.freezes_of_unchanged (by rw [attach_of_reduced hfind])
  | none =>
    have hpending := pending_of_find?_eq_none hlive hfind
    refine (h.freezes_ask_bind fun _ _ => ?_).of_run_eq (attach_of_pending hfind)
    obtain ⟨hx, -⟩ := forM_induction (P := Extended c) (Q := fun _ => True)
      (fun n hn d hd => ⟨hd.extendExponent (hpending n hn) hproper, fun _ _ => trivial⟩)
      ⟨h, .refl c, fun _ => Iff.rfl, fun _ => Iff.rfl⟩
    exact ⟨hx.grounded, hx.frozen⟩

theorem Grounded.freezes_connect {p : Marking} (h : c.Grounded) (hm : c.Held m) (hp : c.Held p) :
    Freezes (connect m p) c :=
  h.freezes_own fun hown => h.freezes_own fun hown' =>
    (h.freezes_attach (hm.live h.toTied hown) (hp.proper h.toTied hown')).of_run_eq rfl

theorem Grounded.freezes_connectInverse {p : Marking} (h : c.Grounded) (hm : c.Held m) (hp : c.Held p) :
    Freezes (connectInverse m p) c :=
  h.freezes_own fun hown => h.freezes_own fun hown' =>
    (h.freezes_attach (hm.live h.toTied hown) (hp.proper h.toTied hown').flip).of_run_eq rfl

/-! ## Reductions -/

/-- A frontier that is put in order is reduced to the end, and if its nodes are legal, what was reduced is as it was. -/
theorem Grounded.runReduce (h : c.Grounded) (hp : ∀ n ∈ frontier, c.Pending n)
    (ho : c.dependencyOrder frontier = .ok sorted) : ∃ d,
      (runReduce frontier).run c = (if c.config.checkInvariants then d.check else .ok (), d) ∧
      ((∀ n ∈ frontier, c.Legal n) → d.Grounded ∧ Frozen c d) := by
  obtain ⟨hsorted, hmem⟩ := sorted_of_dependencyOrder ho
  have hpending : ∀ n ∈ sorted, c.Pending n := fun n hn => hp n ((hmem n).1 hn)
  have hopen : ∀ n ∈ sorted, c.unlisted sorted n.index = false := fun n hn => unlisted_of_mem hn
  have hwf := h.wellFormed_veil hsorted hpending
  -- the same happens in the veiled circuit, where it is known what comes out
  obtain ⟨heq, halong⟩ := (h.apart sorted).reduceAll (c.referrers sorted) hopen
  generalize hx : (sorted.forM (reduceNode (c.referrers sorted))).run c = x at heq halong
  obtain ⟨answer, d⟩ := x
  have hnext : ∀ n ∈ sorted, (c.veil (c.unlisted sorted)).pendingSuccessors n = c.pendingSuccessors n := fun n hn => by
    unfold pendingSuccessors successorNodes isReducedNode
    rw [veil_rank?, veil_successors_of_not (hopen n hn)]
  have hstart : Exhausted (c.veil (c.unlisted sorted)) [] (c.veil (c.unlisted sorted)) :=
    ⟨.refl hwf.sound, fun hc _ => .refl hc, by simp⟩
  obtain ⟨e, hrun, he⟩ := hstart.reduceAll (hsorted.congr hnext) fun n hn => veil_pending_iff.2 (hpending n hn)
  rw [List.nil_append, veil_referrers hopen, heq] at hrun
  obtain ⟨rfl, rfl⟩ := Prod.mk.inj hrun
  have hreduces := he.reduces
  refine ⟨d, ?_, fun hlegal => ?_⟩
  · rw [Circuit.runReduce, Call.run_bind_ok ((run_reduceFrontier ho).trans hx), Call.run_ask]
    rw [show d.config = c.config from hreduces.config]
  · have hclosed : ∀ n, n ∈ sorted ∨ c.Reduced n → ∀ m, c.Below m n → m ∈ sorted ∨ c.Reduced m := by
      rintro n (hn | hn) m hm
      · by_cases hr : c.isReducedNode m = true
        · exact .inr ⟨h.toTied.live_of_below (hpending n hn).1 hm, hr⟩
        · exact .inl (hsorted.mem_of_mem_next hn (mem_pendingSuccessors.2 ⟨hm, by simpa using hr⟩))
      · exact .inr (h.closed n hn m hm)
    have hsame : ∀ n, n ∈ sorted ∨ c.Reduced n → (c.veil (c.unlisted sorted)).successors n = c.successors n := by
      rintro n (hn | hn)
      · exact veil_successors_of_not (hopen n hn)
      · exact veil_successors_of_not (unlisted_of_reduced hn)
    have hkept := he.preserves hwf.toConsistent fun n hn =>
      legal_congr hclosed hsame (.inl hn) (hlegal n ((hmem n).1 hn))
    exact halong.grounded_frozen h (h.apart sorted) hpending ⟨hkept.consistent, hreduces.sound.toStored⟩ hreduces.extend
      hreduces.id hreduces.config

/-- A call that takes nothing out. If it reduces, its frontier is legal or it is refused, and not because a broken
invariant was found. -/
def Operation.Gentle (c : Circuit) : Operation → Prop
  | .remove _ => False
  | .reduce call => (∀ n, call.Frontier c n → c.Legal n) ∨
      ∃ e, (call.run.run c).1 = .error e ∧ ∀ v, e ≠ .invariantViolated v
  | _ => True

theorem Grounded.freezes_reduce (h : c.Grounded) (hwf : c.config.checkInvariants = true → c.WellFormed)
    {call : ReduceCall} (hheld : ∀ m ∈ call.handles, c.Held m) (hgentle : (Operation.reduce call).Gentle c) :
    Freezes call.run c := by
  by_cases haccepted : call.Accepted c
  · obtain ⟨frontier, hrun, hclosed, hmem⟩ := ReduceCall.run_of_accepted h.toTied hheld haccepted
    cases ho : c.dependencyOrder frontier with
    | error e => exact h.freezes_of_unchanged (by rw [hrun, runReduce_of_refused ho])
    | ok sorted =>
      obtain ⟨d, hrun', hd⟩ := h.runReduce hclosed.pending ho
      have hlegal : ∀ n ∈ frontier, c.Legal n := by
        by_contra hbad
        push Not at hbad
        obtain ⟨n, hn, hillegal⟩ := hbad
        obtain ⟨e, he, hother⟩ := hgentle.resolve_left fun hall => hillegal (hall n ((hmem n).1 hn))
        by_cases hchecked : c.config.checkInvariants = true
        · obtain ⟨v, hv⟩ := @Operation.finds_illegal _ (hwf hchecked) hchecked (.reduce call) hheld
            ⟨haccepted, n, (hmem n).1 hn, hillegal⟩
          exact hother v (Except.error.inj (he.symm.trans hv))
        · rw [hrun, hrun', if_neg hchecked] at he
          cases he
      obtain ⟨hg, hz⟩ := hd hlegal
      exact ⟨by rwa [hrun, hrun'], by rwa [hrun, hrun']⟩
  · obtain ⟨e, hrun, -⟩ := ReduceCall.run_of_not_accepted h.toTied hheld haccepted
    exact h.freezes_of_unchanged (by rw [hrun])

/-! ## Runs -/

/-- Every call that takes nothing out leaves what was reduced as it was. -/
theorem Operation.freezes (h : c.Grounded) (hwf : c.config.checkInvariants = true → c.WellFormed) (op : Operation)
    (hheld : ∀ m ∈ op.handles, c.Held m) (hgentle : op.Gentle c) : Freezes op.run c := by
  have hone : ∀ {m}, op.handles = [m] → c.Held m := fun hm => hheld _ (by simp [hm])
  cases op with
  | createMarking v => exact (h.freezes_createMarking v).silent
  | markNodes ns => exact (h.freezes_markSigned ns _).silent
  | markSigned ns ss => exact (h.freezes_markSigned ns ss).silent
  | createNode m => exact (h.freezes_createNode (hone rfl)).silent
  | cloneNode n => exact (h.freezes_cloneNode n).silent
  | cloneMarking m => exact (h.freezes_cloneMarking (hone rfl)).silent
  | copyMarking m => exact (h.freezes_copyMarking (hone rfl)).silent
  | successorMarking n => exact (h.freezes_successorMarking n).silent
  | invert m => exact (h.freezes_invert (hone rfl)).silent
  | add a b => exact (h.freezes_add (hheld a (by simp [handles])) (hheld b (by simp [handles]))).silent
  | intersect a b => exact (h.freezes_intersect (hheld a (by simp [handles]))).silent
  | increment m => exact (h.freezes_increment (hone rfl)).silent
  | compare | equal | smallestNode | isReduced | orderOf | isNodeReduced | successorTerms | copy =>
    exact (h.freezes_ask _).silent
  | reducedNode | reducedLength | nodes | stats => exact h.freezes_read _
  | markings =>
    obtain ⟨hg, hz⟩ := h.retainAll fun m => handles_of_mem_markings
    exact (freezes_change hg hz).silent
  | reduce call => exact h.freezes_reduce hwf hheld hgentle
  | connect m p => exact h.freezes_connect (hheld m (by simp [handles])) (hheld p (by simp [handles]))
  | connectInverse m p => exact h.freezes_connectInverse (hheld m (by simp [handles])) (hheld p (by simp [handles]))
  | remove m => exact hgentle.elim
  | check => exact h.freezes_ask _
  | retain m => exact h.freezes_atHome fun hown => h.retain (hone rfl hown)
  | release m => exact h.freezes_atHome fun _ => h.release

/-- A circuit that checks itself reports a broken invariant where an illegal node is reduced. -/
theorem Operation.Gentle.not_breaks {op : Operation} (hgentle : op.Gentle c) (h : c.WellFormed)
    (hchecked : c.config.checkInvariants = true) (hheld : ∀ m ∈ op.handles, c.Held m) : ¬ op.Breaks c := by
  rw [Operation.breaks_iff_of_checked hchecked]
  intro hillegal
  obtain ⟨v, hv⟩ := Operation.finds_illegal h hchecked hheld hillegal
  cases op with
  | reduce call =>
    obtain ⟨-, n, hn, hbad⟩ := hillegal
    obtain ⟨e, he, hother⟩ := hgentle.resolve_left fun hall => hbad (hall n hn)
    exact hother v (Except.error.inj (he.symm.trans hv))
  | _ => exact hillegal

/-- The states that a circuit comes to by calls that take nothing out, with handles that the caller has. -/
inductive Undisturbed (c : Circuit) : Circuit → Prop
  | start : Undisturbed c c
  | call {d : Circuit} (before : Undisturbed c d) (op : Operation) (held : ∀ m ∈ op.handles, d.Held m)
    (gentle : op.Gentle d) : Undisturbed c (op.run.run d).2

/-- Along a run the circuit stays grounded, and well formed if it checks itself. -/
theorem Undisturbed.grounded_frozen (hd : c.Undisturbed d) (h : c.WellFormed) :
    d.Grounded ∧ Frozen c d ∧ (d.config.checkInvariants = true → d.WellFormed) := by
  induction hd with
  | start => exact ⟨h.grounded, .refl c, fun _ => h⟩
  | @call d _ op held gentle ih =>
    obtain ⟨hg, hz, hwf⟩ := ih
    have hstep := op.freezes hg hwf held gentle
    refine ⟨hstep.grounded, hz.trans hstep.frozen, fun hchecked => ?_⟩
    rw [hstep.frozen.config] at hchecked
    exact (op.keeps (hwf hchecked) held (gentle.not_breaks (hwf hchecked) hchecked held)).wellFormed

/-- As long as nothing is removed and nothing illegal is reduced, the reduced nodes of a well-formed circuit stay
reduced, in the same order and with the same exponents, whatever comes in between them. Reduced markings keep their
terms and stay reduced; they are compared as before, and have the same smallest nodes. -/
theorem reduced_structure_is_frozen (h : c.WellFormed) (hd : c.Undisturbed d) :
    c.order.toList.Sublist d.order.toList ∧
    (∀ n, c.Reduced n → d.Reduced n ∧ d.successors n = c.successors n) ∧
    (∀ m, c.Solid m → d.termsOf m = c.termsOf m ∧ d.isReduced m = .ok true ∧ d.smallestNode m = c.smallestNode m) ∧
    ∀ a b, c.Solid a → c.Solid b → d.compare a b = c.compare a b := by
  obtain ⟨hg, hz, -⟩ := hd.grounded_frozen h
  refine ⟨hz.order_sublist h.grounded hg, hz.extend, fun m hm => ⟨hz.termsOf_eq hm, ?_,
    hz.smallestNode_eq h.grounded hg hm⟩, fun a b ha hb => hz.compare_eq h.grounded hg ha hb⟩
  rw [isReduced, hz.checkMarking_eq hm, hz.termsOf_eq hm]
  exact congrArg Except.ok (termsReduced_of_forall fun _ hn => hz.reduced_of_mem hm hn)

/-- The markings of five and three are compared as before after the nodes of a clone have come to depend on
themselves. -/
theorem frozen_five_and_three : ∃ (a b : Marking) (c d : Circuit), c.WellFormed ∧ c.Marks a 5 ∧ c.Marks b 3 ∧
    c.Undisturbed d ∧ ¬ d.Acyclic ∧ d.compare a b = .ok .gt := by
  obtain ⟨a, c', hrun, hwf', ha, -⟩ := (wellFormed_empty ⟨0⟩ .unchecked).createMarking 5
  obtain ⟨b, c, hrun', hwf, hb, hkept⟩ := hwf'.createMarking 3
  have ha := hkept a 5 ha
  have hun : c.config.checkInvariants = false := by
    have hconfig := ((wellFormed_empty ⟨0⟩ .unchecked).keeps_createMarking 5).config
    have hconfig' := (hwf'.keeps_createMarking 3).config
    rw [hrun] at hconfig
    rw [hrun', hconfig] at hconfig'
    rw [hconfig']
    rfl
  -- the nodes of a clone of the first marking are pending, and are connected with themselves
  obtain ⟨k, e, hclone, hk⟩ := hwf.cloneMarking ha.own ha.live
  have hstart : c.Undisturbed ((Operation.cloneMarking a).run.run c).2 :=
    .call .start (.cloneMarking a) (by simp [Operation.handles, Held, ha.live]) trivial
  rw [show ((Operation.cloneMarking a).run.run c).2 = e from congrArg Prod.snd (Call.run_bind_ok hclone)] at hstart
  have hheld : ∀ m ∈ (Operation.connect k k).handles, e.Held m := by simp [Operation.handles, Held, hk.held]
  have hrun : c.Undisturbed ((Operation.connect k k).run.run e).2 := .call hstart _ hheld trivial
  have hcloses : (Operation.connect k k).ClosesCycle e := by
    refine ⟨by simp [Operation.handles, hk.own, hk.untouched.id], ?_⟩
    obtain ⟨n, hn⟩ : ∃ n, n ∈ c.nodesOf a := by
      refine List.exists_mem_of_ne_nil _ fun hnil => ?_
      have hworth := ha.worth
      rw [List.map_eq_nil_iff.1 hnil] at hworth
      simp [termsWorth] at hworth
    obtain ⟨t, ht, -⟩ := hk.exists_of_mem hn
    exact ⟨t, ht, t, ht, .refl⟩
  refine ⟨a, b, c, _, hwf, ha, hb, hrun, ?_, ?_⟩
  · exact Operation.leaves_cycle hk.wellFormed.toLinked (hk.untouched.config ▸ hun) hheld (fun n hn => hk.pending hn)
      hcloses
  · have hcompare := (reduced_structure_is_frozen hwf hrun).2.2.2 a b ⟨ha.own, ha.live, ha.reduced⟩
      ⟨hb.own, hb.live, hb.reduced⟩
    rw [hcompare, hwf.compare_of_marks ha hb]
    rfl

end PowerTower.Circuit
