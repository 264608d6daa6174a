import Mathlib
import PowerTower.Circuit.Connect
import PowerTower.Proofs.Making

/-!
# Connecting

* `mem_walk`, `reachesAny_eq_none_iff` : what the search for a closing edge finds;
* `Closes` : some node of the addend depends on a target, so that the new edges close a cycle;
* `Widens`, `Widens.exists_cycle_iff` : otherwise they close none, also where some edges of the targets go as others
  come;
* `Attached`, `WellFormed.keeps_attach` : the exponents of the targets are extended one after the other, and the circuit
  stays well formed all the way, also where the call is refused halfway;
* `attach_refused` : a circuit that checks itself refuses to close a cycle, before anything is changed;
* `Toggled`, `Linked.attach_unchecked` : a circuit that trusts its caller changes the edges from the targets to the
  addend, and then there is a cycle if one is to be closed.
-/

namespace PowerTower.Circuit

open Guards Traversal

variable {c d : Circuit} {m n : Node} {sources targets : List Node} {ts us addend : List Term}

/-! ## The search for a closing edge -/

theorem mem_walk : n ∈ discover (fun k => (c.successorNodes k).reverse)
      (Std.HashSet.ofList (sources ++ c.mentionedNodes)) sources.reverse ↔
    ∃ s ∈ sources, Relation.ReflTransGen c.Below n s := by
  rw [mem_discover_iff]
  simp only [List.mem_reverse, mem_ofList_iff, List.mem_append]
  constructor
  · rintro ⟨s, hs, -, hpath⟩
    refine ⟨s, hs, reflTransGen_below_of_next (Relation.ReflTransGen.mono (fun _ _ hab => ?_) _ _ hpath)⟩
    exact List.mem_reverse.1 hab.2.2
  · rintro ⟨s, hs, hreach⟩
    have hpath : (n ∈ sources ∨ n ∈ c.mentionedNodes) ∧ Relation.ReflTransGen
        (Step (fun k => (c.successorNodes k).reverse) fun k => k ∈ sources ∨ k ∈ c.mentionedNodes) s n := by
      induction hreach using Relation.ReflTransGen.head_induction_on with
      | refl => exact ⟨.inl hs, .refl⟩
      | head hb _ ih =>
        have hk := mem_mentionedNodes hb
        exact ⟨.inr hk, ih.2.tail ⟨ih.1, .inr hk, List.mem_reverse.2 hb⟩⟩
    exact ⟨s, hs, .inl hs, hpath.2⟩

theorem reachesAny_eq_none_iff : c.reachesAny sources targets = none ↔
    ∀ t ∈ targets, ∀ s ∈ sources, ¬ Relation.ReflTransGen c.Below t s := by
  unfold reachesAny
  simp only [List.find?_eq_none, mem_walk, Std.HashSet.contains_ofList, List.contains_iff_mem]
  constructor
  · intro h t ht s hs hreach
    exact absurd ht (by simpa using h t ⟨s, hs, hreach⟩)
  · rintro h t ⟨s, hs, hreach⟩
    simpa using fun ht => h t ht s hs hreach

theorem reachesAny_eq_some (h : c.reachesAny sources targets = some n) :
    n ∈ targets ∧ ∃ s ∈ sources, Relation.ReflTransGen c.Below n s := by
  unfold reachesAny at h
  refine ⟨?_, mem_walk.1 (List.mem_of_find?_eq_some h)⟩
  simpa using List.find?_some h

/-- Some node of the addend depends on a target, or is one. -/
def Closes (c : Circuit) (targets : List Node) (addend : List Term) : Prop :=
  ∃ t ∈ targets, ∃ s ∈ Terms.nodes addend, Relation.ReflTransGen c.Below t s

/-- Edges come in between targets and the addend, and may go there too. -/
structure Widens (c : Circuit) (targets : List Node) (addend : List Term) (R : Node → Node → Prop) : Prop where
  /-- New edges lead from a target to the addend, -/
  old_or_new : ∀ n, c.Live n → ∀ m, R m n → c.Below m n ∨ n ∈ targets ∧ m ∈ Terms.nodes addend
  /-- other nodes have the edges that they had, -/
  kept : ∀ n, c.Live n → n ∉ targets → ∀ m, c.Below m n → R m n
  /-- and the targets have those that they had not. -/
  new : ∀ n ∈ targets, ∀ m ∈ Terms.nodes addend, ¬ c.Below m n → R m n

section Widens

variable {R S : Node → Node → Prop}

/-- New edges from targets to nodes that depend on no target close no cycle. -/
theorem Linked.acc_of_open (hl : c.Linked) (hopen : ¬ c.Closes targets addend) (hproper : c.Proper addend)
    (hedge : ∀ n, c.Live n → ∀ m, R m n → c.Below m n ∨ n ∈ targets ∧ m ∈ Terms.nodes addend) (hn : c.Live n) :
    Acc R n := by
  -- what depends on no target has no other successors than before, and nor has what it depends on
  have hfree : ∀ n, Acc c.Below n → c.Live n → (∀ t ∈ targets, ¬ Relation.ReflTransGen c.Below t n) → Acc R n := by
    intro n hn
    induction hn with
    | intro n _ ih =>
      intro hlive hnot
      refine Acc.intro n fun m hm => ?_
      rcases hedge n hlive m hm with hb | ⟨ht, -⟩
      · exact ih m hb (hl.live_of_below hlive hb) fun t ht hreach => hnot t ht (hreach.tail hb)
      · exact absurd .refl (hnot n ht)
  induction hl.acc hn with
  | intro n _ ih =>
    refine Acc.intro n fun m hm => ?_
    rcases hedge n hn m hm with hb | ⟨-, hs⟩
    · exact ih m hb (hl.live_of_below hn hb)
    · have hm := hproper.live m hs
      exact hfree m (hl.acc hm) hm fun t ht hreach => hopen ⟨t, ht, m, hs, hreach⟩

theorem Linked.acyclic_of_joined (hl : c.Linked) (hopen : ¬ c.Closes targets addend)
    (hproper : c.Proper addend) (hlive : ∀ n, d.Live n ↔ c.Live n)
    (hbelow : ∀ n, c.Live n → ∀ m, d.Below m n → c.Below m n ∨ n ∈ targets ∧ m ∈ Terms.nodes addend) : d.Acyclic :=
  acyclic_of_acc fun n hn => hl.acc_of_open hopen hproper hbelow ((hlive n).1 hn)

/-- From the last target on a path, the path survives where only targets lose edges. -/
theorem exists_surviving_path {t s : Node} (hlive : ∀ n m, c.Live n → R m n → c.Live m)
    (hkept : ∀ n, c.Live n → n ∉ targets → ∀ m, R m n → S m n) (ht : t ∈ targets) (hs : c.Live s)
    (hpath : Relation.ReflTransGen R t s) :
    ∃ t ∈ targets, Relation.ReflTransGen R t s ∧ Relation.ReflTransGen S t s := by
  induction hpath with
  | refl => exact ⟨t, ht, .refl, .refl⟩
  | @tail k n _ hb ih =>
    by_cases hn : n ∈ targets
    · exact ⟨n, hn, .refl, .refl⟩
    · obtain ⟨t, ht, hR, hS⟩ := ih (hlive n k hs hb)
      exact ⟨t, ht, hR.tail hb, hS.tail (hkept n hs hn k hb)⟩

/-- Where a cycle is to be closed, there is one afterwards. -/
theorem Widens.exists_cycle (h : c.Widens targets addend R) (hl : c.Linked) (hlive : ∀ n ∈ targets, c.Live n)
    (hproper : c.Proper addend) (hcloses : c.Closes targets addend) : ∃ n ∈ targets, Relation.TransGen R n n := by
  obtain ⟨_, ht, s, hs, hreach⟩ := hcloses
  obtain ⟨t, ht, hpath, hpath'⟩ := exists_surviving_path (fun _ _ => hl.live_of_below) h.kept ht
    (hproper.live s hs) hreach
  -- the edge was not there before, or it would have closed a cycle then
  have hnew : ¬ c.Below s t := fun hb => hl.acyclic t (hlive t ht) (.tail' hpath hb)
  exact ⟨t, ht, .tail' hpath' (h.new t ht s hs hnew)⟩

/-- There is a cycle afterwards if and only if one is to be closed. -/
theorem Widens.exists_cycle_iff (h : c.Widens targets addend R) (hl : c.Linked) (hlive : ∀ n ∈ targets, c.Live n)
    (hproper : c.Proper addend) : (∃ n, c.Live n ∧ Relation.TransGen R n n) ↔ c.Closes targets addend := by
  constructor
  · rintro ⟨n, hn, hcycle⟩
    by_contra hopen
    exact not_transGen_of_acc (hl.acc_of_open hopen hproper h.old_or_new hn) hcycle
  · intro hcloses
    obtain ⟨n, hn, hcycle⟩ := h.exists_cycle hl hlive hproper hcloses
    exact ⟨n, hlive n hn, hcycle⟩

end Widens

/-! ## Extending exponents -/

theorem Proper.extendTerms (strict : Bool) (h : c.Proper ts) (hus : ∀ n ∈ Terms.nodes us, c.Live n) :
    c.Proper (extendTerms strict ts us).2 ∧
      ∀ m ∈ Terms.nodes (extendTerms strict ts us).2, m ∈ Terms.nodes ts ∨ m ∈ Terms.nodes us := by
  induction us generalizing ts with
  | nil => exact ⟨h, fun m hm => .inl hm⟩
  | cons u us ih =>
    obtain ⟨n, s⟩ := u
    rw [Circuit.extendTerms]
    split
    · next vs ha =>
      obtain ⟨hproper, hnodes⟩ := ih (h.accumulate (hus n (by simp)) ha) fun m hm => hus m (by simp [hm])
      refine ⟨hproper, fun m hm => ?_⟩
      rw [Terms.nodes_cons, List.mem_cons]
      rcases hnodes m hm with hm | hm
      · exact ((h.toProper.accumulate ha).2 m hm).imp_right .inl
      · exact .inr (.inr hm)
    · exact ⟨h, fun m hm => .inl hm⟩

theorem harmless_extendTerms {strict : Bool} : Harmless (extendTerms strict ts us).1 := by
  induction us generalizing ts with
  | nil => exact harmless_ok _
  | cons u us ih =>
    rw [extendTerms]
    split
    · exact ih
    · exact fun v => by simp

theorem run_extendExponent : (extendExponent addend n).run c =
    ((extendTerms c.config.checkInvariants (c.successors n) addend).1,
      c.setSuccessors n (extendTerms c.config.checkInvariants (c.successors n) addend).2) := rfl

/-- The circuit while the exponents of the targets are extended. -/
structure Attached (c : Circuit) (targets : List Node) (addend : List Term) (d : Circuit) : Prop extends
    WellFormed d where
  config : d.config = c.config
  live : ∀ n, d.Live n ↔ c.Live n
  pending : ∀ n, d.Pending n ↔ c.Pending n
  below : ∀ n, c.Live n → ∀ m, d.Below m n → c.Below m n ∨ n ∈ targets ∧ m ∈ Terms.nodes addend

theorem Attached.refl (h : c.WellFormed) : Attached c targets addend c :=
  ⟨h, rfl, fun _ => Iff.rfl, fun _ => Iff.rfl, fun _ _ _ hm => .inl hm⟩

theorem Attached.extendExponent (ha : Attached c targets addend d) (hl : c.Linked) (hproper : c.Proper addend)
    (hopen : ¬ c.Closes targets addend) (hn : n ∈ targets) (hp : c.Pending n) :
    Attached c targets addend ((extendExponent addend n).run d).2 := by
  rw [run_extendExponent]
  have hpend : d.Pending n := (ha.pending n).2 hp
  obtain ⟨hts, hnodes⟩ := Proper.extendTerms d.config.checkInvariants (ha.exponents n hpend.1)
    fun m hm => (ha.live m).2 (hproper.live m hm)
  generalize (extendTerms d.config.checkInvariants (d.successors n) addend).2 = ts at hts hnodes
  have hlive : ∀ m, (d.setSuccessors n ts).Live m ↔ c.Live m := fun m => setSuccessors_live_iff.trans (ha.live m)
  have hbelow : ∀ k, c.Live k → ∀ m, (d.setSuccessors n ts).Below m k →
      c.Below m k ∨ k ∈ targets ∧ m ∈ Terms.nodes addend := fun k hk m hm => by
    unfold Below successorNodes at hm
    by_cases hne : k = n
    · rw [hne, hpend.1.successors_setSuccessors] at hm
      rcases hnodes m hm with hm | hm
      · exact hne ▸ ha.below n hp.1 m hm
      · exact .inr ⟨hne ▸ hn, hm⟩
    · rw [hpend.1.successors_setSuccessors_of_ne ts ((ha.live k).2 hk) hne] at hm
      exact ha.below k hk m hm
  have hlinked := (ha.tied.setSuccessors hpend hts).linked (hl.acyclic_of_joined hopen hproper hlive hbelow)
  exact ⟨⟨(hpend.setSuccessors_sameReduced ts).consistent ha.toConsistent hlinked, ha.toStored.setSuccessors⟩,
    ha.config, hlive, fun m => setSuccessors_pending_iff.trans (ha.pending m), hbelow⟩

/-! ## Attaching -/

theorem attach_of_reduced (h : targets.find? c.isReducedNode = some n) :
    (attach targets addend).run c = (.error (.targetAlreadyReduced n), c) := by
  unfold attach
  rw [Call.run_bind_ok (Call.run_read _ c), h]
  rfl

theorem attach_of_pending (h : targets.find? c.isReducedNode = none) : (attach targets addend).run c =
    (Call.ask (fun c => if c.config.checkInvariants then c.checkEdges targets addend else .ok ()) >>= fun _ =>
      targets.forM (extendExponent addend)).run c := by
  unfold attach
  rw [Call.run_bind_ok (Call.run_read _ c), h]

theorem pending_of_find?_eq_none (hlive : ∀ n ∈ targets, c.Live n) (h : targets.find? c.isReducedNode = none) :
    ∀ n ∈ targets, c.Pending n := fun n hn =>
  ⟨hlive n hn, by simpa [isReducedNode] using List.find?_eq_none.1 h n hn⟩

theorem harmless_checkEdges : Harmless (c.checkEdges targets addend) := by
  intro v
  unfold checkEdges
  split
  · simp
  · split <;> simp

theorem not_closes_of_checkEdges (h : c.checkEdges targets addend = .ok ()) : ¬ c.Closes targets addend := by
  unfold checkEdges at h
  split at h
  · cases h
  · split at h
    · cases h
    · next hnone =>
      rintro ⟨t, ht, s, hs, hreach⟩
      exact reachesAny_eq_none_iff.1 hnone t ht s hs hreach

theorem attach_of_checkEdges_error {e : CircuitError} (hchecked : c.config.checkInvariants = true)
    (hfind : targets.find? c.isReducedNode = none) (he : c.checkEdges targets addend = .error e) :
    (attach targets addend).run c = (.error e, c) := by
  rw [attach_of_pending hfind]
  exact run_ask_error (by rw [if_pos hchecked, he])

/-- Attaching keeps a circuit well formed, unless a circuit that trusts its caller closes a cycle. -/
theorem WellFormed.keeps_attach (h : c.WellFormed) (hlive : ∀ n ∈ targets, c.Live n) (hproper : c.Proper addend)
    (hopen : c.config.checkInvariants = false → (∀ n ∈ targets, c.Pending n) → ¬ c.Closes targets addend) :
    Keeps (attach targets addend) c := by
  cases hfind : targets.find? c.isReducedNode with
  | some n =>
    refine ⟨?_, ?_, ?_⟩
    all_goals rw [attach_of_reduced hfind]
    exacts [h, harmless_error fun v => by simp]
  | none =>
    have hpending := pending_of_find?_eq_none hlive hfind
    refine Keeps.of_run_eq (h.keeps_ask_bind ?_ fun _ hok => ?_) (attach_of_pending hfind)
    · split_ifs
      · exact harmless_checkEdges
      · exact harmless_ok _
    · have hnot : ¬ c.Closes targets addend := by
        split_ifs at hok with hchecked
        · exact not_closes_of_checkEdges hok
        · exact hopen (by simpa using hchecked) hpending
      obtain ⟨ha, hq⟩ := forM_induction (P := Attached c targets addend) (Q := fun e => ∀ v, e ≠ .invariantViolated v)
        (fun n hn d hd => ⟨hd.extendExponent h.toLinked hproper hnot hn (hpending n hn), fun e he =>
          harmless_extendTerms.ne_of_error he⟩) (.refl h)
      exact ⟨ha.toWellFormed, ha.config, fun v hv => hq _ hv v rfl⟩

/-- A circuit that checks itself refuses to close a cycle, and nothing is changed. -/
theorem attach_refused (hchecked : c.config.checkInvariants = true) (hcloses : c.Closes targets addend) :
    ∃ e, (attach targets addend).run c = (.error e, c) ∧
      ((∃ n ∈ targets, c.isReducedNode n = true ∧ e = .targetAlreadyReduced n) ∨
        (∃ n, c.clash? targets addend = some n ∧ e = .signOverflow n) ∨
        ∃ n ∈ targets, (∃ s ∈ Terms.nodes addend, Relation.ReflTransGen c.Below n s) ∧ e = .cycleDetected n) := by
  cases hfind : targets.find? c.isReducedNode with
  | some n =>
    exact ⟨_, attach_of_reduced hfind, .inl ⟨n, List.mem_of_find?_eq_some hfind, List.find?_some hfind, rfl⟩⟩
  | none =>
    cases hclash : c.clash? targets addend with
    | some n =>
      exact ⟨_, attach_of_checkEdges_error hchecked hfind (by simp only [checkEdges, hclash]),
        .inr (.inl ⟨n, rfl, rfl⟩)⟩
    | none =>
      obtain ⟨t, ht, s, hs, hreach⟩ := hcloses
      cases hr : c.reachesAny (Terms.nodes addend) targets with
      | none => exact absurd hreach (reachesAny_eq_none_iff.1 hr t ht s hs)
      | some n =>
        obtain ⟨hn, hreach⟩ := reachesAny_eq_some hr
        exact ⟨_, attach_of_checkEdges_error hchecked hfind (by simp only [checkEdges, hclash, hr]),
          .inr (.inr ⟨n, hn, hreach, rfl⟩)⟩

/-! ## Where nothing is checked -/

/-- Without a check, equal digits leave no entry, and an exponent gets exactly the nodes of the addend that it did not
hold before. -/
theorem extendTerms_loose (hts : Terms.Proper ts) (hus : Terms.Proper us) :
    ∃ vs, extendTerms false ts us = (.ok (), vs) ∧
      ∀ m, m ∈ Terms.nodes vs ↔ (m ∈ Terms.nodes ts ↔ m ∉ Terms.nodes us) := by
  induction us generalizing ts with
  | nil => exact ⟨ts, rfl, fun m => by simp⟩
  | cons u us ih =>
    obtain ⟨n, s⟩ := u
    obtain ⟨ws, hws, hmem⟩ := hts.accumulate_loose (hus.nonzero (n, s) (by simp))
    obtain ⟨vs, hvs, hmem'⟩ := ih (hts.accumulate hws).1 (hus.sublist (List.sublist_cons_self _ _))
    have hn : n ∉ Terms.nodes us := by
      have := hus.nodup
      rw [Terms.nodes_cons, List.nodup_cons] at this
      exact this.1
    refine ⟨vs, by rw [extendTerms, hws]; exact hvs, fun m => ?_⟩
    rw [hmem', hmem, Terms.nodes_cons, List.mem_cons]
    by_cases hm : m = n
    · simp [hm, hn]
    · simp [hm]

/-- The edges from the targets to the nodes of the addend come in where they were not, and go where they were. -/
structure Toggled (c : Circuit) (targets : List Node) (addend : List Term) (d : Circuit) : Prop where
  live : ∀ n, d.Live n ↔ c.Live n
  below : ∀ n, c.Live n → ∀ m, d.Below m n ↔ (c.Below m n ↔ ¬ (n ∈ targets ∧ m ∈ Terms.nodes addend))

theorem toggled_extendAll (hun : c.config.checkInvariants = false) (haddend : Terms.Proper addend)
    (hnodup : targets.Nodup) (hlive : ∀ n ∈ targets, c.Live n)
    (hproper : ∀ n ∈ targets, Terms.Proper (c.successors n)) :
    ∃ d, (targets.forM (extendExponent addend)).run c = (.ok (), d) ∧ Toggled c targets addend d := by
  induction targets generalizing c with
  | nil => exact ⟨c, rfl, fun _ => Iff.rfl, fun n _ m => by simp⟩
  | cons t targets ih =>
    rw [List.nodup_cons] at hnodup
    have ht := hlive t (by simp)
    obtain ⟨ts, hts, hmem⟩ := extendTerms_loose (hproper t (by simp)) haddend
    have hstep : (extendExponent addend t).run c = (.ok (), c.setSuccessors t ts) := by
      rw [run_extendExponent, hun, hts]
    have hrest : ∀ n ∈ targets, n ≠ t := fun n hn he => hnodup.1 (he ▸ hn)
    obtain ⟨d, hrun, hd⟩ := ih (c := c.setSuccessors t ts) hun hnodup.2
      (fun n hn => setSuccessors_live_iff.2 (hlive n (by simp [hn]))) fun n hn => by
        rw [ht.successors_setSuccessors_of_ne ts (hlive n (by simp [hn])) (hrest n hn)]
        exact hproper n (by simp [hn])
    refine ⟨d, (Call.run_bind_ok hstep).trans hrun, fun n => (hd.live n).trans setSuccessors_live_iff, fun n hn m => ?_⟩
    rw [hd.below n (setSuccessors_live_iff.2 hn), Below, successorNodes]
    by_cases hne : n = t
    · rw [hne, ht.successors_setSuccessors, hmem]
      simp [hnodup.1, Below, successorNodes]
    · rw [ht.successors_setSuccessors_of_ne ts hn hne]
      simp [hne, Below, successorNodes]

theorem Toggled.widens (hd : Toggled c targets addend d) (hlive : ∀ n ∈ targets, c.Live n) :
    c.Widens targets addend d.Below where
  old_or_new := fun n hn m hm => by
    by_contra hnot
    rw [not_or] at hnot
    exact hnot.1 (((hd.below n hn m).1 hm).2 hnot.2)
  kept := fun n hn hnot m hm => (hd.below n hn m).2 (iff_of_true hm fun h => hnot h.1)
  new := fun n hn m hm hnot => (hd.below n (hlive n hn) m).2 (iff_of_false hnot fun h => h ⟨hn, hm⟩)

/-- Where a cycle is to be closed, there is one afterwards. -/
theorem Toggled.not_acyclic (hd : Toggled c targets addend d) (hl : c.Linked) (hlive : ∀ n ∈ targets, c.Live n)
    (hproper : c.Proper addend) (hcloses : c.Closes targets addend) : ¬ d.Acyclic := by
  obtain ⟨n, hn, hcycle⟩ := (hd.widens hlive).exists_cycle hl hlive hproper hcloses
  exact fun hacyclic => hacyclic n ((hd.live n).2 (hlive n hn)) hcycle

/-- A circuit that trusts its caller attaches without a refusal. -/
theorem Linked.attach_unchecked (hl : c.Linked) (hun : c.config.checkInvariants = false)
    (hpending : ∀ n ∈ targets, c.Pending n) (hnodup : targets.Nodup) (hproper : c.Proper addend) :
    ∃ d, (attach targets addend).run c = (.ok (), d) ∧ Toggled c targets addend d := by
  obtain ⟨d, hrun, hd⟩ := toggled_extendAll hun hproper.toProper hnodup (fun n hn => (hpending n hn).1)
    fun n hn => (hl.exponents n (hpending n hn).1).toProper
  have hfind : targets.find? c.isReducedNode = none := List.find?_eq_none.2 fun n hn => by
    simp [isReducedNode, (hpending n hn).2]
  refine ⟨d, ?_, hd⟩
  rw [attach_of_pending hfind, run_ask_ok (by rw [hun]; rfl), hrun]

theorem Linked.attach_not_acyclic (hl : c.Linked) (hun : c.config.checkInvariants = false)
    (hpending : ∀ n ∈ targets, c.Pending n) (hnodup : targets.Nodup) (hproper : c.Proper addend)
    (hcloses : c.Closes targets addend) : ¬ ((attach targets addend).run c).2.Acyclic := by
  obtain ⟨d, hrun, hd⟩ := hl.attach_unchecked hun hpending hnodup hproper
  rw [hrun]
  exact hd.not_acyclic hl (fun n hn => (hpending n hn).1) hproper hcloses

end PowerTower.Circuit
