import Mathlib
import PowerTower.Proofs.Making

/-!
# Cloning

* `Untouched` : nodes and live markings stay as they are, whatever else comes in. So do their worths
  (`Untouched.worth_eq`, `Untouched.termsWorth_eq`);
* `Twins` : new pending nodes with the exponents and the digits of given terms, as `cloneTerms` makes them;
* `Cloned`, `WellFormed.cloneMarking` : a clone is a new marking of such nodes.
-/

namespace PowerTower.Circuit

open Guards

variable {c d e : Circuit} {n : Node} {k m : Marking} {ts us : List Term} {i : ℕ}

/-! ## What stays -/

/-- Nodes and live markings stay as they are. -/
structure Untouched (c d : Circuit) : Prop where
  id : d.id = c.id
  config : d.config = c.config
  live : ∀ n, c.Live n → d.Live n
  successors : ∀ n, c.Live n → d.successors n = c.successors n
  pending : ∀ n, c.Live n → (d.Pending n ↔ c.Pending n)
  cells : ∀ i, 0 < (c.cellAt i).handles → d.cellAt i = c.cellAt i

theorem Untouched.refl (c : Circuit) : c.Untouched c :=
  ⟨rfl, rfl, fun _ h => h, fun _ _ => rfl, fun _ _ => Iff.rfl, fun _ _ => rfl⟩

theorem Untouched.trans (h : c.Untouched d) (h' : d.Untouched e) : c.Untouched e where
  id := h'.id.trans h.id
  config := h'.config.trans h.config
  live := fun n hn => h'.live n (h.live n hn)
  successors := fun n hn => (h'.successors n (h.live n hn)).trans (h.successors n hn)
  pending := fun n hn => (h'.pending n (h.live n hn)).trans (h.pending n hn)
  cells := fun i hi => (h'.cells i (by rwa [h.cells i hi])).trans (h.cells i hi)

theorem Untouched.reduced (h : c.Untouched d) (hn : c.Reduced n) : d.Reduced n :=
  reduced_iff.2 ⟨h.live n hn.1, fun hp => ((h.pending n hn.1).1 hp).not_reduced hn⟩

theorem Untouched.extends (h : c.Untouched d) : c.Extends d := fun n hn => ⟨h.reduced hn, h.successors n hn.1⟩

theorem Untouched.worth_eq (h : c.Untouched d) (hl : c.Linked) (hn : c.Live n) : d.worth n = c.worth n :=
  worth_congr (fun _ hn _ hm => hl.live_of_below hn hm) h.successors hn (hl.acc hn)

theorem Untouched.legal (h : c.Untouched d) (hl : c.Linked) (hn : c.Live n) (hlegal : c.Legal n) : d.Legal n :=
  legal_congr (fun _ hn _ hm => hl.live_of_below hn hm) h.successors hn hlegal

theorem Untouched.termsWorth_eq (h : c.Untouched d) (hl : c.Linked) (hts : ∀ n ∈ Terms.nodes ts, c.Live n) :
    d.termsWorth ts = c.termsWorth ts :=
  Terms.sum_congr fun n hn => h.worth_eq hl (hts n hn)

theorem Untouched.proper (h : c.Untouched d) (hts : c.Proper ts) : d.Proper ts := hts.mono h.live

theorem Untouched.termsOf_eq (h : c.Untouched d) (hk : 0 < (c.cellAt k.id).handles) : d.termsOf k = c.termsOf k :=
  congrArg Cell.terms (h.cells k.id hk)

theorem cellAt_of_cells_eq (h : d.cells = c.cells) (i : ℕ) : d.cellAt i = c.cellAt i := by rw [cellAt, h, cellAt]

theorem Grows.untouched (h : c.Grows d) : c.Untouched d :=
  ⟨h.id, h.config, h.live, h.successors, fun n _ => h.pending n, fun i _ => cellAt_of_cells_eq h.cells i⟩

theorem untouched_newMarking : c.Untouched (c.newMarking ts).2 where
  id := rfl
  config := rfl
  live := fun _ h => h
  successors := fun _ _ => rfl
  pending := fun _ _ => Iff.rfl
  cells := fun i hi => by rw [newMarking_cellAt, if_neg (lt_size_of_handles hi).ne]

theorem WellFormed.alloc_untouched (h : c.WellFormed) (ts : List Term) : c.Untouched (c.alloc ts).2 where
  id := alloc_id
  config := alloc_config
  live := fun _ hn => h.toStored.alloc_live_of_live ts hn
  successors := fun _ hn => h.toStored.alloc_successors ts hn
  pending := fun n hn => by
    rw [Pending, Pending, rank?, rank?, h.toStored.alloc_slot_of_live ts hn]
    exact and_congr_left' (iff_of_true (h.toStored.alloc_live_of_live ts hn) hn)
  cells := fun i _ => cellAt_of_cells_eq alloc_cells i

/-- The number of a new marking was in use for none that was there before. -/
theorem Untouched.newMarking_new (h : c.Untouched d) (ts : List Term) :
    ¬ 0 < (c.cellAt (d.newMarking ts).1.id).handles := by
  intro hi
  exact (lt_size_of_handles (h.cells _ hi ▸ hi)).ne rfl

theorem newMarking_cellAt_of_ne (hi : i ≠ (c.newMarking ts).1.id) : (c.newMarking ts).2.cellAt i = c.cellAt i := by
  have hne : ¬ i = c.cells.size := hi
  rw [newMarking_cellAt, if_neg hne]

theorem newMarking_termsOf (c : Circuit) (ts : List Term) : (c.newMarking ts).2.termsOf (c.newMarking ts).1 = ts := by
  rw [termsOf, newMarking_cellAt]
  simp [Circuit.newMarking]

theorem newMarking_handles (c : Circuit) (ts : List Term) :
    0 < ((c.newMarking ts).2.cellAt (c.newMarking ts).1.id).handles := by
  rw [newMarking_cellAt]
  simp [Circuit.newMarking]

/-! ## Twins -/

/-- `u` is a new pending node with the exponent of `t`, and has its digit. -/
structure Twin (c d : Circuit) (t u : Term) : Prop where
  digit : u.2 = t.2
  new : ¬ c.Live u.1
  pending : d.Pending u.1
  successors : d.successors u.1 = c.successors t.1

/-- Each of the terms has a twin, and no other nodes come in. -/
structure Twins (c : Circuit) (ts us : List Term) (d : Circuit) : Prop where
  wellFormed : d.WellFormed
  untouched : c.Untouched d
  proper : d.Proper us
  twin : List.Forall₂ (Twin c d) ts us
  live : ∀ n, d.Live n → c.Live n ∨ n ∈ Terms.nodes us

theorem Twin.mono {t u : Term} (h : Twin d e t u) (hu : c.Untouched d) (ht : c.Live t.1) : Twin c e t u where
  digit := h.digit
  new := fun hn => h.new (hu.live _ hn)
  pending := h.pending
  successors := h.successors.trans (hu.successors _ ht)

theorem exists_left_of_forall₂ {α β : Type} {R : α → β → Prop} {l : List α} {l' : List β} (h : List.Forall₂ R l l')
    {b : β} (hb : b ∈ l') : ∃ a ∈ l, R a b := by
  induction h with
  | nil => cases hb
  | cons hr _ ih =>
    rcases List.mem_cons.1 hb with rfl | hb
    · exact ⟨_, List.mem_cons_self, hr⟩
    · obtain ⟨a, ha, hr⟩ := ih hb
      exact ⟨a, List.mem_cons_of_mem _ ha, hr⟩

theorem Twins.exists_twin (h : Twins c ts us d) (hn : n ∈ Terms.nodes us) : ∃ t ∈ ts, ∃ s, Twin c d t (n, s) := by
  obtain ⟨u, hu, rfl⟩ := List.mem_map.1 hn
  obtain ⟨t, ht, htwin⟩ := exists_left_of_forall₂ h.twin hu
  exact ⟨t, ht, u.2, htwin⟩

theorem Twins.not_live (h : Twins c ts us d) (hn : n ∈ Terms.nodes us) : ¬ c.Live n := by
  obtain ⟨t, -, s, htwin⟩ := h.exists_twin hn
  exact htwin.new

theorem Twins.pending (h : Twins c ts us d) (hn : n ∈ Terms.nodes us) : d.Pending n := by
  obtain ⟨t, -, s, htwin⟩ := h.exists_twin hn
  exact htwin.pending

theorem Twins.exists_of_mem (h : Twins c ts us d) (hn : n ∈ Terms.nodes ts) :
    ∃ b ∈ Terms.nodes us, d.successors b = c.successors n := by
  obtain ⟨t, ht, rfl⟩ := List.mem_map.1 hn
  obtain ⟨u, hu, htwin⟩ := exists_left_of_forall₂ h.twin.flip ht
  exact ⟨u.1, Terms.mem_nodes_of_mem hu, htwin.successors⟩

theorem WellFormed.cloneTerms_twins (h : c.WellFormed) (hts : c.Proper ts) :
    Twins c ts (Circuit.cloneTerms ts c).1 (Circuit.cloneTerms ts c).2 := by
  induction ts generalizing c with
  | nil => exact ⟨h, .refl c, proper_nil, .nil, fun _ hn => .inl hn⟩
  | cons t ts ih =>
    obtain ⟨hwf, hproper, -⟩ := h.cloneTerms hts
    have hu := h.alloc_untouched (c.successors t.1)
    have hpending := h.toStored.alloc_pending h.tied (c.successors t.1)
    have hlive : ∀ u ∈ ts, c.Live u.1 := fun u hmem => hts.live u.1 (by simp [Terms.mem_nodes_of_mem hmem])
    have hrest := ih (h.alloc (h.exponents t.1 (hts.live t.1 (by simp))))
      (hu.proper (hts.sublist (List.sublist_cons_self _ _)))
    have hnew : ¬ c.Live (c.alloc (c.successors t.1)).1 := h.toStored.not_live_alloc _
    rw [cloneTerms_cons] at hwf hproper ⊢
    refine ⟨hwf, hu.trans hrest.untouched, hproper, .cons ⟨rfl, hnew, ?_, ?_⟩ ?_, fun n hn => ?_⟩
    · exact (hrest.untouched.pending _ hpending.1).2 hpending
    · exact (hrest.untouched.successors _ hpending.1).trans (h.toStored.alloc_successors_new _)
    · exact ((List.forall₂_and_left _ _).2 ⟨hlive, hrest.twin⟩).imp fun _ _ htwin => htwin.2.mono hu htwin.1
    · rcases hrest.live n hn with hn | hn
      · exact ((h.toStored.alloc_live_iff _).1 hn).imp_right fun heq => by simp [heq]
      · exact .inr (by simp [hn])

theorem Twins.newMarking (h : Twins c ts us d) (vs : List Term) (hvs : d.Proper vs) :
    Twins c ts us (d.newMarking vs).2 where
  wellFormed := h.wellFormed.newMarking hvs
  untouched := h.untouched.trans untouched_newMarking
  proper := untouched_newMarking.proper h.proper
  twin := h.twin.imp fun _ _ htwin => ⟨htwin.digit, htwin.new, htwin.pending, htwin.successors⟩
  live := h.live

/-- `k` is a new marking, and mentions twins of the nodes of `m`. -/
structure Cloned (c : Circuit) (m k : Marking) (d : Circuit) : Prop extends Twins c (c.termsOf m) (d.termsOf k) d where
  own : k.circuit = c.id
  held : 0 < (d.cellAt k.id).handles
  new : ¬ 0 < (c.cellAt k.id).handles

theorem WellFormed.cloneMarking (h : c.WellFormed) (hown : m.circuit = c.id) (hm : 0 < (c.cellAt m.id).handles) :
    ∃ k d, (cloneMarking m).run c = (.ok k, d) ∧ Cloned c m k d := by
  have hproper := h.markings m.id hm
  have htwins := h.cloneTerms_twins hproper
  let d := (Circuit.cloneTerms (c.termsOf m) c).2
  let us := (Circuit.cloneTerms (c.termsOf m) c).1
  refine ⟨(d.newMarking us).1, (d.newMarking us).2, run_own hown, ?_, htwins.untouched.id, newMarking_handles d us,
    htwins.untouched.newMarking_new us⟩
  rw [newMarking_termsOf]
  exact htwins.newMarking us htwins.proper

/-! ## Worths -/

/-- A twin is worth what the node is worth, as long as its exponent stays. -/
theorem Twin.worth_eq {t u : Term} (h : Twin c d t u) (hc : c.Linked) (hd : d.Linked) (hu : c.Untouched d)
    (ht : c.Live t.1) : d.worth u.1 = c.worth t.1 := by
  rw [Circuit.worth_eq (hd.acc h.pending.1), Circuit.worth_eq (hc.acc ht), h.successors,
    hu.termsWorth_eq hc fun n hn => hc.live_of_below ht hn]

/-- Where a factor is on the worth of every twin, it is on the sum. -/
theorem sum_of_twins {v w : Node → ℝ} {f : ℝ} (h : List.Forall₂ (Twin c d) ts us)
    (hw : ∀ t ∈ ts, ∀ u ∈ us, Twin c d t u → w u.1 = v t.1 * f) : Terms.sum w us = Terms.sum v ts * f := by
  induction h with
  | nil => simp
  | @cons t u ts us htwin _ ih =>
    have hrest := ih fun t' ht' u' hu' => hw t' (by simp [ht']) u' (by simp [hu'])
    rw [Terms.sum_cons, Terms.sum_cons, hrest, htwin.digit, hw t (by simp) u (by simp) htwin]
    ring

theorem Twins.termsWorth_eq (h : Twins c ts us d) (hc : c.Linked) (hts : ∀ n ∈ Terms.nodes ts, c.Live n) :
    d.termsWorth us = c.termsWorth ts := by
  have hw : ∀ t ∈ ts, ∀ u ∈ us, Twin c d t u → d.worth u.1 = c.worth t.1 * 1 := fun t ht u _ htwin => by
    rw [mul_one, htwin.worth_eq hc h.wellFormed.toLinked h.untouched (hts t.1 (Terms.mem_nodes_of_mem ht))]
  exact (sum_of_twins h.twin hw).trans (mul_one _)

end PowerTower.Circuit
