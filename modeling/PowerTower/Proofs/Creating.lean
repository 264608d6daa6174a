import Mathlib
import PowerTower.Proofs.Cloning
import PowerTower.Proofs.Doubling
import PowerTower.Proofs.Markings
import PowerTower.Proofs.Standing

/-!
# The markings of integers

* `PowerTerm` : a digit of a binary number, on the reduced node of its place;
* `Written`, `WellFormed.written` : the terms of a number are its binary digits, the nodes of all places up to the
  highest are there afterwards, and no greater node comes in;
* `Created`, `WellFormed.created` : the marking of an integer, and what comes in with it;
* `Grounded.spells_integerTerms`, `Created.again` : until something is removed, the integer is written with the same
  entries, also where cycles of pending nodes have come in;
* `createMarking_is_exact` : both together.
-/

namespace PowerTower.Circuit

variable {c d e : Circuit} {n : Node} {m : Marking} {s : Sign} {t : Term} {ts us : List Term}
  {bits i : ℕ} {u : ℝ} {v : ℤ}

/-! ## Digits -/

/-- A term with the sign `s` on the reduced node that is worth two to the `i` units. -/
structure PowerTerm (d : Circuit) (u : ℝ) (s : Sign) (i : ℕ) (t : Term) : Prop where
  reduced : d.Reduced t.1
  worth : d.worth t.1 = 2 ^ i * u
  sign : t.2 = s

theorem PowerTerm.succ (h : PowerTerm d (2 * u) s i t) : PowerTerm d u s (i + 1) t :=
  ⟨h.reduced, by rw [h.worth]; ring, h.sign⟩

/-- The digits of a number, from the digits of its half. -/
theorem bitIndices_of_half (bits : ℕ) :
    bits.bitIndices = (if bits % 2 = 1 then [0] else []) ++ (bits / 2).bitIndices.map (· + 1) := by
  conv_lhs => rw [← Nat.div_add_mod bits 2]
  rcases Nat.mod_two_eq_zero_or_one bits with h | h <;> simp [h]

theorem powerTerm_bitTerms (hn : PowerTerm d u s 0 (n, s)) :
    List.Forall₂ (PowerTerm d u s) (if bits % 2 = 1 then [0] else []) (bitTerms n s bits) := by
  unfold bitTerms
  split_ifs
  · exact .cons hn .nil
  · exact .nil

/-- The outcome of writing a number in binary, in units of a reduced node. -/
structure Written (c : Circuit) (n : Node) (s : Sign) (bits : ℕ) (ts : List Term) (d : Circuit) : Prop where
  carried : c.Carried d
  digits : List.Forall₂ (PowerTerm d (c.worth n) s) bits.bitIndices ts
  powers : ∀ i, 2 ^ i ≤ bits → ∃ k, d.Reduced k ∧ d.worth k = 2 ^ i * c.worth n
  new : ∀ m, d.Live m → c.Live m ∨ d.worth m ≤ bits * c.worth n

theorem WellFormed.written_one (h : c.WellFormed) (hn : c.Reduced n) : Written c n s 1 (bitTerms n s 1) c where
  carried := .refl h.sound
  digits := by
    have hlast : List.Forall₂ (PowerTerm c (c.worth n) s) (if 1 % 2 = 1 then [0] else []) (bitTerms n s 1) :=
      powerTerm_bitTerms ⟨hn, by simp, rfl⟩
    rw [bitIndices_of_half]
    simpa using hlast
  powers := fun i hi => by
    obtain rfl : i = 0 := by
      by_contra hne
      exact absurd hi (Nat.one_lt_two_pow hne).not_ge
    exact ⟨n, hn, by simp⟩
  new := fun _ hm => .inl hm

/-- A number is written in units of a node by writing its half in units of the double. -/
theorem Written.half (h : c.WellFormed) (hn : c.Reduced n) (hbits : bits / 2 ≠ 0)
    (hrest : Written (c.double n).2 (c.double n).1 s (bits / 2) ts d) :
    Written c n s bits (bitTerms n s bits ++ ts) d := by
  have hdouble := h.sound.double hn
  have hgrows := hdouble.carried.grows
  have hrestgrows := hrest.carried.grows
  have hlinked := hdouble.carried.sound.toLinked
  have htwice : (c.double n).2.worth (c.double n).1 = 2 * c.worth n := by
    rw [hdouble.worth h.toConsistent, hgrows.worth_eq h.toLinked hn.1]
  have hn' : d.worth n = c.worth n := (hgrows.trans hrestgrows).worth_eq h.toLinked hn.1
  have hpos : 0 < c.worth n := worth_pos (h.acc hn.1)
  have hhalf : (2 : ℝ) * (bits / 2 : ℕ) ≤ bits := by exact_mod_cast Nat.mul_div_le bits 2
  have hdigits := hrest.digits
  rw [htwice] at hdigits
  refine ⟨hdouble.carried.trans hrest.carried, ?_, fun i hi => ?_, fun m hm => ?_⟩
  · rw [bitIndices_of_half]
    exact List.rel_append (powerTerm_bitTerms ⟨(hgrows.trans hrestgrows).reduced hn, by simp [hn'], rfl⟩)
      (List.forall₂_map_left_iff.2 (hdigits.imp fun _ _ ht => ht.succ))
  · cases i with
    | zero => exact ⟨n, (hgrows.trans hrestgrows).reduced hn, by simp [hn']⟩
    | succ i =>
      obtain ⟨k, hk, hw⟩ := hrest.powers i (by rw [pow_succ] at hi; omega)
      exact ⟨k, hk, by rw [hw, htwice]; ring⟩
  · rcases hrest.new m hm with hm' | hle
    · have hworth := (h.sound.offspring_double h.toConsistent hn).worth_le h.toConsistent hn hgrows hm'
      refine hworth.imp_right fun hle => ?_
      have htwo : (2 : ℝ) ≤ bits := by exact_mod_cast (show 2 ≤ bits by omega)
      rw [hrestgrows.worth_eq hlinked hm']
      exact hle.trans (mul_le_mul_of_nonneg_right htwo hpos.le)
    · rw [htwice] at hle
      refine .inr (hle.trans ?_)
      calc ((bits / 2 : ℕ) : ℝ) * (2 * c.worth n) = 2 * (bits / 2 : ℕ) * c.worth n := by ring
        _ ≤ bits * c.worth n := mul_le_mul_of_nonneg_right hhalf hpos.le

/-- By induction on the number. -/
theorem WellFormed.written (h : c.WellFormed) (hn : c.Reduced n) (hbits : bits ≠ 0) :
    Written c n s bits (Circuit.binaryTerms s bits n c).1 (Circuit.binaryTerms s bits n c).2 := by
  induction bits using Nat.strongRecOn generalizing c n with
  | ind bits ih =>
    by_cases hlast : bits / 2 = 0
    · obtain rfl : bits = 1 := by omega
      rw [binaryTerms_of_last hlast]
      exact h.written_one hn
    · rw [binaryTerms_of_more hlast]
      have hdouble := h.sound.double hn
      exact (ih (bits / 2) (by omega) (hdouble.carried.wellFormed h) hdouble.reduced hlast).half h hn hlast

/-! ## Integers -/

/-- What comes in with the unit is the unit. -/
theorem Sound.worth_of_live_ensureUnit (h : c.Sound) (hn : c.ensureUnit.2.Live n) :
    c.Live n ∨ c.ensureUnit.2.worth n = 1 := by
  obtain ⟨-, -, hsuccessors⟩ := h.ensureUnit
  cases hu : c.unit? with
  | some first =>
    rw [Circuit.ensureUnit, hu] at hn
    exact .inl hn
  | none =>
    refine ((h.live_ensureUnit hu).1 hn).imp_right ?_
    rintro rfl
    exact worth_of_successors_eq_nil hsuccessors

/-- The outcome of writing an integer. -/
structure Spelled (c : Circuit) (v : ℤ) (ts : List Term) (d : Circuit) : Prop where
  carried : c.Carried d
  digits : List.Forall₂ (PowerTerm d 1 (Sign.of v)) v.natAbs.bitIndices ts
  powers : ∀ i, 2 ^ i ≤ v.natAbs → ∃ k, d.Reduced k ∧ d.worth k = 2 ^ i
  new : ∀ m, d.Live m → c.Live m ∨ d.worth m ≤ v.natAbs

theorem WellFormed.spelled (h : c.WellFormed) (v : ℤ) :
    Spelled c v (Circuit.integerTerms v c).1 (Circuit.integerTerms v c).2 := by
  unfold Circuit.integerTerms
  split_ifs with hv
  · subst hv
    exact ⟨.refl h.sound, by simp, fun i hi => absurd hi (by simp), fun _ hm => .inl hm⟩
  · obtain ⟨hcarried, hunit, hsuccessors⟩ := h.sound.ensureUnit
    have hone : c.ensureUnit.2.worth c.ensureUnit.1 = 1 := worth_of_successors_eq_nil hsuccessors
    have hw := (hcarried.wellFormed h).written (s := Sign.of v) hunit (Int.natAbs_ne_zero.2 hv)
    have hdigits := hw.digits
    rw [hone] at hdigits
    refine ⟨hcarried.trans hw.carried, hdigits, fun i hi => ?_, fun m hm => ?_⟩
    · obtain ⟨k, hk, hworth⟩ := hw.powers i hi
      exact ⟨k, hk, by rw [hworth, hone, mul_one]⟩
    · rcases hw.new m hm with hm' | hle
      · refine (h.sound.worth_of_live_ensureUnit hm').imp_right fun hworth => ?_
        rw [hw.carried.grows.worth_eq hcarried.sound.toLinked hm', hworth]
        exact_mod_cast Int.natAbs_pos.2 hv
      · rw [hone, mul_one] at hle
        exact .inr hle

/-- The nodes that come in with an integer are the missing powers of two up to its highest digit. -/
theorem Spelled.new_iff (h : Spelled c v ts d) (hc : c.Linked) (hd : d.Consistent) : d.Live n ∧ ¬ c.Live n ↔
    d.Reduced n ∧ ∃ i, 2 ^ i ≤ v.natAbs ∧ d.worth n = 2 ^ i ∧ ∀ k, c.Reduced k → c.worth k ≠ 2 ^ i := by
  have hgrows := h.carried.grows
  constructor
  · rintro ⟨hn, hnew⟩
    have hr : d.Reduced n := reduced_iff.2 ⟨hn, fun hp => hnew ((hgrows.pending n).1 hp).1⟩
    obtain ⟨i, hi⟩ := (hd.legal n hr).exists_pow
    have hle := (h.new n hn).resolve_left hnew
    rw [hi] at hle
    refine ⟨hr, i, by exact_mod_cast hle, hi, fun k hk hkw => ?_⟩
    rw [← hi, ← hgrows.worth_eq hc hk.1] at hkw
    exact hnew (hd.eq_of_worth_eq hd.toLinked (hgrows.reduced hk) hr hkw ▸ hk.1)
  · rintro ⟨hr, i, -, hi, hmissing⟩
    refine ⟨hr.1, fun hn => ?_⟩
    have hold : c.Reduced n := reduced_iff.2 ⟨hn, fun hp => ((hgrows.pending n).2 hp).not_reduced hr⟩
    exact hmissing n hold (by rw [← hgrows.worth_eq hc hn, hi])

/-! ## The marking of an integer -/

/-- A term with the sign of an integer on the reduced node of a place of its binary digits. -/
structure Spells (d : Circuit) (v : ℤ) (i : ℕ) (t : Term) : Prop where
  reduced : d.Reduced t.1
  worth : d.worth t.1 = 2 ^ i
  sign : t.2 = Sign.of v

/-- Reduced nodes of the same worth are the same, so there is one such term. -/
theorem Consistent.spells_unique (hd : d.Consistent) : Relator.RightUnique (Spells d v) := by
  rintro i ⟨m, s⟩ ⟨n, s'⟩ ⟨hm, hmw, hs⟩ ⟨hn, hnw, hs'⟩
  exact Prod.ext (hd.eq_of_worth_eq hd.toLinked hm hn (hmw.trans hnw.symm)) (hs.trans hs'.symm)

theorem Spells.extends (h : Spells c v i t) (hl : c.Linked) (hd : c.Extends d) : Spells d v i t :=
  ⟨(hd t.1 h.reduced).1, (hd.worth_eq hl h.reduced).trans h.worth, h.sign⟩

/-- The marking of an integer: one entry for each binary digit, on the reduced node of its place. The nodes that are
missing among those of the places up to the highest digit come in, and no others; all that was there before stays as it
was. -/
structure Created (c : Circuit) (v : ℤ) (m : Marking) (d : Circuit) : Prop where
  wellFormed : d.WellFormed
  marks : d.Marks m v
  entries : List.Forall₂ (Spells d v) v.natAbs.bitIndices (d.termsOf m)
  powers : ∀ i, 2 ^ i ≤ v.natAbs → ∃ n, d.Reduced n ∧ d.worth n = 2 ^ i
  new : ∀ n, d.Live n ∧ ¬ c.Live n ↔
    d.Reduced n ∧ ∃ i, 2 ^ i ≤ v.natAbs ∧ d.worth n = 2 ^ i ∧ ∀ k, c.Reduced k → c.worth k ≠ 2 ^ i
  untouched : c.Untouched d
  sublist : c.order.toList.Sublist d.order.toList
  unused : c.cells.size ≤ m.id
  cells : ∀ i, i ≠ m.id → d.cellAt i = c.cellAt i

theorem run_createMarking (v : ℤ) (c : Circuit) : (Circuit.createMarking v).run c =
    (.ok ((Circuit.integerTerms v c).2.newMarking (Circuit.integerTerms v c).1).1,
      ((Circuit.integerTerms v c).2.newMarking (Circuit.integerTerms v c).1).2) := rfl

theorem WellFormed.created (h : c.WellFormed) (v : ℤ) :
    ∃ m d, (Circuit.createMarking v).run c = (.ok m, d) ∧ Created c v m d := by
  obtain ⟨hcarried, hproper, hreduced, hworth⟩ := h.integerTerms v
  have hspelled := h.spelled v
  have hrun := run_createMarking v c
  generalize Circuit.integerTerms v c = r at hcarried hproper hreduced hworth hspelled hrun
  have hgrows := hcarried.grows
  have hd := hcarried.wellFormed h
  refine ⟨_, _, hrun, hd.newMarking hproper, marks_newMarking hreduced hworth, ?_, hspelled.powers,
    fun n => hspelled.new_iff h.toLinked hd.toConsistent, hgrows.untouched.trans untouched_newMarking,
    hgrows.order_sublist h hd, hgrows.cells ▸ le_rfl, fun i hi => ?_⟩
  · rw [newMarking_termsOf]
    exact hspelled.digits.imp fun _ _ ht => ⟨ht.reduced, ht.worth.trans (mul_one _), ht.sign⟩
  · exact (newMarking_cellAt_of_ne hi).trans (cellAt_of_cells_eq hgrows.cells i)

/-- An integer is written on the same nodes where pending nodes depend on a cycle: they play no part in it. -/
theorem Grounded.spells_integerTerms (h : e.Grounded) (v : ℤ) : ∃ f, e.Extends f ∧ f.Consistent ∧
    List.Forall₂ (Spells f v) v.natAbs.bitIndices (Circuit.integerTerms v e).1 := by
  have hwf := h.wellFormed_veil_all
  have hspelled := hwf.spelled v
  obtain ⟨heq, -⟩ := (h.apart []).integerTerms v
  rw [heq] at hspelled
  refine ⟨_, (h.apart []).veil_sameReduced.extends.trans hspelled.carried.grows.extends,
    (hspelled.carried.wellFormed hwf).toConsistent, ?_⟩
  exact hspelled.digits.imp fun _ _ ht => ⟨ht.reduced, ht.worth.trans (mul_one _), ht.sign⟩

theorem Grounded.integerTerms_cells (h : e.Grounded) (v : ℤ) : (Circuit.integerTerms v e).2.cells = e.cells :=
  ((h.apart []).integerTerms v).beside.cells

/-- As long as nothing is removed, whatever else is called, an integer is written with the same entries again. -/
theorem Created.again (h : Created c v m d) (hrun : d.Unremoved e) (he : e.Grounded) :
    ∃ k f, (createMarking v).run e = (.ok k, f) ∧ f.termsOf k = d.termsOf m ∧ f.termsOf m = d.termsOf m := by
  obtain ⟨f, hextends, hf, hspells⟩ := he.spells_integerTerms v
  have hold := hrun.extends h.wellFormed.toStored
  have hentries : List.Forall₂ (Spells f v) v.natAbs.bitIndices (d.termsOf m) :=
    h.entries.imp fun _ _ ht => ht.extends h.wellFormed.toLinked (hold.trans hextends)
  have hcells := he.integerTerms_cells v
  have hlt : m.id < e.cells.size := (lt_size_of_handles h.marks.live).trans_le hrun.stands.size
  refine ⟨_, _, run_createMarking v e, ?_, ?_⟩
  · rw [newMarking_termsOf]
    exact List.right_unique_forall₂' hf.spells_unique hspells hentries
  · have hne : m.id ≠ ((Circuit.integerTerms v e).2.newMarking (Circuit.integerTerms v e).1).1.id :=
      fun heq => hlt.ne (heq.trans (congrArg Array.size hcells))
    rw [termsOf, newMarking_cellAt_of_ne hne, cellAt_of_cells_eq hcells]
    exact hrun.termsOf_eq h.wellFormed.toStored h.marks.live h.marks.reduced

/-- An integer is written in binary, on the reduced nodes of its places, and those that are missing come in for it.
Until something is removed, every other marking of the same integer has the same entries. -/
theorem createMarking_is_exact (h : c.WellFormed) (v : ℤ) :
    ∃ m d, (createMarking v).run c = (.ok m, d) ∧ Created c v m d ∧
    ∀ e, d.Unremoved e → e.Grounded →
      ∃ k f, (createMarking v).run e = (.ok k, f) ∧ f.termsOf k = d.termsOf m ∧ f.termsOf m = d.termsOf m := by
  obtain ⟨m, d, hrun, hm⟩ := h.created v
  exact ⟨m, d, hrun, hm, fun e hd he => hm.again hd he⟩

/-- Five takes a node of worth four, which is missing between two and eight. It is written the same after it was
incremented. -/
theorem created_five_twice : ∃ m d e k f, withoutFour.WellFormed ∧ (createMarking 5).run withoutFour = (.ok m, d) ∧
    d.termsOf m = [(⟨⟨0⟩, 0, 0⟩, .plus), (⟨⟨0⟩, 3, 0⟩, .plus)] ∧ d.Unremoved e ∧ e.WellFormed ∧
    (createMarking 5).run e = (.ok k, f) ∧ f.termsOf k = d.termsOf m := by
  obtain ⟨m, d, hrun, hm, hagain⟩ := createMarking_is_exact wellFormed_withoutFour 5
  have hterms : ((createMarking 5).run withoutFour).2.termsOf ⟨⟨0⟩, 0⟩ =
      [(⟨⟨0⟩, 0, 0⟩, .plus), (⟨⟨0⟩, 3, 0⟩, .plus)] := by cbv
  have hanswer : ((createMarking 5).run withoutFour).1 = .ok ⟨⟨0⟩, 0⟩ := by cbv
  rw [hrun] at hterms hanswer
  obtain rfl := Except.ok.inj hanswer
  have hunremoved : d.Unremoved ((Operation.increment ⟨⟨0⟩, 0⟩).run.run d).2 := .call .start _ fun _ => by simp
  have he := (hm.wellFormed.keeps_increment fun _ => hm.marks.live).silent.wellFormed
  obtain ⟨k, f, hrun', hf, -⟩ := hagain _ hunremoved he.grounded
  exact ⟨_, d, _, k, f, wellFormed_withoutFour, hrun, hterms, hunremoved, he, hrun', hf⟩

end PowerTower.Circuit
