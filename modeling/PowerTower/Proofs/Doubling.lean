import Mathlib
import PowerTower.Proofs.Checking
import PowerTower.Proofs.Powers
import PowerTower.Proofs.Frozen

/-!
# Doubling

What the double of a reduced node costs. A carry makes a node only to stand right above another one that the carry has
met, and what it meets are the nodes that the exponent leads down to, since exponents are written with smaller powers.

* `Offspring` : the nodes that came in are each worth twice one of a given set;
* `offspring_absorbWith`, `offspring_doubleWithin` : a carry through a term list has offspring from below this list, and
  the double of a node from below this node;
* `Consistent.knownDouble?_of_worth` : a double stands right above the node, and is found there;
* `Doubling` : the result of doubling a reduced node;
* `WellFormed.doubling` : every reduced node has this result.
-/

namespace PowerTower.Circuit

open Guards

variable {S : Node → Prop} {c d e : Circuit} {k m n next : Node} {ts us : List Term} {s : Sign} {r room : ℕ}

/-! ## Offspring -/

/-- A node is worth twice a reduced one. -/
structure TwiceOf (d : Circuit) (k m : Node) : Prop where
  reduced : d.Reduced k
  worth : d.worth m = 2 * d.worth k

/-- Every node that came in is worth twice a node of the set. -/
def Offspring (S : Node → Prop) (c d : Circuit) : Prop := ∀ m, d.Live m → c.Live m ∨ ∃ k, S k ∧ d.TwiceOf k m

theorem Offspring.refl (S : Node → Prop) (c : Circuit) : Offspring S c c := fun _ hm => .inl hm

theorem Offspring.mono {T : Node → Prop} (h : Offspring S c d) (hST : ∀ k, S k → T k) : Offspring T c d := fun m hm =>
  (h m hm).imp_right fun ⟨k, hk, hrest⟩ => ⟨k, hST k hk, hrest⟩

theorem Offspring.trans (h : Offspring S c d) (h' : Offspring S d e) (hl : d.Linked) (hg : d.Grows e) :
    Offspring S c e := by
  intro m hm
  rcases h' m hm with hd | hnew
  · rcases h m hd with hc | ⟨k, hk, hr, hw⟩
    · exact .inl hc
    · exact .inr ⟨k, hk, hg.reduced hr, by rw [hg.worth_eq hl hd, hg.worth_eq hl hr.1, hw]⟩
  · exact .inr hnew

/-- No way down from an old node leads to a new one. -/
theorem Grows.reaches (h : c.Grows d) (hl : c.Linked) (hn : c.Live n) (hm : Relation.ReflTransGen d.Below m n) :
    Relation.ReflTransGen c.Below m n ∧ c.Live m := by
  induction hm using Relation.ReflTransGen.head_induction_on with
  | refl => exact ⟨.refl, hn⟩
  | head hb _ ih =>
    obtain ⟨hreach, hlive⟩ := ih
    unfold Below successorNodes at hb
    rw [h.successors _ hlive] at hb
    exact ⟨.head hb hreach, hl.live_of_below hlive hb⟩

/-- The nodes that the exponents of a term list lead down to belong to a set. -/
def Covers (S : Node → Prop) (c : Circuit) (ts : List Term) : Prop :=
  ∀ q ∈ Terms.nodes ts, ∀ k, Relation.ReflTransGen c.Below k q → S k

theorem Covers.grows (h : Covers S c ts) (hts : c.Proper ts) (hl : c.Linked) (hg : c.Grows d) (hsub : us.Sublist ts) :
    Covers S d us := fun q hq k hk =>
  have hq := (hsub.map _).subset hq
  h q hq k (hg.reaches hl (hts.live q hq) hk).1

/-! ## Carries and doubles -/

/-- Where the unit is made, it is all that comes in. -/
theorem Sound.live_ensureUnit (h : c.Sound) (hu : c.unit? = none) :
    c.ensureUnit.2.Live m ↔ c.Live m ∨ m = c.ensureUnit.1 := by
  rw [Circuit.ensureUnit, hu, ← h.alloc_live_iff]
  exact refreshDoubles_sameRanks.live_iff.trans place_sameNodes.live_iff

theorem doubled_of_doubleWithin (h : c.Sound) (hn : c.Reduced n) (hroom : c.Within room n)
    (heq : doubleWithin room n c = some (next, d)) : Doubled c n next d := by
  obtain ⟨next', d', heq', hdoubled⟩ := exists_doubleWithin h hn hroom
  obtain ⟨rfl, rfl⟩ := Prod.mk.inj (Option.some.inj (heq.symm.trans heq'))
  exact hdoubled

theorem absorbed_of_absorbWith (h : c.Sound) (hts : c.Proper ts) (hn : c.Reduced n) (hs : s ≠ .zero)
    (hroom : ∀ q ∈ Terms.nodes ts, c.Within room q) (heq : absorbWith (doubleWithin room) ts n s c = some (us, d)) :
    Absorbed c ts n s us d := by
  obtain ⟨us', d', heq', habsorbed⟩ := exists_absorbWith (Q := fun c m => c.Within room m)
    (fun hc hg hm hw => hg.within hc.toLinked hm hw) (fun hc hm hw => exists_doubleWithin hc hm hw) h hts hn hs hroom
  obtain ⟨rfl, rfl⟩ := Prod.mk.inj (Option.some.inj (heq.symm.trans heq'))
  exact habsorbed

/-- A carry doubles nodes that the term list mentions. -/
theorem offspring_absorbWith
    (ih : ∀ {c n next d}, c.Sound → c.Consistent → c.Reduced n → c.Within room n →
      doubleWithin room n c = some (next, d) →
      Offspring (fun k => Relation.ReflTransGen c.Below k n) c d)
    (h : c.Sound) (hc : c.Consistent) (hts : c.Proper ts) (hn : c.Reduced n) (hs : s ≠ .zero)
    (hroom : ∀ q ∈ Terms.nodes ts, c.Within room q) (hS : Covers S c ts)
    (heq : absorbWith (doubleWithin room) ts n s c = some (us, d)) : Offspring S c d := by
  fun_induction absorbWith (doubleWithin room) ts n s c with
  | case1 =>
    obtain ⟨-, rfl⟩ := Prod.mk.inj (Option.some.inj heq)
    exact .refl S _
  | case2 =>
    obtain ⟨-, rfl⟩ := Prod.mk.inj (Option.some.inj heq)
    exact .refl S _
  | case3 => cases heq
  | case4 ts n s c old hd sum carry hadd hcarry next d' hsome ihrest =>
    have hmem : n ∈ Terms.nodes ts := Terms.mem_nodes.2 ⟨old, Terms.mem_of_digit?_eq_some hd⟩
    have herase := Terms.erase_sublist n ts
    have hdoubled := doubled_of_doubleWithin h hn (hroom n hmem) hsome
    have hgrows := hdoubled.carried.grows
    have hproper : d'.Proper (Terms.erase n ts) := hgrows.proper (hts.sublist herase)
    have hroom' : ∀ q ∈ Terms.nodes (Terms.erase n ts), d'.Within room q := fun q hq =>
      have hq := (herase.map _).subset hq
      hgrows.within h.toLinked (hts.live q hq) (hroom q hq)
    have hfirst : Offspring S c d' := (ih h hc hn (hroom n hmem) hsome).mono (hS n hmem)
    have hrest : Offspring S d' d := ihrest hdoubled.carried.sound (hdoubled.carried.consistent hc) hproper
      hdoubled.reduced hcarry hroom' (hS.grows hts h.toLinked hgrows herase) heq
    have habsorbed := absorbed_of_absorbWith hdoubled.carried.sound hproper hdoubled.reduced hcarry hroom' heq
    exact hfirst.trans hrest hdoubled.carried.sound.toLinked habsorbed.carried.grows

/-- The node that is entered in the end is the double. -/
theorem Sound.offspring_finishDouble (h : c.Sound) (hn : c.Reduced n) (heq : c.finishDouble n ts = (next, d))
    (hr : d.Reduced n) (hw : d.worth next = 2 * d.worth n) : Offspring (· = n) c d := by
  intro m hm
  cases hk : c.knownDouble? n with
  | some known =>
    rw [Circuit.finishDouble, hk] at heq
    obtain ⟨-, rfl⟩ := Prod.mk.inj heq
    exact .inl hm
  | none =>
    obtain ⟨r, hnr⟩ := h.exists_getElem? hn
    rw [h.finishDouble_eq hnr hk] at heq
    obtain ⟨rfl, rfl⟩ := Prod.mk.inj heq
    have hm' := hm
    rw [insertTwin_sameRanks.live_iff, insertNew, place_sameNodes.live_iff, h.alloc_live_iff] at hm'
    rcases hm' with hold | rfl
    · exact .inl hold
    · exact .inr ⟨n, rfl, hr, hw⟩

/-- Where there is a reduced node, the unit is there. -/
theorem Consistent.ensureUnit_eq (hc : c.Consistent) (hn : c.Reduced n) : c.ensureUnit.2 = c := by
  obtain ⟨r, hr⟩ := hc.exists_getElem? hn
  have hsize := (Array.getElem?_eq_some_iff.1 hr).1
  cases hu : c.unit? with
  | some first => rw [ensureUnit, hu]
  | none =>
    have := hc.size_eq_zero_of_unit?_eq_none hu
    omega

/-- The double of a node takes doubles of nodes that the node depends on. By induction on the room for doubles under
construction. -/
theorem offspring_doubleWithin (h : c.Sound) (hc : c.Consistent) (hn : c.Reduced n) (hroom : c.Within room n)
    (heq : doubleWithin room n c = some (next, d)) : Offspring (fun k => Relation.ReflTransGen c.Below k n) c d := by
  induction room generalizing c n next d with
  | zero => exact hroom.elim
  | succ room ih =>
    have hdoubled := doubled_of_doubleWithin h hn hroom heq
    cases hknown : c.knownDouble? n with
    | some known =>
      rw [doubleWithin, hknown] at heq
      obtain ⟨-, rfl⟩ := Prod.mk.inj (Option.some.inj heq)
      exact .refl _ _
    | none =>
      rw [doubleWithin_of_none hknown] at heq
      obtain ⟨-, hunit, -⟩ := h.ensureUnit
      rw [hc.ensureUnit_eq hn] at heq hunit
      obtain ⟨⟨us, e⟩, habs, hfinish⟩ := Option.map_eq_some_iff.1 heq
      have hproper : c.Proper (c.successors n) := h.exponents n hn.1
      have hcovers : Covers (fun k => Relation.ReflTransGen c.Below k n) c (c.successors n) :=
        fun q hq k hk => hk.tail hq
      have hexponent := offspring_absorbWith ih h hc hproper hunit (by simp) hroom hcovers habs
      have habsorbed := absorbed_of_absorbWith h hproper hunit (by simp) hroom habs
      have hcarried := habsorbed.carried
      have hn' := hcarried.grows.reduced hn
      have hreduced : ∀ m ∈ Terms.nodes us, e.Reduced m := fun m hm => (habsorbed.entries m hm).elim
        (fun hm => hcarried.grows.reduced (h.closed n hn m hm)) fun hm => hm
      obtain ⟨-, hgrows, -⟩ := hcarried.sound.finishDouble hn' habsorbed.proper hreduced
      rw [hfinish] at hgrows
      have htwin := hcarried.sound.offspring_finishDouble hn' hfinish (hgrows.reduced hn') (hdoubled.worth hc)
      exact hexponent.trans (htwin.mono fun k hk => hk ▸ .refl) hcarried.sound.toLinked hgrows

/-! ## The double of a reduced node -/

/-- A double stands right above the node, and is found there. -/
theorem Consistent.knownDouble?_of_worth (hc : c.Consistent) (hr : c.order[r]? = some n) (hm : c.Reduced m)
    (hw : c.worth m = 2 * c.worth n) :
    c.order[r + 1]? = some m ∧ (c.slot n).doubles = true ∧ c.knownDouble? n = some m := by
  have hn := hc.reduced_of_getElem? hr
  have hpos : 0 < c.worth n := worth_pos (hc.acc hn.1)
  obtain ⟨j, hj⟩ := hc.exists_getElem? hm
  have hrj : r < j := by
    by_contra hle
    have := hc.worth_le hj hr (not_lt.1 hle)
    linarith
  have hnext : c.order[r + 1]? = some m := by
    rcases (Nat.succ_le_of_lt hrj).eq_or_lt with heq | hlt
    · rwa [← heq] at hj
    · -- what stands in between is worth more than the node, so twice as much or more, and less than the double
      obtain ⟨k, hk⟩ : ∃ k, c.order[r + 1]? = some k :=
        ⟨_, Array.getElem?_eq_getElem (hlt.trans (Array.getElem?_eq_some_iff.1 hj).1)⟩
      have htwo := (hc.legal n hn).two_mul_worth_le (hc.legal k (hc.reduced_of_getElem? hk))
        (hc.worth_lt hr hk (Nat.lt_succ_self r))
      have hless := hc.worth_lt hk hj hlt
      linarith
  have hflag : (c.slot n).doubles = true := (hc.flags r n hr).2 ⟨m, hnext, hw⟩
  exact ⟨hnext, hflag, by rw [knownDouble?, if_pos hflag, hc.rank?_of_getElem? hr]; exact hnext⟩

theorem Grows.order_sublist (h : c.Grows d) (hc : c.WellFormed) (hd : d.WellFormed) :
    c.order.toList.Sublist d.order.toList :=
  (Frozen.of_cells_eq h.id h.config h.extends h.cells).order_sublist hc.grounded hd.grounded

/-- Different nodes are twice different ones, so that there is no more offspring than there are nodes that have some. -/
theorem Offspring.ncard_le (h : Offspring S c d) (hS : {k | S k}.Finite) (hd : d.WellFormed) (hg : c.Grows d) :
    {m | d.Live m ∧ ¬ c.Live m}.ncard ≤ {k | S k}.ncard := by
  have hparent : ∀ m, ∃ k, m ∈ {m | d.Live m ∧ ¬ c.Live m} → S k ∧ d.worth m = 2 * d.worth k := fun m => by
    by_cases hm : d.Live m ∧ ¬ c.Live m
    · obtain ⟨k, hk, -, hw⟩ := (h m hm.1).resolve_left hm.2
      exact ⟨k, fun _ => ⟨hk, hw⟩⟩
    · exact ⟨m, fun hm' => absurd hm' hm⟩
  choose parent hparent using hparent
  have hreduced : ∀ m ∈ {m | d.Live m ∧ ¬ c.Live m}, d.Reduced m := fun m hm =>
    reduced_iff.2 ⟨hm.1, fun hp => hm.2 ((hg.pending m).1 hp).1⟩
  refine Set.ncard_le_ncard_of_injOn parent (fun m hm => (hparent m hm).1) (fun m hm k hk heq => ?_) hS
  refine hd.eq_of_worth_eq hd.toLinked (hreduced m hm) (hreduced k hk) ?_
  rw [(hparent m hm).2, (hparent k hk).2, heq]

theorem Sound.offspring_double (h : c.Sound) (hc : c.Consistent) (hn : c.Reduced n) :
    Offspring (fun k => Relation.ReflTransGen c.Below k n) c (c.double n).2 := by
  obtain ⟨next, d, hroom, -⟩ := exists_doubleWithin h hn (h.within hn.1)
  rw [Circuit.double, double?_of_doubleWithin le_rfl hroom]
  exact offspring_doubleWithin h hc hn (h.within hn.1) hroom

/-- What comes in with the double of a node is worth no more than the double. -/
theorem Offspring.worth_le (h : Offspring (fun k => Relation.ReflTransGen c.Below k n) c d) (hc : c.Consistent)
    (hn : c.Reduced n) (hg : c.Grows d) (hm : d.Live m) : c.Live m ∨ d.worth m ≤ 2 * c.worth n := by
  refine (h m hm).imp_right ?_
  rintro ⟨k, hk, -, hw⟩
  have hkn := hc.worth_le_of_reaches hc.toLinked hn hk
  rw [hw, hg.worth_eq hc.toLinked (hc.tied.reduced_of_reaches hn hk).1]
  linarith

/-- The result of doubling a reduced node: the double right above it, at most one new node for each node that it depends
on, and nothing else changed. -/
structure Doubling (c : Circuit) (n next : Node) (d : Circuit) : Prop where
  wellFormed : d.WellFormed
  reduced : d.Reduced next
  worth : d.worth next = 2 * c.worth n
  adjacent : ∃ r : ℕ, d.order[r]? = some n ∧ d.order[r + 1]? = some next
  flag : (d.slot n).doubles = true
  grows : c.Grows d
  sublist : c.order.toList.Sublist d.order.toList
  offspring : Offspring (fun k => Relation.ReflTransGen c.Below k n) c d
  count : {m | d.Live m ∧ ¬ c.Live m}.ncard ≤ {k | Relation.ReflTransGen c.Below k n}.ncard

/-- Doubling a reduced node always has a result, and changes nothing where the double is there already. -/
theorem WellFormed.doubling (h : c.WellFormed) (hn : c.Reduced n) :
    c.double? n = some (c.double n) ∧ Doubling c n (c.double n).1 (c.double n).2 ∧
      ∀ m, c.Reduced m → c.worth m = 2 * c.worth n → c.double n = (m, c) := by
  obtain ⟨next, d, heq, hdoubled⟩ := h.sound.double? hn
  have hdouble : c.double n = (next, d) := by rw [double, heq, Option.getD_some]
  have hgrows := hdoubled.carried.grows
  have hd : d.WellFormed := hdoubled.carried.wellFormed h
  have hw : d.worth next = 2 * d.worth n := hdoubled.worth h.toConsistent
  obtain ⟨r, hr⟩ := hd.exists_getElem? (hgrows.reduced hn)
  obtain ⟨hnext, hflag, -⟩ := hd.toConsistent.knownDouble?_of_worth hr hdoubled.reduced hw
  have hoffspring := h.sound.offspring_double h.toConsistent hn
  rw [hdouble] at hoffspring ⊢
  have hfinite : {k | Relation.ReflTransGen c.Below k n}.Finite := by
    have hlive : {k | c.Live k}.Finite := Set.finite_coe_iff.1 finite_live
    exact hlive.subset fun k hk => (h.tied.reduced_of_reaches hn hk).1
  refine ⟨heq, ⟨hd, hdoubled.reduced, ?_, ⟨r, hr, hnext⟩, hflag, hgrows, hgrows.order_sublist h hd, hoffspring,
    hoffspring.ncard_le hfinite hd hgrows⟩, fun m hm hmw => ?_⟩
  · rw [hw, hgrows.worth_eq h.toLinked hn.1]
  · obtain ⟨j, hj⟩ := h.exists_getElem? hn
    obtain ⟨-, -, hknown⟩ := h.toConsistent.knownDouble?_of_worth hj hm hmw
    exact Option.some.inj (heq.symm.trans (double?_of_some hknown))

/-- The nodes of worth one, two and eight, where four is missing. -/
def withoutFour : Circuit where
  id := ⟨0⟩
  config := .checked
  slots := #[{ live := true, rank := some 0, doubles := true },
    { live := true, rank := some 1, successors := [(⟨⟨0⟩, 0, 0⟩, .plus)] },
    { live := true, rank := some 2, successors := [(⟨⟨0⟩, 0, 0⟩, .plus), (⟨⟨0⟩, 1, 0⟩, .plus)] }]
  liveNodes := 3
  order := #[⟨⟨0⟩, 0, 0⟩, ⟨⟨0⟩, 1, 0⟩, ⟨⟨0⟩, 2, 0⟩]

/-- Where exponents mention only places that are lower in some measure, there is no cycle. -/
theorem acyclic_of_height (height : ℕ → ℕ)
    (h : ∀ i < c.slots.size, ∀ m ∈ Terms.nodes (c.slotAt i).successors, height m.index < height i) : c.Acyclic := by
  have hbelow : ∀ {m n}, c.Below m n → height m.index < height n.index := fun {m n} hb => by
    refine h n.index ?_ m hb
    by_contra hout
    have hnone : c.slots[n.index]? = none := Array.getElem?_eq_none (not_lt.1 hout)
    simp [Below, successorNodes, successors, slot, slotAt, hnone] at hb
  have hdown : ∀ {m n}, Relation.TransGen c.Below m n → height m.index < height n.index := fun hreach => by
    induction hreach with
    | single hb => exact hbelow hb
    | tail _ hb ih => exact ih.trans (hbelow hb)
  exact fun n _ hcycle => lt_irrefl _ (hdown hcycle)

theorem cycle?_of_height (hslots : (List.range c.slots.size).forM c.checkSlot = .ok ()) (height : ℕ → ℕ)
    (h : ∀ i < c.slots.size, ∀ m ∈ Terms.nodes (c.slotAt i).successors, height m.index < height i) : c.cycle? = none :=
  (cycle?_eq_none_iff fun n hn m hm => ((forM_checkSlot_eq_ok_iff.1 hslots).1 n hn).live m hm).2
    (acyclic_of_height height h)

/-- A circuit that passes the check is well formed if its dead places are the free ones. -/
theorem wellFormed_of_check (hcheck : c.check = .ok ()) (hnodup : c.free.Nodup) (hlt : ∀ i ∈ c.free, i < c.slots.size)
    (hfree : ∀ i < c.slots.size, (i ∈ c.free ↔ (c.slotAt i).live = false))
    (hcount : c.liveNodes = UInt64.ofNat c.liveIndices.length) : c.WellFormed where
  toConsistent := check_eq_ok_iff_consistent.1 hcheck
  nodup_free := hnodup
  mem_free := fun i => ⟨fun hi => ⟨hlt i hi, (hfree i (hlt i hi)).1 hi⟩, fun h => (hfree i h.1).2 h.2⟩
  count := hcount

theorem wellFormed_withoutFour : withoutFour.WellFormed := by
  have hslots : (List.range withoutFour.slots.size).forM withoutFour.checkSlot = .ok () := by cbv
  have hacyclic : withoutFour.cycle? = none := cycle?_of_height hslots (fun i => i) (by decide)
  refine wellFormed_of_check ?_ (by decide) (by decide) (by decide) (by decide)
  simp only [check, unit_bind_eq_ok, checkAcyclic_eq_ok_iff]
  exact ⟨hslots, by cbv, by cbv, by cbv, hacyclic, by cbv, by cbv, by cbv⟩

/-- The double of eight takes the double of two, which is made first. -/
theorem doubling_of_eight : withoutFour.WellFormed ∧ withoutFour.Reduced ⟨⟨0⟩, 2, 0⟩ ∧
    withoutFour.double? ⟨⟨0⟩, 2, 0⟩ = some (withoutFour.double ⟨⟨0⟩, 2, 0⟩) ∧
    Doubling withoutFour ⟨⟨0⟩, 2, 0⟩ ⟨⟨0⟩, 4, 0⟩ (withoutFour.double ⟨⟨0⟩, 2, 0⟩).2 := by
  have hreduced : withoutFour.Reduced ⟨⟨0⟩, 2, 0⟩ := ⟨⟨rfl, rfl, rfl⟩, rfl⟩
  obtain ⟨heq, hdoubling, -⟩ := wellFormed_withoutFour.doubling hreduced
  have hnew : (withoutFour.double ⟨⟨0⟩, 2, 0⟩).1 = ⟨⟨0⟩, 4, 0⟩ := by cbv
  rw [hnew] at hdoubling
  exact ⟨wellFormed_withoutFour, hreduced, heq, hdoubling⟩

end PowerTower.Circuit
