import Mathlib
import PowerTower.Circuit.Create
import PowerTower.Circuit.Arithmetic
import PowerTower.Proofs.Canonical

/-!
# Making nodes and markings

* `Keeps` : a call leaves the circuit well formed, and reports no broken invariant;
* `Binary`, `WellFormed.integerTerms` : the terms of an integer are proper, and sum up to it;
* `cloneTerms_induction` : the twins of some nodes are new, and different from one another;
* `Proper.sumSigned`, `Proper.sumTerms`, `WellFormed.incremented` : sums are proper;
* `WellFormed.keeps_*` : each of the calls that make nodes and markings keeps a circuit well formed.
-/

namespace PowerTower.Circuit

open Guards

variable {c d : Circuit} {a b m : Marking} {n : Node} {s : Sign} {ts us vs : List Term} {bits : ℕ}

/-! ## Calls that keep a circuit well formed -/

/-- The circuit is well formed after the call, and the call does not find it broken. -/
structure Keeps {α : Type} (x : Call CircuitError α) (c : Circuit) : Prop where
  wellFormed : (x.run c).2.WellFormed
  config : (x.run c).2.config = c.config
  harmless : Harmless (x.run c).1

section Keeping

variable {α β : Type} {f : α → Call CircuitError β} {x : Call CircuitError β}

theorem Keeps.of_run_eq {y : Call CircuitError β} (h : Keeps y c) (hrun : x.run c = y.run c) : Keeps x c :=
  ⟨hrun ▸ h.wellFormed, hrun ▸ h.config, hrun ▸ h.harmless⟩

theorem WellFormed.keeps_ask (h : c.WellFormed) {q : Circuit → Except CircuitError α} (hq : Harmless (q c)) :
    Keeps (Call.ask q) c := ⟨h, rfl, hq⟩

theorem WellFormed.keeps_ask_bind (h : c.WellFormed) {q : Circuit → Except CircuitError α} (hq : Harmless (q c))
    (hf : ∀ a, q c = .ok a → Keeps (f a) c) : Keeps (Call.ask q >>= f) c := by
  cases hqc : q c with
  | ok a => exact (hf a hqc).of_run_eq (run_ask_ok hqc)
  | error e =>
    refine ⟨?_, ?_, ?_⟩
    all_goals rw [run_ask_error hqc]
    exacts [h, harmless_error (hq.ne_of_error hqc)]

theorem run_own (hm : m.circuit = c.id) : (Call.ask (fun c => c.checkMarking m) >>= fun _ => x).run c = x.run c :=
  run_ask_ok (checkMarking_eq_ok_iff.2 hm)

theorem WellFormed.keeps_own (h : c.WellFormed) (hx : m.circuit = c.id → Keeps x c) :
    Keeps (Call.ask (fun c => c.checkMarking m) >>= fun _ => x) c :=
  h.keeps_ask_bind harmless_checkMarking fun _ hm => hx (checkMarking_eq_ok_iff.1 hm)

theorem WellFormed.keeps_live (h : c.WellFormed) (hx : c.Live n → Keeps x c) :
    Keeps (Call.ask (fun c => c.checkNode n) >>= fun _ => x) c :=
  h.keeps_ask_bind harmless_checkNode fun _ hn => hx (live_iff_checkNode.2 hn)

theorem keeps_change {g : Circuit → α × Circuit} (h : (g c).2.WellFormed) (hconfig : (g c).2.config = c.config) :
    Keeps (Call.change g : Call _ α) c :=
  ⟨h, hconfig, harmless_ok _⟩

end Keeping

theorem Carried.wellFormed (h : c.WellFormed) (hd : c.Carried d) : d.WellFormed :=
  ⟨hd.consistent h.toConsistent, hd.sound.toStored⟩

/-- A handle of this circuit that the caller holds has proper terms. -/
theorem WellFormed.proper_termsOf (h : c.WellFormed) (hm : c.Held m) (hown : m.circuit = c.id) :
    c.Proper (c.termsOf m) := hm.proper h.tied hown

/-! ## Integers -/

/-- The result of writing a natural number in binary, in units of a reduced node. -/
structure Binary (c : Circuit) (n : Node) (s : Sign) (bits : ℕ) (ts : List Term) (d : Circuit) : Prop where
  carried : c.Carried d
  proper : d.Proper ts
  reduced : ∀ k ∈ Terms.nodes ts, d.Reduced k
  worth_le : ∀ k ∈ Terms.nodes ts, c.worth n ≤ d.worth k
  sum : d.termsWorth ts = s.toInt * bits * c.worth n

/-- The lowest digit of a binary number. -/
def bitTerms (n : Node) (s : Sign) (bits : ℕ) : List Term := if bits % 2 = 1 then [(n, s)] else []

theorem mem_bitTerms {t : Term} (h : t ∈ bitTerms n s bits) : t = (n, s) := by
  unfold bitTerms at h
  split_ifs at h
  · exact List.mem_singleton.1 h
  · cases h

theorem mem_nodes_bitTerms {k : Node} (h : k ∈ Terms.nodes (bitTerms n s bits)) : k = n := by
  obtain ⟨t, ht⟩ := Terms.mem_nodes.1 h
  exact congrArg Prod.fst (mem_bitTerms ht)

theorem nodup_bitTerms : (Terms.nodes (bitTerms n s bits)).Nodup := by
  unfold bitTerms
  split_ifs <;> simp

theorem sum_bitTerms (w : Node → ℝ) : Terms.sum w (bitTerms n s bits) = s.toInt * (bits % 2 : ℕ) * w n := by
  unfold bitTerms
  rcases Nat.mod_two_eq_zero_or_one bits with h | h <;> simp [h]

theorem binaryTerms_of_last (h : bits / 2 = 0) : binaryTerms s bits n c = (bitTerms n s bits, c) := by
  rw [binaryTerms, if_pos h]
  rfl

theorem binaryTerms_of_more (h : bits / 2 ≠ 0) : binaryTerms s bits n c =
    (bitTerms n s bits ++ (binaryTerms s (bits / 2) (c.double n).1 (c.double n).2).1,
      (binaryTerms s (bits / 2) (c.double n).1 (c.double n).2).2) := by
  rw [binaryTerms, if_neg h]
  rfl

/-- The highest digit. -/
theorem Sound.binary_last (h : c.Sound) (hn : c.Reduced n) (hs : s ≠ .zero) (hlast : bits / 2 = 0) :
    Binary c n s bits (bitTerms n s bits) c where
  carried := .refl h
  proper := ⟨⟨nodup_bitTerms, fun t ht => by rw [mem_bitTerms ht]; exact hs⟩, fun k hk => mem_nodes_bitTerms hk ▸ hn.1⟩
  reduced := fun k hk => by rwa [mem_nodes_bitTerms hk]
  worth_le := fun k hk => by rw [mem_nodes_bitTerms hk]
  sum := by rw [termsWorth, sum_bitTerms, Nat.mod_eq_of_lt (by omega)]

/-- One more digit below those that are written in units of the double, which is worth more than the digit's node. -/
theorem Binary.cons {e : Circuit} {next : Node} (h : c.Sound) (hc : c.Consistent) (hn : c.Reduced n) (hs : s ≠ .zero)
    (hdouble : Doubled c n next d) (hrest : Binary d next s (bits / 2) ts e) :
    Binary c n s bits (bitTerms n s bits ++ ts) e := by
  have hgrows := hdouble.carried.grows.trans hrest.carried.grows
  have hw : d.worth next = 2 * c.worth n := by
    rw [hdouble.worth hc, hdouble.carried.grows.worth_eq h.toLinked hn.1]
  have hpos : 0 < c.worth n := worth_pos (h.acc hn.1)
  have hn' : e.worth n = c.worth n := hgrows.worth_eq h.toLinked hn.1
  have hred : e.Reduced n := hgrows.reduced hn
  have hnew : n ∉ Terms.nodes ts := fun hmem => by
    have := hrest.worth_le n hmem
    linarith
  refine ⟨hdouble.carried.trans hrest.carried, ⟨⟨?_, fun t ht => ?_⟩, fun k hk => ?_⟩, fun k hk => ?_,
    fun k hk => ?_, ?_⟩
  · rw [Terms.nodes_append]
    exact List.Nodup.append nodup_bitTerms hrest.proper.nodup fun k hk hk' => hnew (mem_nodes_bitTerms hk ▸ hk')
  · rcases List.mem_append.1 ht with ht | ht
    · rw [mem_bitTerms ht]
      exact hs
    · exact hrest.proper.nonzero t ht
  · rcases List.mem_append.1 (Terms.nodes_append _ _ ▸ hk) with hk | hk
    · rw [mem_nodes_bitTerms hk]
      exact hred.1
    · exact hrest.proper.live k hk
  · rcases List.mem_append.1 (Terms.nodes_append _ _ ▸ hk) with hk | hk
    · rwa [mem_nodes_bitTerms hk]
    · exact hrest.reduced k hk
  · rcases List.mem_append.1 (Terms.nodes_append _ _ ▸ hk) with hk | hk
    · rw [mem_nodes_bitTerms hk, hn']
    · have := hrest.worth_le k hk
      linarith
  · have hbits : (bits : ℝ) = (bits % 2 : ℕ) + 2 * (bits / 2 : ℕ) := by exact_mod_cast (Nat.mod_add_div bits 2).symm
    have hsum := hrest.sum
    rw [termsWorth] at hsum
    rw [termsWorth, Terms.sum_append, sum_bitTerms, hsum, hw, hn', hbits]
    ring

/-- By induction on the number, which is halved for each digit. -/
theorem Sound.binaryTerms (h : c.Sound) (bits : ℕ) (hc : c.Consistent) (hn : c.Reduced n) (hs : s ≠ .zero) :
    Binary c n s bits (binaryTerms s bits n c).1 (binaryTerms s bits n c).2 := by
  induction bits using Nat.strongRecOn generalizing c n with
  | ind bits ih =>
    by_cases hlast : bits / 2 = 0
    · rw [binaryTerms_of_last hlast]
      exact h.binary_last hn hs hlast
    · rw [binaryTerms_of_more hlast]
      have hdouble := h.double hn
      have hc' := hdouble.carried.consistent hc
      exact .cons h hc hn hs hdouble (ih (bits / 2) (by omega) hdouble.carried.sound hc' hdouble.reduced)

theorem toInt_of_mul_natAbs (v : ℤ) : (Sign.of v).toInt * (v.natAbs : ℤ) = v := by
  unfold Sign.of
  split_ifs with h1 h2
  · simp only [Sign.toInt]
    omega
  · simp only [Sign.toInt]
    omega
  · simp only [Sign.toInt]
    omega

/-- The terms of an integer sum up to it. -/
theorem WellFormed.integerTerms (h : c.WellFormed) (v : ℤ) :
    c.Carried (integerTerms v c).2 ∧ (integerTerms v c).2.Proper (integerTerms v c).1 ∧
      (∀ n ∈ Terms.nodes (integerTerms v c).1, (integerTerms v c).2.Reduced n) ∧
      (integerTerms v c).2.termsWorth (integerTerms v c).1 = v := by
  unfold Circuit.integerTerms
  split_ifs with hv
  · exact ⟨.refl h.sound, proper_nil, by simp, by simp [termsWorth, hv]⟩
  · obtain ⟨hcarried, hunit, hsucc⟩ := h.sound.ensureUnit
    have hs : Sign.of v ≠ .zero := by
      unfold Sign.of
      split_ifs <;> simp
      omega
    have hb := hcarried.sound.binaryTerms v.natAbs (hcarried.consistent h.toConsistent) hunit hs
    refine ⟨hcarried.trans hb.carried, hb.proper, hb.reduced, hb.sum.trans ?_⟩
    rw [worth_of_successors_eq_nil hsucc, mul_one]
    rw [← Int.cast_natCast, ← Int.cast_mul, toInt_of_mul_natAbs]

theorem WellFormed.keeps_createMarking (h : c.WellFormed) (v : ℤ) : Keeps (createMarking v) c := by
  obtain ⟨hcarried, hproper, -⟩ := h.integerTerms v
  exact keeps_change ((hcarried.wellFormed h).newMarking hproper) hcarried.grows.config

/-- A circuit that checks itself, with the number one in it. -/
def onlyUnit : Circuit where
  id := ⟨0⟩
  config := .checked
  slots := #[{ live := true, rank := some 0 }]
  liveNodes := 1
  order := #[⟨⟨0⟩, 0, 0⟩]
  cells := #[⟨[(⟨⟨0⟩, 0, 0⟩, .plus)], 1⟩]

theorem createMarking_one : ((createMarking 1).run (empty ⟨0⟩ .checked)).2 = onlyUnit := by cbv

theorem wellFormed_onlyUnit : onlyUnit.WellFormed := by
  have h := ((wellFormed_empty ⟨0⟩ .checked).keeps_createMarking 1).wellFormed
  rwa [createMarking_one] at h

/-! ## Markings of given nodes -/

theorem Proper.accumulate {strict : Bool} (h : c.Proper ts) (hn : c.Live n)
    (ha : Terms.accumulate? strict n s ts = some us) : c.Proper us := by
  obtain ⟨hproper, hnodes⟩ := h.toProper.accumulate ha
  exact ⟨hproper, fun m hm => (hnodes m hm).elim (h.live m) fun he => he ▸ hn⟩

theorem Proper.sumSigned (h : c.Proper ts) (hs : c.sumSigned ts us = .ok vs) : c.Proper vs := by
  induction us generalizing ts with
  | nil =>
    obtain rfl := Except.ok.inj hs
    exact h
  | cons u us ih =>
    obtain ⟨n, s⟩ := u
    rw [Circuit.sumSigned, unit_bind_eq_ok] at hs
    obtain ⟨hn, hs⟩ := hs
    split at hs
    · next ha => exact ih (h.accumulate (live_iff_checkNode.2 hn) ha) hs
    · cases hs

theorem harmless_sumSigned : Harmless (c.sumSigned ts us) := by
  induction us generalizing ts with
  | nil => exact harmless_ok _
  | cons u us ih =>
    refine harmless_checkNode.bind fun _ _ => ?_
    split
    · exact ih
    · intro v
      simp [throw, throwThe, MonadExceptOf.throw]

theorem WellFormed.keeps_markSigned (h : c.WellFormed) (ns : List Node) (ss : List Sign) :
    Keeps (markSigned ns ss) c := by
  unfold markSigned
  split_ifs with hlen
  · exact ⟨h, rfl, fun v hv => by cases hv⟩
  · exact h.keeps_ask_bind harmless_sumSigned fun ts hts => keeps_change (h.newMarking (proper_nil.sumSigned hts)) rfl

theorem WellFormed.keeps_markNodes (h : c.WellFormed) (ns : List Node) : Keeps (markNodes ns) c :=
  h.keeps_markSigned ns _

/-! ## Nodes with a given exponent -/

theorem WellFormed.keeps_createNode (h : c.WellFormed) (hm : c.Held m) : Keeps (createNode m) c :=
  h.keeps_own fun hown => keeps_change (h.alloc (h.proper_termsOf hm hown)) alloc_config

theorem WellFormed.keeps_cloneNode (h : c.WellFormed) (n : Node) : Keeps (cloneNode n) c :=
  h.keeps_live fun hn => keeps_change (h.alloc (h.exponents n hn)) alloc_config

theorem cloneTerms_cons (t : Term) : cloneTerms (t :: ts) c =
    (((c.alloc (c.successors t.1)).1, t.2) :: (cloneTerms ts (c.alloc (c.successors t.1)).2).1,
      (cloneTerms ts (c.alloc (c.successors t.1)).2).2) := rfl

/-- The twins of live nodes are new, each of them another. What new nodes keep up is kept up. -/
theorem cloneTerms_induction {P : Circuit → Prop} (hP : ∀ d, P d → d.Tied ∧ d.Stored)
    (halloc : ∀ d us, P d → d.Proper us → P (d.alloc us).2) (h : P c) (hlive : ∀ n ∈ Terms.nodes ts, c.Live n)
    (hnonzero : ∀ t ∈ ts, t.2 ≠ .zero) : P (cloneTerms ts c).2 ∧ (cloneTerms ts c).2.Proper (cloneTerms ts c).1 ∧
      (cloneTerms ts c).2.config = c.config ∧ (∀ n, c.Live n → (cloneTerms ts c).2.Live n) ∧
      ∀ n ∈ Terms.nodes (cloneTerms ts c).1, ¬ c.Live n := by
  induction ts generalizing c with
  | nil => exact ⟨h, proper_nil, rfl, fun _ hn => hn, by simp [Circuit.cloneTerms]⟩
  | cons t ts ih =>
    obtain ⟨htied, hstored⟩ := hP c h
    have ht := hlive t.1 (by simp)
    have hmono := fun n => hstored.alloc_live_of_live (n := n) (c.successors t.1)
    have htwin := (hstored.alloc_pending htied (c.successors t.1)).1
    obtain ⟨hrest, hproper, hconfig, hkept, hnew⟩ := ih (halloc c _ h (htied.exponents t.1 ht))
      (fun n hn => hmono n (hlive n (by simp [hn]))) fun u hu => hnonzero u (by simp [hu])
    rw [cloneTerms_cons]
    refine ⟨hrest, ⟨⟨?_, ?_⟩, ?_⟩, hconfig.trans alloc_config, fun n hn => hkept n (hmono n hn), ?_⟩
    · rw [Terms.nodes_cons, List.nodup_cons]
      exact ⟨fun hmem => hnew _ hmem htwin, hproper.nodup⟩
    · exact List.forall_mem_cons.2 ⟨hnonzero t (by simp), hproper.nonzero⟩
    · exact List.forall_mem_cons.2 ⟨hkept _ htwin, hproper.live⟩
    · exact List.forall_mem_cons.2 ⟨hstored.not_live_alloc _, fun n hn hl => hnew n hn (hmono n hl)⟩

theorem WellFormed.cloneTerms (h : c.WellFormed) (hts : c.Proper ts) : (cloneTerms ts c).2.WellFormed ∧
    (cloneTerms ts c).2.Proper (cloneTerms ts c).1 ∧ (cloneTerms ts c).2.config = c.config := by
  obtain ⟨hwf, hproper, hconfig, -⟩ := cloneTerms_induction (fun _ hd => ⟨hd.tied, hd.toStored⟩)
    (fun _ _ hd hus => hd.alloc hus) h hts.live hts.nonzero
  exact ⟨hwf, hproper, hconfig⟩

theorem WellFormed.keeps_cloneMarking (h : c.WellFormed) (hm : c.Held m) : Keeps (cloneMarking m) c := by
  refine h.keeps_own fun hown => ?_
  obtain ⟨hwf, hproper, hconfig⟩ := h.cloneTerms (h.proper_termsOf hm hown)
  exact keeps_change (hwf.newMarking hproper) hconfig

theorem WellFormed.keeps_copyMarking (h : c.WellFormed) (hm : c.Held m) : Keeps (copyMarking m) c :=
  h.keeps_own fun hown => keeps_change (h.newMarking (h.proper_termsOf hm hown)) rfl

theorem WellFormed.keeps_successorMarking (h : c.WellFormed) (n : Node) : Keeps (successorMarking n) c :=
  h.keeps_live fun hn => keeps_change (h.newMarking (h.exponents n hn)) rfl

/-! ## Arithmetic -/

theorem Proper.flip (h : c.Proper ts) : c.Proper (Terms.flip ts) :=
  ⟨h.toProper.flip, fun n hn => h.live n (by rwa [Terms.nodes_flip] at hn)⟩

theorem WellFormed.keeps_invert (h : c.WellFormed) (hm : c.Held m) : Keeps (invert m) c :=
  h.keeps_own fun hown => keeps_change (h.newMarking (h.proper_termsOf hm hown).flip) rfl

theorem Proper.sumTerms {strict : Bool} (h : c.Proper ts) (hus : ∀ n ∈ Terms.nodes us, c.Live n)
    (hs : sumTerms strict ts us = .ok vs) : c.Proper vs := by
  induction us generalizing ts with
  | nil =>
    obtain rfl := Except.ok.inj hs
    exact h
  | cons u us ih =>
    obtain ⟨n, s⟩ := u
    rw [Circuit.sumTerms] at hs
    split at hs
    · next ha => exact ih (h.accumulate (hus n (by simp)) ha) (fun m hm => hus m (by simp [hm])) hs
    · cases hs

theorem harmless_sumTerms {strict : Bool} : Harmless (sumTerms strict ts us) := by
  induction us generalizing ts with
  | nil => exact harmless_ok _
  | cons u us ih =>
    rw [sumTerms]
    split
    · exact ih
    · exact fun v => by simp

theorem WellFormed.keeps_add (h : c.WellFormed) (ha : c.Held a) (hb : c.Held b) : Keeps (add a b) c := by
  refine h.keeps_own fun hown => h.keeps_own fun hown' => ?_
  refine h.keeps_ask_bind harmless_sumTerms fun ts hts => keeps_change (h.newMarking ?_) rfl
  exact (h.proper_termsOf ha hown).sumTerms (h.proper_termsOf hb hown').live hts

theorem WellFormed.keeps_intersect (h : c.WellFormed) (ha : c.Held a) : Keeps (intersect a b) c :=
  h.keeps_own fun hown => h.keeps_own fun _ =>
    keeps_change (h.newMarking ((h.proper_termsOf ha hown).sublist List.filter_sublist)) rfl

theorem Proper.append_new (h : d.Proper ts) (hn : d.Live n) (hnew : n ∉ Terms.nodes ts) (hs : s ≠ .zero) :
    d.Proper (ts ++ [(n, s)]) :=
  ⟨h.toProper.append_single hnew hs, fun k hk => by
    rw [Terms.nodes_append, List.mem_append] at hk
    exact hk.elim (h.live k) fun hk => by rw [List.mem_singleton.1 hk]; exact hn⟩

theorem ensureUnit_of_isEmpty (h : c.order.isEmpty = true) : c.ensureUnit.1 = (c.alloc []).1 := by
  have hu : c.unit? = none := by simp [unit?, Array.isEmpty_iff.1 h]
  rw [ensureUnit, hu]

/-- The node of worth one is in none of the terms. -/
theorem WellFormed.looseUnit (h : c.WellFormed) (hts : c.Proper ts) :
    c.looseUnit.2.WellFormed ∧ c.looseUnit.2.config = c.config ∧
      c.looseUnit.2.Proper (ts ++ [(c.looseUnit.1, .plus)]) := by
  unfold Circuit.looseUnit
  split_ifs with hempty
  · obtain ⟨hcarried, hunit, -⟩ := h.sound.ensureUnit
    refine ⟨hcarried.wellFormed h, hcarried.grows.config,
      (hcarried.grows.proper hts).append_new hunit.1 (fun hmem => ?_) (by simp)⟩
    rw [ensureUnit_of_isEmpty hempty] at hmem
    exact h.toStored.not_live_alloc [] (hts.live _ hmem)
  · have hmono := fun n => h.toStored.alloc_live_of_live (n := n) []
    refine ⟨h.alloc proper_nil, alloc_config,
      (hts.mono hmono).append_new (h.toStored.alloc_pending h.tied []).1 (fun hmem => ?_) (by simp)⟩
    exact h.toStored.not_live_alloc [] (hts.live _ hmem)

theorem WellFormed.incremented (h : c.WellFormed) (hts : c.Proper ts) :
    (incremented ts c).2.WellFormed ∧ (incremented ts c).2.config = c.config ∧
      (incremented ts c).2.Proper (incremented ts c).1 := by
  unfold Circuit.incremented
  split_ifs with hr
  · obtain ⟨hcarried, hproper, -⟩ := h.sound.incrementTerms hts fun n hn => by
      obtain ⟨s, ht⟩ := Terms.mem_nodes.1 hn
      exact ⟨hts.live n hn, List.all_eq_true.1 hr _ ht⟩
    exact ⟨hcarried.wellFormed h, hcarried.grows.config, hproper⟩
  · exact h.looseUnit hts

theorem WellFormed.keeps_increment (h : c.WellFormed) (hm : c.Held m) : Keeps (increment m) c := by
  refine h.keeps_own fun hown => ?_
  obtain ⟨hwf, hconfig, hproper⟩ := h.incremented (h.proper_termsOf hm hown)
  exact keeps_change (hwf.newMarking hproper) hconfig

end PowerTower.Circuit
