import Mathlib
import PowerTower.Proofs.Depth
import PowerTower.Proofs.Order
import PowerTower.Proofs.Room

/-!
# Carries

* `Sound` : linked and stored properly, which carries keep up even where the reduced order is out of order;
* `Grows` : reduced nodes came in, and nothing else changed;
* `Carried` : what a carry does to a circuit: it stays sound and grows, and it stays consistent if it was;
* `Doubled`, `Absorbed` : the results of doubling a node and of adding a node to a term list;
* `exists_doubleWithin`, `exists_absorbWith` : both have a result, with as much room as the node is deep.
-/

namespace PowerTower.Circuit

variable {c d e : Circuit} {m n next : Node} {ts us : List Term} {s : Sign} {i k p r : ℕ}

/-! ## Circuits that grow -/

/-- Linked, with its places kept properly. -/
structure Sound (c : Circuit) : Prop extends Linked c, Stored c

theorem WellFormed.sound (h : c.WellFormed) : c.Sound := ⟨h.toLinked, h.toStored⟩

/-- Reduced nodes came in, and nothing else changed but ranks and flags. -/
structure Grows (c d : Circuit) : Prop where
  id : d.id = c.id
  config : d.config = c.config
  cells : d.cells = c.cells
  generation : ∀ i, (d.slotAt i).generation = (c.slotAt i).generation
  live : ∀ n, c.Live n → d.Live n
  successors : ∀ n, c.Live n → d.successors n = c.successors n
  pending : ∀ n, d.Pending n ↔ c.Pending n

theorem Grows.refl (c : Circuit) : c.Grows c :=
  ⟨rfl, rfl, rfl, fun _ => rfl, fun _ h => h, fun _ _ => rfl, fun _ => Iff.rfl⟩

theorem Grows.trans (h : c.Grows d) (h' : d.Grows e) : c.Grows e where
  id := h'.id.trans h.id
  config := h'.config.trans h.config
  cells := h'.cells.trans h.cells
  generation := fun i => (h'.generation i).trans (h.generation i)
  live := fun n hn => h'.live n (h.live n hn)
  successors := fun n hn => (h'.successors n (h.live n hn)).trans (h.successors n hn)
  pending := fun n => (h'.pending n).trans (h.pending n)

theorem pending_iff : c.Pending n ↔ c.Live n ∧ ¬ c.Reduced n :=
  ⟨fun h => ⟨h.1, h.not_reduced⟩, fun ⟨hl, hr⟩ => (reduced_or_pending hl).resolve_left hr⟩

theorem reduced_iff : c.Reduced n ↔ c.Live n ∧ ¬ c.Pending n :=
  ⟨fun h => ⟨h.1, fun hp => hp.not_reduced h⟩, fun ⟨hl, hp⟩ => (reduced_or_pending hl).resolve_right hp⟩

theorem Grows.reduced (h : c.Grows d) (hn : c.Reduced n) : d.Reduced n :=
  reduced_iff.2 ⟨h.live n hn.1, fun hp => ((h.pending n).1 hp).not_reduced hn⟩

theorem Grows.extends (h : c.Grows d) : c.Extends d := fun n hn => ⟨h.reduced hn, h.successors n hn.1⟩

theorem Grows.proper (h : c.Grows d) (hts : c.Proper ts) : d.Proper ts := hts.mono h.live

theorem Grows.worth_eq (h : c.Grows d) (hl : c.Linked) (hn : c.Live n) : d.worth n = c.worth n :=
  worth_congr (fun _ hn _ hm => hl.live_of_below hn hm) h.successors hn (hl.acc hn)

theorem Grows.within (h : c.Grows d) (hl : c.Linked) (hn : c.Live n) (hk : c.Within k n) : d.Within k n := by
  induction k generalizing n with
  | zero => exact hk.elim
  | succ k ih =>
    intro m hm
    unfold Below successorNodes at hm
    rw [h.successors n hn] at hm
    exact ih (hl.live_of_below hn hm) (hk m hm)

theorem SameRanks.grows (h : c.SameRanks d) : c.Grows d :=
  ⟨h.id, h.config, h.cells, h.generation, fun _ => h.live_iff.2, fun _ _ => congrFun h.successors_eq _,
    fun _ => h.pending_iff⟩

theorem SameRanks.sound (h : c.SameRanks d) (hc : c.Sound) : d.Sound := ⟨h.linked hc.toLinked, h.stored hc.toStored⟩

/-- What a carry does to a circuit. -/
structure Carried (c d : Circuit) : Prop where
  sound : d.Sound
  grows : c.Grows d
  consistent : c.Consistent → d.Consistent

theorem Carried.refl (h : c.Sound) : c.Carried c := ⟨h, .refl c, fun hc => hc⟩

theorem Carried.trans (h : c.Carried d) (h' : d.Carried e) : c.Carried e :=
  ⟨h'.sound, h.grows.trans h'.grows, fun hc => h'.consistent (h.consistent hc)⟩

/-! ## A new reduced node -/

/-- The circuit with a new node in the order, its flag and the flag below not yet refreshed. -/
def insertNew (c : Circuit) (ts : List Term) (p : ℕ) : Circuit := (c.alloc ts).2.place (c.alloc ts).1 p

theorem insertNew_below (hts : (c.alloc ts).2.successors (c.alloc ts).1 = ts)
    (hm : (c.alloc ts).2.Below m (c.alloc ts).1) : m ∈ Terms.nodes ts := by
  unfold Below successorNodes at hm
  rwa [hts] at hm

theorem Sound.insertNew_sound (h : c.Sound) (hts : c.Proper ts) (hr : ∀ m ∈ Terms.nodes ts, c.Reduced m)
    (hp : p ≤ c.order.size) : (c.insertNew ts p).Sound where
  toLinked := by
    have hsame := h.alloc_sameReduced h.tied ts
    refine (h.toLinked.alloc h.toStored hts).place (h.alloc_pending h.tied ts) (by rwa [hsame.order]) fun m hm => ?_
    exact (hsame.reduced m).2 (hr m (insertNew_below (h.alloc_successors_new ts) hm))
  toStored := place_sameNodes.stored (h.toStored.alloc ts)

theorem Sound.insertNew_reduced (h : c.Sound) (hts : c.Proper ts) (hp : p ≤ c.order.size) :
    (c.insertNew ts p).Reduced m ↔ c.Reduced m ∨ m = (c.alloc ts).1 := by
  have hsame := h.alloc_sameReduced h.tied ts
  rw [insertNew, (h.toLinked.alloc h.toStored hts).place_reduced_iff (h.alloc_pending h.tied ts)
    (by rwa [hsame.order]), hsame.reduced]

theorem Sound.insertNew_successors (h : c.Sound) (hn : c.Live n) :
    (c.insertNew ts p).successors n = c.successors n := by
  rw [insertNew, place_sameNodes.successors_eq, h.alloc_successors ts hn]

theorem Sound.insertNew_successors_new (h : c.Sound) : (c.insertNew ts p).successors (c.alloc ts).1 = ts := by
  rw [insertNew, place_sameNodes.successors_eq, h.alloc_successors_new]

theorem Sound.insertNew_grows (h : c.Sound) (hts : c.Proper ts) (hp : p ≤ c.order.size) :
    c.Grows (c.insertNew ts p) where
  id := place_sameNodes.id.trans alloc_id
  config := place_sameNodes.config.trans alloc_config
  cells := place_sameNodes.cells.trans alloc_cells
  generation := fun i => (place_sameNodes.generation i).trans (h.alloc_generation ts i)
  live := fun n hn => place_sameNodes.live_iff.2 (h.alloc_live_of_live ts hn)
  successors := fun n hn => h.insertNew_successors hn
  pending := by
    intro n
    rw [pending_iff, pending_iff, h.insertNew_reduced hts hp, insertNew, place_sameNodes.live_iff, h.alloc_live_iff]
    have hnew : n = (c.alloc ts).1 → ¬ c.Live n := fun he => he ▸ h.not_live_alloc ts
    tauto

/-- No exponent of a reduced node holds the new one. -/
theorem Sound.insertNew_unmentioned (h : c.Sound) (hts : c.Proper ts) (hr : ∀ m ∈ Terms.nodes ts, c.Reduced m)
    (hp : p ≤ c.order.size) (hm : (c.insertNew ts p).Reduced m) : ¬ (c.insertNew ts p).Below (c.alloc ts).1 m := by
  intro hb
  unfold Below successorNodes at hb
  rcases (h.insertNew_reduced hts hp).1 hm with hm | rfl
  · rw [h.insertNew_successors hm.1] at hb
    exact h.not_live_alloc ts (h.live_of_below hm.1 hb)
  · rw [h.insertNew_successors_new] at hb
    exact h.not_live_alloc ts (hr _ hb).1

/-- A new node of natural exponent enters the order where it belongs. -/
theorem Sound.insertNew_graded (h : c.Sound) (hc : c.Consistent) (hts : c.Proper ts)
    (hr : ∀ m ∈ Terms.nodes ts, c.Reduced m) (hp : p ≤ c.order.size) {e : ℕ} (he : c.termsWorth ts = e)
    (hbelow : ∀ r m, r < p → c.order[r]? = some m → c.worth m < 2 ^ e)
    (habove : ∀ r m, p ≤ r → c.order[r]? = some m → (2 : ℝ) ^ e < c.worth m) :
    (c.insertNew ts p).Graded ∧ (c.insertNew ts p).worth (c.alloc ts).1 = 2 ^ e ∧
      ∀ s, s ≠ p → s + 1 ≠ p → (c.insertNew ts p).FlagTrue s := by
  have hl := h.toLinked.alloc h.toStored hts
  have hsame := h.alloc_sameReduced h.tied ts
  have hpend := h.alloc_pending h.tied ts
  have hb : (c.alloc ts).2.Consistent := hsame.consistent hc hl
  have hsum : (c.alloc ts).2.termsWorth ts = e := by
    rw [← he]
    exact Terms.sum_congr fun m hm => hsame.extends.worth_eq h.toLinked (hr m hm)
  have hnew : (c.alloc ts).2.worth (c.alloc ts).1 = 2 ^ e := by
    rw [worth_eq (hl.acc hpend.1), h.alloc_successors_new, hsum, Real.rpow_natCast]
  have hlegal : (c.alloc ts).2.Legal (c.alloc ts).1 := by
    refine .intro e (fun m hm => ?_) (by rw [h.alloc_successors_new, hsum])
    exact hb.legal m ((hsame.reduced m).2 (hr m (insertNew_below (h.alloc_successors_new ts) hm)))
  have hworth : ∀ {r : ℕ} {m}, (c.alloc ts).2.order[r]? = some m → c.order[r]? = some m ∧
      (c.alloc ts).2.worth m = c.worth m := by
    intro r m hm
    rw [hsame.order] at hm
    exact ⟨hm, hsame.extends.worth_eq h.toLinked (h.reduced_of_getElem? hm)⟩
  have hp' : p ≤ (c.alloc ts).2.order.size := by rwa [hsame.order]
  refine ⟨hb.toGraded.place hl hpend hp' hlegal (fun r m hrp hm => ?_) (fun r m hrp hm => ?_), ?_,
    fun s hs hs' => hb.place_flagTrue hp' hs hs'⟩
  · rw [hnew, (hworth hm).2]
    exact hbelow r m hrp (hworth hm).1
  · rw [hnew, (hworth hm).2]
    exact habove r m hrp (hworth hm).1
  · rw [insertNew, place_sameNodes.worth_eq, hnew]

/-! ## The unit -/

theorem unit?_eq : c.unit? = (c.order[0]?).filter fun n => (c.successors n).isEmpty := by
  unfold unit?
  cases c.order[0]? <;> rfl

theorem order_of_unit? (h : c.unit? = some n) : c.order[0]? = some n := by
  rw [unit?_eq] at h
  exact (Option.filter_eq_some_iff.1 h).1

theorem unit?_eq_some (h : c.Linked) (hu : c.unit? = some n) : c.Reduced n ∧ c.successors n = [] := by
  rw [unit?_eq] at hu
  obtain ⟨hfirst, hempty⟩ := Option.filter_eq_some_iff.1 hu
  exact ⟨h.reduced_of_getElem? hfirst, List.isEmpty_iff.1 hempty⟩

theorem Consistent.size_eq_zero_of_unit?_eq_none (h : c.Consistent) (hu : c.unit? = none) : c.order.size = 0 := by
  by_contra h0
  have hfirst := Array.getElem?_eq_getElem (Nat.pos_of_ne_zero h0)
  rw [unit?, hfirst] at hu
  simp [h.successors_first h.toLinked hfirst] at hu

/-- A reduced node without successors is found or made. -/
theorem Sound.ensureUnit (h : c.Sound) : c.Carried c.ensureUnit.2 ∧ c.ensureUnit.2.Reduced c.ensureUnit.1 ∧
    c.ensureUnit.2.successors c.ensureUnit.1 = [] := by
  unfold Circuit.ensureUnit
  cases hu : c.unit? with
  | some first => exact ⟨.refl h, unit?_eq_some h.toLinked hu⟩
  | none =>
    show c.Carried ((c.insertNew [] 0).refreshDoubles (c.alloc []).1) ∧
      ((c.insertNew [] 0).refreshDoubles (c.alloc []).1).Reduced (c.alloc []).1 ∧
      ((c.insertNew [] 0).refreshDoubles (c.alloc []).1).successors (c.alloc []).1 = []
    have hproper : c.Proper [] := proper_nil
    have hr : ∀ m ∈ Terms.nodes [], c.Reduced m := by simp
    have hp : 0 ≤ c.order.size := Nat.zero_le _
    have hsound := h.insertNew_sound hproper hr hp
    have hsame := refreshDoubles_sameRanks (c := c.insertNew [] 0) (n := (c.alloc []).1)
    refine ⟨⟨hsame.sound hsound, (h.insertNew_grows hproper hp).trans hsame.grows, fun hc => ?_⟩,
      hsame.reduced_iff.2 ((h.insertNew_reduced hproper hp).2 (.inr rfl)), ?_⟩
    · have hsize := hc.size_eq_zero_of_unit?_eq_none hu
      have hempty : ∀ r : ℕ, c.order[r]? = none := fun r => Array.getElem?_eq_none (by omega)
      obtain ⟨hg, -, hf⟩ := h.insertNew_graded hc hproper hr hp (e := 0) (by simp [termsWorth])
        (by simp) (by simp [hempty])
      have hnext : (c.insertNew [] 0).order[1]? = none := by
        rw [insertNew, place_order_succ (Nat.zero_le _) (Nat.zero_le _), alloc_order, hempty]
      exact hsound.toLinked.consistent_refreshDoubles hg (place_order_self (Nat.zero_le _))
        (fun m hm => h.insertNew_unmentioned hproper hr hp hm) (.inr hnext) fun s hs => hf s hs (by omega)
    · rw [hsame.successors_eq, h.insertNew_successors_new]

/-! ## The double of a node -/

/-- The result of doubling a reduced node. -/
structure Doubled (c : Circuit) (n next : Node) (d : Circuit) : Prop where
  carried : c.Carried d
  reduced : d.Reduced next
  worth : c.Consistent → d.worth next = 2 * d.worth n

theorem knownDouble?_eq_some (hl : c.Linked) (hk : c.knownDouble? n = some next) (hn : c.Reduced n) :
    c.Reduced next ∧ (c.Consistent → c.worth next = 2 * c.worth n) := by
  unfold knownDouble? at hk
  split_ifs at hk with hd
  obtain ⟨r, hr⟩ := hl.exists_getElem? hn
  rw [hl.rank?_of_getElem? hr] at hk
  refine ⟨hl.reduced_of_getElem? hk, fun hc => ?_⟩
  obtain ⟨m, hm, hw⟩ := (hc.flags r n hr).1 hd
  rwa [← Option.some.inj (hm.symm.trans hk)]

theorem Consistent.worth_ne_of_knownDouble?_eq_none (hc : c.Consistent) (hk : c.knownDouble? n = none)
    (hr : c.order[r]? = some n) (hm : c.order[r + 1]? = some m) : c.worth m ≠ 2 * c.worth n := by
  intro hw
  have hd := (hc.flags r n hr).2 ⟨m, hm, hw⟩
  simp [knownDouble?, hd, hc.rank?_of_getElem? hr, hm] at hk

/-- The rank above a node. -/
def above (c : Circuit) (n : Node) : ℕ :=
  match c.rank? n with
  | some r => r + 1
  | none => c.order.size

theorem finishDouble_of_none (h : c.knownDouble? n = none) : c.finishDouble n ts = ((c.alloc ts).1,
    (((c.alloc ts).2.place (c.alloc ts).1 (c.above n)).setDoubles n true).refreshDoubles (c.alloc ts).1) := by
  rw [finishDouble, h]
  rfl

/-- The circuit with a new node right above a reduced one, both with their flags written. -/
def insertTwin (c : Circuit) (n : Node) (ts : List Term) (r : ℕ) : Circuit :=
  ((c.insertNew ts (r + 1)).setDoubles n true).refreshDoubles (c.alloc ts).1

theorem Linked.finishDouble_eq (hl : c.Linked) (hr : c.order[r]? = some n) (hk : c.knownDouble? n = none) :
    c.finishDouble n ts = ((c.alloc ts).1, c.insertTwin n ts r) := by
  rw [finishDouble_of_none hk, above, hl.rank?_of_getElem? hr]
  rfl

theorem insertTwin_sameRanks : (c.insertNew ts (r + 1)).SameRanks (c.insertTwin n ts r) :=
  (setDoubles_sameRanks n true).trans refreshDoubles_sameRanks

theorem Sound.finishDouble (h : c.Sound) (hn : c.Reduced n) (hts : c.Proper ts)
    (hr : ∀ m ∈ Terms.nodes ts, c.Reduced m) : (c.finishDouble n ts).2.Sound ∧ c.Grows (c.finishDouble n ts).2 ∧
      (c.finishDouble n ts).2.Reduced (c.finishDouble n ts).1 := by
  cases hk : c.knownDouble? n with
  | some next =>
    have heq : c.finishDouble n ts = (next, c) := by rw [Circuit.finishDouble, hk]
    rw [heq]
    exact ⟨h, .refl c, (knownDouble?_eq_some h.toLinked hk hn).1⟩
  | none =>
    obtain ⟨r, hnr⟩ := h.exists_getElem? hn
    have hp : r + 1 ≤ c.order.size := (Array.getElem?_eq_some_iff.1 hnr).1
    have hsame : (c.insertNew ts (r + 1)).SameRanks (c.insertTwin n ts r) := insertTwin_sameRanks
    rw [h.finishDouble_eq hnr hk]
    exact ⟨hsame.sound (h.insertNew_sound hts hr hp), (h.insertNew_grows hts hp).trans hsame.grows,
      hsame.reduced_iff.2 ((h.insertNew_reduced hts hp).2 (.inr rfl))⟩

/-- A node whose exponent is one more than that of a reduced node enters the order right above it. -/
theorem Sound.insertTwin_consistent (h : c.Sound) (hc : c.Consistent) (hr : c.order[r]? = some n)
    (hk : c.knownDouble? n = none) (hts : c.Proper ts) (hreduced : ∀ m ∈ Terms.nodes ts, c.Reduced m)
    (hsum : c.termsWorth ts = c.termsWorth (c.successors n) + 1) :
    (c.insertTwin n ts r).Consistent ∧ (c.insertTwin n ts r).worth (c.alloc ts).1 = 2 * c.worth n := by
  have hn := h.reduced_of_getElem? hr
  have hp : r + 1 ≤ c.order.size := (Array.getElem?_eq_some_iff.1 hr).1
  obtain ⟨e, he, hw⟩ := (hc.legal n hn).exists_exponent
  have hbelow : ∀ k m, k < r + 1 → c.order[k]? = some m → c.worth m < 2 ^ (e + 1) := fun k m hkr hm => by
    have hle := hc.worth_le hm hr (Nat.le_of_lt_succ hkr)
    rw [hw] at hle
    exact hle.trans_lt (pow_lt_pow_right₀ (by norm_num) (Nat.lt_succ_self e))
  have habove : ∀ k m, r + 1 ≤ k → c.order[k]? = some m → (2 : ℝ) ^ (e + 1) < c.worth m := fun k m hkr hm => by
    have hnext := Array.getElem?_eq_getElem (hkr.trans_lt (Array.getElem?_eq_some_iff.1 hm).1)
    have htwo := (hc.legal n hn).two_mul_worth_le (hc.legal _ (h.reduced_of_getElem? hnext))
      (hc.worth_lt hr hnext (Nat.lt_succ_self r))
    rw [pow_succ', ← hw]
    exact (htwo.lt_of_ne (hc.worth_ne_of_knownDouble?_eq_none hk hr hnext).symm).trans_le (hc.worth_le hnext hm hkr)
  obtain ⟨hg, hnew, hf⟩ := h.insertNew_graded hc hts hreduced hp (e := e + 1) (by rw [hsum, he]; push_cast; ring)
    hbelow habove
  have hsound := h.insertNew_sound hts hreduced hp
  have hset := setDoubles_sameRanks (c := c.insertNew ts (r + 1)) n true
  have hself : (c.insertNew ts (r + 1)).order[r + 1]? = some (c.alloc ts).1 := place_order_self (by rwa [alloc_order])
  have hlow : (c.insertNew ts (r + 1)).order[r]? = some n := by
    rw [insertNew, place_order_of_lt (by rwa [alloc_order]) (Nat.lt_succ_self r), alloc_order, hr]
  have hdouble : (c.insertNew ts (r + 1)).worth (c.alloc ts).1 = 2 * (c.insertNew ts (r + 1)).worth n := by
    rw [hnew, (h.insertNew_grows hts hp).worth_eq h.toLinked hn.1, hw, pow_succ']
  refine ⟨(hset.linked hsound.toLinked).consistent_refreshDoubles (hset.graded hg) (p := r + 1) (by rwa [hset.order])
    (fun m hm => ?_) (.inl (Nat.succ_pos r)) fun s hs => ?_, ?_⟩
  · rw [hset.below_eq]
    exact h.insertNew_unmentioned hts hreduced hp (hset.reduced_iff.1 hm)
  · by_cases hsr : s = r
    · rw [hsr]
      exact hsound.toLinked.setDoubles_flagTrue hlow (by simp [hself, hdouble])
    · exact (hsound.toLinked.setDoubles_flagTrue_of_ne hlow true hsr).2 (hf s hs (by omega))
  · rw [insertTwin_sameRanks.worth_eq, hnew, hw, pow_succ']

theorem Sound.finishDouble_consistent (h : c.Sound) (hc : c.Consistent) (hn : c.Reduced n) (hts : c.Proper ts)
    (hr : ∀ m ∈ Terms.nodes ts, c.Reduced m) (hsum : c.termsWorth ts = c.termsWorth (c.successors n) + 1) :
    (c.finishDouble n ts).2.Consistent ∧
      (c.finishDouble n ts).2.worth (c.finishDouble n ts).1 = 2 * c.worth n := by
  cases hk : c.knownDouble? n with
  | some next =>
    have heq : c.finishDouble n ts = (next, c) := by rw [Circuit.finishDouble, hk]
    rw [heq]
    exact ⟨hc, (knownDouble?_eq_some h.toLinked hk hn).2 hc⟩
  | none =>
    obtain ⟨r, hnr⟩ := h.exists_getElem? hn
    rw [h.finishDouble_eq hnr hk]
    exact h.insertTwin_consistent hc hnr hk hts hr hsum

/-! ## Adding a node to a term list -/

/-- The result of adding a reduced node to a term list. The sum holds whatever the pending nodes count, since carries
touch reduced nodes only. -/
structure Absorbed (c : Circuit) (ts : List Term) (n : Node) (s : Sign) (us : List Term) (d : Circuit) : Prop where
  carried : c.Carried d
  proper : d.Proper us
  entries : ∀ m ∈ Terms.nodes us, m ∈ Terms.nodes ts ∨ d.Reduced m
  sum : c.Consistent → ∀ w : Node → ℝ, (∀ m, d.Reduced m → w m = d.worth m) →
    Terms.sum w us = Terms.sum w ts + s.toInt * w n

/-- A node that is mentioned already, and no carry. -/
theorem Sound.absorbed_entry (h : c.Sound) (hts : c.Proper ts) {old : Sign} (hd : Terms.digit? n ts = some old)
    (hc : (old.addWithCarry s).2 = .zero) : Absorbed c ts n s (if (old.addWithCarry s).1 = .zero then Terms.erase n ts
      else Terms.set n (old.addWithCarry s).1 ts) c := by
  have hsum : ((old.addWithCarry s).1.toInt : ℝ) = old.toInt + s.toInt := by exact_mod_cast Sign.add_of_no_carry hc
  split_ifs with hz
  · refine ⟨.refl h, hts.sublist (Terms.erase_sublist n ts), fun m hm => .inl ?_, fun _ w _ => ?_⟩
    · exact ((Terms.erase_sublist n ts).map _).subset hm
    · rw [Terms.sum_erase hd]
      rw [hz, Sign.toInt_zero, Int.cast_zero] at hsum
      linear_combination w n * hsum
  · refine ⟨.refl h, ⟨hts.toProper.set hz, fun m hm => hts.live m ?_⟩, fun m hm => .inl ?_, fun _ w _ => ?_⟩
    · rwa [Terms.nodes_set] at hm
    · rwa [Terms.nodes_set] at hm
    · rw [Terms.sum_set hd, hsum]
      ring

/-- A node that is not mentioned yet. -/
theorem Sound.absorbed_append (h : c.Sound) (hts : c.Proper ts) (hn : c.Reduced n) (hs : s ≠ .zero)
    (hd : Terms.digit? n ts = none) : Absorbed c ts n s (ts ++ [(n, s)]) c := by
  have hnodes : ∀ m ∈ Terms.nodes (ts ++ [(n, s)]), m ∈ Terms.nodes ts ∨ m = n := fun m hm => by simpa using hm
  refine ⟨.refl h, ⟨hts.toProper.append_single (Terms.digit?_eq_none_iff.1 hd) hs, fun m hm => ?_⟩, fun m hm => ?_,
    fun _ w _ => by simp⟩
  · rcases hnodes m hm with hm | rfl
    · exact hts.live m hm
    · exact hn.1
  · rcases hnodes m hm with hm | rfl
    · exact .inl hm
    · exact .inr hn

/-- Two equal digits leave no entry, and twice the digit is added to the rest. -/
theorem Absorbed.of_carry {old carry : Sign} (hd : Terms.digit? n ts = some old)
    (hc : old.toInt + s.toInt = 2 * carry.toInt) (hn : c.Reduced n) (hdouble : Doubled c n next d)
    (hrest : Absorbed d (Terms.erase n ts) next carry us e) : Absorbed c ts n s us e where
  carried := hdouble.carried.trans hrest.carried
  proper := hrest.proper
  entries := fun m hm => (hrest.entries m hm).imp_left fun hm => ((Terms.erase_sublist n ts).map _).subset hm
  sum := by
    intro hcons w hw
    have hn' := hdouble.carried.grows.reduced hn
    have hgrow := hrest.carried.grows
    have hworth : ∀ {m}, d.Reduced m → w m = d.worth m := fun hm => by
      rw [hw _ (hgrow.reduced hm), hgrow.worth_eq hdouble.carried.sound.toLinked hm.1]
    have htwo : w next = 2 * w n := by rw [hworth hdouble.reduced, hworth hn', hdouble.worth hcons]
    have hcarry : (old.toInt + s.toInt : ℝ) = 2 * carry.toInt := by exact_mod_cast hc
    rw [hrest.sum (hdouble.carried.consistent hcons) w hw, Terms.sum_erase hd, htwo]
    linear_combination w n * -hcarry

section Chain

variable {double : Node → Circuit → Option (Node × Circuit)} {Q : Circuit → Node → Prop}

/-- Where the nodes that a term list mentions can be doubled, adding a node has a result. -/
theorem exists_absorbWith (hQ : ∀ {c d m}, c.Sound → c.Grows d → c.Live m → Q c m → Q d m)
    (hdouble : ∀ {c m}, c.Sound → c.Reduced m → Q c m → ∃ next d, double m c = some (next, d) ∧ Doubled c m next d)
    (h : c.Sound) (hts : c.Proper ts) (hn : c.Reduced n) (hs : s ≠ .zero) (hq : ∀ m ∈ Terms.nodes ts, Q c m) :
    ∃ us d, absorbWith double ts n s c = some (us, d) ∧ Absorbed c ts n s us d := by
  fun_induction absorbWith double ts n s c with
  | case1 ts n s c hd => exact ⟨_, _, rfl, h.absorbed_append hts hn hs hd⟩
  | case2 ts n s c old hd sum hadd =>
    have hc : (old.addWithCarry s).2 = .zero := by rw [hadd]
    have hentry := h.absorbed_entry hts hd hc
    rw [hadd] at hentry
    exact ⟨_, _, rfl, hentry⟩
  | case3 ts n s c old hd sum carry hadd hc hnone =>
    obtain ⟨next, d, hsome, -⟩ := hdouble h hn (hq n (Terms.mem_nodes.2 ⟨old, Terms.mem_of_digit?_eq_some hd⟩))
    rw [hnone] at hsome
    cases hsome
  | case4 ts n s c old hd sum carry hadd hc next d hsome ih =>
    obtain ⟨next', d', hsome', hdoubled⟩ :=
      hdouble h hn (hq n (Terms.mem_nodes.2 ⟨old, Terms.mem_of_digit?_eq_some hd⟩))
    obtain ⟨rfl, rfl⟩ := Prod.mk.inj (Option.some.inj (hsome.symm.trans hsome'))
    have hcarry : (old.addWithCarry s).2 = carry := by rw [hadd]
    have herase := (Terms.erase_sublist n ts)
    have hgrow := hdoubled.carried.grows
    obtain ⟨us, e, heq, hrest⟩ := ih hdoubled.carried.sound (hgrow.proper (hts.sublist herase)) hdoubled.reduced hc
      fun m hm => hQ h hgrow (hts.live m ((herase.map _).subset hm)) (hq m ((herase.map _).subset hm))
    exact ⟨us, e, heq, .of_carry hd (hcarry ▸ Sign.add_of_carry (hcarry ▸ hc)) hn hdoubled hrest⟩

end Chain

/-- A reduced node can be doubled with as much room as it is deep. -/
theorem exists_doubleWithin (h : c.Sound) (hn : c.Reduced n) (hk : c.Within k n) :
    ∃ next d, doubleWithin k n c = some (next, d) ∧ Doubled c n next d := by
  induction k generalizing n c with
  | zero => exact hk.elim
  | succ k ih =>
    cases hknown : c.knownDouble? n with
    | some next =>
      obtain ⟨hnext, hw⟩ := knownDouble?_eq_some h.toLinked hknown hn
      exact ⟨next, c, by simp [doubleWithin, hknown], .refl h, hnext, hw⟩
    | none =>
      obtain ⟨hunit, hu, hsucc⟩ := h.ensureUnit
      have hgrow := hunit.grows
      have hn'' := hgrow.reduced hn
      have hexp : c.ensureUnit.2.successors n = c.successors n := hgrow.successors n hn.1
      obtain ⟨us, d, heq, habs⟩ := exists_absorbWith (Q := fun c m => c.Within k m)
        (fun hc hg hm hw => hg.within hc.toLinked hm hw) (fun hc hm hw => ih hc hm hw) hunit.sound
        (hunit.sound.exponents n hn''.1) hu (show Sign.plus ≠ .zero by simp)
        (fun m hm => hgrow.within h.toLinked (h.live_of_below hn.1 (by rwa [hexp] at hm)) (hk m (by rwa [hexp] at hm)))
      have hcarry := hunit.trans habs.carried
      have hn' := hcarry.grows.reduced hn
      have hreduced : ∀ m ∈ Terms.nodes us, d.Reduced m := fun m hm => (habs.entries m hm).elim
        (fun hm => habs.carried.grows.reduced (hunit.sound.closed n hn'' m hm)) fun hm => hm
      have hsum : c.Consistent → d.termsWorth us = d.termsWorth (d.successors n) + 1 := fun hc => by
        have hunitworth : d.worth c.ensureUnit.1 = 1 :=
          worth_of_successors_eq_nil ((habs.carried.grows.successors _ hu.1).trans hsucc)
        have := habs.sum (hunit.consistent hc) d.worth fun _ _ => rfl
        rw [hunitworth, Sign.toInt_plus, Int.cast_one, one_mul] at this
        rwa [habs.carried.grows.successors n hn''.1]
      obtain ⟨hsound, hgrows, hnext⟩ := hcarry.sound.finishDouble hn' habs.proper hreduced
      have hvalue := fun hc => hcarry.sound.finishDouble_consistent (hcarry.consistent hc) hn' habs.proper hreduced
        (hsum hc)
      refine ⟨_, _, by simp only [doubleWithin, hknown, heq], ⟨⟨hsound, hcarry.grows.trans hgrows, fun hc =>
        (hvalue hc).1⟩, hnext, fun hc => ?_⟩⟩
      rw [(hvalue hc).2, hgrows.worth_eq hcarry.sound.toLinked hn'.1]

/-! ## Without a limit -/

theorem Sound.double? (h : c.Sound) (hn : c.Reduced n) :
    ∃ next d, c.double? n = some (next, d) ∧ Doubled c n next d := by
  obtain ⟨next, d, hroom, hdoubled⟩ := exists_doubleWithin h hn (h.within hn.1)
  exact ⟨next, d, double?_of_doubleWithin le_rfl hroom, hdoubled⟩

theorem Sound.double (h : c.Sound) (hn : c.Reduced n) : Doubled c n (c.double n).1 (c.double n).2 := by
  obtain ⟨next, d, heq, hd⟩ := h.double? hn
  rw [Circuit.double, heq]
  exact hd

theorem Sound.absorb (h : c.Sound) (hts : c.Proper ts) (hn : c.Reduced n) (hs : s ≠ .zero) :
    Absorbed c ts n s (c.absorb ts n s).1 (c.absorb ts n s).2 := by
  obtain ⟨us, d, heq, ha⟩ := exists_absorbWith (Q := fun _ _ => True) (fun _ _ _ _ => trivial)
    (fun hc hm _ => hc.double? hm) h hts hn hs fun _ _ => trivial
  rw [Circuit.absorb, heq]
  exact ha

/-- One is added to a reduced term list. -/
theorem Sound.incrementTerms (h : c.Sound) (hts : c.Proper ts) (hr : ∀ m ∈ Terms.nodes ts, c.Reduced m) :
    c.Carried (c.incrementTerms ts).2 ∧ (c.incrementTerms ts).2.Proper (c.incrementTerms ts).1 ∧
      (∀ m ∈ Terms.nodes (c.incrementTerms ts).1, (c.incrementTerms ts).2.Reduced m) ∧
      (c.Consistent → (c.incrementTerms ts).2.termsWorth (c.incrementTerms ts).1 = c.termsWorth ts + 1) := by
  obtain ⟨hunit, hu, hsucc⟩ := h.ensureUnit
  have habs := hunit.sound.absorb (hunit.grows.proper hts) hu (s := .plus) (by simp)
  have hgrow := hunit.grows.trans habs.carried.grows
  refine ⟨hunit.trans habs.carried, habs.proper, fun m hm => (habs.entries m hm).elim
    (fun hm => hgrow.reduced (hr m hm)) fun hm => hm, fun hc => ?_⟩
  have hsum := habs.sum (hunit.consistent hc) _ fun _ _ => rfl
  have hworth := worth_of_successors_eq_nil ((habs.carried.grows.successors _ hu.1).trans hsucc)
  rw [hworth, Sign.toInt_plus, Int.cast_one, one_mul] at hsum
  refine hsum.trans (congrArg (· + 1) (Terms.sum_congr fun m hm => ?_))
  exact hgrow.worth_eq h.toLinked (hts.live m hm)

end PowerTower.Circuit
