import Mathlib
import PowerTower.Proofs.Making

/-!
# Pending nodes out of sight

Carries read and write reduced nodes and new ones. What stands in the exponents of other nodes does not matter to them,
and so a circuit can be told from another one in which some of these exponents are cut.

* `veil` : the circuit without the entries that lead from some places to some of these places;
* `Apart` : these places hold pending nodes, so that carries keep away from them;
* `Beside` : a change that keeps away from them;
* `Blind`, `Apart.absorb`, `Apart.integerTerms` : a carry does the same in the veiled circuit.
-/

namespace PowerTower.Circuit

variable {B : ℕ → Bool} {c d e : Circuit} {m n : Node} {ts us : List Term} {s : Sign} {i r p : ℕ}

/-- The entries that lead to none of the places. -/
def outside (B : ℕ → Bool) (ts : List Term) : List Term := ts.filter fun t => !B t.1.index

/-- The entries that lead to one of the places. -/
def inside (B : ℕ → Bool) (ts : List Term) : List Term := ts.filter fun t => B t.1.index

/-- A place without the entries that lead from one of the places to one of them. -/
def veilSlot (B : ℕ → Bool) (i : ℕ) (s : Slot) : Slot :=
  if B i then { s with successors := outside B s.successors } else s

/-- The circuit without these entries. -/
def veil (B : ℕ → Bool) (c : Circuit) : Circuit := { c with slots := c.slots.mapIdx (veilSlot B) }

/-! ## The veiled circuit -/

theorem veilSlot_of_not (h : B i = false) (s : Slot) : veilSlot B i s = s := by
  rw [veilSlot, h, if_neg Bool.false_ne_true]

theorem veil_slotAt (i : ℕ) : (c.veil B).slotAt i = veilSlot B i (c.slotAt i) := by
  rw [slotAt, veil, Array.getElem?_mapIdx, slotAt]
  cases c.slots[i]? with
  | none =>
    unfold veilSlot
    split_ifs <;> rfl
  | some s => rfl

theorem veil_slotAt_of_not (h : B i = false) : (c.veil B).slotAt i = c.slotAt i := by
  rw [veil_slotAt, veilSlot_of_not h]

theorem veil_successors_of_not (h : B n.index = false) : (c.veil B).successors n = c.successors n :=
  congrArg Slot.successors (veil_slotAt_of_not h)

theorem veil_frame (i : ℕ) : ((c.veil B).slotAt i).live = (c.slotAt i).live ∧
    ((c.veil B).slotAt i).generation = (c.slotAt i).generation ∧ ((c.veil B).slotAt i).rank = (c.slotAt i).rank ∧
    ((c.veil B).slotAt i).doubles = (c.slotAt i).doubles := by
  rw [veil_slotAt, veilSlot]
  split_ifs <;> exact ⟨rfl, rfl, rfl, rfl⟩

theorem veil_size : (c.veil B).slots.size = c.slots.size := Array.size_mapIdx

theorem veil_rank? : (c.veil B).rank? = c.rank? := funext fun n => (veil_frame n.index).2.2.1

theorem veil_live_iff : (c.veil B).Live n ↔ c.Live n := by
  obtain ⟨hlive, hgeneration, -⟩ := veil_frame (c := c) (B := B) n.index
  rw [Live, Live, slot, slot, hlive, hgeneration]
  rfl

theorem veil_reduced_iff : (c.veil B).Reduced n ↔ c.Reduced n := by
  rw [Reduced, Reduced, veil_live_iff, veil_rank?]

theorem veil_pending_iff : (c.veil B).Pending n ↔ c.Pending n := by
  rw [Pending, Pending, veil_live_iff, veil_rank?]

/-! ## Changes of single places -/

theorem veil_modifySlot {f g : Slot → Slot} (h : ∀ s, g (veilSlot B i s) = veilSlot B i (f s)) :
    (c.veil B).modifySlot i g = (c.modifySlot i f).veil B := by
  unfold veil modifySlot
  congr 1
  refine Array.ext_getElem? fun j => ?_
  rw [Array.getElem?_modify, Array.getElem?_mapIdx, Array.getElem?_mapIdx, Array.getElem?_modify]
  by_cases hij : i = j
  · subst hij
    rw [if_pos rfl, if_pos rfl, Option.map_map, Option.map_map]
    exact congrArg (Option.map · _) (funext h)
  · rw [if_neg hij, if_neg hij]

theorem veil_modifySlot_of_not (h : B i = false) (f : Slot → Slot) :
    (c.veil B).modifySlot i f = (c.modifySlot i f).veil B :=
  veil_modifySlot fun s => by rw [veilSlot_of_not h, veilSlot_of_not h]

theorem veil_setRank (r : Option ℕ) : (c.veil B).setRank n r = (c.setRank n r).veil B :=
  veil_modifySlot fun s => by
    unfold veilSlot
    split_ifs <;> rfl

theorem veil_setDoubles (b : Bool) : (c.veil B).setDoubles n b = (c.setDoubles n b).veil B :=
  veil_modifySlot fun s => by
    unfold veilSlot
    split_ifs <;> rfl

/-- What is cut from an exponent at a place. -/
def cut (B : ℕ → Bool) (i : ℕ) (ts : List Term) : List Term := if B i then outside B ts else ts

theorem veil_setSuccessors (ts : List Term) :
    (c.veil B).setSuccessors n (cut B n.index ts) = (c.setSuccessors n ts).veil B :=
  veil_modifySlot fun s => by
    unfold veilSlot cut
    split_ifs <;> rfl

theorem veil_recordRank (r : ℕ) : (c.veil B).recordRank r = (c.recordRank r).veil B := by
  cases hr : c.order[r]? with
  | none =>
    have hrecord : ∀ d : Circuit, d.order[r]? = none → d.recordRank r = d := fun d hd => by simp only [recordRank, hd]
    rw [hrecord c hr, hrecord (c.veil B) hr]
  | some n =>
    have hrecord : ∀ d : Circuit, d.order[r]? = some n → d.recordRank r = d.setRank n (some r) := fun d hd => by
      simp only [recordRank, hd]
    rw [hrecord c hr, hrecord (c.veil B) hr, veil_setRank]

theorem veil_foldl_recordRank (l : List ℕ) : l.foldl recordRank (c.veil B) = (l.foldl recordRank c).veil B := by
  induction l generalizing c with
  | nil => rfl
  | cons r l ih => rw [List.foldl_cons, List.foldl_cons, veil_recordRank, ih]

theorem veil_place : (c.veil B).place n p = (c.place n p).veil B := by
  rw [place_eq, place_eq, renumber_eq, renumber_eq]
  exact veil_foldl_recordRank (c := c.enter n p) _

/-! ## Comparisons -/

theorem doublesAt_eq (r : ℕ) : c.doublesAt r = (c.order[r]?).any fun n => (c.slot n).doubles := by
  unfold doublesAt
  cases c.order[r]? <;> rfl

theorem veil_doublesAt : (c.veil B).doublesAt r = c.doublesAt r := by
  have hdoubles : (fun n => ((c.veil B).slot n).doubles) = fun n => (c.slot n).doubles :=
    funext fun n => (veil_frame n.index).2.2.2
  rw [doublesAt_eq, doublesAt_eq, hdoubles]
  rfl

theorem weigh_congr (h : ∀ r, d.doublesAt r = c.doublesAt r) (previous : Option ℕ) (carry : ℤ) (ds : List Digit) :
    d.weigh previous carry ds = c.weigh previous carry ds := by
  induction ds generalizing previous carry with
  | nil => rfl
  | cons x ds ih =>
    have hscale : d.scale previous x.1 = c.scale previous x.1 := by rw [scale, scale, h]
    rw [weigh, weigh, hscale, ih]

/-- Comparisons read ranks and flags only. -/
theorem veil_compareTerms (bias : ℤ) : (c.veil B).compareTerms ts us bias = c.compareTerms ts us bias := by
  have hdigits : (c.veil B).digits = c.digits := by
    funext ts
    rw [digits, digits, veil_rank?]
  unfold compareTerms
  rw [hdigits]
  have hweigh := weigh_congr (c := c) (d := c.veil B) fun r => veil_doublesAt
  simp only [hweigh]

/-! ## Places of pending nodes -/

/-- The places hold pending nodes. -/
structure Apart (B : ℕ → Bool) (c : Circuit) : Prop where
  pending : ∀ i, B i = true → (c.slotAt i).live = true ∧ (c.slotAt i).rank = none
  order : ∀ (r : ℕ) (n : Node), c.order[r]? = some n → B n.index = false
  free : ∀ i ∈ c.free, B i = false

/-- The places still hold pending nodes, with the same exponents, and the markings are the same. -/
structure Beside (B : ℕ → Bool) (c d : Circuit) : Prop extends Apart B d where
  slots : ∀ i, B i = true → d.slotAt i = c.slotAt i
  cells : d.cells = c.cells

theorem Beside.refl (h : Apart B c) : Beside B c c := ⟨h, fun _ _ => rfl, rfl⟩

theorem Beside.trans (h : Beside B c d) (h' : Beside B d e) : Beside B c e :=
  ⟨h'.toApart, fun i hi => (h'.slots i hi).trans (h.slots i hi), h'.cells.trans h.cells⟩

theorem Apart.fresh (h : Apart B c) : B c.freshIndex = false := by
  cases hfree : c.free with
  | nil =>
    rw [freshIndex_nil hfree]
    refine Bool.eq_false_of_not_eq_true fun hB => ?_
    exact (lt_size_of_live (h.pending _ hB).1).ne rfl
  | cons i free =>
    rw [freshIndex_cons hfree]
    exact h.free i (by simp [hfree])

theorem Apart.not_mem_of_rank (h : Apart B c) (hr : c.rank? n = some r) : B n.index = false :=
  Bool.eq_false_of_not_eq_true fun hB => by
    have := (h.pending n.index hB).2
    rw [show (c.slotAt n.index).rank = some r from hr] at this
    cases this

/-- A change of other places. -/
theorem Apart.of_slots (h : Apart B c) (hslots : ∀ i, B i = true → d.slotAt i = c.slotAt i)
    (horder : ∀ (r : ℕ) (n : Node), d.order[r]? = some n → B n.index = false) (hfree : ∀ i ∈ d.free, B i = false)
    (hcells : d.cells = c.cells) : Beside B c d :=
  ⟨⟨fun i hi => by rw [hslots i hi]; exact h.pending i hi, horder, hfree⟩, hslots, hcells⟩

theorem Apart.modifySlot (h : Apart B c) (hi : B i = false) (f : Slot → Slot) : Beside B c (c.modifySlot i f) :=
  h.of_slots (fun j hj => by
    rw [slotAt_modifySlot, if_neg]
    rintro ⟨rfl, -⟩
    rw [hi] at hj
    cases hj) h.order h.free rfl

/-- A step that answers with a node, in a veiled circuit with the same one, and stays beside the places. -/
structure Clear (B : ℕ → Bool) (c : Circuit) (r r' : Node × Circuit) : Prop where
  eq : r' = (r.1, r.2.veil B)
  beside : Beside B c r.2
  node : B r.1.index = false

theorem veil_nodeAt : (c.veil B).nodeAt i = c.nodeAt i := by
  rw [nodeAt, nodeAt, (veil_frame i).2.1]
  rfl

theorem veil_freshIndex : (c.veil B).freshIndex = c.freshIndex := by
  cases hfree : c.free with
  | nil => rw [freshIndex_nil hfree, freshIndex_nil (c := c.veil B) hfree, veil_size]
  | cons i free => rw [freshIndex_cons hfree, freshIndex_cons (c := c.veil B) hfree]

theorem Apart.veil_alloc (h : Apart B c) (ts : List Term) : ((c.veil B).alloc ts).2 = (c.alloc ts).2.veil B := by
  have hfresh := h.fresh
  cases hfree : c.free with
  | nil =>
    have hfree' : (c.veil B).free = [] := hfree
    rw [freshIndex_nil hfree] at hfresh
    rw [alloc_of_nil hfree, alloc_of_nil hfree', veil, veil, Array.mapIdx_push, veilSlot_of_not hfresh]
  | cons i free =>
    have hfree' : (c.veil B).free = i :: free := hfree
    rw [freshIndex_cons hfree] at hfresh
    rw [alloc_of_cons hfree, alloc_of_cons hfree']
    exact veil_modifySlot_of_not (c := { c with free, liveNodes := c.liveNodes + 1 }) hfresh _

theorem Apart.alloc (h : Apart B c) (ts : List Term) : Clear B c (c.alloc ts) ((c.veil B).alloc ts) where
  eq := by
    refine Prod.ext ?_ (h.veil_alloc ts)
    rw [alloc_fst, h.veil_alloc, veil_nodeAt, veil_freshIndex, alloc_fst]
  beside := by
    refine h.of_slots (fun i hi => alloc_slotAt_of_ne fun heq => ?_) (alloc_order (c := c) ▸ h.order) (fun i hi => ?_)
      alloc_cells
    · rw [heq, h.fresh] at hi
      cases hi
    · rw [alloc_free] at hi
      exact h.free i (List.mem_of_mem_tail hi)
  node := by
    rw [alloc_fst]
    exact h.fresh

theorem mem_enter {r : ℕ} (h : (c.enter n p).order[r]? = some m) : m = n ∨ ∃ r : ℕ, c.order[r]? = some m := by
  by_cases hp : p ≤ c.order.size
  · rw [enter_order hp] at h
    split_ifs at h
    · exact .inr ⟨r, h⟩
    · exact .inl (Option.some.inj h).symm
    · exact .inr ⟨r - 1, h⟩
  · rw [enter, Array.insertIdxIfInBounds, dif_neg hp] at h
    exact .inr ⟨r, h⟩

theorem Apart.place (h : Apart B c) (hn : B n.index = false) (p : ℕ) : Beside B c (c.place n p) := by
  have henter : ∀ (r : ℕ) (m : Node), (c.enter n p).order[r]? = some m → B m.index = false := fun r m hr => by
    rcases mem_enter hr with rfl | ⟨r, hr⟩
    · exact hn
    · exact h.order r m hr
  refine h.of_slots (fun i hi => ?_) (fun r m hr => ?_) ?_ place_sameNodes.cells
  · rw [place_eq, renumber_eq, foldl_recordRank_of_ne]
    · rfl
    · rintro r - m hr rfl
      rw [henter r m hr] at hi
      cases hi
  · rw [place_eq, renumber_eq, foldl_recordRank_order] at hr
    exact henter r m hr
  · rw [place_sameNodes.free]
    exact h.free

/-! ## Carries -/

theorem isDoubled_of_none (h : c.order[r + 1]? = none) : c.isDoubled n r = false := by simp only [isDoubled, h]

theorem isDoubled_of_some (h : c.order[r + 1]? = some m) :
    c.isDoubled n r = decide (c.compareTerms (c.successors m) (c.successors n) 1 = .ok .eq) := by
  simp only [isDoubled, h]
  cases c.compareTerms (c.successors m) (c.successors n) 1 <;> simp

theorem Apart.veil_isDoubled (h : Apart B c) (hn : B n.index = false) :
    (c.veil B).isDoubled n r = c.isDoubled n r := by
  cases hr : c.order[r + 1]? with
  | none => rw [isDoubled_of_none hr, isDoubled_of_none (c := c.veil B) hr]
  | some m =>
    rw [isDoubled_of_some hr, isDoubled_of_some (c := c.veil B) hr, veil_successors_of_not hn,
      veil_successors_of_not (h.order _ _ hr), veil_compareTerms]

theorem Apart.refreshDoubles (h : Apart B c) (n : Node) :
    (c.veil B).refreshDoubles n = (c.refreshDoubles n).veil B ∧ Beside B c (c.refreshDoubles n) := by
  unfold Circuit.refreshDoubles
  rw [veil_rank?]
  cases hr : c.rank? n with
  | none => exact ⟨rfl, .refl h⟩
  | some r =>
    have hn := h.not_mem_of_rank hr
    refine ⟨?_, h.modifySlot hn _⟩
    show (c.veil B).setDoubles n ((c.veil B).isDoubled n r) = _
    rw [h.veil_isDoubled hn, veil_setDoubles]

theorem Apart.veil_unit? (h : Apart B c) : (c.veil B).unit? = c.unit? := by
  rw [unit?_eq, unit?_eq]
  cases hr : c.order[0]? with
  | none => rw [show (c.veil B).order[0]? = none from hr, Option.filter_none, Option.filter_none]
  | some first =>
    rw [show (c.veil B).order[0]? = some first from hr, Option.filter_some, Option.filter_some,
      veil_successors_of_not (h.order _ _ hr)]

theorem Apart.ensureUnit (h : Apart B c) : Clear B c c.ensureUnit (c.veil B).ensureUnit := by
  unfold Circuit.ensureUnit
  rw [h.veil_unit?]
  cases hu : c.unit? with
  | some first => exact ⟨rfl, .refl h, h.order _ _ (order_of_unit? hu)⟩
  | none =>
    have ha := h.alloc []
    have hp := ha.beside.toApart.place ha.node 0
    obtain ⟨heq, hb⟩ := hp.toApart.refreshDoubles (c.alloc []).1
    refine ⟨?_, (ha.beside.trans hp).trans hb, ha.node⟩
    simp only [ha.eq]
    rw [veil_place, heq]

theorem veil_knownDouble? : (c.veil B).knownDouble? n = c.knownDouble? n := by
  unfold knownDouble?
  rw [veil_rank?]
  rw [show ((c.veil B).slot n).doubles = (c.slot n).doubles from (veil_frame n.index).2.2.2]
  rfl

theorem Apart.knownDouble? (h : Apart B c) (hm : c.knownDouble? n = some m) : B m.index = false := by
  unfold Circuit.knownDouble? at hm
  split_ifs at hm
  cases hr : c.rank? n with
  | none => simp [hr] at hm
  | some r =>
    rw [hr] at hm
    exact h.order _ _ hm

theorem veil_above : (c.veil B).above n = c.above n := by
  rw [above, above, veil_rank?]
  rfl

theorem Apart.finishDouble (h : Apart B c) (hn : B n.index = false) (ts : List Term) :
    Clear B c (c.finishDouble n ts) ((c.veil B).finishDouble n ts) := by
  have hknown : (c.veil B).knownDouble? n = c.knownDouble? n := veil_knownDouble?
  cases hm : c.knownDouble? n with
  | some m =>
    rw [Circuit.finishDouble, Circuit.finishDouble, hknown, hm]
    exact ⟨rfl, .refl h, h.knownDouble? hm⟩
  | none =>
    have ha := h.alloc ts
    have hp := ha.beside.toApart.place ha.node (c.above n)
    have hs := hp.toApart.modifySlot hn fun s => { s with doubles := true }
    obtain ⟨heq, hb⟩ := hs.toApart.refreshDoubles (c.alloc ts).1
    rw [finishDouble_of_none hm, finishDouble_of_none (hknown.trans hm), ha.eq, veil_above, veil_place, veil_setDoubles]
    exact ⟨congrArg (Prod.mk _) heq, ((ha.beside.trans hp).trans hs).trans hb, ha.node⟩

/-- Doubles are the same in a veiled circuit, and come into being beside the places. -/
def Blind (B : ℕ → Bool) (double : Node → Circuit → Option (Node × Circuit)) : Prop :=
  ∀ ⦃c n⦄, Apart B c → B n.index = false → Option.Rel (Clear B c) (double n c) (double n (c.veil B))

theorem rel_imp {α β : Type} {R S : α → β → Prop} {x : Option α} {y : Option β} (h : Option.Rel R x y)
    (hRS : ∀ a b, R a b → S a b) : Option.Rel S x y := by
  cases h with
  | none => exact .none
  | some h => exact .some (hRS _ _ h)

/-- Terms come out alike, whether or not some entries were sifted from them before. -/
structure Sifted (B : ℕ → Bool) (keep : Node → Bool) (c : Circuit) (ts : List Term) (r r' : List Term × Circuit) :
    Prop where
  eq : r' = (r.1.filter fun t => keep t.1, r.2.veil B)
  beside : Beside B c r.2
  rest : (r.1.filter fun t => !keep t.1) = ts.filter fun t => !keep t.1

section Absorbing

variable {double : Node → Circuit → Option (Node × Circuit)} {old : Sign}

/-- Adding a node to a term list does not depend on the entries sifted from it, as long as the node is not sifted. -/
theorem Blind.absorbWith (hdouble : Blind B double) (keep : Node → Bool)
    (hkeep : ∀ m : Node, B m.index = false → keep m = true) (h : Apart B c) (hn : B n.index = false) (ts : List Term)
    (s : Sign) : Option.Rel (Sifted B keep c ts) (absorbWith double ts n s c)
      (absorbWith double (ts.filter fun t => keep t.1) n s (c.veil B)) := by
  induction hlen : ts.length using Nat.strong_induction_on generalizing ts n s c with
  | _ k ih =>
    have hk := hkeep n hn
    have hk' : (!keep n) = false := by rw [hk]; rfl
    have hdigit := Terms.digit?_filter (p := keep) hk ts
    cases hd : Terms.digit? n ts with
    | none =>
      rw [absorbWith_of_none hd, absorbWith_of_none (hdigit.trans hd)]
      refine .some ⟨?_, .refl h, ?_⟩
      · simp [List.filter_append, hk]
      · simp [List.filter_append, hk]
    | some old =>
      by_cases hc : (old.addWithCarry s).2 = .zero
      · rw [absorbWith_of_settled hd hc, absorbWith_of_settled (hdigit.trans hd) hc]
        refine .some ⟨?_, .refl h, ?_⟩
        · dsimp only
          split_ifs
          · rw [Terms.filter_erase hk]
          · rw [Terms.filter_set hk]
        · dsimp only
          split_ifs
          · exact Terms.filter_erase_of_not (p := fun m => !keep m) hk' ts
          · exact Terms.filter_set_of_not (p := fun m => !keep m) hk' ts
      · rw [absorbWith_of_carry hd hc, absorbWith_of_carry (hdigit.trans hd) hc]
        have hstep := hdouble h hn
        generalize double n c = x at hstep ⊢
        generalize double n (c.veil B) = y at hstep ⊢
        cases hstep with
        | none => exact .none
        | some hclear =>
          rw [hclear.eq, Option.bind_some, Option.bind_some, ← Terms.filter_erase hk]
          refine rel_imp (ih _ (hlen ▸ Terms.length_erase_lt hd) hclear.beside.toApart hclear.node _ _ rfl)
            fun q q' hq => ?_
          exact ⟨hq.eq, hclear.beside.trans hq.beside,
            hq.rest.trans (Terms.filter_erase_of_not (p := fun m => !keep m) hk' ts)⟩

/-- By induction on the room for doubles under construction. -/
theorem blind_doubleWithin (room : ℕ) : Blind B (doubleWithin room) := by
  induction room with
  | zero =>
    intro c n h hn
    rw [doubleWithin, doubleWithin, veil_knownDouble?]
    cases hm : c.knownDouble? n with
    | none => exact .none
    | some m => exact .some ⟨rfl, .refl h, h.knownDouble? hm⟩
  | succ room ih =>
    intro c n h hn
    have hknown : (c.veil B).knownDouble? n = c.knownDouble? n := veil_knownDouble?
    cases hm : c.knownDouble? n with
    | some m =>
      rw [doubleWithin, doubleWithin, hknown, hm]
      exact .some ⟨rfl, .refl h, h.knownDouble? hm⟩
    | none =>
      have hu := h.ensureUnit
      have habsorb := ih.absorbWith (fun _ => true) (fun _ _ => rfl) hu.beside.toApart hu.node
        (c.ensureUnit.2.successors n) .plus
      rw [List.filter_true] at habsorb
      rw [doubleWithin_of_none hm, doubleWithin_of_none (hknown.trans hm), hu.eq, veil_successors_of_not hn]
      generalize Circuit.absorbWith (doubleWithin room) _ _ _ c.ensureUnit.2 = x at habsorb ⊢
      generalize Circuit.absorbWith (doubleWithin room) _ _ _ (c.ensureUnit.2.veil B) = y at habsorb ⊢
      cases habsorb with
      | none => exact .none
      | @some q q' hq =>
        have hf := hq.beside.toApart.finishDouble hn q.1
        refine .some ⟨?_, (hu.beside.trans hq.beside).trans hf.beside, hf.node⟩
        rw [hq.eq, List.filter_true]
        exact hf.eq

end Absorbing

theorem blind_double? : Blind B fun n c => c.double? n := fun _ _ h hn => by
  show Option.Rel _ (doubleWithin _ _ _) (doubleWithin _ _ _)
  rw [veil_size]
  exact blind_doubleWithin _ h hn

theorem Apart.double (h : Apart B c) (hn : B n.index = false) : Clear B c (c.double n) ((c.veil B).double n) := by
  have hrel : Option.Rel (Clear B c) (c.double? n) ((c.veil B).double? n) := blind_double? h hn
  rw [Circuit.double, Circuit.double]
  generalize c.double? n = x at hrel ⊢
  generalize (c.veil B).double? n = y at hrel ⊢
  cases hrel with
  | none => exact ⟨rfl, .refl h, hn⟩
  | some hclear => exact hclear

theorem Apart.absorb (h : Apart B c) (keep : Node → Bool) (hkeep : ∀ m : Node, B m.index = false → keep m = true)
    (hn : B n.index = false) (ts : List Term) (s : Sign) :
    Sifted B keep c ts (c.absorb ts n s) ((c.veil B).absorb (ts.filter fun t => keep t.1) n s) := by
  have hrel := blind_double?.absorbWith keep hkeep h hn ts s
  rw [Circuit.absorb, Circuit.absorb]
  generalize absorbWith (fun n c => c.double? n) ts n s c = x at hrel ⊢
  generalize absorbWith (fun n c => c.double? n) _ n s (c.veil B) = y at hrel ⊢
  cases hrel with
  | none => exact ⟨rfl, .refl h, rfl⟩
  | some hsifted => exact hsifted

/-- A step that answers with terms, in a veiled circuit with the same ones, and stays beside the places. -/
structure Alike (B : ℕ → Bool) (c : Circuit) (r r' : List Term × Circuit) : Prop where
  eq : r' = (r.1, r.2.veil B)
  beside : Beside B c r.2

theorem Apart.incrementTerms (h : Apart B c) (ts : List Term) :
    Alike B c (c.incrementTerms ts) ((c.veil B).incrementTerms ts) := by
  have hu := h.ensureUnit
  have ha := hu.beside.toApart.absorb (fun _ => true) (fun _ _ => rfl) hu.node ts .plus
  have heq := ha.eq
  rw [List.filter_true, List.filter_true] at heq
  refine ⟨?_, hu.beside.trans ha.beside⟩
  show (c.veil B).ensureUnit.2.absorb ts (c.veil B).ensureUnit.1 .plus = _
  rw [hu.eq]
  exact heq

/-- By induction on the number of bits. -/
theorem Apart.binaryTerms (h : Apart B c) (hn : B n.index = false) (bits : ℕ) :
    Alike B c (binaryTerms s bits n c) (binaryTerms s bits n (c.veil B)) := by
  induction bits using Nat.strong_induction_on generalizing n c with
  | _ bits ih =>
    by_cases hb : bits / 2 = 0
    · rw [binaryTerms_of_last hb, binaryTerms_of_last hb]
      exact ⟨rfl, .refl h⟩
    · have hd := h.double hn
      have hrest := ih (bits / 2) (by omega) hd.beside.toApart hd.node
      rw [binaryTerms_of_more hb, binaryTerms_of_more hb, hd.eq, hrest.eq]
      exact ⟨rfl, hd.beside.trans hrest.beside⟩

theorem Apart.integerTerms (h : Apart B c) (v : ℤ) : Alike B c (integerTerms v c) (integerTerms v (c.veil B)) := by
  unfold Circuit.integerTerms
  split_ifs
  · exact ⟨rfl, .refl h⟩
  · have hu := h.ensureUnit
    have hb := hu.beside.toApart.binaryTerms hu.node v.natAbs (s := Sign.of v)
    rw [hu.eq]
    exact ⟨hb.eq, hu.beside.trans hb.beside⟩

theorem Apart.looseUnit (h : Apart B c) : Clear B c c.looseUnit (c.veil B).looseUnit := by
  unfold Circuit.looseUnit
  by_cases he : c.order.isEmpty = true
  · rw [if_pos he, if_pos (c := (c.veil B).order.isEmpty = true) he]
    exact h.ensureUnit
  · rw [if_neg he, if_neg (c := (c.veil B).order.isEmpty = true) he]
    exact h.alloc []

theorem Apart.incremented (h : Apart B c) (ts : List Term) :
    Alike B c (incremented ts c) (incremented ts (c.veil B)) := by
  have hreduced : (c.veil B).termsReduced ts = c.termsReduced ts := by
    unfold termsReduced isReducedNode
    rw [veil_rank?]
  unfold Circuit.incremented
  rw [hreduced]
  split_ifs
  · exact h.incrementTerms ts
  · have hu := h.looseUnit
    rw [hu.eq]
    exact ⟨rfl, hu.beside⟩

end PowerTower.Circuit
