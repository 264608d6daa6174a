import Mathlib
import PowerTower.Circuit.Digest
import PowerTower.Proofs.Doubling

/-!
# The encoding of the reduced nodes

The bytes that are hashed tell exactly how the reduced nodes are connected. Nothing separates one field from the next,
but every field has a fixed width or starts with its length, so that a string of fields can be read in one way only.

* `Separates` : what a field was written from can be told from any string that starts with it, and so can what follows;
* `entriesOf`, `encoding_eq` : the entries of a reduced node, and the bytes of a linked circuit;
* `entriesAt`, `SameShape` : which ranks and signs stand in the exponent of a rank, and circuits that agree in this;
* `SameShape.worth_eq` : nodes of one rank of such circuits are worth the same;
* `encoding_is_injective_on_shapes` : circuits have the same bytes if and only if they have the same shape.
-/

namespace PowerTower

/-! ## Fields -/

theorem length_lowBytes (k n : ℕ) : (lowBytes k n).length = k := by
  induction k generalizing n with
  | zero => rfl
  | succ k ih => rw [lowBytes, List.length_cons, ih]

theorem lowBytes_inj {k m n : ℕ} (hm : m < 256 ^ k) (hn : n < 256 ^ k) (h : lowBytes k m = lowBytes k n) : m = n := by
  induction k generalizing m n with
  | zero => omega
  | succ k ih =>
    obtain ⟨hlow, hhigh⟩ := List.cons.inj h
    have hmod : m % 256 = n % 256 := congrArg UInt8.toNat hlow
    have hdiv : m / 256 = n / 256 := ih (by rw [pow_succ] at hm; omega) (by rw [pow_succ] at hn; omega) hhigh
    omega

theorem Sign.byte_inj {s t : Sign} (h : s.byte = t.byte) : s = t := by
  cases s <;> cases t <;> first | rfl | cases h

/-- From a string that starts with the field of one of some values, the value and what follows can be told. -/
def Separates {α : Type} (P : α → Prop) (f : α → List UInt8) : Prop :=
  ∀ ⦃x y rest rest'⦄, P x → P y → f x ++ rest = f y ++ rest' → x = y ∧ rest = rest'

section Separates

variable {α β : Type} {P : α → Prop} {Q : β → Prop} {f : α → List UInt8} {g : β → List UInt8}

/-- Fields of one width separate, where different values have different fields. -/
theorem separates_of_length {k : ℕ} (hlength : ∀ x, (f x).length = k) (hinj : ∀ x y, P x → P y → f x = f y → x = y) :
    Separates P f := fun x y _ _ hx hy h =>
  have ⟨hfield, hrest⟩ := List.append_inj h ((hlength x).trans (hlength y).symm)
  ⟨hinj x y hx hy hfield, hrest⟩

theorem Separates.pair (hf : Separates P f) (hg : Separates Q g) :
    Separates (fun e : α × β => P e.1 ∧ Q e.2) fun e => f e.1 ++ g e.2 := by
  rintro ⟨x, u⟩ ⟨y, v⟩ rest rest' ⟨hx, hu⟩ ⟨hy, hv⟩ h
  rw [List.append_assoc, List.append_assoc] at h
  obtain ⟨rfl, htail⟩ := hf hx hy h
  obtain ⟨rfl, hrest⟩ := hg hu hv htail
  exact ⟨rfl, hrest⟩

/-- One after the other the fields of a list separate as well, if it is known how many there are. -/
theorem Separates.flatMap (hf : Separates P f) {xs ys : List α} {rest rest' : List UInt8} (hxs : ∀ x ∈ xs, P x)
    (hys : ∀ y ∈ ys, P y) (hlength : xs.length = ys.length) (h : xs.flatMap f ++ rest = ys.flatMap f ++ rest') :
    xs = ys ∧ rest = rest' := by
  induction xs generalizing ys with
  | nil =>
    obtain rfl := List.length_eq_zero_iff.1 hlength.symm
    exact ⟨rfl, h⟩
  | cons x xs ih =>
    cases ys with
    | nil => cases hlength
    | cons y ys =>
      obtain ⟨hx, htailx⟩ := List.forall_mem_cons.1 hxs
      obtain ⟨hy, htaily⟩ := List.forall_mem_cons.1 hys
      rw [List.flatMap_cons, List.flatMap_cons, List.append_assoc, List.append_assoc] at h
      obtain ⟨rfl, htail⟩ := hf hx hy h
      obtain ⟨heq, hrest⟩ := ih htailx htaily (by simpa using hlength) htail
      exact ⟨heq ▸ rfl, hrest⟩

end Separates

theorem separates_bytes64 : Separates (fun n => n < 2 ^ 64) bytes64 :=
  separates_of_length (length_lowBytes 8) fun _ _ hm hn h => lowBytes_inj (by norm_num; exact hm)
    (by norm_num; exact hn) h

theorem separates_byte : Separates (fun _ => True) fun s : Sign => [s.byte] :=
  separates_of_length (fun _ => rfl) fun _ _ _ _ h => Sign.byte_inj (List.singleton_inj.1 h)

namespace Circuit

open Guards

theorem separates_encodeEntries :
    Separates (fun es : List (ℕ × Sign) => es.length < 2 ^ 64 ∧ ∀ e ∈ es, e.1 < 2 ^ 64) encodeEntries := by
  rintro xs ys rest rest' ⟨hxs, hranks⟩ ⟨hys, hranks'⟩ h
  rw [encodeEntries, encodeEntries, List.append_assoc, List.append_assoc] at h
  obtain ⟨hlength, htail⟩ := separates_bytes64 hxs hys h
  exact (separates_bytes64.pair separates_byte).flatMap (fun e he => ⟨hranks e he, trivial⟩)
    (fun e he => ⟨hranks' e he, trivial⟩) hlength htail

/-! ## The order of entries -/

theorem entryLE_iff {x y : ℕ × Sign} : entryLE x y = true ↔ x.1 < y.1 ∨ x.1 = y.1 ∧ x.2.toInt ≤ y.2.toInt := by
  simp [entryLE]

theorem entryLE_trans (x y z : ℕ × Sign) (hxy : entryLE x y = true) (hyz : entryLE y z = true) :
    entryLE x z = true := by
  rw [entryLE_iff] at *
  omega

theorem entryLE_total (x y : ℕ × Sign) : (entryLE x y || entryLE y x) = true := by
  rw [Bool.or_eq_true, entryLE_iff, entryLE_iff]
  omega

theorem entryLE_antisymm {x y : ℕ × Sign} (hxy : entryLE x y = true) (hyx : entryLE y x = true) : x = y := by
  rw [entryLE_iff] at hxy hyx
  exact Prod.ext (by omega) (Sign.toInt_inj (by omega))

/-- Sorting forgets the order of the entries and nothing else. -/
theorem mergeSort_eq_iff {xs ys : List (ℕ × Sign)} (hxs : xs.Nodup) (hys : ys.Nodup) :
    xs.mergeSort entryLE = ys.mergeSort entryLE ↔ ∀ e, e ∈ xs ↔ e ∈ ys := by
  have sorted : ∀ zs : List (ℕ × Sign), (zs.mergeSort entryLE).Pairwise fun x y => entryLE x y = true :=
    List.pairwise_mergeSort entryLE_trans entryLE_total
  rw [← List.perm_ext_iff_of_nodup hxs hys]
  constructor
  · exact fun h => (List.mergeSort_perm xs _).symm.trans (h ▸ List.mergeSort_perm ys _)
  · intro h
    refine List.Perm.eq_of_pairwise (fun x y _ _ => entryLE_antisymm) (sorted xs) (sorted ys) ?_
    exact (List.mergeSort_perm xs _).trans (h.trans (List.mergeSort_perm ys _).symm)

/-! ## The bytes of a circuit -/

variable {c d : Circuit} {m n : Node} {r : ℕ}

/-- The entries of a node, each by its rank. -/
def looseEntries (c : Circuit) (n : Node) : List (ℕ × Sign) := (c.successors n).map fun t => (c.rankOf t.1, t.2)

/-- The same by rank. -/
def entriesOf (c : Circuit) (n : Node) : List (ℕ × Sign) := (c.looseEntries n).mergeSort entryLE

theorem rankEntry_of_reduced (hn : c.Reduced n) (owner : Node) (s : Sign) :
    c.rankEntry owner (n, s) = .ok (c.rankOf n, s) := by
  obtain ⟨r, hr⟩ := hn.exists_rank
  rw [rankEntry, orderOf, live_iff_checkNode.1 hn.1, rankOf, hr]
  rfl

theorem mapM_eq_ok {α β : Type} {f : α → Except CircuitError β} {g : α → β} {xs : List α}
    (h : ∀ x ∈ xs, f x = .ok (g x)) : xs.mapM f = .ok (xs.map g) := by
  induction xs with
  | nil => rfl
  | cons x xs ih =>
    obtain ⟨hx, hxs⟩ := List.forall_mem_cons.1 h
    rw [List.mapM_cons, hx, ih hxs]
    rfl

theorem Linked.rankEntries_eq (h : c.Linked) (hn : c.Reduced n) : c.rankEntries n = .ok (c.entriesOf n) := by
  have hentries : (c.successors n).mapM (c.rankEntry n) = .ok (c.looseEntries n) :=
    mapM_eq_ok fun t ht => rankEntry_of_reduced (h.closed n hn t.1 (below_of_mem ht)) n t.2
  rw [rankEntries, successorTerms, live_iff_checkNode.1 hn.1]
  show (c.successors n).mapM (c.rankEntry n) >>= _ = _
  rw [hentries]
  rfl

/-- The bytes of a circuit: what is the same for all, the number of nodes, and the nodes. -/
theorem Linked.encoding_eq (h : c.Linked) : c.encoding =
    .ok (encodingTag ++ bytes64 c.order.size ++ (c.order.toList.map c.entriesOf).flatMap encodeEntries) := by
  rw [encoding, mapM_eq_ok fun n hn => h.rankEntries_eq (h.mem_order.1 hn)]
  rfl

theorem Linked.nodup_looseEntries (h : c.Linked) (hn : c.Reduced n) : (c.looseEntries n).Nodup := by
  have hranks := h.nodup_rankOf (h.exponents n hn.1) (h.closed n hn)
  rw [Terms.nodes, List.map_map] at hranks
  refine List.Nodup.of_map Prod.fst ?_
  rw [looseEntries, List.map_map]
  exact hranks

theorem Linked.rank_lt_of_mem (h : c.Linked) (hn : c.Reduced n) {e : ℕ × Sign} (he : e ∈ c.entriesOf n) :
    e.1 < c.order.size := by
  obtain ⟨t, ht, rfl⟩ := List.mem_map.1 (List.mem_mergeSort.1 he)
  exact h.rankOf_lt (h.closed n hn t.1 (below_of_mem ht))

/-- An exponent has no more entries than there are reduced nodes. -/
theorem Linked.length_entriesOf_le (h : c.Linked) (hn : c.Reduced n) : (c.entriesOf n).length ≤ c.order.size := by
  have hlength : (c.entriesOf n).length = (Terms.nodes (c.successors n)).length := by
    rw [entriesOf, List.length_mergeSort, looseEntries, List.length_map, Terms.nodes, List.length_map]
  rw [hlength, ← Array.length_toList]
  exact ((h.exponents n hn.1).nodup.subperm fun m hm => h.mem_order.2 (h.closed n hn m hm)).length_le

/-! ## Shapes -/

/-- The ranks of the nodes in the exponent of a rank, with their signs. -/
def entriesAt (c : Circuit) (r : ℕ) : Set (ℕ × Sign) :=
  {e | ∃ n m, c.order[r]? = some n ∧ c.order[e.1]? = some m ∧ (m, e.2) ∈ c.successors n}

/-- The reduced nodes of two circuits are equally many, and connected alike. -/
def SameShape (c d : Circuit) : Prop := c.order.size = d.order.size ∧ ∀ r, c.entriesAt r = d.entriesAt r

theorem Linked.mem_entriesAt (h : c.Linked) (hr : c.order[r]? = some n) {e : ℕ × Sign} :
    e ∈ c.entriesAt r ↔ e ∈ c.looseEntries n := by
  have rank : ∀ {m k}, c.order[k]? = some m → c.rankOf m = k := fun hk => by
    rw [rankOf, h.rank?_of_getElem? hk, Option.getD_some]
  rw [looseEntries, List.mem_map]
  constructor
  · rintro ⟨k, m, hk, hm, hmem⟩
    obtain rfl : k = n := Option.some.inj (hk.symm.trans hr)
    exact ⟨_, hmem, Prod.ext (rank hm) rfl⟩
  · rintro ⟨⟨m, s⟩, hmem, rfl⟩
    obtain ⟨k, hk⟩ := h.exists_getElem? (h.closed n (h.reduced_of_getElem? hr) m (below_of_mem hmem))
    exact ⟨n, m, hr, by rw [rank hk]; exact hk, hmem⟩

theorem entriesAt_of_size_le (hr : c.order.size ≤ r) : c.entriesAt r = ∅ := by
  refine Set.eq_empty_of_forall_notMem ?_
  rintro e ⟨n, m, hn, -⟩
  rw [Array.getElem?_eq_none hr] at hn
  cases hn

/-- Two nodes have the same entries by rank if and only if their ranks have. -/
theorem entriesOf_eq_iff (hc : c.Linked) (hd : d.Linked) (hm : c.order[r]? = some m) (hn : d.order[r]? = some n) :
    c.entriesOf m = d.entriesOf n ↔ c.entriesAt r = d.entriesAt r := by
  rw [entriesOf, entriesOf, mergeSort_eq_iff (hc.nodup_looseEntries (hc.reduced_of_getElem? hm))
    (hd.nodup_looseEntries (hd.reduced_of_getElem? hn)), Set.ext_iff]
  simp only [hc.mem_entriesAt hm, hd.mem_entriesAt hn]

/-- The nodes have the same entries, one after the other, if and only if the circuits have the same shape. -/
theorem map_entriesOf_eq_iff (hc : c.Linked) (hd : d.Linked) :
    c.order.toList.map c.entriesOf = d.order.toList.map d.entriesOf ↔ SameShape c d := by
  constructor
  · intro h
    have hsize : c.order.size = d.order.size := by simpa using congrArg List.length h
    refine ⟨hsize, fun r => ?_⟩
    rcases Nat.lt_or_ge r c.order.size with hr | hr
    · have hm := Array.getElem?_eq_getElem hr
      have hn := Array.getElem?_eq_getElem (hsize ▸ hr)
      have hat := congrArg (fun l => l[r]?) h
      simp only [List.getElem?_map, Array.getElem?_toList, hm, hn, Option.map_some, Option.some.injEq] at hat
      exact (entriesOf_eq_iff hc hd hm hn).1 hat
    · rw [entriesAt_of_size_le hr, entriesAt_of_size_le (hsize ▸ hr)]
  · rintro ⟨hsize, hat⟩
    refine List.ext_getElem (by simpa using hsize) fun r hr hr' => ?_
    simp only [List.length_map, Array.length_toList] at hr hr'
    rw [List.getElem_map, List.getElem_map, Array.getElem_toList, Array.getElem_toList]
    exact (entriesOf_eq_iff hc hd (Array.getElem?_eq_getElem hr) (Array.getElem?_eq_getElem hr')).2 (hat r)

/-! ## Shapes and bytes -/

/-- The bytes of a node can be told from what follows, as long as all numbers fit. -/
theorem Linked.fits (h : c.Linked) (hsize : c.order.size < 2 ^ 64) :
    ∀ es ∈ c.order.toList.map c.entriesOf, es.length < 2 ^ 64 ∧ ∀ e ∈ es, e.1 < 2 ^ 64 := by
  intro es hes
  obtain ⟨n, hn, rfl⟩ := List.mem_map.1 hes
  have hr := h.mem_order.1 hn
  exact ⟨(h.length_entriesOf_le hr).trans_lt hsize, fun e he => (h.rank_lt_of_mem hr he).trans hsize⟩

theorem encoding_eq_iff (hc : c.Linked) (hd : d.Linked) (hcsize : c.order.size < 2 ^ 64)
    (hdsize : d.order.size < 2 ^ 64) : c.encoding = d.encoding ↔ SameShape c d := by
  rw [hc.encoding_eq, hd.encoding_eq, Except.ok.injEq, ← map_entriesOf_eq_iff hc hd]
  constructor
  · intro h
    rw [List.append_assoc, List.append_assoc, List.append_cancel_left_eq] at h
    obtain ⟨hsize, hnodes⟩ := separates_bytes64 hcsize hdsize h
    rw [← List.append_nil (List.flatMap _ _), ← List.append_nil (List.flatMap encodeEntries (d.order.toList.map _))]
      at hnodes
    exact (separates_encodeEntries.flatMap (hc.fits hcsize) (hd.fits hdsize) (by simpa using hsize) hnodes).1
  · intro h
    have hsize : c.order.size = d.order.size := by simpa using congrArg List.length h
    rw [h, hsize]

/-! ## Shapes and worths -/

theorem Linked.termsWorth_successors (h : c.Linked) (hn : c.Reduced n) : c.termsWorth (c.successors n) =
    ((c.looseEntries n).map fun e => (e.2.toInt : ℝ) * c.unitAt e.1).sum := by
  rw [looseEntries, List.map_map, termsWorth, Terms.sum]
  refine congrArg List.sum (List.map_congr_left fun t ht => ?_)
  rw [Function.comp_apply, h.unitAt_rankOf (h.closed n hn t.1 (below_of_mem ht))]

/-- Nodes of one rank are worth the same. -/
theorem SameShape.worth_eq (h : SameShape c d) (hc : c.Linked) (hd : d.Linked) (hm : c.order[r]? = some m)
    (hn : d.order[r]? = some n) : c.worth m = d.worth n := by
  have hacc := hc.acc (hc.reduced_of_getElem? hm).1
  induction hacc generalizing r n with
  | intro m _ ih =>
    have hrm := hc.reduced_of_getElem? hm
    have hrn := hd.reduced_of_getElem? hn
    have hperm : (c.looseEntries m).Perm (d.looseEntries n) := by
      rw [List.perm_ext_iff_of_nodup (hc.nodup_looseEntries hrm) (hd.nodup_looseEntries hrn)]
      intro e
      rw [← hc.mem_entriesAt hm, ← hd.mem_entriesAt hn, h.2 r]
    -- the ranks in the exponent belong to nodes below, which are worth the same in both circuits
    have hunits : ∀ e ∈ c.looseEntries m, c.unitAt e.1 = d.unitAt e.1 := fun e he => by
      obtain ⟨k, j, hk, hj, hmem⟩ := (hc.mem_entriesAt hm).2 he
      obtain rfl : k = m := Option.some.inj (hk.symm.trans hm)
      have hlt : e.1 < d.order.size := h.1 ▸ (Array.getElem?_eq_some_iff.1 hj).1
      rw [unitAt_eq hj, unitAt_eq (Array.getElem?_eq_getElem hlt)]
      exact ih j (below_of_mem hmem) hj (Array.getElem?_eq_getElem hlt)
    have hexponent : c.termsWorth (c.successors m) = d.termsWorth (d.successors n) := by
      rw [hc.termsWorth_successors hrm, hd.termsWorth_successors hrn, ← (hperm.map _).sum_eq]
      exact congrArg List.sum (List.map_congr_left fun e he => by rw [hunits e he])
    rw [Circuit.worth_eq (hc.acc hrm.1), Circuit.worth_eq (hd.acc hrn.1), hexponent]

/-- A well-formed circuit has a digest, the hash of its bytes. Two of them have the same bytes if and only if they have
the same shape, and then nodes of one rank are worth the same. -/
theorem encoding_is_injective_on_shapes :
    (∀ c : Circuit, c.WellFormed → ∃ bytes, c.encoding = .ok bytes ∧ c.digest = .ok (Blake3.hash bytes)) ∧
    ∀ c d : Circuit, c.WellFormed → d.WellFormed → c.order.size < 2 ^ 64 → d.order.size < 2 ^ 64 →
      (c.encoding = d.encoding ↔ SameShape c d) ∧
      (c.encoding = d.encoding →
        ∀ (r : ℕ) (m n : Node), c.order[r]? = some m → d.order[r]? = some n → c.worth m = d.worth n) := by
  refine ⟨fun c hc => ⟨_, hc.encoding_eq, ?_⟩, fun c d hc hd hcsize hdsize => ?_⟩
  · rw [digest, hc.encoding_eq]
    rfl
  · have hiff := encoding_eq_iff hc.toLinked hd.toLinked hcsize hdsize
    exact ⟨hiff, fun h r m n hm hn => (hiff.1 h).worth_eq hc.toLinked hd.toLinked hm hn⟩

/-- One, two and eight at other places of a circuit with another number. The entries of eight stand in another order,
and besides there are a free place, a pending node and a marking. -/
def withoutFourElsewhere : Circuit where
  id := ⟨7⟩
  slots := #[{ generation := 2 },
    { live := true, rank := some 0, doubles := true },
    { live := true, rank := some 1, successors := [(⟨⟨7⟩, 1, 0⟩, .plus)], generation := 1 },
    { live := true, rank := some 2, successors := [(⟨⟨7⟩, 2, 1⟩, .plus), (⟨⟨7⟩, 1, 0⟩, .plus)] },
    { live := true, successors := [(⟨⟨7⟩, 3, 0⟩, .minus)] }]
  free := [0]
  liveNodes := 4
  order := #[⟨⟨7⟩, 1, 0⟩, ⟨⟨7⟩, 2, 1⟩, ⟨⟨7⟩, 3, 0⟩]
  cells := #[⟨[(⟨⟨7⟩, 4, 0⟩, .plus)], 1⟩]

theorem wellFormed_withoutFourElsewhere : withoutFourElsewhere.WellFormed := by
  have hslots : (List.range withoutFourElsewhere.slots.size).forM withoutFourElsewhere.checkSlot = .ok () := by cbv
  have hacyclic : withoutFourElsewhere.cycle? = none := cycle?_of_height hslots (fun i => i) (by decide)
  refine wellFormed_of_check ?_ (by decide) (by decide) (by decide) (by decide)
  simp only [check, unit_bind_eq_ok, checkAcyclic_eq_ok_iff]
  exact ⟨hslots, by cbv, by cbv, by cbv, hacyclic, by cbv, by cbv, by cbv⟩

theorem withoutFour_encoded_elsewhere : withoutFour.WellFormed ∧ withoutFourElsewhere.WellFormed ∧
    SameShape withoutFour withoutFourElsewhere ∧ (∃ bytes, withoutFour.digest = .ok (Blake3.hash bytes)) ∧
    withoutFour.worth ⟨⟨0⟩, 2, 0⟩ = withoutFourElsewhere.worth ⟨⟨7⟩, 3, 0⟩ := by
  have hbytes : withoutFour.encoding = withoutFourElsewhere.encoding := by cbv
  obtain ⟨hdigest, htwo⟩ := encoding_is_injective_on_shapes
  obtain ⟨bytes, -, hbytes'⟩ := hdigest withoutFour wellFormed_withoutFour
  obtain ⟨hshape, hworth⟩ := htwo withoutFour withoutFourElsewhere wellFormed_withoutFour
    wellFormed_withoutFourElsewhere (by decide) (by decide)
  exact ⟨wellFormed_withoutFour, wellFormed_withoutFourElsewhere, hshape.1 hbytes, ⟨bytes, hbytes'⟩,
    hworth hbytes 2 _ _ rfl rfl⟩

end Circuit

end PowerTower
