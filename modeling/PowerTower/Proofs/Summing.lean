import Mathlib
import PowerTower.Proofs.Joining

/-!
# Sums without carries

Signed nodes are added up entry by entry. A node that comes up again loses its entry, and may get another one later.

* `Terms.tally` : the digits of a node in a list, added up;
* `Terms.Fits` : no digit leaves the range from minus one to one while terms are added one after the other;
* `accumulate?_adds`, `accumulate?_overflow` : one term is added exactly, or else a strict sum refuses it;
* `sumTerms_adds`, `sumTerms_overflow` : so it is with the terms of a list, by induction;
* `fits_iff_disjoint` : terms that each stand in their list once fit exactly if none of them is there already;
* `SumAnswer`, `WellFormed.add_answer`, `WellFormed.markSigned_answer` : the calls that sum.
-/

namespace PowerTower

namespace Sign

theorem abs_toInt_le_one (x : Sign) : |x.toInt| ≤ 1 := by cases x <;> decide

/-- Two digits add up to a digit unless they are the same and not zero. -/
theorem abs_add_le_one_iff {x y : Sign} : |x.toInt + y.toInt| ≤ 1 ↔ (y ≠ zero → x ≠ y) := by
  cases x <;> cases y <;> decide

theorem neg_ne_self {x : Sign} (h : x ≠ zero) : -x ≠ x := by
  cases x with
  | minus => decide
  | zero => exact absurd rfl h
  | plus => decide

end Sign

namespace Terms

variable {ts us vs ws : List Term} {n : Node} {s : Sign} {u : Term}

/-! ## Digits of nodes that come up more than once -/

/-- The digits of a node in a list, added up. -/
def tally (n : Node) (us : List Term) : ℤ := (us.map fun u => if u.1 = n then u.2.toInt else 0).sum

@[simp] theorem tally_nil (n : Node) : tally n [] = 0 := rfl

theorem tally_cons (n : Node) (u : Term) (us : List Term) :
    tally n (u :: us) = (if u.1 = n then u.2.toInt else 0) + tally n us := by
  simp [tally]

/-- It is the sum in which the node counts one, and all others nothing. -/
theorem tally_cast (n : Node) (us : List Term) : (tally n us : ℝ) = sum (Pi.single n 1) us := by
  induction us with
  | nil => simp
  | cons u us ih =>
    rw [tally_cons, sum_cons, ← ih]
    by_cases hu : u.1 = n
    · simp [hu]
    · simp [hu]

theorem tally_eq_digit (h : (nodes ts).Nodup) (n : Node) : tally n ts = (digit n ts).toInt := by
  have hsum := sum_single n h
  rw [← tally_cast] at hsum
  exact_mod_cast hsum

theorem tally_flip (n : Node) (ts : List Term) : tally n (flip ts) = -tally n ts := by
  have hsum := sum_flip (Pi.single n 1) ts
  rw [← tally_cast, ← tally_cast] at hsum
  exact_mod_cast hsum

theorem Proper.abs_tally_le_one (h : Proper ts) (n : Node) : |tally n ts| ≤ 1 := by
  rw [tally_eq_digit h.nodup]
  exact Sign.abs_toInt_le_one _

/-- A proper list in which all digits cancel out is empty. -/
theorem Proper.eq_nil_of_tally (h : Proper ts) (hzero : ∀ n, tally n ts = 0) : ts = [] := by
  apply List.eq_nil_iff_forall_not_mem.2
  intro t ht
  have hmem : t.1 ∈ nodes ts := mem_nodes_of_mem ht
  have hdigit := Sign.toInt_ne_zero.2 (h.digit_ne_zero_iff.2 hmem)
  rw [← tally_eq_digit h.nodup] at hdigit
  exact hdigit (hzero t.1)

/-! ## Terms that are added -/

/-- A proper list is the sum of two lists. -/
structure Adds (ts us vs : List Term) : Prop where
  proper : Proper vs
  sum : ∀ w, Terms.sum w vs = Terms.sum w ts + Terms.sum w us

theorem Adds.refl (h : Proper ts) : Adds ts [] ts := ⟨h, fun w => by rw [sum_nil, add_zero]⟩

theorem Adds.trans (h : Adds ts us vs) {us' : List Term} (h' : Adds vs us' ws) : Adds ts (us ++ us') ws :=
  ⟨h'.proper, fun w => by rw [h'.sum, h.sum, sum_append, add_assoc]⟩

theorem Adds.tally_eq (h : Adds ts us vs) (n : Node) : tally n vs = tally n ts + tally n us := by
  have hsum := h.sum (Pi.single n 1)
  rw [← tally_cast, ← tally_cast, ← tally_cast] at hsum
  exact_mod_cast hsum

/-- Adding the terms one after the other, no digit leaves the range from minus one to one. -/
def Fits (ts us : List Term) : Prop := ∀ n i, |tally n ts + tally n (us.take i)| ≤ 1

theorem Fits.head (h : Fits ts (u :: us)) : |tally u.1 ts + u.2.toInt| ≤ 1 := by
  have hfirst := h u.1 1
  rwa [List.take_succ_cons, List.take_zero, tally_cons, if_pos rfl, tally_nil, add_zero] at hfirst

/-- Once the first term is added, the running sums are those of the others. -/
theorem Adds.running (h : Adds ts [u] vs) (n : Node) (i : ℕ) :
    tally n ts + tally n ((u :: us).take (i + 1)) = tally n vs + tally n (us.take i) := by
  rw [h.tally_eq n, List.take_succ_cons, tally_cons, tally_cons, tally_nil]
  ring

theorem Adds.fits_cons (h : Adds ts [u] vs) (hfits : Fits vs us) (hts : Proper ts) : Fits ts (u :: us) := by
  intro n i
  cases i with
  | zero =>
    rw [List.take_zero, tally_nil, add_zero]
    exact hts.abs_tally_le_one n
  | succ i =>
    rw [h.running]
    exact hfits n i

theorem Adds.fits_tail (h : Adds ts [u] vs) (hfits : Fits ts (u :: us)) : Fits vs us := by
  intro n i
  rw [← h.running]
  exact hfits n (i + 1)

/-- Terms that each stand in their list once fit exactly if none of them is there already. -/
theorem fits_iff_disjoint (hts : Proper ts) (hus : Proper us) : Fits ts us ↔ ∀ t ∈ ts, t ∉ us := by
  constructor
  · intro hfits t ht hu
    have hall := hfits t.1 us.length
    rw [List.take_length, tally_eq_digit hts.nodup, tally_eq_digit hus.nodup, Sign.abs_add_le_one_iff] at hall
    have hs : t.2 ≠ .zero := hts.nonzero t ht
    rw [(hts.digit_eq_iff hs).2 ht, (hus.digit_eq_iff hs).2 hu] at hall
    exact hall hs rfl
  · intro hdisjoint n i
    have htake : Proper (us.take i) := hus.sublist (List.take_sublist i us)
    rw [tally_eq_digit hts.nodup, tally_eq_digit htake.nodup, Sign.abs_add_le_one_iff]
    intro hs heq
    have hu : (n, digit n (us.take i)) ∈ us := List.mem_of_mem_take ((htake.digit_eq_iff hs).1 rfl)
    exact hdisjoint _ ((hts.digit_eq_iff hs).1 heq) hu

theorem Proper.not_mem_flip (h : Proper ts) (hu : u ∈ ts) : u ∉ Terms.flip ts := by
  intro hflip
  have hs : u.2 ≠ .zero := h.nonzero u hu
  have hdigit := (h.flip.digit_eq_iff hs).2 hflip
  rw [digit_flip, (h.digit_eq_iff hs).2 hu] at hdigit
  exact Sign.neg_ne_self hs hdigit

end Terms

namespace Circuit

open Guards Terms

variable {c d : Circuit} {a b k m : Marking} {n : Node} {s : Sign} {ts us vs : List Term} {fits : Prop}

/-! ## One term, and the terms of a list -/

/-- A term that fits is added exactly, whether or not the sum is strict. -/
theorem accumulate?_adds (strict : Bool) (hts : Terms.Proper ts) (h : |tally n ts + s.toInt| ≤ 1) :
    ∃ vs, accumulate? strict n s ts = some vs ∧ Adds ts [(n, s)] vs := by
  by_cases hs : s = .zero
  · refine ⟨ts, by rw [accumulate?, if_pos hs], hts, fun w => ?_⟩
    simp [hs]
  · rw [tally_eq_digit hts.nodup, Sign.abs_add_le_one_iff] at h
    have hnew : (n, s) ∉ ts := fun hin => h hs ((hts.digit_eq_iff hs).2 hin)
    obtain ⟨vs, hvs, -, hsum⟩ := accumulate?_exact strict hts hs hnew
    refine ⟨vs, hvs, (hts.accumulate hvs).1, fun w => ?_⟩
    rw [hsum, sum_cons, sum_nil, add_zero]

/-- A term that does not fit is refused where the sum is strict. -/
theorem accumulate?_overflow (hts : Terms.Proper ts) (h : 1 < |tally n ts + s.toInt|) :
    accumulate? true n s ts = none := by
  rw [tally_eq_digit hts.nodup, ← not_le, Sign.abs_add_le_one_iff] at h
  push Not at h
  obtain ⟨hs, hdigit⟩ := h
  have hold : digit? n ts = some s := digit?_eq_some_of_mem hts.nodup ((hts.digit_eq_iff hs).1 hdigit)
  have hcarry : (s.addWithCarry s).2 ≠ .zero := by cases s <;> simp_all [Sign.addWithCarry]
  rw [accumulate?, if_neg hs, hold]
  simp [hcarry]

/-- Terms that fit are added exactly. -/
theorem sumTerms_adds (strict : Bool) (hts : Terms.Proper ts) (h : Fits ts us) :
    ∃ vs, sumTerms strict ts us = .ok vs ∧ Adds ts us vs := by
  induction us generalizing ts with
  | nil => exact ⟨ts, rfl, .refl hts⟩
  | cons u us ih =>
    obtain ⟨n, s⟩ := u
    obtain ⟨vs, hvs, hadds⟩ := accumulate?_adds strict hts h.head
    obtain ⟨ws, hws, hrest⟩ := ih hadds.proper (hadds.fits_tail h)
    refine ⟨ws, ?_, hadds.trans hrest⟩
    rw [sumTerms, hvs]
    exact hws

/-- If they do not fit, then a strict sum is refused, with a node whose running sum leaves the range. -/
theorem sumTerms_overflow (hts : Terms.Proper ts) (h : ¬ Fits ts us) :
    ∃ n i, 1 < |tally n ts + tally n (us.take i)| ∧ sumTerms true ts us = .error (.signOverflow n) := by
  induction us generalizing ts with
  | nil =>
    refine absurd (fun n i => ?_) h
    rw [List.take_nil, tally_nil, add_zero]
    exact hts.abs_tally_le_one n
  | cons u us ih =>
    obtain ⟨n, s⟩ := u
    rcases le_or_gt |tally n ts + s.toInt| 1 with hle | hgt
    · obtain ⟨vs, hvs, hadds⟩ := accumulate?_adds true hts hle
      obtain ⟨m, i, hi, herror⟩ := ih hadds.proper fun hfits => h (hadds.fits_cons hfits hts)
      refine ⟨m, i + 1, ?_, ?_⟩
      · rwa [hadds.running]
      · rw [sumTerms, hvs]
        exact herror
    · refine ⟨n, 1, ?_, ?_⟩
      · rwa [List.take_succ_cons, List.take_zero, tally_cons, if_pos rfl, tally_nil, add_zero]
      · rw [sumTerms, accumulate?_overflow hts hgt]

/-- The names of live nodes are accepted, and then their digits are summed like those of a marking. -/
theorem sumSigned_eq_sumTerms (hlive : ∀ n ∈ Terms.nodes us, c.Live n) :
    c.sumSigned ts us = sumTerms c.config.checkInvariants ts us := by
  induction us generalizing ts with
  | nil => rfl
  | cons u us ih =>
    obtain ⟨n, s⟩ := u
    have hn : c.checkNode n = .ok () := live_iff_checkNode.1 (hlive n (by simp))
    rw [sumSigned, sumTerms, hn]
    cases accumulate? c.config.checkInvariants n s ts with
    | none => rfl
    | some vs => exact ih fun m hm => hlive m (by simp [hm])

/-! ## Calls that sum -/

/-- A new marking is made that is the sum of two lists of terms. Nothing else changes. -/
structure NewSum (c : Circuit) (ts us : List Term) (k : Marking) (d : Circuit) : Prop where
  new : (k, d) = c.newMarking (d.termsOf k)
  /-- No node stands in it twice, and none with digit zero. -/
  proper : d.Proper (d.termsOf k)
  /-- The digits of each node are added up, -/
  digit : ∀ n, (d.digitOf k n).toInt = tally n ts + tally n us
  /-- and so are the worths. -/
  worth : d.termsWorth (d.termsOf k) = c.termsWorth ts + c.termsWorth us

/-- What a call that sums two lists of terms comes to, where `fits` is the condition under which no digit overflows. -/
structure SumAnswer (c : Circuit) (fits : Prop) (ts us : List Term) (x : Call CircuitError Marking) : Prop where
  /-- A circuit that checks itself gives an answer exactly if the terms fit. -/
  ok_iff : c.config.checkInvariants = true → ((∃ k d, x.run c = (.ok k, d)) ↔ fits)
  /-- Otherwise it names a node whose running sum leaves the range, and nothing changes. -/
  refused : c.config.checkInvariants = true → ¬ fits →
    ∃ n i, 1 < |tally n ts + tally n (us.take i)| ∧ x.run c = (.error (.signOverflow n), c)
  /-- In any circuit the sum of terms that fit is exact. -/
  exact : fits → ∃ k d, x.run c = (.ok k, d) ∧ NewSum c ts us k d

theorem newSum_newMarking (hadds : Adds ts us vs) (hproper : c.Proper vs) :
    NewSum c ts us (c.newMarking vs).1 (c.newMarking vs).2 where
  new := by rw [newMarking_termsOf]
  proper := by
    rw [newMarking_termsOf]
    exact untouched_newMarking.proper hproper
  digit := fun n => by
    rw [digitOf, newMarking_termsOf, ← tally_eq_digit hproper.nodup]
    exact hadds.tally_eq n
  worth := by
    rw [newMarking_termsOf]
    exact hadds.sum c.worth

theorem Proper.sumAnswer {x : Call CircuitError Marking} {q : Circuit → Except CircuitError (List Term)}
    (hts : c.Proper ts) (hus : ∀ n ∈ Terms.nodes us, c.Live n) (hfits : fits ↔ Fits ts us)
    (hrun : x.run c = (Call.ask q >>= fun vs => Call.change fun c => c.newMarking vs).run c)
    (hq : q c = Circuit.sumTerms c.config.checkInvariants ts us) : SumAnswer c fits ts us x := by
  have hexact : Fits ts us → ∃ k d, x.run c = (.ok k, d) ∧ NewSum c ts us k d := by
    intro h
    obtain ⟨vs, hvs, hadds⟩ := sumTerms_adds c.config.checkInvariants hts.toProper h
    refine ⟨_, _, hrun.trans (run_ask_ok (hq.trans hvs)), newSum_newMarking hadds (hts.sumTerms hus hvs)⟩
  have hrefused : c.config.checkInvariants = true → ¬ Fits ts us →
      ∃ n i, 1 < |tally n ts + tally n (us.take i)| ∧ x.run c = (.error (.signOverflow n), c) := by
    intro hchecked h
    obtain ⟨n, i, hi, herror⟩ := sumTerms_overflow hts.toProper h
    refine ⟨n, i, hi, hrun.trans (run_ask_error ?_)⟩
    rw [hq, hchecked, herror]
  refine ⟨fun hchecked => ⟨?_, ?_⟩, fun hchecked h => hrefused hchecked (mt hfits.2 h), fun h => hexact (hfits.1 h)⟩
  · rintro ⟨k, d, hok⟩
    by_contra h
    obtain ⟨n, -, -, herror⟩ := hrefused hchecked (mt hfits.2 h)
    rw [hok] at herror
    cases herror
  · intro h
    obtain ⟨k, d, hok, -⟩ := hexact (hfits.1 h)
    exact ⟨k, d, hok⟩

/-- Two markings have no entry in common, by what `intersect` answers. -/
def ShareNothing (c : Circuit) (a b : Marking) : Prop := ∃ k d, (intersect a b).run c = (.ok k, d) ∧ d.termsOf k = []

theorem WellFormed.shareNothing_iff (h : c.WellFormed) (ha : a.circuit = c.id) (hb : b.circuit = c.id)
    (hheld : c.Held a)
    (hheld' : c.Held b) : c.ShareNothing a b ↔ ∀ t ∈ c.termsOf a, t ∉ c.termsOf b := by
  have hproper := (h.proper_termsOf hheld ha).toProper
  have hproper' := (h.proper_termsOf hheld' hb).toProper
  have hrun : (intersect a b).run c = (.ok (c.newMarking ((c.termsOf a).filter fun t => c.digitOf b t.1 = t.2)).1,
      (c.newMarking ((c.termsOf a).filter fun t => c.digitOf b t.1 = t.2)).2) :=
    (run_own ha).trans (run_own hb)
  have hempty : c.ShareNothing a b ↔ ((c.termsOf a).filter fun t => c.digitOf b t.1 = t.2) = [] := by
    rw [ShareNothing, hrun]
    constructor
    · rintro ⟨k, d, hkd, hnil⟩
      obtain ⟨rfl, rfl⟩ : _ ∧ _ := by simpa using hkd
      rwa [newMarking_termsOf] at hnil
    · intro hnil
      exact ⟨_, _, rfl, by rw [newMarking_termsOf, hnil]⟩
  rw [hempty, List.filter_eq_nil_iff]
  apply forall₂_congr
  intro t ht
  rw [decide_eq_true_iff, digitOf, hproper'.digit_eq_iff (hproper.nonzero t ht)]

/-- The sum of two markings is answered exactly if they have no entry in common. -/
theorem WellFormed.add_answer (h : c.WellFormed) (ha : a.circuit = c.id) (hb : b.circuit = c.id) (hheld : c.Held a)
    (hheld' : c.Held b) : SumAnswer c (c.ShareNothing a b) (c.termsOf a) (c.termsOf b) (add a b) := by
  have hproper := h.proper_termsOf hheld ha
  have hproper' := h.proper_termsOf hheld' hb
  apply hproper.sumAnswer hproper'.live
  · rw [h.shareNothing_iff ha hb hheld hheld', fits_iff_disjoint hproper.toProper hproper'.toProper]
  · exact (run_own ha).trans (run_own hb)
  · rfl

/-- Signed nodes are summed exactly if the running sum of the signs of each node stays in range. -/
theorem markSigned_answer {ns : List Node} {ss : List Sign} (hlength : ns.length = ss.length)
    (hlive : ∀ n ∈ ns, c.Live n) :
    SumAnswer c (∀ n i, |tally n ((ns.zip ss).take i)| ≤ 1) [] (ns.zip ss) (markSigned ns ss) := by
  have hzip : ∀ n ∈ Terms.nodes (ns.zip ss), c.Live n := by
    intro n hn
    obtain ⟨s, hs⟩ := mem_nodes.1 hn
    exact hlive n (List.of_mem_zip hs).1
  refine Proper.sumAnswer (q := fun c => c.sumSigned [] (ns.zip ss)) Circuit.proper_nil hzip ?_ ?_
    (sumSigned_eq_sumTerms hzip)
  · simp only [Fits, tally_nil, zero_add]
  · rw [markSigned, if_neg (not_not.2 hlength)]

/-- Markings of opposite terms add up to an empty one. -/
theorem WellFormed.add_of_flip (h : c.WellFormed) (ha : a.circuit = c.id) (hb : b.circuit = c.id) (hheld : c.Held a)
    (hheld' : c.Held b) (hflip : c.termsOf b = flip (c.termsOf a)) :
    ∃ k d, (add a b).run c = (.ok k, d) ∧ (k, d) = c.newMarking [] := by
  have hproper := (h.proper_termsOf hheld ha).toProper
  have hshare : c.ShareNothing a b := by
    rw [h.shareNothing_iff ha hb hheld hheld', hflip]
    exact fun t ht => hproper.not_mem_flip ht
  obtain ⟨k, d, hrun, hsum⟩ := (h.add_answer ha hb hheld hheld').exact hshare
  have hempty : d.termsOf k = [] := by
    apply hsum.proper.toProper.eq_nil_of_tally
    intro n
    have hdigit := hsum.digit n
    rw [hflip, tally_flip, add_neg_cancel] at hdigit
    rwa [tally_eq_digit hsum.proper.nodup]
  exact ⟨k, d, hrun, hempty ▸ hsum.new⟩

theorem WellFormed.add_invert (h : c.WellFormed) (hm : m.circuit = c.id) (hheld : c.Held m) :
    ∃ k d, (invert m).run c = (.ok k, d) ∧ ∃ j e, (add m k).run d = (.ok j, e) ∧ (j, e) = d.newMarking [] := by
  have hproper := h.proper_termsOf hheld hm
  have huntouched : c.Untouched (c.newMarking (flip (c.termsOf m))).2 := untouched_newMarking
  refine ⟨_, _, run_own hm, (h.newMarking hproper.flip).add_of_flip hm rfl ?_ ?_ ?_⟩
  · intro _
    rw [huntouched.cells m.id (hheld hm)]
    exact hheld hm
  · exact fun _ => newMarking_handles c _
  · rw [huntouched.termsOf_eq (hheld hm)]
    exact newMarking_termsOf c _

/-- Sums are exact or refused. A circuit that checks itself adds markings if and only if they have no entry in common,
and signed nodes if and only if the running sum of the signs of each node stays between minus one and one; otherwise it
reports an overflow. In any circuit the digits and the worths of a sum in which nothing overflows are those of its parts
added up, and a marking and its opposite add up to the empty marking. -/
theorem sums_are_exact (h : c.WellFormed) :
    (∀ a b, a.circuit = c.id → b.circuit = c.id → c.Held a → c.Held b →
      SumAnswer c (c.ShareNothing a b) (c.termsOf a) (c.termsOf b) (add a b)) ∧
    (∀ ns ss, ns.length = ss.length → (∀ n ∈ ns, c.Live n) →
      SumAnswer c (∀ n i, |tally n ((ns.zip ss).take i)| ≤ 1) [] (ns.zip ss) (markSigned ns ss)) ∧
    ∀ m, m.circuit = c.id → c.Held m →
      ∃ k d, (invert m).run c = (.ok k, d) ∧ ∃ j e, (add m k).run d = (.ok j, e) ∧ (j, e) = d.newMarking [] := by
  refine ⟨?_, ?_, ?_⟩
  · intro a b ha hb hheld hheld'
    exact h.add_answer ha hb hheld hheld'
  · intro ns ss hlength hlive
    exact markSigned_answer hlength hlive
  · intro m hm hheld
    exact h.add_invert hm hheld

/-- Twice one is refused. Less one, one and one can be summed in that order, but not from the other end. -/
theorem sums_of_ones : onlyUnit.WellFormed ∧
    (∃ n, (add ⟨⟨0⟩, 0⟩ ⟨⟨0⟩, 0⟩).run onlyUnit = (.error (.signOverflow n), onlyUnit)) ∧
    (∃ k d, (markSigned (List.replicate 3 ⟨⟨0⟩, 0, 0⟩) [.minus, .plus, .plus]).run onlyUnit = (.ok k, d) ∧
      d.digitOf k ⟨⟨0⟩, 0, 0⟩ = .plus) ∧
    (∃ n, (markSigned (List.replicate 3 ⟨⟨0⟩, 0, 0⟩) [.plus, .plus, .minus]).run onlyUnit =
      (.error (.signOverflow n), onlyUnit)) ∧
    ∃ k d, (invert ⟨⟨0⟩, 0⟩).run onlyUnit = (.ok k, d) ∧
      ∃ j e, (add ⟨⟨0⟩, 0⟩ k).run d = (.ok j, e) ∧ e.termsOf j = [] := by
  obtain ⟨hadd, hmark, hinvert⟩ := sums_are_exact wellFormed_onlyUnit
  have hheld : onlyUnit.Held ⟨⟨0⟩, 0⟩ := fun _ => by decide
  refine ⟨wellFormed_onlyUnit, ?_, ?_, ?_, ?_⟩
  · have hshared : ¬ onlyUnit.ShareNothing ⟨⟨0⟩, 0⟩ ⟨⟨0⟩, 0⟩ := by
      rw [wellFormed_onlyUnit.shareNothing_iff rfl rfl hheld hheld]
      decide
    obtain ⟨n, -, -, herror⟩ := (hadd _ _ rfl rfl hheld hheld).refused rfl hshared
    exact ⟨n, herror⟩
  · have hanswer := hmark (List.replicate 3 ⟨⟨0⟩, 0, 0⟩) [.minus, .plus, .plus] rfl (by decide)
    have hfits : ∀ n i, |tally n (((List.replicate 3 ⟨⟨0⟩, 0, 0⟩).zip [.minus, .plus, .plus]).take i)| ≤ 1 := by
      intro n i
      by_cases hn : (⟨⟨0⟩, 0, 0⟩ : Node) = n
      · subst hn
        rcases i with _ | _ | _ | i
        · decide
        · decide
        · decide
        · rw [List.take_of_length_le (by simp)]
          decide
      · rcases i with _ | _ | _ | i
        all_goals simp [tally, hn]
    obtain ⟨k, d, hrun, hsum⟩ := hanswer.exact hfits
    exact ⟨k, d, hrun, Sign.toInt_inj (hsum.digit _)⟩
  · have hanswer := hmark (List.replicate 3 ⟨⟨0⟩, 0, 0⟩) [.plus, .plus, .minus] rfl (by decide)
    have hover : ¬ ∀ n i, |tally n (((List.replicate 3 ⟨⟨0⟩, 0, 0⟩).zip [.plus, .plus, .minus]).take i)| ≤ 1 :=
      fun h => absurd (h ⟨⟨0⟩, 0, 0⟩ 2) (by decide)
    obtain ⟨n, -, -, herror⟩ := hanswer.refused rfl hover
    exact ⟨n, herror⟩
  · obtain ⟨k, d, hrun, j, e, hsum, hnew⟩ := hinvert ⟨⟨0⟩, 0⟩ rfl hheld
    obtain ⟨rfl, rfl⟩ := Prod.mk.inj hnew
    exact ⟨k, d, hrun, _, _, hsum, newMarking_termsOf d []⟩

end Circuit

end PowerTower
