import Mathlib
import PowerTower.Proofs.Encoding

/-!
# Absorbing a node

What a holder is written to mention in the end, when one of its entries gives way to a reduced node. The carries go
through the reduced entries only, and so neither see nor move the others; on their way they bring in the doubles that
are missing.

* `WellFormed.filter_pending_absorb` : the pending entries stay as they are, in their order;
* `Absorption` : the outcome of adding a digit of a reduced node to a term list;
* `absorb_keeps_the_sum` : in a well-formed circuit every such addition comes to an end, and has this outcome.
-/

namespace PowerTower.Circuit

variable {c d : Circuit} {n : Node} {ts us : List Term} {s : Sign}

/-- The places of all pending nodes. -/
theorem unlisted_nil_iff (hn : c.Live n) : c.unlisted [] n.index = true ↔ c.Pending n := by
  rw [unlisted_iff]
  exact ⟨fun h => ⟨hn, h.1.2⟩, fun h => ⟨⟨h.1.2.1, h.2⟩, by simp⟩⟩

/-- A node that lives in the end at the place of a pending node is that node, since places are not taken away. -/
theorem Grows.unlisted_nil_iff (h : c.Grows d) (hn : d.Live n) : c.unlisted [] n.index = true ↔ d.Pending n := by
  rw [h.pending]
  refine ⟨fun hu => ?_, fun hp => (Circuit.unlisted_nil_iff hp.1).2 hp⟩
  have hslot := (unlisted_iff.1 hu).1
  have hlive : c.Live n := ⟨hn.1.trans h.id, hslot.1, (h.generation n.index).symm.trans hn.2.2⟩
  exact (Circuit.unlisted_nil_iff hlive).1 hu

/-- With the pending nodes veiled, their entries sifted out, the carries are the same. -/
theorem WellFormed.filter_pending_absorb (h : c.WellFormed) (hn : c.Reduced n) (hts : c.Proper ts)
    (hus : (c.absorb ts n s).2.Proper (c.absorb ts n s).1) (hgrows : c.Grows (c.absorb ts n s).2) :
    ((c.absorb ts n s).1.filter fun t => (c.absorb ts n s).2.Pending t.1) = ts.filter fun t => c.Pending t.1 := by
  have hsifted := (h.grounded.apart []).absorb (fun m => !c.unlisted [] m.index) (fun m hm => by simp [hm])
    (unlisted_of_reduced hn) ts s
  have hrest := hsifted.rest
  simp only [Bool.not_not] at hrest
  calc ((c.absorb ts n s).1.filter fun t => (c.absorb ts n s).2.Pending t.1)
      = (c.absorb ts n s).1.filter fun t => c.unlisted [] t.1.index := List.filter_congr fun t ht => by
        rw [Bool.eq_iff_iff, decide_eq_true_iff]
        exact (hgrows.unlisted_nil_iff (hus.live t.1 (Terms.mem_nodes_of_mem ht))).symm
    _ = ts.filter fun t => c.unlisted [] t.1.index := hrest
    _ = ts.filter fun t => c.Pending t.1 := List.filter_congr fun t ht => by
        rw [Bool.eq_iff_iff, decide_eq_true_iff]
        exact unlisted_nil_iff (hts.live t.1 (Terms.mem_nodes_of_mem ht))

/-- The outcome of adding a digit of a reduced node to a term list. -/
structure Absorption (c : Circuit) (ts : List Term) (n : Node) (s : Sign) (us : List Term) (d : Circuit) : Prop where
  wellFormed : d.WellFormed
  /-- Reduced nodes came in, and nothing else changed: no exponent, no marking, no pending node. -/
  grows : c.Grows d
  sublist : c.order.toList.Sublist d.order.toList
  proper : d.Proper us
  worth : d.termsWorth us = c.termsWorth ts + s.toInt * c.worth n
  pending : (us.filter fun t => d.Pending t.1) = ts.filter fun t => c.Pending t.1
  added : ∀ t ∈ us, t ∉ ts → d.Reduced t.1

/-- A digit of a reduced node can be added to every proper term list, of reduced and pending nodes alike. The sum is
what it should be, pending entries are left alone, and new entries are reduced. -/
theorem absorb_keeps_the_sum (h : c.WellFormed) (hts : c.Proper ts) (hn : c.Reduced n) (hs : s ≠ .zero) :
    absorbWith (fun n c => c.double? n) ts n s c = some (c.absorb ts n s) ∧
      Absorption c ts n s (c.absorb ts n s).1 (c.absorb ts n s).2 := by
  obtain ⟨us, d, heq, habsorbed⟩ := exists_absorbWith (Q := fun _ _ => True) (fun _ _ _ _ => trivial)
    (fun hc hm _ => hc.double? hm) h.sound hts hn hs fun _ _ => trivial
  have habsorb : c.absorb ts n s = (us, d) := by rw [absorb, heq, Option.getD_some]
  have hgrows := habsorbed.carried.grows
  have hd : d.WellFormed := habsorbed.carried.wellFormed h
  have hpending := h.filter_pending_absorb (s := s) hn hts
  rw [habsorb] at hpending ⊢
  have hfilter := hpending habsorbed.proper hgrows
  refine ⟨heq, hd, hgrows, hgrows.order_sublist h hd, habsorbed.proper, ?_, hfilter, fun t ht hnot => ?_⟩
  · have hworth : ∀ m, c.Live m → d.worth m = c.worth m := fun m hm => hgrows.worth_eq h.toLinked hm
    calc d.termsWorth us = Terms.sum d.worth ts + s.toInt * d.worth n :=
          habsorbed.sum h.toConsistent d.worth fun _ _ => rfl
      _ = c.termsWorth ts + s.toInt * c.worth n := by
          rw [hworth n hn.1, Terms.sum_congr fun m hm => hworth m (hts.live m hm)]
          rfl
  · -- an entry of a node that is not reduced would be among the pending ones, which were there before
    have hlive := habsorbed.proper.live t.1 (Terms.mem_nodes_of_mem ht)
    refine (reduced_or_pending hlive).resolve_right fun hp => hnot ?_
    have hmem : t ∈ us.filter fun t => d.Pending t.1 := List.mem_filter.2 ⟨ht, by simpa using hp⟩
    rw [hfilter] at hmem
    exact (List.mem_filter.1 hmem).1

/-- Eight is added to a pending node and eight. The carry needs sixteen, and this needs four; both are
missing at first. -/
theorem absorption_of_eight : withoutFourElsewhere.WellFormed ∧ withoutFourElsewhere.Reduced ⟨⟨7⟩, 3, 0⟩ ∧
    withoutFourElsewhere.Proper [(⟨⟨7⟩, 4, 0⟩, .plus), (⟨⟨7⟩, 3, 0⟩, .plus)] ∧
    ∃ d, Absorption withoutFourElsewhere [(⟨⟨7⟩, 4, 0⟩, .plus), (⟨⟨7⟩, 3, 0⟩, .plus)] ⟨⟨7⟩, 3, 0⟩ .plus
      [(⟨⟨7⟩, 4, 0⟩, .plus), (⟨⟨7⟩, 5, 0⟩, .plus)] d := by
  have hproper : withoutFourElsewhere.Proper [(⟨⟨7⟩, 4, 0⟩, .plus), (⟨⟨7⟩, 3, 0⟩, .plus)] :=
    ⟨⟨by decide, by decide⟩, by decide⟩
  have hreduced : withoutFourElsewhere.Reduced ⟨⟨7⟩, 3, 0⟩ := by decide
  obtain ⟨-, habsorption⟩ := absorb_keeps_the_sum wellFormed_withoutFourElsewhere hproper hreduced
    (show Sign.plus ≠ .zero by decide)
  have hterms : (withoutFourElsewhere.absorb [(⟨⟨7⟩, 4, 0⟩, .plus), (⟨⟨7⟩, 3, 0⟩, .plus)] ⟨⟨7⟩, 3, 0⟩ .plus).1 =
      [(⟨⟨7⟩, 4, 0⟩, .plus), (⟨⟨7⟩, 5, 0⟩, .plus)] := by cbv
  rw [hterms] at habsorption
  exact ⟨wellFormed_withoutFourElsewhere, hreduced, hproper, _, habsorption⟩

end PowerTower.Circuit
