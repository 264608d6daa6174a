import Mathlib
import PowerTower.Samples
import PowerTower.Proofs.Creating
import PowerTower.Proofs.Evaluation
import PowerTower.Proofs.Restoring
import PowerTower.Proofs.Undisturbed

/-!
# Towers

A storey is put on a marking by connecting a clone of one to it and reducing the clone. That is a marking of one leaf,
which becomes a marking of the reduced node of that worth.

* `Created.exists_unit`, `Raised`, `Cloned.raised` : the clone of one, and what it is connected to;
* `Tower`, `WellFormed.tower` : the outcome, with the nodes that come in;
* `Storey`, `Storey.compare_eq` : a marking on another one, and that storeys are compared like what they stand on;
* `towers_order_like_their_exponents` : so are two towers, whatever was called in between.
-/

namespace PowerTower.Circuit

open Guards

variable {c d e f : Circuit} {k m one p t u : Marking} {n w x : Node} {ts : List Term}

/-! ## The unit -/

theorem Consistent.unit?_of_worth_eq_one (hc : c.Consistent) (hn : c.Reduced n) (hw : c.worth n = 1) :
    c.unit? = some n ∧ c.successors n = [] := by
  obtain ⟨r, hr⟩ := hc.exists_getElem? hn
  have hsize : 0 < c.order.size := (Nat.zero_le r).trans_lt (Array.getElem?_eq_some_iff.1 hr).1
  have hfirst := Array.getElem?_eq_getElem hsize
  have hnil := hc.successors_first hc.toLinked hfirst
  have heq : c.order[0] = n := hc.eq_of_worth_eq hc.toLinked (hc.reduced_of_getElem? hfirst) hn
    ((hc.worth_first hc.toLinked hfirst).trans hw.symm)
  rw [heq] at hfirst hnil
  exact ⟨by rw [unit?_eq, hfirst, Option.filter_some, hnil]; rfl, hnil⟩

theorem Consistent.unit?_ne_none (hc : c.Consistent) (hn : c.Reduced n) : c.unit? ≠ none := by
  intro hnone
  obtain ⟨r, hr⟩ := hc.exists_getElem? hn
  have hlt := (Array.getElem?_eq_some_iff.1 hr).1
  rw [hc.size_eq_zero_of_unit?_eq_none hnone] at hlt
  exact absurd hlt (Nat.not_lt_zero r)

/-- The marking of one mentions the unit, and nothing but the unit comes in with it. -/
theorem Created.exists_unit (h : Created c 1 one d) :
    ∃ x, d.termsOf one = [(x, .plus)] ∧ d.Reduced x ∧ d.successors x = [] := by
  have hbits : (1 : ℤ).natAbs.bitIndices = [0] := by simp
  have hentries := h.entries
  rw [hbits] at hentries
  obtain ⟨⟨x, s⟩, us, hx, hnil, hterms⟩ := List.forall₂_cons_left_iff.1 hentries
  obtain rfl := List.forall₂_nil_left_iff.1 hnil
  obtain rfl : s = .plus := hx.sign
  exact ⟨x, hterms, hx.reduced, (h.wellFormed.unit?_of_worth_eq_one hx.reduced (hx.worth.trans (pow_zero 2))).2⟩

theorem Created.unit_of_new (h : Created c 1 one d) (hc : c.WellFormed) (hn : d.Live n) (hnew : ¬ c.Live n) :
    d.Reduced n ∧ d.worth n = 1 ∧ c.unit? = none := by
  obtain ⟨hr, i, hi, hworth, hmissing⟩ := (h.new n).1 ⟨hn, hnew⟩
  have hi : i = 0 := by
    by_contra hne
    exact absurd hi (not_le.2 (Nat.one_lt_two_pow hne))
  subst hi
  refine ⟨hr, hworth.trans (pow_zero 2), ?_⟩
  by_contra hsome
  obtain ⟨x, hx⟩ := Option.ne_none_iff_exists'.1 hsome
  have hfirst := order_of_unit? hx
  exact hmissing x (hc.reduced_of_getElem? hfirst) ((hc.worth_first hc.toLinked hfirst).trans (pow_zero 2).symm)

/-! ## The clone of one -/

/-- `k` is a new marking of one leaf, whose exponent is worth what `p` is worth. -/
structure Raised (c : Circuit) (p k : Marking) (w : Node) (d : Circuit) : Prop extends WellFormed d where
  untouched : c.Untouched d
  cells : ∀ j, j ≠ k.id → d.cellAt j = c.cellAt j
  own : k.circuit = c.id
  held : 0 < (d.cellAt k.id).handles
  new : ¬ 0 < (c.cellAt k.id).handles
  terms : d.termsOf k = [(w, .plus)]
  fresh : ¬ c.Live w
  pending : d.Pending w
  live : ∀ n, d.Live n → c.Live n ∨ n = w
  below : ∀ b, d.Below b w → c.Reduced b
  exponent : d.termsWorth (d.successors w) = c.termsWorth (c.termsOf p)

/-- A clone of one is connected to a reduced marking. -/
theorem Cloned.raised (h : Cloned c one k d) (hc : c.WellFormed) (hd : Intact c k.id d)
    (hone : c.termsOf one = [(x, .plus)]) (hx : c.Reduced x) (hnil : c.successors x = []) (hp : c.Solid p) :
    ∃ w e, (connect k p).run d = (.ok (), e) ∧ Raised c p k w e := by
  have hproper : c.Proper (c.termsOf p) := hc.markings p.id hp.held
  have htwins := h.twin
  rw [hone] at htwins
  obtain ⟨⟨w, s⟩, us, htwin, hrest, hterms⟩ := List.forall₂_cons_left_iff.1 htwins
  obtain rfl := List.forall₂_nil_left_iff.1 hrest
  obtain rfl : s = .plus := htwin.digit
  have hnodes : d.nodesOf k = [w] := congrArg Terms.nodes hterms
  have hw : ∀ {n}, n ∈ d.nodesOf k ↔ n = w := by simp [hnodes]
  have hempty : d.successors w = [] := htwin.successors.trans hnil
  obtain ⟨e, hrun, he, hj⟩ := h.wellFormed.attach_joined (fun n hn => h.pending hn) h.proper.nodup
    (h.untouched.proper hproper) (h.not_closes hc.toLinked hproper.live) fun n hn u _ hin => by
      rw [hw.1 hn, hempty] at hin
      cases hin
  have hu := h.joined_untouched hj
  have hcells := cellAt_of_cells_eq hj.cells
  have hconnect : (connect k p).run d = (Circuit.attach (d.nodesOf k) (c.termsOf p)).run d := by
    rw [← h.untouched.termsOf_eq hp.held]
    exact Scale.run_connect (s := .multiply) (h.own.trans h.untouched.id.symm) (hp.own.trans h.untouched.id.symm)
  refine ⟨w, e, hconnect.trans hrun, he, hu, fun j hj => (hcells j).trans (hd.cells j hj), h.own,
    by rw [hcells]; exact h.held,
    h.new, by rw [termsOf, hcells]; exact hterms, htwin.new, (hj.pending w).2 htwin.pending, fun n hn => ?_,
      fun b hb => ?_, ?_⟩
  · exact (h.live n ((hj.live n).1 hn)).imp_right hw.1
  · rcases hj.below w (hw.2 rfl) b hb with hb | hb
    · rw [Below, successorNodes, hempty] at hb
      cases hb
    · exact hp.reduced b hb
  · rw [htwin.joined_exponent hc.toLinked hu hj hx.1 (hw.2 rfl) hproper.live, hnil, termsWorth, Terms.sum_nil, zero_add]

theorem Raised.worth (h : Raised c p k w d) : d.worth w = 2 ^ c.termsWorth (c.termsOf p) := by
  rw [worth_eq (h.acc h.pending.1), h.exponent]

theorem Raised.legal_leaf (h : Raised c p k w d) (hv : 0 ≤ c.termsWorth (c.termsOf p)) : d.Legal w := by
  refine legal_of_one_le_worth (fun b hb => h.legal b (h.untouched.reduced (h.below b hb))) (h.acc h.pending.1) ?_
  rw [h.worth]
  exact Real.one_le_rpow one_le_two hv

theorem Raised.placed (h : Raised c p k w d) (hc : c.WellFormed) (hv : 0 ≤ c.termsWorth (c.termsOf p)) :
    ∃ e, (reduceMarkings [k]).run d = (.ok (), e) ∧ Placed d k.id w .plus e := by
  have hmem : w ∈ Terms.nodes (d.cellAt k.id).terms := by
    show w ∈ Terms.nodes (d.termsOf k)
    simp [h.terms]
  refine h.reduceMarkings_placed (h.own.trans h.untouched.id.symm) h.held h.terms h.pending
    (fun b hb => h.untouched.reduced (h.below b hb)) (h.legal_leaf hv)
    (hc.holds_iff_of_new h.fresh (fun q hq b hb => ?_) h.cells h.held hmem)
  rcases h.live q hq.1 with hlive | rfl
  · rw [Below, successorNodes, h.untouched.successors q hlive] at hb
    exact hc.live_of_below hlive hb
  · exact (h.below b hb).1

/-! ## The clone is reduced -/

theorem Raised.untouched_placed (h : Raised c p k w d) (hd : Placed d k.id w .plus e) : c.Untouched e := by
  have hne : ∀ {n}, c.Live n → n ≠ w := fun hn heq => h.fresh (heq ▸ hn)
  have hlive : ∀ {n}, c.Live n → e.Live n := fun hn =>
    (hd.live _).2 ⟨h.untouched.live _ hn, fun heq => absurd heq (hne hn)⟩
  refine ⟨hd.id.trans h.untouched.id, hd.config.trans h.untouched.config, fun n hn => hlive hn,
    fun n hn => ?_, fun n hn => ?_,
    fun i hi => ?_⟩
  · exact (hd.successors n (hlive hn)).trans (h.untouched.successors n hn)
  · rw [hd.pending, h.untouched.pending n hn]
    exact and_iff_left (hne hn)
  · exact (hd.cells i (ne_of_new h.new hi)).trans (h.untouched.cells i hi)

/-- All nodes that were not there before are the node of the marking. -/
theorem Raised.live_placed (h : Raised c p k w d) (hd : Placed d k.id w .plus e) (ht : e.Reduced n)
    (hworth : e.worth n = d.worth w) (hx : e.Live x) : c.Live x ∨ x = n := by
  refine (h.live x ((hd.live x).1 hx).1).imp_right fun hxw => ?_
  subst hxw
  have hreduced : e.Reduced x := reduced_iff.2 ⟨hx, fun hpending => ((hd.pending x).1 hpending).2 rfl⟩
  exact hd.eq_of_worth_eq hd.toLinked hreduced ht ((hd.worth_eq h.toLinked hx).trans hworth.symm)

/-- Where a reduced node of the worth is there already, no node comes in. -/
theorem Raised.live_placed_of_shared (h : Raised c p k w d) (hc : c.Linked) (hd : Placed d k.id w .plus e)
    (hn : c.Reduced n) (hworth : c.worth n = 2 ^ c.termsWorth (c.termsOf p)) (hx : e.Live x) : c.Live x := by
  obtain ⟨hlive, hnone⟩ := (hd.live x).1 hx
  refine (h.live x hlive).resolve_right fun heq => hnone heq n (h.untouched.reduced hn) ?_
  rw [h.untouched.worth_eq hc hn.1, hworth, h.worth]

/-! ## From one to the end -/

/-- The stages of a tower on `m`: the unit is there, the clone of one has its exponent, and it is reduced. -/
structure Stages (c : Circuit) (m one k : Marking) (w : Node) (b d e : Circuit) : Prop where
  created : Created c 1 one b
  solid : c.Solid m
  raised : Raised b m k w d
  placed : Placed d k.id w .plus e

section Stages

variable {b : Circuit}

theorem Stages.untouched (h : Stages c m one k w b d e) : c.Untouched e :=
  h.created.untouched.trans (h.raised.untouched_placed h.placed)

theorem Stages.pending_iff (h : Stages c m one k w b d e) (hc : c.WellFormed) : e.Pending n ↔ c.Pending n := by
  refine ⟨fun hn => ?_, fun hn => (h.untouched.pending n hn.1).2 hn⟩
  by_contra hnot
  obtain ⟨hd, hne⟩ := (h.placed.pending n).1 hn
  have hb : b.Pending n := (h.raised.untouched.pending n ((h.raised.live n hd.1).resolve_right hne)).1 hd
  by_cases hlive : c.Live n
  · exact hnot ((h.created.untouched.pending n hlive).1 hb)
  · exact hb.not_reduced (h.created.unit_of_new hc hb.1 hlive).1

/-- The node of the marking, and what comes in besides. -/
theorem Stages.entry (h : Stages c m one k w b d e) (hc : c.WellFormed) :
    ∃ n, e.termsOf k = [(n, .plus)] ∧ e.Reduced n ∧
    e.worth n = 2 ^ c.termsWorth (c.termsOf m) ∧
    ∀ x, e.Live x → c.Live x ∨ x = n ∨ c.unit? = none ∧ e.unit? = some x := by
  obtain ⟨n, hterms, hn, hworth⟩ := h.placed.entry
  refine ⟨n, hterms, hn, by rw [hworth, h.raised.worth, h.created.untouched.value_eq hc h.solid], fun x hx => ?_⟩
  have hbe := h.raised.untouched_placed h.placed
  by_cases hlive : c.Live x
  · exact .inl hlive
  · refine .inr ((h.raised.live_placed h.placed hn hworth hx).symm.imp_right fun hxb => ?_)
    obtain ⟨hr, hone, hnone⟩ := h.created.unit_of_new hc hxb hlive
    have hone' : e.worth x = 1 := (hbe.worth_eq h.created.wellFormed.toLinked hxb).trans hone
    exact ⟨hnone, (h.placed.unit?_of_worth_eq_one (hbe.reduced hr) hone').1⟩

theorem Stages.live_of_shared (h : Stages c m one k w b d e) (hc : c.WellFormed) (hn : c.Reduced n)
    (hworth : c.worth n = 2 ^ c.termsWorth (c.termsOf m)) (hx : e.Live x) : c.Live x := by
  have hnb : b.worth n = 2 ^ b.termsWorth (b.termsOf m) := by
    rw [h.created.untouched.worth_eq hc.toLinked hn.1, hworth, h.created.untouched.value_eq hc h.solid]
  have hxb := h.raised.live_placed_of_shared h.created.wellFormed.toLinked h.placed
    (h.created.untouched.reduced hn) hnb hx
  by_contra hlive
  exact hc.unit?_ne_none hn (h.created.unit_of_new hc hxb hlive).2.2

theorem Stages.ne (h : Stages c m one k w b d e) : k.id ≠ one.id := fun heq => h.raised.new (heq ▸ h.created.marks.live)

end Stages

/-! ## The outcome -/

/-- The outcome of putting a storey on `m`. -/
structure Tower (c : Circuit) (m t : Marking) (d : Circuit) : Prop extends WellFormed d where
  /-- All nodes and markings that were there before are left alone. -/
  untouched : c.Untouched d
  /-- All pending nodes were there before. -/
  pending : ∀ n, d.Pending n ↔ c.Pending n
  solid : d.Solid t
  new : ¬ 0 < (c.cellAt t.id).handles
  /-- The marking has one entry, and besides its node at most the unit has come in, if it was missing. -/
  entry : ∃ n, d.termsOf t = [(n, .plus)] ∧ d.worth n = 2 ^ c.termsWorth (c.termsOf m) ∧
    ∀ k, d.Live k → c.Live k ∨ k = n ∨ c.unit? = none ∧ d.unit? = some k
  /-- If a reduced node was worth as much, no node has come in. -/
  shared : (∃ n, c.Reduced n ∧ c.worth n = 2 ^ c.termsWorth (c.termsOf m)) → ∀ k, d.Live k → c.Live k
  few : d.liveIndices.length ≤ c.liveIndices.length + if c.unit? = none then 2 else 1
  /-- No call on the way takes anything out. -/
  undisturbed : c.Undisturbed d

/-- There are at most so many more nodes as new ones are listed. -/
theorem length_liveIndices_le (new : List Node) (h : ∀ n, d.Live n → c.Live n ∨ n ∈ new) :
    d.liveIndices.length ≤ c.liveIndices.length + new.length := by
  have hlength : ∀ b : Circuit, b.liveIndices.length = b.liveNodeList.length := fun b => (List.length_map _).symm
  rw [hlength, hlength, ← List.length_append]
  refine (nodup_liveNodeList.subperm fun n hn => ?_).length_le
  rw [List.mem_append, mem_liveNodeList]
  exact h n (mem_liveNodeList.1 hn)

theorem Undisturbed.after (h : c.Undisturbed d) (op : Operation) (hheld : ∀ m ∈ op.handles, d.Held m)
    (hgentle : op.Gentle d)
    (hrun : (op.run.run d).2 = e) : c.Undisturbed e := hrun ▸ .call h op hheld hgentle

/-- The calls that a tower consists of, one after the other. -/
theorem undisturbed_tower {b : Circuit} (hcreate : (createMarking 1).run c = (.ok one, b)) (hb : b.Solid one)
    (hclone : (cloneMarking one).run b = (.ok k, d)) (hk : 0 < (d.cellAt k.id).handles)
    (hp : 0 < (d.cellAt p.id).handles)
    (hconnect : (connect k p).run d = (.ok (), e)) (he : Raised b p k w e) (hlegal : e.Legal w)
    (hreduce : (reduceMarkings [k]).run e = (.ok (), f)) (hid : f.id = b.id) (hone : 0 < (f.cellAt one.id).handles) :
    c.Undisturbed (f.release one) := by
  have hcreated : c.Undisturbed b := Undisturbed.start.after (.createMarking 1) (by simp [Operation.handles]) trivial
    (by rw [Operation.run, run_silent, hcreate])
  have hcloned : c.Undisturbed d := hcreated.after (.cloneMarking one)
    (by simpa [Operation.handles, Held] using fun _ => hb.held)
    trivial (by rw [Operation.run, run_silent, hclone])
  have hconnected : c.Undisturbed e := hcloned.after (.connect k p) (by simp [Operation.handles, Held, hk, hp]) trivial
    (by rw [Operation.run, hconnect])
  have hreduced : c.Undisturbed f := by
    refine hconnected.after (.reduce (.markings [k])) ?_ (.inl ?_) (congrArg Prod.snd hreduce)
    · simpa [Operation.handles, ReduceCall.handles, Held] using fun _ => he.held
    · rintro n ⟨-, m, hm, r, hr, hreach⟩
      rw [List.mem_singleton.1 hm, nodesOf, he.terms, Terms.nodes_cons, Terms.nodes_nil, List.mem_singleton] at hr
      subst hr
      exact hlegal.of_reaches hreach
  refine hreduced.after (.release one) (by simpa [Operation.handles, Held] using fun _ => hone) trivial ?_
  show (if one.circuit = f.id then f.release one else f) = _
  rw [if_pos (hb.own.trans hid.symm)]

/-- At last the marking of one is returned. -/
theorem Stages.tower {b : Circuit} (h : Stages c m one k w b d e) (hc : c.WellFormed)
    (hundisturbed : c.Undisturbed (e.release one)) : Tower c m k (e.release one) := by
  have hcell : (e.release one).cellAt k.id = e.cellAt k.id := release_cellAt_of_ne h.ne
  have hnew : ¬ 0 < (c.cellAt one.id).handles := fun hpos =>
    absurd (lt_size_of_handles hpos) (not_lt.2 h.created.unused)
  obtain ⟨n, hterms, hn, hworth, hlive⟩ := h.entry hc
  have hterms' : (e.release one).termsOf k = [(n, .plus)] := by
    rw [termsOf, hcell]
    exact hterms
  refine ⟨h.placed.toWellFormed.release, h.untouched.release hnew, fun x => h.pending_iff hc,
    ⟨?_, ?_, ?_⟩, fun hk => ?_,
    ⟨n, hterms', hworth, hlive⟩, fun hshared y hy => ?_, ?_, hundisturbed⟩
  · exact h.raised.own.trans (h.raised.untouched_placed h.placed).id.symm
  · rw [hcell, h.placed.handles]
    exact h.raised.held
  · rw [nodesOf, hterms', Terms.nodes_cons, Terms.nodes_nil, List.forall_mem_singleton]
    exact hn
  · exact h.raised.new (by rw [h.created.untouched.cells k.id hk]; exact hk)
  · obtain ⟨x, hx, hworth'⟩ := hshared
    exact h.live_of_shared hc hx hworth' hy
  · split_ifs with hnone
    · refine (length_liveIndices_le (c := c) (n :: e.unit?.toList) fun x hx => ?_).trans ?_
      · exact (hlive x hx).imp_right fun hx => hx.elim (fun heq => by simp [heq]) fun hx => by simp [hx.2]
      · exact Nat.add_le_add_left (by cases e.unit? <;> simp) _
    · refine length_liveIndices_le [n] fun x hx => ?_
      exact (hlive x hx).imp_right fun hx => hx.elim (fun heq => by simp [heq]) fun hx => absurd hx.1 hnone

/-- A storey is put on every reduced marking that is not negative. -/
theorem WellFormed.tower (h : c.WellFormed) (hm : c.Solid m) (hv : 0 ≤ c.termsWorth (c.termsOf m)) :
    ∃ t d, (Samples.tower m).run c = (.ok t, d) ∧ Tower c m t d := by
  obtain ⟨one, b, hcreate, hb⟩ := h.created 1
  have hwf := hb.wellFormed
  have hsolid : b.Solid one := ⟨hb.marks.own, hb.marks.live, hb.marks.reduced⟩
  have hmb : b.Solid m := hb.untouched.solid hm
  obtain ⟨x, hone, hx, hnil⟩ := hb.exists_unit
  obtain ⟨k, d, hclone, hd⟩ := hwf.cloneMarking hsolid.own hsolid.held
  obtain ⟨w, e, hconnect, he⟩ := hd.raised hwf (hwf.cloneMarking_intact hsolid.own hsolid.held hclone) hone hx hnil hmb
  have hv' : 0 ≤ b.termsWorth (b.termsOf m) := by rwa [hb.untouched.value_eq h hm]
  obtain ⟨f, hreduce, hf⟩ := he.placed hwf hv'
  have hbody : (connect k m >>= fun _ => reduceMarkings [k]).run d = (.ok (), f) :=
    (Call.run_bind_ok hconnect).trans hreduce
  have hrun : (Samples.tower m).run c = (.ok k, f.release one) := by
    rw [Samples.tower, Call.run_bind_ok hcreate]
    exact Expr.run_holding ((Call.run_bind_ok hclone).trans (Expr.run_handingOut hbody))
  have hstages : Stages c m one k w b e f := ⟨hb, hm, he, hf⟩
  have hbf := he.untouched_placed hf
  refine ⟨k, f.release one, hrun, hstages.tower h (undisturbed_tower hcreate hsolid hclone hd.held ?_ hconnect he
    (he.legal_leaf hv') hreduce hbf.id ?_)⟩
  · exact (hd.untouched.solid hmb).held
  · exact (hbf.solid hsolid).held

/-! ## Two towers -/

theorem compare_rpow_two (x y : ℝ) : compare ((2 : ℝ) ^ x) (2 ^ y) = compare x y := by
  rw [← cmp_eq_compare, ← cmp_eq_compare]
  exact (Real.strictMono_rpow_of_base_gt_one one_lt_two).cmp_map_eq x y

/-- `t` has one node, which is worth two to the power of `m`. -/
structure Storey (c : Circuit) (m t : Marking) : Prop where
  base : c.Solid m
  top : c.Solid t
  entry : ∃ n, c.termsOf t = [(n, .plus)] ∧ c.worth n = 2 ^ c.termsWorth (c.termsOf m)

theorem Tower.storey (h : Tower c m t d) (hc : c.WellFormed) (hm : c.Solid m) : Storey d m t where
  base := h.untouched.solid hm
  top := h.solid
  entry := by
    obtain ⟨n, hterms, hworth, -⟩ := h.entry
    exact ⟨n, hterms, by rw [hworth, h.untouched.value_eq hc hm]⟩

/-- A storey stands as long as its two markings are held. -/
theorem Storey.frozen (h : Storey c m t) (hc : c.Grounded) (hd : Frozen c d) (hm : 0 < (d.cellAt m.id).handles)
    (ht : 0 < (d.cellAt t.id).handles) : Storey d m t where
  base := hd.solid h.base hm
  top := hd.solid h.top ht
  entry := by
    obtain ⟨n, hterms, hworth⟩ := h.entry
    have hn : c.Reduced n := h.top.reduced n (by simp [nodesOf, hterms])
    exact ⟨n, (hd.termsOf_eq h.top).trans hterms, by rw [hd.worth_eq hc hn, hworth, hd.termsOf_eq h.base,
      hd.termsWorth_eq hc h.base]⟩

theorem Storey.worth_eq (h : Storey c m t) : c.termsWorth (c.termsOf t) = 2 ^ c.termsWorth (c.termsOf m) := by
  obtain ⟨n, hterms, hworth⟩ := h.entry
  rw [hterms, termsWorth, Terms.sum_cons, Terms.sum_nil, hworth, Sign.toInt_plus, Int.cast_one, one_mul, add_zero]

/-- Powers of two are ordered like their exponents, and of each worth there is one reduced node. -/
theorem Storey.compare_eq (h : Storey c m t) (h' : Storey c p u) (hc : c.WellFormed) :
    c.compare t u = c.compare m p ∧ (c.compare m p = .ok .eq → c.termsOf t = c.termsOf u) := by
  rw [hc.compare_of_solid h.top h'.top, hc.compare_of_solid h.base h'.base, h.worth_eq, h'.worth_eq, compare_rpow_two]
  refine ⟨rfl, fun heq => ?_⟩
  obtain ⟨n, hterms, hworth⟩ := h.entry
  obtain ⟨k, hterms', hworth'⟩ := h'.entry
  have hn : c.Reduced n := h.top.reduced n (by simp [nodesOf, hterms])
  have hk : c.Reduced k := h'.top.reduced k (by simp [nodesOf, hterms'])
  rw [Except.ok.injEq, compare_eq_iff_eq] at heq
  rw [hterms, hterms', hc.eq_of_worth_eq hc.toLinked hn hk (by rw [hworth, hworth', heq])]

/-- A reduced marking of a natural number gets a storey: a reduced marking of one node, which is worth two to the power
of it. At most the unit, if it was missing, and that node come in, and the node only if there was none of its worth; all
other nodes and markings are left alone. Two such towers are compared like the markings they stand on, as long as these
are held and nothing is removed, and towers on equal markings are on the same node. -/
theorem towers_order_like_their_exponents :
    (∀ c m, c.WellFormed → c.Solid m → 0 ≤ c.termsWorth (c.termsOf m) →
      ∃ t d, (Samples.tower m).run c = (.ok t, d) ∧ Tower c m t d) ∧
    ∀ c m t d, c.WellFormed → c.Solid m → 0 ≤ c.termsWorth (c.termsOf m) → (Samples.tower m).run c = (.ok t, d) →
      ∀ e, d.Undisturbed e → e.WellFormed → 0 < (e.cellAt m.id).handles → 0 < (e.cellAt t.id).handles →
      ∀ p u f, e.Solid p → 0 ≤ e.termsWorth (e.termsOf p) → (Samples.tower p).run e = (.ok u, f) →
      ∀ g, f.Undisturbed g →
        g.compare m p = .ok (compare (e.termsWorth (e.termsOf m)) (e.termsWorth (e.termsOf p))) ∧
        g.compare t u = g.compare m p ∧ (g.compare m p = .ok .eq → g.termsOf t = g.termsOf u) := by
  have htower : ∀ {c m t d}, c.WellFormed → c.Solid m → 0 ≤ c.termsWorth (c.termsOf m) →
      (Samples.tower m).run c = (.ok t, d) → Tower c m t d := fun hc hm hv hrun => by
    obtain ⟨t', d', hrun', htower⟩ := hc.tower hm hv
    obtain ⟨ht, rfl⟩ := Prod.mk.inj (hrun'.symm.trans hrun)
    exact Except.ok.inj ht ▸ htower
  refine ⟨fun c m hc hm hv => hc.tower hm hv, fun c m t d hc hm hv hrun e he hwf hme hte p u f hp hvp hrun' g hg => ?_⟩
  have hd := htower hc hm hv hrun
  have hf := htower hwf hp hvp hrun'
  obtain ⟨-, hde, -⟩ := he.grounded_frozen hd.toWellFormed
  obtain ⟨-, hef, -⟩ := hf.undisturbed.grounded_frozen hwf
  obtain ⟨hgg, hfg, -⟩ := hg.grounded_frozen hf.toWellFormed
  have hstorey := (hd.storey hc hm).frozen hd.grounded hde hme hte
  have hfirst := hstorey.frozen hwf.grounded hef (hf.untouched.solid hstorey.base).held
    (hf.untouched.solid hstorey.top).held
  have hsecond := hf.storey hwf hp
  obtain ⟨heq, hsame⟩ := hfirst.compare_eq hsecond hf.toWellFormed
  have hbase := hfg.compare_eq hf.grounded hgg hfirst.base hsecond.base
  refine ⟨?_, ?_, fun hcompare => ?_⟩
  · rw [hfg.compare_worth hf.grounded hgg hfirst.base hsecond.base, hf.untouched.value_eq hwf hstorey.base,
      hf.untouched.value_eq hwf hp]
  · rw [hfg.compare_eq hf.grounded hgg hfirst.top hsecond.top, heq, hbase]
  · rw [hfg.termsOf_eq hfirst.top, hfg.termsOf_eq hsecond.top]
    exact hsame (hbase ▸ hcompare)

/-- Two to the seventh, on eight less one and on eight and one less two: it is one node. -/
theorem towers_on_seven : sevenTwice.WellFormed ∧ sevenTwice.Solid ⟨⟨0⟩, 0⟩ ∧ sevenTwice.Solid ⟨⟨0⟩, 1⟩ ∧
    0 ≤ sevenTwice.termsWorth (sevenTwice.termsOf ⟨⟨0⟩, 0⟩) ∧ ∃ t d u e,
      (Samples.tower ⟨⟨0⟩, 0⟩).run sevenTwice = (.ok t, d) ∧ (Samples.tower ⟨⟨0⟩, 1⟩).run d = (.ok u, e) ∧
      e.compare t u = .ok .eq ∧ e.termsOf t = e.termsOf u := by
  have hfirst : sevenTwice.Solid ⟨⟨0⟩, 0⟩ := ⟨rfl, by decide, by decide⟩
  have hsecond : sevenTwice.Solid ⟨⟨0⟩, 1⟩ := ⟨rfl, by decide, by decide⟩
  have hequal : sevenTwice.compare ⟨⟨0⟩, 0⟩ ⟨⟨0⟩, 1⟩ = .ok .eq := by cbv
  have hvalue : sevenTwice.termsWorth (sevenTwice.termsOf ⟨⟨0⟩, 0⟩) =
      sevenTwice.termsWorth (sevenTwice.termsOf ⟨⟨0⟩, 1⟩) := by
    rwa [wellFormed_sevenTwice.compare_of_solid hfirst hsecond, Except.ok.injEq, compare_eq_iff_eq] at hequal
  have hnonneg : 0 ≤ sevenTwice.termsWorth (sevenTwice.termsOf ⟨⟨0⟩, 0⟩) := by
    have hone : sevenTwice.worth ⟨⟨0⟩, 0, 0⟩ = 1 := worth_of_successors_eq_nil rfl
    have height : 1 ≤ sevenTwice.worth ⟨⟨0⟩, 2, 0⟩ := (wellFormed_sevenTwice.legal _ (by decide)).one_le_worth
    rw [show sevenTwice.termsOf ⟨⟨0⟩, 0⟩ = [(⟨⟨0⟩, 2, 0⟩, .plus), (⟨⟨0⟩, 0, 0⟩, .minus)] from rfl,
      termsWorth, Terms.sum_cons,
      Terms.sum_cons, Terms.sum_nil, hone]
    norm_num [Sign.toInt]
    exact height
  obtain ⟨hbuilt, hordered⟩ := towers_order_like_their_exponents
  obtain ⟨t, d, hrun, hd⟩ := hbuilt _ _ wellFormed_sevenTwice hfirst hnonneg
  have hfirst' := hd.untouched.solid hfirst
  have hsecond' := hd.untouched.solid hsecond
  have hvalue' := hd.untouched.value_eq wellFormed_sevenTwice hsecond
  obtain ⟨u, e, hrun', -⟩ := hbuilt _ _ hd.toWellFormed hsecond' (by rwa [hvalue', ← hvalue])
  obtain ⟨hcompare, hlike, hsame⟩ := hordered _ _ t d wellFormed_sevenTwice hfirst hnonneg hrun d .start hd.toWellFormed
    hfirst'.held hd.solid.held _ u e hsecond' (by rwa [hvalue', ← hvalue]) hrun' e .start
  have heq : e.compare ⟨⟨0⟩, 0⟩ ⟨⟨0⟩, 1⟩ = .ok .eq := by
    rw [hcompare, hvalue', hd.untouched.value_eq wellFormed_sevenTwice hfirst, hvalue, compare_eq_iff_eq.2 rfl]
  exact ⟨wellFormed_sevenTwice, hfirst, hsecond, hnonneg, t, d, u, e, hrun, hrun', hlike.trans heq, hsame heq⟩

end PowerTower.Circuit
