import Mathlib
import PowerTower.Proofs.Disorder

/-!
# Doubles under construction

A double is put together on a stack of drafts. The draft on top takes its carry as far as there are doubles. Where the
next one is missing, that one is drafted on top, and what is finished is the carry of the draft below. The recursion of
`doubleWithin` makes the same doubles in the same circuits, and the stack shows how much of it is open at one time.

* `absorbKnown` : a carry as far as there are doubles;
* `Draft`, `Desk`, `Desk.step` : the stack, and one turn of the loop;
* `Desk.reaches_of_doubleWithin` : the loop ends with what the recursion answers;
* `Orderly`, `Orderly.step` : the drafts are of nodes on a walk down, each with what is left of its exponent;
* `carrying_terminates` : carries come to an end in whatever order the reduced nodes are, with no more drafts open at
  one time than there are nodes on the longest walk down;
* `SelfBlocked` : a double that waits for itself, as one can where a free place has a live node, so that the carry never
  ends and the stack grows without a bound.
-/

namespace PowerTower.Circuit

open Guards

variable {c d : Circuit} {m n next target : Node} {ts us : List Term} {s : Sign} {desk : Desk} {drafts : List Draft}

/-! ## As far as there are doubles -/

/-- Adds `sign · node` to a term list, as far as the doubles that it is carried to are there. What is left is the carry
to a double that is missing, by the node whose double it is. -/
def absorbKnown (terms : List Term) (node : Node) (sign : Sign) (c : Circuit) : List Term × Option Term :=
  match _ : Terms.digit? node terms with
  | none => (terms ++ [(node, sign)], none)
  | some old =>
    let (sum, carry) := old.addWithCarry sign
    if carry = .zero then
      (if sum = .zero then Terms.erase node terms else Terms.set node sum terms, none)
    else
      match c.knownDouble? node with
      | some next => absorbKnown (Terms.erase node terms) next carry c
      | none => (Terms.erase node terms, some (node, carry))
termination_by terms.length
decreasing_by exact Terms.length_erase_lt (by assumption)

/-- What is known of a carry to a double that is missing: it took an entry out of the list, and the double is that of a
node that the list mentioned. -/
structure Blocked (c : Circuit) (ts us : List Term) (blocked : Term) : Prop where
  sublist : us.Sublist ts
  shorter : us.length < ts.length
  mentioned : blocked.1 ∈ Terms.nodes ts
  missing : c.knownDouble? blocked.1 = none

/-- By induction on the carries that are taken. -/
theorem blocked_of_absorbKnown {blocked : Term} (h : absorbKnown ts n s c = (us, some blocked)) :
    Blocked c ts us blocked := by
  fun_induction absorbKnown ts n s c with
  | case1 => cases h
  | case2 => cases h
  | case3 ts n s old hd sum carry hadd hcarry next hknown ih =>
    have hrest := ih h
    exact ⟨hrest.sublist.trans (Terms.erase_sublist n ts), hrest.shorter.trans (Terms.length_erase_lt hd),
      ((Terms.erase_sublist n ts).map _).subset hrest.mentioned, hrest.missing⟩
  | case4 ts n s old hd sum carry hadd hcarry hmissing =>
    obtain ⟨rfl, hblocked⟩ := Prod.mk.inj h
    obtain rfl := Option.some.inj hblocked
    exact ⟨Terms.erase_sublist n ts, Terms.length_erase_lt hd,
      Terms.mem_nodes.2 ⟨old, Terms.mem_of_digit?_eq_some hd⟩, hmissing⟩

/-- A chain of carries goes as far as there are doubles, and then on from the double that is missing. -/
theorem absorbWith_eq_absorbKnown {double : Node → Circuit → Option (Node × Circuit)}
    (hdouble : ∀ n next, c.knownDouble? n = some next → double n c = some (next, c)) :
    absorbWith double ts n s c = match absorbKnown ts n s c with
      | (us, none) => some (us, c)
      | (us, some blocked) => (double blocked.1 c).bind fun r => absorbWith double us r.1 blocked.2 r.2 := by
  fun_induction absorbKnown ts n s c with
  | case1 ts n s hd => exact absorbWith_of_none hd
  | case2 ts n s old hd sum hadd =>
    have hcarry : (old.addWithCarry s).2 = .zero := by rw [hadd]
    rw [absorbWith_of_settled hd hcarry, hadd]
  | case3 ts n s old hd sum carry hadd hcarry next hknown ih =>
    have hne : (old.addWithCarry s).2 ≠ .zero := by rwa [hadd]
    rw [absorbWith_of_carry hd hne, hdouble n next hknown, Option.bind_some, hadd]
    exact ih
  | case4 ts n s old hd sum carry hadd hcarry hmissing =>
    have hne : (old.addWithCarry s).2 ≠ .zero := by rwa [hadd]
    rw [absorbWith_of_carry hd hne, hadd]

/-! ## The stack -/

/-- A double under construction: the node to be doubled, what there is of the exponent, and what is still to be added to
it. -/
structure Draft where
  target : Node
  exponent : List Term
  carry : Term

/-- The doubles under construction, the innermost first, and the node that was finished last. -/
structure Desk where
  drafts : List Draft
  finished : Node
  circuit : Circuit

/-- Begins the double of a node, whose exponent is one more. -/
def draft (target : Node) (c : Circuit) : Draft × Circuit :=
  let (unit, c) := c.ensureUnit
  (⟨target, c.successors target, (unit, .plus)⟩, c)

/-- What is finished is what the draft below carries to. -/
def handOver (finished : Node) : List Draft → List Draft
  | [] => []
  | outer :: drafts => { outer with carry := (finished, outer.carry.2) } :: drafts

/-- One turn: the draft on top is finished, or it has to wait for another double. -/
def Desk.step (desk : Desk) : Option Desk :=
  match desk.drafts with
  | [] => none
  | top :: drafts =>
    match absorbKnown top.exponent top.carry.1 top.carry.2 desk.circuit with
    | (exponent, some blocked) =>
      let (inner, c) := desk.circuit.draft blocked.1
      some ⟨inner :: { top with exponent, carry := blocked } :: drafts, desk.finished, c⟩
    | (exponent, none) =>
      let (twin, c) := desk.circuit.finishDouble top.target exponent
      some ⟨handOver twin drafts, twin, c⟩

/-- One draft, unless the double is there. -/
def Desk.start (node : Node) (c : Circuit) : Desk :=
  match c.knownDouble? node with
  | some next => ⟨[], next, c⟩
  | none => ⟨[(c.draft node).1], node, (c.draft node).2⟩

/-- Some turns lead from one state to another. -/
def Desk.Reaches : Desk → Desk → Prop := Relation.ReflTransGen fun a b => a.step = some b

theorem Desk.step_of_blocked {blocked : Term} (h : absorbKnown ts n s c = (us, some blocked)) :
    Desk.step ⟨⟨target, ts, (n, s)⟩ :: drafts, m, c⟩ =
      some ⟨(c.draft blocked.1).1 :: ⟨target, us, blocked⟩ :: drafts, m, (c.draft blocked.1).2⟩ := by
  simp only [step, h]

theorem Desk.step_of_done (h : absorbKnown ts n s c = (us, none)) :
    Desk.step ⟨⟨target, ts, (n, s)⟩ :: drafts, m, c⟩ =
      some ⟨handOver (c.finishDouble target us).1 drafts, (c.finishDouble target us).1,
        (c.finishDouble target us).2⟩ := by
  simp only [step, h]

/-- A draft is finished with what the chain of carries makes of its exponent. By induction on the number of terms, where
the doubles that are missing are finished before it goes on. -/
theorem Desk.reaches_of_absorbWith {double : Node → Circuit → Option (Node × Circuit)}
    (hknown : ∀ c n next, c.knownDouble? n = some next → double n c = some (next, c))
    (hmissing : ∀ c n q, c.knownDouble? n = none → double n c = some q → ∀ drafts m,
      Reaches ⟨(c.draft n).1 :: drafts, m, (c.draft n).2⟩ ⟨handOver q.1 drafts, q.1, q.2⟩)
    {q : List Term × Circuit} (h : absorbWith double ts n s c = some q) :
    Reaches ⟨⟨target, ts, (n, s)⟩ :: drafts, m, c⟩ ⟨handOver (q.2.finishDouble target q.1).1 drafts,
      (q.2.finishDouble target q.1).1, (q.2.finishDouble target q.1).2⟩ := by
  induction hlen : ts.length using Nat.strong_induction_on generalizing ts n s c m with
  | _ l ih =>
    rw [absorbWith_eq_absorbKnown (hknown c)] at h
    rcases hstep : absorbKnown ts n s c with ⟨us, none | blocked⟩
    · rw [hstep] at h
      obtain rfl := Option.some.inj h
      exact .single (step_of_done hstep)
    · rw [hstep] at h
      obtain ⟨r, hr, hrest⟩ := Option.bind_eq_some_iff.1 h
      have hblocked := blocked_of_absorbKnown hstep
      refine .head (step_of_blocked hstep) ((hmissing c blocked.1 r hblocked.missing hr _ m).trans ?_)
      exact ih us.length (hlen ▸ hblocked.shorter) hrest rfl

/-- By induction on the room, which the stack does not have to count. -/
theorem Desk.reaches_of_doubleWithin {room : ℕ} {q : Node × Circuit} (hn : c.knownDouble? n = none)
    (h : doubleWithin room n c = some q) :
    Reaches ⟨(c.draft n).1 :: drafts, m, (c.draft n).2⟩ ⟨handOver q.1 drafts, q.1, q.2⟩ := by
  induction room generalizing c n q drafts m with
  | zero => simp [doubleWithin, hn] at h
  | succ room ih =>
    rw [doubleWithin_of_none hn] at h
    obtain ⟨r, hr, rfl⟩ := Option.map_eq_some_iff.1 h
    exact reaches_of_absorbWith (fun c n next hk => doubleWithin_of_some hk) (fun c n q hn hq drafts m => ih hn hq) hr

theorem Desk.reaches_of_double? {q : Node × Circuit} (h : c.double? n = some q) :
    Reaches (start n c) ⟨[], q.1, q.2⟩ := by
  unfold start
  split
  · next next hknown =>
    obtain rfl := Option.some.inj ((double?_of_some hknown).symm.trans h)
    exact .refl
  · next hmissing => exact reaches_of_doubleWithin hmissing h

/-- What a state comes to, every state on the way comes to. -/
theorem Desk.Reaches.onward {a b : Desk} (hb : Reaches a b) (hend : b.step = none) (hd : Reaches a desk) :
    Reaches desk b := by
  have hunique : Relator.RightUnique fun a b : Desk => a.step = some b := fun _ _ _ hb hc =>
    Option.some.inj (hb.symm.trans hc)
  rcases Relation.ReflTransGen.total_of_right_unique hunique hb hd with hbd | hdb
  · rcases hbd.cases_head with rfl | ⟨_, hstep, -⟩
    · exact .refl
    · rw [hend] at hstep
      cases hstep
  · exact hdb

/-! ## The walk that is under construction -/

/-- Each draft is of a live node and has what is left of its exponent, and the drafts are of the nodes on a walk down,
the first of them at the bottom of the stack. -/
structure Orderly (c : Circuit) (n : Node) (desk : Desk) : Prop where
  retains : Retains c desk.circuit
  live : ∀ draft ∈ desk.drafts, c.Live draft.target
  exponent : ∀ draft ∈ desk.drafts, draft.exponent.Sublist (c.successors draft.target)
  chain : (desk.drafts.map Draft.target).IsChain c.Below
  first : ∀ target ∈ (desk.drafts.map Draft.target).getLast?, target = n

theorem handOver_targets : (handOver m drafts).map Draft.target = drafts.map Draft.target := by cases drafts <;> rfl

theorem exists_of_mem_handOver {draft : Draft} (h : draft ∈ handOver m drafts) :
    ∃ old ∈ drafts, old.target = draft.target ∧ old.exponent = draft.exponent := by
  cases drafts with
  | nil => cases h
  | cons outer drafts =>
    rcases List.mem_cons.1 h with rfl | h
    · exact ⟨outer, List.mem_cons_self, rfl, rfl⟩
    · exact ⟨draft, List.mem_cons_of_mem _ h, rfl, rfl⟩

theorem Retains.draft (h : c.Disordered) (hr : Retains c d) (hn : c.Live n) :
    Retains c (d.draft n).2 ∧ (d.draft n).1.target = n ∧ (d.draft n).1.exponent = c.successors n :=
  have hunit := hr.trans stepwise_retains.ensureUnit
  ⟨hunit, rfl, hunit.successors h hn⟩

theorem orderly_start (h : c.Disordered) (hn : c.Live n) : Orderly c n (Desk.start n c) := by
  unfold Desk.start
  split
  · exact ⟨.refl c, by simp, by simp, .nil, by simp⟩
  · obtain ⟨hretains, htarget, hexponent⟩ := (Retains.refl c).draft h hn
    refine ⟨hretains, ?_, ?_, ?_, ?_⟩ <;> simp [htarget, hexponent, hn]

/-- A double that is missing is that of a direct successor, so that the walk is one longer. -/
theorem Orderly.step_of_blocked (h : c.Disordered) {blocked : Term}
    (ho : Orderly c n ⟨⟨target, ts, (next, s)⟩ :: drafts, m, d⟩) (hb : Blocked d ts us blocked) :
    Orderly c n ⟨(d.draft blocked.1).1 :: ⟨target, us, blocked⟩ :: drafts, m, (d.draft blocked.1).2⟩ := by
  have htarget : c.Live target := ho.live _ List.mem_cons_self
  have hts : ts.Sublist (c.successors target) := ho.exponent _ List.mem_cons_self
  have hbelow : c.Below blocked.1 target := (hts.map _).subset hb.mentioned
  have hlive := h.live_of_below target htarget _ hbelow
  obtain ⟨hretains, hinner, hexponent⟩ := ho.retains.draft h hlive
  refine ⟨hretains, ?_, ?_, ?_, ?_⟩
  · simp only [List.forall_mem_cons, hinner]
    exact ⟨hlive, htarget, fun draft hd => ho.live draft (List.mem_cons_of_mem _ hd)⟩
  · simp only [List.forall_mem_cons, hinner, hexponent]
    exact ⟨.refl _, hb.sublist.trans hts, fun draft hd => ho.exponent draft (List.mem_cons_of_mem _ hd)⟩
  · simp only [List.map_cons, hinner]
    exact .cons_cons hbelow ho.chain
  · simp only [List.map_cons, List.getLast?_cons_cons]
    exact ho.first

/-- What is finished leaves the walk. -/
theorem Orderly.step_of_done (ho : Orderly c n ⟨⟨target, ts, (next, s)⟩ :: drafts, m, d⟩) :
    Orderly c n ⟨handOver (d.finishDouble target us).1 drafts, (d.finishDouble target us).1,
      (d.finishDouble target us).2⟩ := by
  refine ⟨ho.retains.trans stepwise_retains.finishDouble, fun draft hd => ?_, fun draft hd => ?_, ?_, ?_⟩
  · obtain ⟨old, hold, htarget, -⟩ := exists_of_mem_handOver hd
    exact htarget ▸ ho.live old (List.mem_cons_of_mem _ hold)
  · obtain ⟨old, hold, htarget, hexponent⟩ := exists_of_mem_handOver hd
    exact htarget ▸ hexponent ▸ ho.exponent old (List.mem_cons_of_mem _ hold)
  · rw [handOver_targets]
    exact ho.chain.tail
  · rw [handOver_targets]
    cases drafts with
    | nil => simp
    | cons outer drafts =>
      have hfirst := ho.first
      simp only [List.map_cons, List.getLast?_cons_cons] at hfirst
      exact hfirst

theorem Orderly.step {desk' : Desk} (h : c.Disordered) (ho : Orderly c n desk) (hstep : desk.step = some desk') :
    Orderly c n desk' := by
  obtain ⟨drafts, m, d⟩ := desk
  cases drafts with
  | nil => cases hstep
  | cons top drafts =>
    obtain ⟨target, ts, next, s⟩ := top
    rcases habsorb : absorbKnown ts next s d with ⟨us, none | blocked⟩
    · obtain rfl := Option.some.inj ((Desk.step_of_done habsorb).symm.trans hstep)
      exact ho.step_of_done
    · obtain rfl := Option.some.inj ((Desk.step_of_blocked habsorb).symm.trans hstep)
      exact ho.step_of_blocked h (blocked_of_absorbKnown habsorb)

/-- By induction on the turns. -/
theorem orderly_of_reaches (h : c.Disordered) (hn : c.Live n) (hdesk : Desk.Reaches (Desk.start n c) desk) :
    Orderly c n desk := by
  induction hdesk with
  | refl => exact orderly_start h hn
  | tail _ hstep ih => exact ih.step h hstep

/-- The walk is no longer than the longest one. -/
theorem Orderly.length_le {walk : List Node} (ho : Orderly c n desk) (hwalk : c.LongestDescent n walk) :
    desk.drafts.length ≤ walk.length := by
  cases hlast : (desk.drafts.map Draft.target).getLast? with
  | none =>
    rw [List.map_eq_nil_iff.1 (List.getLast?_eq_none_iff.1 hlast)]
    exact Nat.zero_le _
  | some last =>
    have hdescent : c.Descent n (desk.drafts.map Draft.target).reverse :=
      ⟨by rw [List.head?_reverse, hlast, ho.first last hlast], List.isChain_reverse.2 ho.chain⟩
    calc desk.drafts.length = (desk.drafts.map Draft.target).reverse.length := by simp
      _ ≤ walk.length := hwalk.greatest _ hdescent

/-! ## An end to carries -/

/-- Carries come to an end in whatever order the reduced nodes are, and whatever their flags say: every node has a
double, and every node can be added to every term list. The stack that the double is made on comes to the same double in
the same circuit from wherever it is, and it never holds more drafts than there are nodes on the longest walk down from
the node. -/
theorem carrying_terminates (h : c.Disordered) :
    (∀ n, c.Live n → c.double? n = some (c.double n) ∧ ∃ walk, c.LongestDescent n walk ∧
      ∀ desk, Desk.Reaches (Desk.start n c) desk →
        Desk.Reaches desk ⟨[], (c.double n).1, (c.double n).2⟩ ∧ desk.drafts.length ≤ walk.length) ∧
    ∀ ts n s, (∀ m ∈ Terms.nodes ts, c.Live m) →
      absorbWith (fun n c => c.double? n) ts n s c = some (c.absorb ts n s) := by
  refine ⟨fun n hn => ?_, fun ts n s hts => h.absorbWith_eq hts⟩
  have hdouble := h.double?_eq hn
  obtain ⟨walk, hwalk⟩ := (h.within hn).exists_longestDescent
  exact ⟨hdouble, walk, hwalk, fun desk hdesk =>
    ⟨(Desk.reaches_of_double? hdouble).onward rfl hdesk, (orderly_of_reaches h hn hdesk).length_le hwalk⟩⟩

/-- The nodes of worth one, two, one half and eight, in this order. The flag of one half says that eight is
its double. -/
def scrambled : Circuit where
  id := ⟨0⟩
  slots := #[{ live := true, rank := some 0, doubles := true },
    { live := true, rank := some 1, successors := [(⟨⟨0⟩, 0, 0⟩, .plus)] },
    { live := true, rank := some 2, doubles := true, successors := [(⟨⟨0⟩, 0, 0⟩, .minus)] },
    { live := true, rank := some 3, successors := [(⟨⟨0⟩, 0, 0⟩, .plus), (⟨⟨0⟩, 1, 0⟩, .plus)] }]
  liveNodes := 4
  order := #[⟨⟨0⟩, 0, 0⟩, ⟨⟨0⟩, 1, 0⟩, ⟨⟨0⟩, 2, 0⟩, ⟨⟨0⟩, 3, 0⟩]

theorem disordered_scrambled : scrambled.Disordered where
  live_of_below := forall_live
    (show ∀ i < 4, ∀ m ∈ scrambled.successorNodes (scrambled.nodeAt i), scrambled.Live m by decide)
  acyclic := acyclic_of_height (fun i => i) (by decide)
  unused := by decide

/-- The double of eight waits for that of two. One half and one half are taken for eight, since the flag says so, and
with another eight this comes to the double of eight. -/
theorem carrying_on_scrambled : scrambled.Disordered ∧ scrambled.Live ⟨⟨0⟩, 3, 0⟩ ∧
    scrambled.double? ⟨⟨0⟩, 3, 0⟩ = some (scrambled.double ⟨⟨0⟩, 3, 0⟩) ∧
    (∃ walk desk, scrambled.LongestDescent ⟨⟨0⟩, 3, 0⟩ walk ∧ Desk.Reaches (Desk.start ⟨⟨0⟩, 3, 0⟩ scrambled) desk ∧
      desk.drafts.length = 2 ∧ desk.drafts.length ≤ walk.length) ∧
    (scrambled.absorb [(⟨⟨0⟩, 2, 0⟩, .plus), (⟨⟨0⟩, 3, 0⟩, .plus)] ⟨⟨0⟩, 2, 0⟩ .plus).1 = [(⟨⟨0⟩, 5, 0⟩, .plus)] ∧
    absorbWith (fun n c => c.double? n) [(⟨⟨0⟩, 2, 0⟩, .plus), (⟨⟨0⟩, 3, 0⟩, .plus)] ⟨⟨0⟩, 2, 0⟩ .plus scrambled =
      some (scrambled.absorb [(⟨⟨0⟩, 2, 0⟩, .plus), (⟨⟨0⟩, 3, 0⟩, .plus)] ⟨⟨0⟩, 2, 0⟩ .plus) := by
  obtain ⟨hdoubles, habsorbs⟩ := carrying_terminates disordered_scrambled
  have hlive : scrambled.Live ⟨⟨0⟩, 3, 0⟩ := by decide
  obtain ⟨hdouble, walk, hwalk, hdesks⟩ := hdoubles ⟨⟨0⟩, 3, 0⟩ hlive
  have hturn : (Desk.start ⟨⟨0⟩, 3, 0⟩ scrambled).step.map (fun desk => desk.drafts.length) = some 2 := by cbv
  obtain ⟨desk, hstep, htwo⟩ := Option.map_eq_some_iff.1 hturn
  have hdesk : Desk.Reaches (Desk.start ⟨⟨0⟩, 3, 0⟩ scrambled) desk := .single hstep
  exact ⟨disordered_scrambled, hlive, hdouble, ⟨walk, desk, hwalk, hdesk, htwo, (hdesks desk hdesk).2⟩, by cbv,
    habsorbs _ _ _ (by decide)⟩

/-! ## A double that waits for itself -/

/-- The carry into the exponent of the node comes to the double of this same node, and on the way nothing is made that
could end the wait. -/
structure SelfBlocked (c : Circuit) (n : Node) : Prop where
  unit : c.ensureUnit.2 = c
  blocked : ∃ us s, absorbKnown (c.successors n) c.ensureUnit.1 .plus c = (us, some (n, s))

theorem SelfBlocked.missing (h : c.SelfBlocked n) : c.knownDouble? n = none := by
  obtain ⟨us, s, hblocked⟩ := h.blocked
  exact (blocked_of_absorbKnown hblocked).missing

/-- No room is enough, since each draft of the node leaves one less for the next. -/
theorem SelfBlocked.doubleWithin_eq_none (h : c.SelfBlocked n) (room : ℕ) : doubleWithin room n c = none := by
  obtain ⟨us, s, hblocked⟩ := h.blocked
  induction room with
  | zero => simp [doubleWithin, h.missing]
  | succ room ih =>
    rw [doubleWithin_of_none h.missing, h.unit, absorbWith_eq_absorbKnown fun _ _ hm => doubleWithin_of_some hm,
      hblocked]
    simp only [ih, Option.bind_none, Option.map_none]

/-- Each turn puts the same draft on top once more. -/
theorem SelfBlocked.exists_reaches (h : c.SelfBlocked n) (k : ℕ) :
    ∃ drafts, Desk.Reaches (Desk.start n c) ⟨(c.draft n).1 :: drafts, n, c⟩ ∧ drafts.length = k := by
  obtain ⟨us, s, hblocked⟩ := h.blocked
  have hdraft : (c.draft n).2 = c := h.unit
  have hfirst : (c.draft n).1 = ⟨n, c.successors n, (c.ensureUnit.1, .plus)⟩ := by
    show Draft.mk n (c.ensureUnit.2.successors n) (c.ensureUnit.1, .plus) = _
    rw [h.unit]
  induction k with
  | zero =>
    refine ⟨[], ?_, rfl⟩
    unfold Desk.start
    rw [h.missing, hdraft]
    exact .refl
  | succ k ih =>
    obtain ⟨drafts, hreach, hlength⟩ := ih
    have hstep : Desk.step ⟨⟨n, c.successors n, (c.ensureUnit.1, .plus)⟩ :: drafts, n, c⟩ =
        some ⟨(c.draft n).1 :: ⟨n, us, (n, s)⟩ :: drafts, n, (c.draft n).2⟩ := Desk.step_of_blocked hblocked
    rw [← hfirst, hdraft] at hstep
    exact ⟨⟨n, us, (n, s)⟩ :: drafts, hreach.tail hstep, by rw [List.length_cons, hlength]⟩

/-- The nodes of worth one, two and four, in this order, and two nodes that are not reduced, of worth sixteen and four.
The place of two was freed twice. It was handed out once since then, and it still stands on the free list. -/
def freedTwice : Circuit where
  id := ⟨0⟩
  slots := #[{ generation := 2, live := true, rank := some 1, doubles := true, successors := [(⟨⟨0⟩, 2, 1⟩, .plus)] },
    { generation := 2, live := true, successors := [(⟨⟨0⟩, 4, 1⟩, .plus)] },
    { generation := 1, live := true, rank := some 0, doubles := true },
    { generation := 1, live := true, successors := [(⟨⟨0⟩, 0, 2⟩, .plus)] },
    { generation := 1, live := true, rank := some 2, successors := [(⟨⟨0⟩, 0, 2⟩, .plus)] }]
  free := [0]
  liveNodes := 4
  order := #[⟨⟨0⟩, 2, 1⟩, ⟨⟨0⟩, 0, 2⟩, ⟨⟨0⟩, 4, 1⟩]

theorem linked_freedTwice : freedTwice.Linked := by
  have hslots : (List.range freedTwice.slots.size).forM freedTwice.checkSlot = .ok () := by cbv
  have hacyclic : freedTwice.cycle? = none := cycle?_of_height hslots (fun i => #[1, 3, 0, 2, 2].getD i 0) (by decide)
  rw [← checkStructure_eq_ok_iff]
  simp only [checkStructure, unit_bind_eq_ok, checkAcyclic_eq_ok_iff]
  exact ⟨hslots, by cbv, by cbv, by cbv, hacyclic⟩

/-- What is left after the double of four. It came to the place of two, and so it has the name of two, stands in the
order twice, and its exponent mentions it. -/
def overwritten : Circuit where
  id := ⟨0⟩
  slots := #[
    { generation := 2, live := true, rank := some 3,
      successors := [(⟨⟨0⟩, 0, 2⟩, .plus), (⟨⟨0⟩, 2, 1⟩, .plus)] },
    { generation := 2, live := true, successors := [(⟨⟨0⟩, 4, 1⟩, .plus)] },
    { generation := 1, live := true, rank := some 0, doubles := true },
    { generation := 1, live := true, successors := [(⟨⟨0⟩, 0, 2⟩, .plus)] },
    { generation := 1, live := true, rank := some 2, doubles := true, successors := [(⟨⟨0⟩, 0, 2⟩, .plus)] }]
  liveNodes := 5
  order := #[⟨⟨0⟩, 2, 1⟩, ⟨⟨0⟩, 0, 2⟩, ⟨⟨0⟩, 4, 1⟩, ⟨⟨0⟩, 0, 2⟩]

theorem doubleWithin_freedTwice : doubleWithin 1 ⟨⟨0⟩, 4, 1⟩ freedTwice = some (⟨⟨0⟩, 0, 2⟩, overwritten) := by cbv

theorem double?_freedTwice : freedTwice.double? ⟨⟨0⟩, 4, 1⟩ = some (⟨⟨0⟩, 0, 2⟩, overwritten) :=
  double?_of_doubleWithin (show 1 ≤ 5 by decide) doubleWithin_freedTwice

theorem selfBlocked_overwritten : overwritten.SelfBlocked ⟨⟨0⟩, 0, 2⟩ where
  unit := by cbv
  blocked := ⟨[], .plus, by cbv⟩

/-- Four and two and another four: the carry goes to the double of four, and from there to its own double. -/
theorem absorbWith_freedTwice {double : Node → Circuit → Option (Node × Circuit)}
    (hfour : ∀ q, double ⟨⟨0⟩, 4, 1⟩ freedTwice = some q → q = (⟨⟨0⟩, 0, 2⟩, overwritten))
    (htwo : double ⟨⟨0⟩, 0, 2⟩ overwritten = none) :
    absorbWith double [(⟨⟨0⟩, 4, 1⟩, .plus), (⟨⟨0⟩, 0, 2⟩, .plus)] ⟨⟨0⟩, 4, 1⟩ .plus freedTwice = none := by
  have hfirst : Terms.digit? ⟨⟨0⟩, 4, 1⟩ [(⟨⟨0⟩, 4, 1⟩, .plus), (⟨⟨0⟩, 0, 2⟩, .plus)] = some .plus := by decide
  have hsecond : Terms.digit? ⟨⟨0⟩, 0, 2⟩ [(⟨⟨0⟩, 0, 2⟩, .plus)] = some .plus := by decide
  rw [absorbWith_of_carry hfirst (by decide)]
  refine Option.bind_eq_none_iff.2 fun q hq => ?_
  obtain rfl := hfour q hq
  show absorbWith double [(⟨⟨0⟩, 0, 2⟩, .plus)] ⟨⟨0⟩, 0, 2⟩ .plus overwritten = none
  rw [absorbWith_of_carry hsecond (by decide), htwo, Option.bind_none]

/-- What else is asked of the circuit is not enough where a free place has a node. The entries of exponents are live,
not zero and not repeated, no exponent leads back to its node, the order lists the nodes with a rank, and reduced nodes
mention reduced ones. But the carry to the double of four never ends, whatever room there is for doubles, and the stack
has more and more drafts of one node. -/
theorem carrying_on_a_place_freed_twice :
    freedTwice.Linked ∧ freedTwice.Reduced ⟨⟨0⟩, 4, 1⟩ ∧
    freedTwice.Proper [(⟨⟨0⟩, 4, 1⟩, .plus), (⟨⟨0⟩, 0, 2⟩, .plus)] ∧
    absorbWith (fun n c => c.double? n) [(⟨⟨0⟩, 4, 1⟩, .plus), (⟨⟨0⟩, 0, 2⟩, .plus)]
      ⟨⟨0⟩, 4, 1⟩ .plus freedTwice = none ∧
    (∀ room, absorbWith (doubleWithin room) [(⟨⟨0⟩, 4, 1⟩, .plus), (⟨⟨0⟩, 0, 2⟩, .plus)]
      ⟨⟨0⟩, 4, 1⟩ .plus freedTwice = none) ∧
    ∀ k, ∃ desk, Desk.Reaches (Desk.start ⟨⟨0⟩, 0, 2⟩ (freedTwice.double ⟨⟨0⟩, 4, 1⟩).2) desk ∧
      k < desk.drafts.length := by
  refine ⟨linked_freedTwice, by decide, ⟨⟨by decide, by decide⟩, by decide⟩, ?_, fun room => ?_, fun k => ?_⟩
  · exact absorbWith_freedTwice (fun q hq => Option.some.inj (hq.symm.trans double?_freedTwice))
      (selfBlocked_overwritten.doubleWithin_eq_none _)
  · exact absorbWith_freedTwice (fun q hq => doubleWithin_unique hq doubleWithin_freedTwice)
      (selfBlocked_overwritten.doubleWithin_eq_none room)
  · rw [double, double?_freedTwice]
    obtain ⟨drafts, hreach, hlength⟩ := selfBlocked_overwritten.exists_reaches k
    exact ⟨_, hreach, by simp [hlength]⟩

end PowerTower.Circuit
