import Mathlib
import PowerTower.Proofs.MirroredCalls

/-!
# Conversations with mirrored circuits

A caller makes one request after another, each with handles that it has, and gets an answer or a refusal each time.

* `Operation.reply` : what a call of the interface answers, and `silent_reply` : this is the call;
* `Request` : calls and readings, `replies` : what a circuit answers to a list of them;
* `Answer.Matches`, `Matched`, `Accord` : answers under other names, and circuits that give them;
* `Mirror.reply`, `Mirror.replies` : a mirrored circuit gives the same answers under other names.
-/

namespace PowerTower

open Circuit

/-- What a request is answered with. -/
inductive Answer where
  | done
  | marking (m : Marking)
  | node (n : Node)
  | order (o : Ordering)
  | truth (b : Bool)
  | place (n : Option Node)
  | rank (k : Option ℕ)
  | terms (ts : List Term)
  | count (k : ℕ)
  | nodes (ns : List Node)
  | stats (s : Stats)
  | markings (ms : List Marking)
  | copy (c : Circuit) (ms : List Marking)
  | cell (k : Cell)
  | bytes (bs : List UInt8)

/-- The call, with what it answers put in the form of an answer. -/
def answering {α : Type} (f : α → Answer) (x : Call CircuitError α) : Call CircuitError Answer :=
  x >>= fun a => pure (f a)

theorem run_answering {α : Type} (f : α → Answer) (x : Call CircuitError α) (c : Circuit) :
    (answering f x).run c = ((x.run c).1.map f, (x.run c).2) := by
  rw [answering, Call.run_bind]
  rcases x.run c with ⟨e | a, d⟩ <;> rfl

namespace Circuit

/-- A call of the interface, with its answer. -/
def Operation.reply : Operation → Call CircuitError Answer
  | .createMarking v => answering .marking (Circuit.createMarking v)
  | .markNodes ns => answering .marking (Circuit.markNodes ns)
  | .markSigned ns ss => answering .marking (Circuit.markSigned ns ss)
  | .createNode m => answering .node (Circuit.createNode m)
  | .cloneNode n => answering .node (Circuit.cloneNode n)
  | .cloneMarking m => answering .marking (Circuit.cloneMarking m)
  | .copyMarking m => answering .marking (Circuit.copyMarking m)
  | .successorMarking n => answering .marking (Circuit.successorMarking n)
  | .invert m => answering .marking (Circuit.invert m)
  | .add a b => answering .marking (Circuit.add a b)
  | .intersect a b => answering .marking (Circuit.intersect a b)
  | .increment m => answering .marking (Circuit.increment m)
  | .compare a b => answering .order (Call.ask fun c => c.compare a b)
  | .equal a b => answering .truth (Call.ask fun c => c.equal a b)
  | .smallestNode m => answering .place (Call.ask fun c => c.smallestNode m)
  | .isReduced m => answering .truth (Call.ask fun c => c.isReduced m)
  | .orderOf n => answering .rank (Call.ask fun c => c.orderOf n)
  | .isNodeReduced n => answering .truth (Call.ask fun c => c.isNodeReduced n)
  | .successorTerms n => answering .terms (Call.ask fun c => c.successorTerms n)
  | .reducedNode rank => answering .place (Call.read fun c => c.reducedNode? rank)
  | .reducedLength => answering .count (Call.read fun c => c.reducedLength)
  | .nodes => answering .nodes (Call.read fun c => c.nodes)
  | .stats => answering .stats (Call.read fun c => c.stats)
  | .markings => answering .markings (Call.change fun c => (c.markings, c.retainAll c.markings))
  | .copy id keep => answering (fun p => .copy p.1 p.2) (Call.ask fun c => c.copy id keep)
  | op => answering (fun _ => .done) op.run

theorem silent_answering {α : Type} (f : α → Answer) (x : Call CircuitError α) (c : Circuit) :
    (silent (answering f x)).run c = (silent x).run c := by
  rw [run_silent, run_silent, run_answering]
  rcases x.run c with ⟨e | a, d⟩ <;> rfl

theorem silent_done (x : Call CircuitError Unit) (c : Circuit) :
    (silent (answering (fun _ => .done) x)).run c = x.run c := by
  rw [silent_answering, run_silent]
  rcases x.run c with ⟨e | ⟨⟩, d⟩ <;> rfl

/-- The answer apart, it is the same call. -/
theorem silent_reply (op : Operation) (c : Circuit) : (silent op.reply).run c = op.run.run c := by
  cases op with
  | reduce | connect | connectInverse | remove | check | retain | release => exact silent_done _ c
  | _ => exact silent_answering _ _ c

theorem Operation.reply_snd (op : Operation) (c : Circuit) : (op.reply.run c).2 = (op.run.run c).2 := by
  rw [← silent_reply, run_silent]

theorem Operation.reply_eq_error_iff (op : Operation) (c : Circuit) {e : CircuitError} :
    (op.reply.run c).1 = .error e ↔ (op.run.run c).1 = .error e := by
  rw [← silent_reply, run_silent]
  dsimp only
  cases (op.reply.run c).1 <;> simp [Except.map]

end Circuit

/-! ## Conversations -/

/-- A call of the interface, or a reading: of a marking's entries and the number of its handles, or of the digest. -/
inductive Request where
  | call (op : Operation)
  | marking (m : Marking)
  | digest

namespace Request

/-- What a request does, and what it is answered with. -/
def reply : Request → Call CircuitError Answer
  | call op => op.reply
  | marking m => answering .cell (Call.read fun c => c.cellAt m.id)
  | digest => answering .bytes (Call.ask fun c => c.digest)

/-- The caller has the handles that are passed; and a marking is read through a handle of this circuit. -/
def Held (c : Circuit) : Request → Prop
  | call op => ∀ m ∈ op.handles, c.Held m
  | marking m => m.circuit = c.id ∧ c.Held m
  | digest => True

/-- The caller has the handles each time. -/
def HeldAlong (c : Circuit) : List Request → Prop
  | [] => True
  | q :: qs => q.Held c ∧ HeldAlong (q.reply.run c).2 qs

end Request

/-- What some requests, one after the other, are answered with, and the circuit in the end. -/
def replies : List Request → Circuit → List (Except CircuitError Answer) × Circuit
  | [], c => ([], c)
  | q :: qs, c =>
    let (a, c) := q.reply.run c
    let (as, c) := replies qs c
    (a :: as, c)

theorem replies_cons (q : Request) (qs : List Request) (c : Circuit) : replies (q :: qs) c =
    ((q.reply.run c).1 :: (replies qs (q.reply.run c).2).1, (replies qs (q.reply.run c).2).2) := rfl

/-! ## Other names -/

namespace Circuit

/-- The call under other names. -/
def Operation.rename (r : Renaming) : Operation → Operation
  | .createMarking v => .createMarking v
  | .markNodes ns => .markNodes (ns.map r.node)
  | .markSigned ns ss => .markSigned (ns.map r.node) ss
  | .createNode m => .createNode (r.handle m)
  | .cloneNode n => .cloneNode (r.node n)
  | .cloneMarking m => .cloneMarking (r.handle m)
  | .copyMarking m => .copyMarking (r.handle m)
  | .successorMarking n => .successorMarking (r.node n)
  | .invert m => .invert (r.handle m)
  | .add a b => .add (r.handle a) (r.handle b)
  | .intersect a b => .intersect (r.handle a) (r.handle b)
  | .increment m => .increment (r.handle m)
  | .compare a b => .compare (r.handle a) (r.handle b)
  | .equal a b => .equal (r.handle a) (r.handle b)
  | .smallestNode m => .smallestNode (r.handle m)
  | .isReduced m => .isReduced (r.handle m)
  | .orderOf n => .orderOf (r.node n)
  | .isNodeReduced n => .isNodeReduced (r.node n)
  | .successorTerms n => .successorTerms (r.node n)
  | .reducedNode rank => .reducedNode rank
  | .reducedLength => .reducedLength
  | .nodes => .nodes
  | .stats => .stats
  | .markings => .markings
  | .reduce call => .reduce (call.rename r)
  | .connect m p => .connect (r.handle m) (r.handle p)
  | .connectInverse m p => .connectInverse (r.handle m) (r.handle p)
  | .remove m => .remove (r.handle m)
  | .copy id keep => .copy (r.circuit id) (keep.map r.handle)
  | .check => .check
  | .retain m => .retain (r.handle m)
  | .release m => .release (r.handle m)

/-- The circuit under other names, with all its markings. -/
def renamed (c : Circuit) (r : Renaming) : Circuit :=
  { c with
    id := r.circuit c.id
    config := r.config c.config
    slots := c.slots.map fun s => { s with successors := r.terms s.successors }
    order := c.order.map r.node
    cells := c.cells.map r.cell }

end Circuit

/-- The request under other names. -/
def Request.rename (r : Renaming) : Request → Request
  | .call op => .call (op.rename r)
  | .marking m => .marking (r.handle m)
  | .digest => .digest

/-- The answer under other names. The markings of a copy keep their numbers. -/
def Answer.rename (r : Renaming) : Answer → Answer
  | .marking m => .marking (r.handle m)
  | .node n => .node (r.node n)
  | .place n => .place (n.map r.node)
  | .terms ts => .terms (r.terms ts)
  | .nodes ns => .nodes (ns.map r.node)
  | .markings ms => .markings (ms.map r.handle)
  | .copy c ms => .copy (c.renamed r.plain) (ms.map r.plain.handle)
  | .cell k => .cell (r.cell k)
  | a => a

variable {r : Renaming} {S T : Set ℕ} {c d : Circuit} {E : CircuitError → Prop}

/-- The same answer under other names; in place of a copy, one that mirrors it. -/
def Answer.Matches (r : Renaming) (S : Set ℕ) : Answer → Answer → Prop
  | .copy c ms, b => ∃ T d, S ⊆ T ∧ Mirror r.plain T c d ∧ b = .copy d (ms.map r.plain.handle)
  | a, b => b = a.rename r

/-- The same answer or the same refusal under other names. -/
inductive Matched (r : Renaming) (S : Set ℕ) : Except CircuitError Answer → Except CircuitError Answer → Prop
  | answered {a b : Answer} (h : a.Matches r S b) : Matched r S (.ok a) (.ok b)
  | refused (e : CircuitError) : Matched r S (.error e) (.error (r.error e))

theorem Answer.Matches.mono {a b : Answer} (h : a.Matches r T b) (hST : S ⊆ T) : a.Matches r S b := by
  cases a with
  | copy c ms =>
    obtain ⟨U, d, hTU, hd⟩ := h
    exact ⟨U, d, hST.trans hTU, hd⟩
  | _ => exact h

theorem Matched.mono {x y : Except CircuitError Answer} (h : Matched r T x y) (hST : S ⊆ T) : Matched r S x y := by
  cases h with
  | answered h => exact .answered (h.mono hST)
  | refused e => exact .refused e

/-- The one circuit holds the same as the other under other names; it gives the same answers to some requests under
other names; and afterwards it holds the same still. -/
def Accord (r : Renaming) (qs : List Request) (c d : Circuit) : Prop :=
  ∃ S T, Mirror r S c d ∧ List.Forall₂ (Matched r S) (replies qs c).1 (replies (qs.map (Request.rename r)) d).1 ∧
    Mirror r T (replies qs c).2 (replies (qs.map (Request.rename r)) d).2

namespace Circuit

theorem Outcome.answering {α β : Type} {R : Set ℕ → α → β → Prop} {x : Call CircuitError α} {y : Call CircuitError β}
    {f : α → Answer} {g : β → Answer} (h : Outcome r.error E r S R (x.run c) (y.run d))
    (hR : ∀ T a b, S ⊆ T → R T a b → (f a).Matches r T (g b)) :
    Outcome r.error E r S (Answer.Matches r) ((answering f x).run c) ((answering g y).run d) :=
  h.bind fun T a b _ _ hST hm hab => .answered subset_rfl hm (hR T a b hST hab)

theorem Mirror.outcome_read {α β : Type} (hm : Mirror r S c d) (q : Circuit → α) (q' : Circuit → β) {f : α → Answer}
    {g : β → Answer} (h : (f (q c)).Matches r S (g (q' d))) :
    Outcome r.error E r S (Answer.Matches r) ((answering f (Call.read q)).run c) ((answering g (Call.read q')).run d) :=
  .answered subset_rfl hm h

theorem Mirror.reply_copy (hm : Mirror r S c d) (id : CircuitId) {keep : List Marking}
    (hheld : ∀ m ∈ keep, Numbered r c m) :
    Outcome r.error E r S (Answer.Matches r) ((Operation.copy id keep).reply.run c)
      ((Operation.copy (r.circuit id) (keep.map r.handle)).reply.run d) := by
  show Outcome r.error E r S (Answer.Matches r) ((PowerTower.answering _ (Call.ask fun c => c.copy id keep)).run c)
    ((PowerTower.answering _ (Call.ask fun d => d.copy (r.circuit id) (keep.map r.handle))).run d)
  rw [run_answering, run_answering, Call.run_ask, Call.run_ask]
  rcases hm.copy id hheld with ⟨e, he, he'⟩ | ⟨T, c', d', ks, hc, hd, hST, hmirror⟩
  · rw [he, he']
    exact .refused subset_rfl hm
  · rw [hc, hd]
    exact .answered subset_rfl hm ⟨T, d', hST, hmirror, rfl⟩

/-- A mirrored circuit answers alike, and mirrors the circuit afterwards. -/
theorem Mirror.reply (hm : Mirror r S c d) (hE : r.Lenient E) (op : Operation)
    (hheld : ∀ m ∈ op.handles, Numbered r c m)
    (hforgive : ∀ call, op = .reduce call → Forgiving r E (call.run.run c)) :
    Outcome r.error E r S (Answer.Matches r) (op.reply.run c) ((op.rename r).reply.run d) := by
  have hone : ∀ {m}, op.handles = [m] → Numbered r c m := fun h => hheld _ (by simp [h])
  have hfst : ∀ {m k}, op.handles = [m, k] → Numbered r c m := fun h => hheld _ (by simp [h])
  have hsnd : ∀ {m k}, op.handles = [m, k] → Numbered r c k := fun h => hheld _ (by simp [h])
  cases op with
  | createMarking v => exact (hm.createMarking v).answering fun _ _ _ _ h => congrArg Answer.marking h
  | markNodes ns => exact (hm.markNodes hE ns).answering fun _ _ _ _ h => congrArg Answer.marking h
  | markSigned ns ss => exact (hm.markSigned hE ns ss).answering fun _ _ _ _ h => congrArg Answer.marking h
  | createNode m => exact (hm.createNode (hone rfl)).answering fun _ _ _ _ h => congrArg Answer.node h.1
  | cloneNode n => exact (hm.cloneNode n).answering fun _ _ _ _ h => congrArg Answer.node h.1
  | cloneMarking m => exact (hm.cloneMarking (hone rfl)).answering fun _ _ _ _ h => congrArg Answer.marking h
  | copyMarking m => exact (hm.copyMarking (hone rfl)).answering fun _ _ _ _ h => congrArg Answer.marking h
  | successorMarking n => exact (hm.successorMarking n).answering fun _ _ _ _ h => congrArg Answer.marking h
  | invert m => exact (hm.invert (hone rfl)).answering fun _ _ _ _ h => congrArg Answer.marking h
  | add a b => exact (hm.add hE (hfst rfl) (hsnd rfl)).answering fun _ _ _ _ h => congrArg Answer.marking h
  | intersect a b => exact (hm.intersect (hfst rfl) (hsnd rfl)).answering fun _ _ _ _ h => congrArg Answer.marking h
  | increment m => exact (hm.increment (hone rfl)).answering fun _ _ _ _ h => congrArg Answer.marking h
  | compare a b =>
    exact (hm.outcome_ask (.inr (hm.compare (hfst rfl) (hsnd rfl)))).answering fun _ _ _ _ h => congrArg Answer.order h
  | equal a b =>
    exact (hm.outcome_ask (.inr (hm.equal (hfst rfl) (hsnd rfl)))).answering fun _ _ _ _ h => congrArg Answer.truth h
  | smallestNode m =>
    exact (hm.outcome_ask (.inr (hm.smallestNode (hone rfl)))).answering fun _ _ _ _ h => congrArg Answer.place h
  | isReduced m =>
    exact (hm.outcome_ask (.inr (hm.isReduced (hone rfl)))).answering fun _ _ _ _ h => congrArg Answer.truth h
  | orderOf n => exact (hm.outcome_ask (.inr (hm.orderOf n))).answering fun _ _ _ _ h => congrArg Answer.rank h
  | isNodeReduced n =>
    exact (hm.outcome_ask (.inr (hm.isNodeReduced n))).answering fun _ _ _ _ h => congrArg Answer.truth h
  | successorTerms n =>
    exact (hm.outcome_ask (.inr (hm.successorTerms n))).answering fun _ _ _ _ h => congrArg Answer.terms h
  | reducedNode rank => exact hm.outcome_read _ _ (congrArg Answer.place (hm.getElem? rank))
  | reducedLength => exact hm.outcome_read _ _ (congrArg Answer.count hm.order_size)
  | nodes => exact hm.outcome_read _ _ (congrArg Answer.nodes hm.nodes)
  | stats => exact hm.outcome_read _ _ (congrArg Answer.stats hm.stats)
  | markings => exact (Abreast.outcome hm.markings).answering fun _ _ _ _ h => congrArg Answer.markings h
  | reduce call => exact (hm.reduceCall call hheld (hforgive call rfl)).answering fun _ _ _ _ _ => rfl
  | connect m p => exact (hm.connect hE (hfst rfl) (hsnd rfl)).answering fun _ _ _ _ _ => rfl
  | connectInverse m p => exact (hm.connectInverse hE (hfst rfl) (hsnd rfl)).answering fun _ _ _ _ _ => rfl
  | remove m => exact (hm.remove (hone rfl)).answering fun _ _ _ _ _ => rfl
  | copy id keep => exact hm.reply_copy id hheld
  | check => exact (hm.outcome_ask (.inr hm.check)).answering fun _ _ _ _ _ => rfl
  | retain m => exact (hm.atHome (hone rfl) hm.retain).answering fun _ _ _ _ _ => rfl
  | release m => exact (hm.atHome (hone rfl) hm.release).answering fun _ _ _ _ _ => rfl

/-- A marking is read alike, and so is the digest. -/
theorem Mirror.replyTo (hm : Mirror r S c d) (hE : r.Lenient E) (q : Request) (hheld : q.Held c)
    (hforgive : ∀ call : ReduceCall, (∀ m ∈ call.handles, c.Held m) → Forgiving r E (call.run.run c)) :
    Outcome r.error E r S (Answer.Matches r) (q.reply.run c) ((q.rename r).reply.run d) := by
  cases q with
  | call op =>
    refine hm.reply hE op (fun m hmem => hm.numbered (hheld m hmem)) fun call hcall => ?_
    subst hcall
    exact hforgive call hheld
  | marking m => exact hm.outcome_read _ _ (congrArg Answer.cell (hm.cellAt (hm.numbered hheld.2 hheld.1)))
  | digest => exact (hm.outcome_ask (.inr hm.digest)).answering fun _ _ _ _ h => congrArg Answer.bytes h

/-- A conversation goes the same way with a mirrored circuit, as long as nothing excused comes up. By induction on the
requests; the invariant is for what the circuit may find broken in itself. -/
theorem Mirror.replies {I : Circuit → Prop} (hE : r.Lenient E)
    (hforgive : ∀ c, I c → ∀ call : ReduceCall, (∀ m ∈ call.handles, c.Held m) → Forgiving r E (call.run.run c))
    (hkeep : ∀ c, I c → ∀ q : Request, q.Held c → (∀ e, (q.reply.run c).1 = .error e → ¬ E e) → I (q.reply.run c).2)
    {qs : List Request} (hm : Mirror r S c d) (hI : I c) (hheld : Request.HeldAlong c qs)
    (hquiet : ∀ e, .error e ∈ (replies qs c).1 → ¬ E e) :
    (∃ T, S ⊆ T ∧ Mirror r T (replies qs c).2 (replies (qs.map (Request.rename r)) d).2) ∧
      List.Forall₂ (Matched r S) (replies qs c).1 (replies (qs.map (Request.rename r)) d).1 := by
  induction qs generalizing c d S with
  | nil => exact ⟨⟨S, subset_rfl, hm⟩, .nil⟩
  | cons q qs ih =>
    obtain ⟨hq, hqs⟩ := hheld
    rw [replies_cons] at hquiet
    have hnow : ∀ e, (q.reply.run c).1 = .error e → ¬ E e := fun e he => hquiet e (by simp [he])
    have hlater : ∀ e, .error e ∈ (PowerTower.replies qs (q.reply.run c).2).1 → ¬ E e := fun e he =>
      hquiet e (List.mem_cons_of_mem _ he)
    have hnext := hkeep c hI q hq hnow
    have hreply := hm.replyTo hE q hq (hforgive c hI)
    rw [List.map_cons, replies_cons, replies_cons]
    generalize q.reply.run c = x at hreply hnow hlater hnext hqs ⊢
    generalize (q.rename r).reply.run d = y at hreply ⊢
    cases hreply with
    | answered sub mirror answer =>
      obtain ⟨⟨U, hTU, hmirror⟩, hmatched⟩ := ih mirror hnext hqs hlater
      exact ⟨⟨U, sub.trans hTU, hmirror⟩, .cons (.answered (answer.mono sub)) (hmatched.imp fun _ _ h => h.mono sub)⟩
    | refused sub mirror =>
      obtain ⟨⟨U, hTU, hmirror⟩, hmatched⟩ := ih mirror hnext hqs hlater
      exact ⟨⟨U, sub.trans hTU, hmirror⟩, .cons (.refused _) (hmatched.imp fun _ _ h => h.mono sub)⟩
    | excused reason => exact absurd reason (hnow _ rfl)

end Circuit

end PowerTower
