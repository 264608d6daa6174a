import Mathlib
import PowerTower.Proofs.Terms
import PowerTower.Proofs.Traversal
import PowerTower.Circuit.Reduce

/-!
# Other names

Two circuits may hold the same nodes and markings under other names: under another number of the circuit, and with the
markings numbered anew. A renaming takes the names of one circuit to those of the other.

* `Renaming` : circuits are renamed injectively; the markings of the other circuit are some of the markings of the one,
  in order. The settings may be others too;
* `node`, `terms`, `handle`, `error`, … : what carries names, renamed;
* `digit?_terms`, `accumulate?_terms`, … : term lists are read and changed under other names as under the old ones;
* `discover_map`, `orderWithin_map` : and so are graphs walked.
-/

namespace PowerTower

/-- Names of one circuit for those of another, and settings for settings. -/
structure Renaming where
  /-- The other number of a circuit. -/
  circuit : CircuitId → CircuitId
  injective : Function.Injective circuit
  /-- The other number of a marking, for the markings that have one. -/
  marking : ℕ → ℕ
  /-- The marking that has the other number. -/
  source : ℕ → ℕ
  increasing : StrictMono source
  marking_source : ∀ j, marking (source j) = j
  /-- The other settings. -/
  config : Config → Config

namespace Renaming

variable (r : Renaming)

/-- A node under its other name. -/
def node (n : Node) : Node := { n with circuit := r.circuit n.circuit }

/-- A term with its node under the other name. -/
def term (t : Term) : Term := (r.node t.1, t.2)

/-- Terms with their nodes under the other names. -/
def terms (ts : List Term) : List Term := ts.map r.term

/-- A handle under its other name. -/
def handle (m : Marking) : Marking := ⟨r.circuit m.circuit, r.marking m.id⟩

/-- A marking with its nodes under the other names. -/
def cell (k : Cell) : Cell := { k with terms := r.terms k.terms }

/-- A holder under its other name. -/
def holder : Holder → Holder
  | .node n => .node (r.node n)
  | .marking i => .marking (r.marking i)

/-- The owner of a term list under its other name. -/
def owner : TermOwner → TermOwner
  | .successors n => .successors (r.node n)
  | .marking i => .marking (r.marking i)

/-- A broken invariant under other names. -/
def violation : Violation → Violation
  | .freeSlotRanked i => .freeSlotRanked i
  | .zeroEntry o n => .zeroEntry (r.owner o) (r.node n)
  | .repeatedEntry o n => .repeatedEntry (r.owner o) (r.node n)
  | .rankMismatch n k l => .rankMismatch (r.node n) k l
  | .pendingSuccessor n m => .pendingSuccessor (r.node n) (r.node m)
  | .rankCount k l => .rankCount k l
  | .notIncreasing m n => .notIncreasing (r.node m) (r.node n)
  | .staleFlag n => .staleFlag (r.node n)
  | .topDoubles n => .topDoubles (r.node n)
  | .negativeExponent n => .negativeExponent (r.node n)

/-- A refusal under other names. -/
def error : CircuitError → CircuitError
  | .notReduced => .notReduced
  | .targetAlreadyReduced n => .targetAlreadyReduced (r.node n)
  | .cycleDetected n => .cycleDetected (r.node n)
  | .signOverflow n => .signOverflow (r.node n)
  | .foreignCircuit e f => .foreignCircuit (r.circuit e) (r.circuit f)
  | .staleNode n => .staleNode (r.node n)
  | .alreadyReduced n => .alreadyReduced (r.node n)
  | .outsideFrontier n => .outsideFrontier (r.node n)
  | .lengthMismatch k l => .lengthMismatch k l
  | .invariantViolated v => .invariantViolated (r.violation v)

/-- An answer under other names, or a refusal under other names. -/
def answer {α β : Type} (g : α → β) : Except CircuitError α → Except CircuitError β
  | .ok a => .ok (g a)
  | .error e => .error (r.error e)

variable {r} {m n : Node} {ts us : List Term} {s : Sign}

theorem node_injective : Function.Injective r.node := by
  rintro ⟨a, i, g⟩ ⟨b, j, k⟩ h
  obtain ⟨hc, rfl, rfl⟩ := Node.mk.inj h
  obtain rfl : a = b := r.injective hc
  rfl

theorem node_inj : r.node m = r.node n ↔ m = n := node_injective.eq_iff

theorem term_injective : Function.Injective r.term := by
  rintro ⟨m, s⟩ ⟨n, t⟩ h
  obtain ⟨hn, rfl⟩ := Prod.mk.inj h
  obtain rfl : m = n := node_inj.1 hn
  rfl

theorem marking_lt_iff {i j : ℕ} (hi : r.source (r.marking i) = i) (hj : r.source (r.marking j) = j) :
    r.marking i < r.marking j ↔ i < j := by
  rw [← r.increasing.lt_iff_lt, hi, hj]

/-! ## Answers -/

section Answers

variable {α α' β β' : Type}

theorem answer_bind {g : α → α'} {k : β → β'} {x : Except CircuitError α} {x' : Except CircuitError α'}
    {f : α → Except CircuitError β} {f' : α' → Except CircuitError β'} (hx : x' = r.answer g x)
    (hf : ∀ a, x = .ok a → f' (g a) = r.answer k (f a)) : (x' >>= f') = r.answer k (x >>= f) := by
  subst hx
  cases x with
  | error e => rfl
  | ok a => exact hf a rfl

theorem answer_map {g : α → α'} {k : β → β'} {x : Except CircuitError α} {x' : Except CircuitError α'} {f : α → β}
    {f' : α' → β'} (hx : x' = r.answer g x) (hf : ∀ a, x = .ok a → f' (g a) = k (f a)) :
    (x' >>= fun a => pure (f' a)) = r.answer k (x >>= fun a => pure (f a)) :=
  answer_bind hx fun a ha => congrArg Except.ok (hf a ha)

theorem answer_forM {g : α → α'} {f : α → Except CircuitError Unit} {f' : α' → Except CircuitError Unit} {l : List α}
    (hf : ∀ a ∈ l, f' (g a) = r.answer id (f a)) : (l.map g).forM f' = r.answer id (l.forM f) := by
  induction l with
  | nil => rfl
  | cons a l ih => exact answer_bind (hf a (by simp)) fun _ _ => ih fun b hb => hf b (by simp [hb])

theorem answer_mapM {g : α → α'} {k : β → β'} {f : α → Except CircuitError β} {f' : α' → Except CircuitError β'}
    {l : List α} (hf : ∀ a ∈ l, f' (g a) = r.answer k (f a)) :
    (l.map g).mapM f' = r.answer (List.map k) (l.mapM f) := by
  induction l with
  | nil => rfl
  | cons a l ih =>
    rw [List.map_cons, List.mapM_cons, List.mapM_cons]
    refine answer_bind (hf a (by simp)) fun b _ => ?_
    exact answer_map (ih fun c hc => hf c (by simp [hc])) fun _ _ => rfl

end Answers

/-! ## Term lists -/

@[simp] theorem terms_nil : r.terms [] = [] := rfl

@[simp] theorem terms_cons (n : Node) (s : Sign) (ts : List Term) :
  r.terms ((n, s) :: ts) = (r.node n, s) :: r.terms ts :=
  rfl

@[simp] theorem terms_append : r.terms (ts ++ us) = r.terms ts ++ r.terms us := List.map_append

theorem nodes_terms (ts : List Term) : Terms.nodes (r.terms ts) = (Terms.nodes ts).map r.node := by
  simp only [Terms.nodes, terms, List.map_map]
  rfl

theorem digit?_terms (n : Node) (ts : List Term) : Terms.digit? (r.node n) (r.terms ts) = Terms.digit? n ts := by
  induction ts with
  | nil => rfl
  | cons t ts ih =>
    obtain ⟨m, s⟩ := t
    simp only [terms_cons, Terms.digit?, node_inj, ih]

theorem digit_terms (n : Node) (ts : List Term) : Terms.digit (r.node n) (r.terms ts) = Terms.digit n ts := by
  rw [Terms.digit, digit?_terms, Terms.digit]

theorem erase_terms (n : Node) (ts : List Term) : Terms.erase (r.node n) (r.terms ts) = r.terms (Terms.erase n ts) := by
  induction ts with
  | nil => rfl
  | cons t ts ih =>
    obtain ⟨m, s⟩ := t
    simp only [terms_cons, Terms.erase, node_inj, ih]
    split_ifs <;> rfl

theorem set_terms (n : Node) (s : Sign) (ts : List Term) :
    Terms.set (r.node n) s (r.terms ts) = r.terms (Terms.set n s ts) := by
  induction ts with
  | nil => rfl
  | cons t ts ih =>
    obtain ⟨m, u⟩ := t
    simp only [terms_cons, Terms.set, node_inj, ih]
    split_ifs <;> rfl

theorem flip_terms (ts : List Term) : Terms.flip (r.terms ts) = r.terms (Terms.flip ts) := by
  simp only [Terms.flip, terms, List.map_map]
  rfl

theorem accumulate?_terms (strict : Bool) (n : Node) (s : Sign) (ts : List Term) :
    Terms.accumulate? strict (r.node n) s (r.terms ts) = (Terms.accumulate? strict n s ts).map r.terms := by
  unfold Terms.accumulate?
  rw [digit?_terms]
  by_cases hs : s = .zero
  · rw [if_pos hs, if_pos hs]
    rfl
  · rw [if_neg hs, if_neg hs]
    cases Terms.digit? n ts with
    | none => simp
    | some old =>
      dsimp only
      split_ifs
      · rfl
      · rw [erase_terms]
        rfl
      · rw [set_terms]
        rfl

theorem length_terms (ts : List Term) : (r.terms ts).length = ts.length := List.length_map _

theorem isEmpty_terms (ts : List Term) : (r.terms ts).isEmpty = ts.isEmpty := List.isEmpty_map

theorem mem_terms {t : Term} : r.term t ∈ r.terms ts ↔ t ∈ ts := List.mem_map_of_injective term_injective

end Renaming

/-! ## Walks -/

namespace Traversal

variable {α β : Type} [DecidableEq α] [Hashable α] [DecidableEq β] [Hashable β] {g : α → β} {good : α → Prop}
  {next : α → List α} {next' : β → List β}

/-- The good nodes have the same successors under other names, and these are good. -/
def Follows (g : α → β) (good : α → Prop) (next : α → List α) (next' : β → List β) : Prop :=
  ∀ n, good n → next' (g n) = (next n).map g ∧ ∀ m ∈ next n, good m

/-- The good nodes of a set are those of another set under other names. -/
def Agrees (g : α → β) (good : α → Prop) (s : Std.HashSet α) (s' : Std.HashSet β) : Prop :=
  ∀ n, good n → (g n ∈ s' ↔ n ∈ s)

omit [DecidableEq α] [Hashable α] [DecidableEq β] [Hashable β] in
theorem mem_map_iff (hg : Function.Injective g) {n : α} {l : List α} : g n ∈ l.map g ↔ n ∈ l :=
  List.mem_map_of_injective hg

theorem Agrees.erase (hg : Function.Injective g) {s : Std.HashSet α} {s' : Std.HashSet β}
    (h : Agrees g good s s') (m : α) :
    Agrees g good (s.erase m) (s'.erase (g m)) := fun n hn => by
  simp only [Std.HashSet.mem_erase, beq_eq_false_iff_ne, ne_eq, hg.eq_iff, h n hn]

theorem Agrees.insert (hg : Function.Injective g) {s : Std.HashSet α} {s' : Std.HashSet β}
    (h : Agrees g good s s') (m : α) :
    Agrees g good (s.insert m) (s'.insert (g m)) := fun n hn => by
  simp only [Std.HashSet.mem_insert, beq_iff_eq, hg.eq_iff, h n hn]

theorem agrees_ofList (hg : Function.Injective g) (l : List α) :
    Agrees g good (Std.HashSet.ofList l) (Std.HashSet.ofList (l.map g)) := fun n _ => by
  rw [mem_ofList_iff, mem_ofList_iff, mem_map_iff hg]

/-- By induction on the walk. -/
theorem discover_map (hg : Function.Injective g) (hnext : Follows g good next next') {unseen : Std.HashSet α}
    {unseen' : Std.HashSet β} (hunseen : Agrees g good unseen unseen') {stack : List α} (hstack : ∀ n ∈ stack, good n) :
    discover next' unseen' (stack.map g) = (discover next unseen stack).map g := by
  fun_induction discover next unseen stack generalizing unseen' with
  | case1 => simp [discover]
  | case2 unseen n rest hn ih =>
    obtain ⟨heq, hgood⟩ := hnext n (hstack n (by simp))
    rw [List.map_cons, discover, if_pos ((hunseen n (hstack n (by simp))).2 hn), heq, ← List.map_append,
      ih (hunseen.erase hg n), List.map_cons]
    intro m hm
    rcases List.mem_append.1 hm with hm | hm
    · exact hgood m hm
    · exact hstack m (by simp [hm])
  | case3 unseen n rest hn ih =>
    rw [List.map_cons, discover, if_neg fun h => hn ((hunseen n (hstack n (by simp))).1 h),
      ih hunseen fun m hm => hstack m (by simp [hm])]

/-- What keeps nodes from being put in order, under other names. -/
def Obstacle.map (g : α → β) : Obstacle α → Obstacle β
  | .outside n => .outside (g n)
  | .cycle n => .cycle (g n)

/-- The same nodes are put in order under other names, or the same obstacle is met. -/
inductive Settled (g : α → β) (good : α → Prop) : Except (Obstacle α) (Progress α) →
    Except (Obstacle β) (Progress β) → Prop
  | ok {p : Progress α} {p' : Progress β} (finished : Agrees g good p.finished p'.finished)
      (sorted : p'.sorted = p.sorted.map g) : Settled g good (.ok p) (.ok p')
  | error (o : Obstacle α) : Settled g good (.error o) (.error (o.map g))

/-- By induction on the walk. -/
theorem settle_map (hg : Function.Injective g) (hnext : Follows g good next next') {members : Std.HashSet α}
    {members' : Std.HashSet β} (hmembers : Agrees g good members members') {path : List α}
    {p : Progress α} {p' : Progress β}
    (hp : Agrees g good p.finished p'.finished) (hsorted : p'.sorted = p.sorted.map g) {l : List α}
    (hl : ∀ n ∈ l, good n) :
    Settled g good (settle next members path p l) (settle next' members' (path.map g) p' (l.map g)) := by
  fun_induction settle next members path p l generalizing p' with
  | case1 => rw [List.map_nil, settle]; exact .ok hp hsorted
  | case2 path p n rest hn ih =>
    rw [List.map_cons, settle, if_pos ((hp n (hl n (by simp))).2 hn)]
    exact ih hp hsorted fun m hm => hl m (by simp [hm])
  | case3 path p n rest hn hmem hpath =>
    have hgood := hl n (by simp)
    rw [List.map_cons, settle, if_neg fun h => hn ((hp n hgood).1 h), if_pos ((hmembers n hgood).2 hmem),
      if_pos ((mem_map_iff hg).2 hpath)]
    exact .error (.cycle n)
  | case4 path p n rest hn hmem hpath o ho ih =>
    have hgood := hl n (by simp)
    obtain ⟨heq, hsucc⟩ := hnext n hgood
    have hstep := ih hp hsorted hsucc
    rw [ho, List.map_cons] at hstep
    rw [List.map_cons, settle, if_neg fun h => hn ((hp n hgood).1 h), if_pos ((hmembers n hgood).2 hmem),
      if_neg fun h => hpath ((mem_map_iff hg).1 h), heq]
    generalize settle next' members' (g n :: path.map g) p' ((next n).map g) = x at hstep
    cases hstep
    exact .error o
  | case5 path p n rest hn hmem hpath q hq ih ih' =>
    have hgood := hl n (by simp)
    obtain ⟨heq, hsucc⟩ := hnext n hgood
    have hstep := ih hp hsorted hsucc
    rw [hq, List.map_cons] at hstep
    rw [List.map_cons, settle, if_neg fun h => hn ((hp n hgood).1 h), if_pos ((hmembers n hgood).2 hmem),
      if_neg fun h => hpath ((mem_map_iff hg).1 h), heq]
    generalize settle next' members' (g n :: path.map g) p' ((next n).map g) = x at hstep
    cases hstep with
    | ok hfinished hsorted' =>
      refine ih' (hfinished.insert hg n) ?_ fun m hm => hl m (by simp [hm])
      simp [Progress.finish, hsorted']
  | case6 path p n rest hn hmem =>
    have hgood := hl n (by simp)
    rw [List.map_cons, settle, if_neg fun h => hn ((hp n hgood).1 h), if_neg fun h => hmem ((hmembers n hgood).1 h)]
    exact .error (.outside n)

/-- Nodes are put in order under other names in the same order. -/
theorem orderWithin_map (hg : Function.Injective g) (hnext : Follows g good next next') {members roots : List α}
    {members' : List β} (hmembers : Agrees g good (Std.HashSet.ofList members) (Std.HashSet.ofList members'))
    (hroots : ∀ n ∈ roots, good n) : orderWithin next' members' (roots.map g) =
      match orderWithin next members roots with
      | .ok l => .ok (l.map g)
      | .error o => .error (o.map g) := by
  have h : Settled g good (settle next (Std.HashSet.ofList members) [] {} roots)
      (settle next' (Std.HashSet.ofList members') [] {} (roots.map g)) :=
    settle_map hg hnext hmembers (fun n _ => by simp) (by simp) hroots
  unfold orderWithin
  generalize settle next (Std.HashSet.ofList members) [] {} roots = x at h
  generalize settle next' (Std.HashSet.ofList members') [] {} (roots.map g) = y at h
  cases h with
  | ok hfinished hsorted => simp [hsorted]
  | error o => rfl

end Traversal

end PowerTower
