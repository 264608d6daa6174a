import Mathlib
import PowerTower.Expr.Parser

/-!
# The grammar of expressions

    expr := term (('+' | '-') term)*
    term := '-' term | atom
    atom := INT | INT '^' atom | '(' expr ')'

where the base of a power is two, an `INT` on its own is less than two to the power of 63, and a minus sign right before
that power is one literal with it.

* `Derivation` : the ways to derive a symbol, with the tokens they yield (`tokens`), the expression they stand for
  (`tree`) and their depth (`nesting`);
* `unambiguous` : the tokens determine the derivation, also where other tokens follow that do not go on with it;
* `caret_after_two` : a caret follows a two and nothing else. In particular it never follows the literal that begins
  with a minus sign.
-/

namespace PowerTower.Grammar

/-- What stands on the left of a rule. `tail` is the repetition in an expression. -/
inductive Symbol where
  | expr
  | tail
  | term
  | atom
deriving DecidableEq, Repr

/-- What the tokens of a symbol stand for. -/
abbrev Symbol.Tree : Symbol → Type
  | .tail => List (AddOp × Expr)
  | _ => Expr

/-- The ways to derive a symbol. -/
inductive Derivation : Symbol → Type where
  | sum (first : Derivation .term) (others : Derivation .tail) : Derivation .expr
  | done : Derivation .tail
  | more (op : AddOp) (next : Derivation .term) (others : Derivation .tail) : Derivation .tail
  | negated (t : Derivation .term) : Derivation .term
  /-- The least integer that is a literal. -/
  | least : Derivation .term
  | plain (a : Derivation .atom) : Derivation .term
  | literal (v : ℕ) (small : v < 2 ^ 63) : Derivation .atom
  | power (exponent : Derivation .atom) : Derivation .atom
  | group (inner : Derivation .expr) : Derivation .atom

/-- The token of an operator between terms. -/
def opToken : AddOp → Token
  | .plus => .plus
  | .minus => .minus

/-- Whether a token is an operator between terms. -/
def IsOp (t : Token) : Prop := ∃ op, t = opToken op

namespace Derivation

variable {s : Symbol}

/-- The tokens that are derived. -/
def tokens : {s : Symbol} → Derivation s → List Token
  | _, sum first others => first.tokens ++ others.tokens
  | _, done => []
  | _, more op next others => opToken op :: (next.tokens ++ others.tokens)
  | _, negated t => .minus :: t.tokens
  | _, least => [.minus, .number (2 ^ 63)]
  | _, plain a => a.tokens
  | _, literal v _ => [.number v]
  | _, power e => .number 2 :: .caret :: e.tokens
  | _, group e => .left :: (e.tokens ++ [.right])

/-- What is derived. A single term is no sum, and parentheses leave no trace. -/
def tree : {s : Symbol} → Derivation s → s.Tree
  | _, sum first others => Parser.sumOf first.tree others.tree
  | _, done => []
  | _, more op next others => (op, next.tree) :: others.tree
  | _, negated t => .neg t.tree
  | _, least => .int (-2 ^ 63)
  | _, plain a => a.tree
  | _, literal v _ => .int v
  | _, power e => .power e.tree
  | _, group e => e.tree

/-- How many minus signs, carets and parentheses stand around the innermost token. The sign of a literal does not
count. -/
def nesting : {s : Symbol} → Derivation s → ℕ
  | _, sum first others => max first.nesting others.nesting
  | _, done => 0
  | _, more _ next others => max next.nesting others.nesting
  | _, negated t => t.nesting + 1
  | _, least => 0
  | _, plain a => a.nesting
  | _, literal _ _ => 0
  | _, power e => e.nesting + 1
  | _, group e => e.nesting + 1

end Derivation

/-- The tokens that may stand right after a symbol and go on with it. -/
def GoesOn : Symbol → Token → Prop
  | .term, t | .atom, t => t = .caret
  | .expr, t | .tail, t => t = .caret ∨ IsOp t

/-- Tokens that do not go on with a symbol. -/
def Stops (s : Symbol) (rest : List Token) : Prop := ∀ t ∈ rest.head?, ¬ GoesOn s t

variable {s : Symbol} {rest rest' : List Token}

theorem not_isOp_right : ¬ IsOp .right := by
  rintro ⟨_ | _, h⟩ <;> cases h

theorem opToken_ne_caret (op : AddOp) : opToken op ≠ .caret := by cases op <;> simp [opToken]

theorem opToken_inj {op op' : AddOp} (h : opToken op = opToken op') : op = op' := by
  cases op <;> cases op' <;> simp_all [opToken]

theorem stops_nil (s : Symbol) : Stops s [] := by simp [Stops]

theorem stops_right (s : Symbol) (rest : List Token) : Stops s (.right :: rest) := by
  cases s <;> simp [Stops, GoesOn, not_isOp_right]

theorem not_stops_caret (s : Symbol) : ¬ Stops s (.caret :: rest) := by
  cases s <;> simp [Stops, GoesOn]

theorem not_stops_op (op : AddOp) : ¬ Stops .tail (opToken op :: rest) := fun h => h _ rfl (.inr ⟨op, rfl⟩)

/-- What does not go on with the tail of a sum does not go on with the term before it either. -/
theorem stops_tail (others : Derivation .tail) (h : Stops .tail rest) : Stops .term (others.tokens ++ rest) := by
  cases others with
  | done => exact fun t ht hc => h t ht (.inl hc)
  | more op next others =>
    intro t ht hc
    obtain rfl := Option.some.inj ht
    exact opToken_ne_caret op hc

/-- The first token of a term or an atom is no caret, operator or closing parenthesis; that of an atom is no minus sign
either. -/
theorem atom_head (a : Derivation .atom) :
    ∃ t ts, a.tokens = t :: ts ∧ (t = .left ∨ ∃ v, t = .number v ∧ v < 2 ^ 63) := by
  cases a with
  | literal v small => exact ⟨_, _, rfl, .inr ⟨v, rfl, small⟩⟩
  | power e => exact ⟨_, _, rfl, .inr ⟨2, rfl, by norm_num⟩⟩
  | group e => exact ⟨_, _, rfl, .inl rfl⟩

theorem atom_ne_minus (a : Derivation .atom) (rest ts : List Token) : a.tokens ++ rest ≠ .minus :: ts := by
  obtain ⟨t, us, ha, h | ⟨v, h, -⟩⟩ := atom_head a <;> simp [ha, h]

theorem term_ne_limit (t : Derivation .term) (rest ts : List Token) :
    t.tokens ++ rest ≠ .number (2 ^ 63) :: ts := by
  cases t with
  | negated t => simp [Derivation.tokens]
  | least => simp [Derivation.tokens]
  | plain a =>
    obtain ⟨t, us, ha, h | ⟨v, h, hv⟩⟩ := atom_head a
    · simp [Derivation.tokens, ha, h]
    · intro heq
      simp only [Derivation.tokens, ha, h, List.cons_append, List.cons.injEq, Token.number.injEq] at heq
      omega

/-- Two derivations of one symbol that start the same tokens and stop where it stops are the same. -/
theorem derivation_unique (d : Derivation s) : ∀ (d' : Derivation s) {rest rest' : List Token},
    Stops s rest → Stops s rest' → d.tokens ++ rest = d'.tokens ++ rest' → d = d' ∧ rest = rest' := by
  induction d with
  | sum first others ihfirst ihothers =>
    intro d' rest rest' hs hs' h
    cases d' with
    | sum first' others' =>
      simp only [Derivation.tokens, List.append_assoc] at h
      obtain ⟨rfl, h1⟩ := ihfirst first' (stops_tail others hs) (stops_tail others' hs') h
      obtain ⟨rfl, h2⟩ := ihothers others' hs hs' h1
      exact ⟨rfl, h2⟩
  | done =>
    intro d' rest rest' hs hs' h
    cases d' with
    | done => exact ⟨rfl, h⟩
    | more op next others =>
      obtain rfl : rest = _ := h
      exact absurd hs (not_stops_op op)
  | more op next others ihnext ihothers =>
    intro d' rest rest' hs hs' h
    cases d' with
    | done =>
      obtain rfl : _ = rest' := h
      exact absurd hs' (not_stops_op op)
    | more op' next' others' =>
      simp only [Derivation.tokens, List.cons_append, List.append_assoc, List.cons.injEq] at h
      obtain rfl := opToken_inj h.1
      obtain ⟨rfl, h1⟩ := ihnext next' (stops_tail others hs) (stops_tail others' hs') h.2
      obtain ⟨rfl, h2⟩ := ihothers others' hs hs' h1
      exact ⟨rfl, h2⟩
  | negated t ih =>
    intro d' rest rest' hs hs' h
    cases d' with
    | negated t' =>
      obtain ⟨rfl, h1⟩ := ih t' hs hs' (List.cons.inj h).2
      exact ⟨rfl, h1⟩
    | least => exact absurd (List.cons.inj h).2 (term_ne_limit t rest _)
    | plain a => exact absurd h.symm (atom_ne_minus a rest' _)
  | least =>
    intro d' rest rest' hs hs' h
    cases d' with
    | negated t' => exact absurd (List.cons.inj h).2.symm (term_ne_limit t' rest' _)
    | least => exact ⟨rfl, by simpa [Derivation.tokens] using h⟩
    | plain a => exact absurd h.symm (atom_ne_minus a rest' _)
  | plain a ih =>
    intro d' rest rest' hs hs' h
    cases d' with
    | negated t' => exact absurd h (atom_ne_minus a rest _)
    | least => exact absurd h (atom_ne_minus a rest _)
    | plain a' =>
      obtain ⟨rfl, h1⟩ := ih a' hs hs' h
      exact ⟨rfl, h1⟩
  | literal v small =>
    intro d' rest rest' hs hs' h
    cases d' with
    | literal v' small' =>
      simp only [Derivation.tokens, List.singleton_append, List.cons.injEq, Token.number.injEq] at h
      obtain ⟨rfl, h1⟩ := h
      exact ⟨rfl, h1⟩
    | power e =>
      obtain rfl : rest = _ := (List.cons.inj h).2
      exact absurd hs (not_stops_caret _)
    | group e => simp [Derivation.tokens] at h
  | power e ih =>
    intro d' rest rest' hs hs' h
    cases d' with
    | literal v' small' =>
      obtain rfl : _ = rest' := (List.cons.inj h).2
      exact absurd hs' (not_stops_caret _)
    | power e' =>
      obtain ⟨rfl, h1⟩ := ih e' hs hs' (List.cons.inj (List.cons.inj h).2).2
      exact ⟨rfl, h1⟩
    | group e' => simp [Derivation.tokens] at h
  | group e ih =>
    intro d' rest rest' hs hs' h
    cases d' with
    | literal v' small' => simp [Derivation.tokens] at h
    | power e' => simp [Derivation.tokens] at h
    | group e' =>
      simp only [Derivation.tokens, List.cons_append, List.append_assoc, List.cons.injEq, true_and] at h
      obtain ⟨rfl, h1⟩ := ih e' (stops_right _ _) (stops_right _ _) h
      exact ⟨rfl, (List.cons.inj h1).2⟩

/-- A token sequence is derived in one way at most. -/
theorem unambiguous {d d' : Derivation s} (h : d.tokens = d'.tokens) : d = d' :=
  (derivation_unique d d' (stops_nil s) (stops_nil s) (by rw [h])).1

/-! ## Carets -/

/-- A caret follows a two and nothing else. -/
structure CaretAfterTwo (ts : List Token) : Prop where
  head : ts.head? ≠ some .caret
  next : ts.IsChain fun t u => u = .caret → t = .number 2

theorem CaretAfterTwo.nil : CaretAfterTwo [] := ⟨nofun, List.isChain_nil⟩

theorem CaretAfterTwo.single (t : Token) (h : t ≠ .caret) : CaretAfterTwo [t] :=
  ⟨fun hc => h (Option.some.inj hc), List.isChain_singleton t⟩

theorem CaretAfterTwo.append {ts us : List Token} (hts : CaretAfterTwo ts) (hus : CaretAfterTwo us) :
    CaretAfterTwo (ts ++ us) := by
  constructor
  · rw [List.head?_append]
    cases hf : ts.head? with
    | none => exact hus.head
    | some t => exact fun hc => hts.head (hf.trans hc)
  · exact List.isChain_append.2 ⟨hts.next, hus.next, fun t _ u hu hc => absurd (hc ▸ hu) hus.head⟩

theorem caret_after_two (d : Derivation s) : CaretAfterTwo d.tokens := by
  induction d with
  | sum first others ihfirst ihothers => exact ihfirst.append ihothers
  | done => exact .nil
  | more op next others ihnext ihothers =>
    exact (CaretAfterTwo.single _ (opToken_ne_caret op)).append (ihnext.append ihothers)
  | negated t ih => exact (CaretAfterTwo.single .minus nofun).append ih
  | least => exact (CaretAfterTwo.single .minus nofun).append (.single _ nofun)
  | plain a ih => exact ih
  | literal v small => exact .single _ nofun
  | power e ih =>
    refine ⟨nofun, List.isChain_cons_cons.2 ⟨fun _ => rfl, ?_⟩⟩
    exact List.isChain_cons.2 ⟨fun u hu hc => absurd (hc ▸ hu) ih.head, ih.next⟩
  | group e ih => exact (CaretAfterTwo.single .left nofun).append (ih.append (.single .right nofun))

end PowerTower.Grammar
