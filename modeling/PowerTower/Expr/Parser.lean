import PowerTower.Expr.Basic
import PowerTower.Expr.Token

/-!
# Reading expressions

An expression is a sum of terms; a term is a negated term or an atom; an atom is a number, two to the power of an
atom, or an expression in parentheses. A number as such has to be below two to the power of 63, but a minus sign
right before that power makes one literal of both. Negations, powers and parentheses nest up to a limit.

`atom`, `term` and `expr` read one phrase each. They enter deeper phrases through `nested`, which `within` gives
for so many further levels. A phrase takes at least one token, and each result says so.
-/

namespace PowerTower

/-- The phrases that can stand one level deeper. -/
inductive Phrase where
  | expr
  | term
  | atom
deriving DecidableEq, Repr

/-- A phrase at the front of some tokens, and the tokens after it. -/
structure Parsed (ts : List Lexeme) where
  expr : Expr
  rest : List Lexeme
  shorter : rest.length < ts.length

/-- How to read a phrase one level deeper. -/
abbrev Nested := Phrase → (ts : List Lexeme) → Except ParseError (Parsed ts)

namespace Parser

/-- What is too large for an integer on its own: two to the power of 63. -/
def literalLimit : Nat := 9223372036854775808

/-- The tokens do not go on as they should. -/
def unexpected : List Lexeme → ParseError
  | [] => .unexpectedEnd
  | l :: _ => .unexpected l.lead l.offset

/-- Whether the next token is a certain one. -/
def startsWith (t : Token) : List Lexeme → Bool
  | [] => false
  | l :: _ => l.token = t

/-- An atom. -/
def atom (nested : Nested) : (ts : List Lexeme) → Except ParseError (Parsed ts)
  | [] => .error (unexpected [])
  | l :: ts =>
    match l.token with
    | .number v =>
      match ts with
      | [] => literal l v []
      | k :: ts =>
        if k.token = .caret then
          if v = 2 then do
            let p ← nested .atom ts
            return ⟨.power p.expr, p.rest, by have := p.shorter; simp only [List.length_cons]; omega⟩
          else .error (.unsupportedBase l.offset)
        else literal l v (k :: ts)
    | .left => do
      let p ← nested .expr ts
      match h : p.rest with
      | [] => .error (unexpected [])
      | k :: rest =>
        if k.token = .right then
          return ⟨p.expr, rest, by have := p.shorter; simp only [h, List.length_cons] at this ⊢; omega⟩
        else .error (unexpected (k :: rest))
    | _ => .error (unexpected (l :: ts))
where
  /-- A number on its own. -/
  literal (l : Lexeme) (v : Nat) (rest : List Lexeme) : Except ParseError (Parsed (l :: rest)) :=
    if v < literalLimit then .ok ⟨.int v, rest, by simp⟩ else .error (.integerOverflow l.offset)

/-- Whether the tokens begin with the number that a minus sign turns into the least integer, and not with a
power of it. -/
def startsWithLimit : List Lexeme → Bool
  | l :: ts => l.token = .number literalLimit && !startsWith .caret ts
  | [] => false

/-- A term. -/
def term (nested : Nested) : (ts : List Lexeme) → Except ParseError (Parsed ts)
  | [] => atom nested []
  | l :: ts =>
    if l.token = .minus then
      if startsWithLimit ts then
        .ok ⟨.int (-literalLimit), ts.tail, by simp only [List.length_tail, List.length_cons]; omega⟩
      else do
        let p ← nested .term ts
        return ⟨.neg p.expr, p.rest, by have := p.shorter; simp only [List.length_cons]; omega⟩
    else atom nested (l :: ts)

/-- The operator that a token stands for between terms. -/
def addOp? : Token → Option AddOp
  | .plus => some .plus
  | .minus => some .minus
  | _ => none

/-- Further summands at the front of some tokens, and the tokens after them. -/
structure Summands (ts : List Lexeme) where
  summands : List (AddOp × Expr)
  rest : List Lexeme
  notLonger : rest.length ≤ ts.length

/-- The further summands of a sum. -/
def summands (nested : Nested) (ts : List Lexeme) : Except ParseError (Summands ts) :=
  match ts with
  | [] => .ok ⟨[], [], by simp⟩
  | l :: ts =>
    match addOp? l.token with
    | none => .ok ⟨[], l :: ts, by simp⟩
    | some op => do
      let p ← term nested ts
      let q ← summands nested p.rest
      return ⟨(op, p.expr) :: q.summands, q.rest, by
        have := p.shorter; have := q.notLonger; simp only [List.length_cons]; omega⟩
termination_by ts.length
decreasing_by have := p.shorter; simp only [List.length_cons]; omega

/-- A sum. A single term is not wrapped. -/
def sumOf (first : Expr) : List (AddOp × Expr) → Expr
  | [] => first
  | rest => .sum first rest

/-- An expression. -/
def expr (nested : Nested) (ts : List Lexeme) : Except ParseError (Parsed ts) := do
  let p ← term nested ts
  let q ← summands nested p.rest
  return ⟨sumOf p.expr q.summands, q.rest, by have := p.shorter; have := q.notLonger; omega⟩

/-- A phrase. -/
def phrase (nested : Nested) : Nested
  | .expr => expr nested
  | .term => term nested
  | .atom => atom nested

/-- A phrase that may hold so many levels, itself included. `size` is the number of bytes of the text. -/
def within (size : Nat) : Nat → Nested
  | 0, _, ts => .error (.tooDeep (match ts with | [] => size | l :: _ => l.offset))
  | room + 1, p, ts => phrase (within size room) p ts

end Parser

/-- The expression that a text is. -/
def Expr.parse (text : String) : Except ParseError Expr := do
  let ts ← lexemes 0 text.toList
  let p ← Parser.expr (Parser.within text.utf8ByteSize maxDepth) ts
  match p.rest with
  | [] => return p.expr
  | rest => throw (Parser.unexpected rest)

end PowerTower
