import PowerTower.Expr.Error
import PowerTower.Text.Blank

/-!
# Tokens of expressions

A text is cut into numbers, operators and parentheses; blanks only separate. A number takes all the digits
that follow, and has to be below two to the power of 64. Each token is kept with the place where it starts and
the character that stands there.
-/

namespace PowerTower

/-- A symbol of an expression. -/
inductive Token where
  | number (v : Nat)
  | plus
  | minus
  | caret
  | left
  | right
deriving DecidableEq, Repr

/-- A token and where it starts. -/
structure Lexeme where
  /-- The number of bytes before it. -/
  offset : Nat
  /-- The first character of it. -/
  lead : Char
  token : Token
deriving DecidableEq, Repr

namespace Token

/-- The token that is written with one character. -/
def ofChar? : Char → Option Token
  | '+' => some plus
  | '-' => some minus
  | '^' => some caret
  | '(' => some left
  | ')' => some right
  | _ => none

end Token

/-- What is too large for the number of a token: two to the power of 64. -/
def tokenLimit : Nat := 18446744073709551616

/-- The tokens of a text. `offset` counts the bytes before it. -/
def lexemes (offset : Nat) : List Char → Except ParseError (List Lexeme)
  | [] => .ok []
  | ch :: rest =>
    if Text.isBlank ch then lexemes (offset + ch.utf8Size) rest
    else match Token.ofChar? ch with
      | some token => do
        let ls ← lexemes (offset + 1) rest
        return ⟨offset, ch, token⟩ :: ls
      | none =>
        if ch.isDigit then do
          let digits := rest.takeWhile Char.isDigit
          let v := Nat.ofDigitChars 10 (ch :: digits) 0
          if tokenLimit ≤ v then throw (.integerOverflow offset)
          let ls ← lexemes (offset + 1 + digits.length) (rest.dropWhile Char.isDigit)
          return ⟨offset, ch, .number v⟩ :: ls
        else throw (.unexpected ch offset)
termination_by cs => cs.length
decreasing_by
  · simp
  · simp
  · have := (List.dropWhile_sublist Char.isDigit (l := rest)).length_le
    simp only [List.length_cons]
    omega

end PowerTower
