import PowerTower.Text.Quoted

/-!
# Syntax errors

Why a text is not an expression. Offsets count the bytes of the text in UTF-8.
-/

namespace PowerTower

/-- How deep negations, powers and parentheses may nest. -/
def maxDepth : Nat := 256

/-- Why a text is not an expression. -/
inductive ParseError where
  /-- No expression goes on with this character. -/
  | unexpected (found : Char) (offset : Nat)
  /-- The text ends inside an expression. -/
  | unexpectedEnd
  /-- A number has no room in 64 bits. -/
  | integerOverflow (offset : Nat)
  /-- A power of another base than two. -/
  | unsupportedBase (offset : Nat)
  /-- Nesting beyond the limit. -/
  | tooDeep (offset : Nat)
deriving DecidableEq, Repr

/-- The wording of a syntax error. -/
def ParseError.message : ParseError → String
  | unexpected ch offset => s!"unexpected {Text.quoteChar ch} at offset {offset}"
  | unexpectedEnd => "unexpected end of input"
  | integerOverflow offset => s!"integer at offset {offset} does not fit in 64 bits"
  | unsupportedBase offset => s!"only base 2 is supported before '^' (offset {offset})"
  | tooDeep offset => s!"expression nests deeper than {maxDepth} levels at offset {offset}"

end PowerTower
