/-!
# JSON texts

The data format of configuration files, read strictly: nothing but blanks around a value, no comma after the
last element, no control characters in texts, no leading zeros.

A text is cut into symbols (`symbols?`), and these are put together to a value by a machine with a stack of
open brackets (`assemble`). Of numbers only the natural ones are told apart (`natural?`). A text that names half a
surrogate pair is accepted as a text that says nothing (`none`).
-/

namespace PowerTower

/-- A JSON value. -/
inductive Json where
  | null
  | bool (b : Bool)
  /-- A number; `some` where it is written as a natural number. -/
  | number (n : Option Nat)
  /-- A text; `none` where it has no characters. -/
  | text (s : Option String)
  | array (values : List Json)
  | object (members : List (Option String × Json))

namespace Json

/-- A symbol of a JSON text. -/
inductive Symbol where
  | leftBrace
  | rightBrace
  | leftBracket
  | rightBracket
  | comma
  | colon
  /-- A value without parts. -/
  | scalar (v : Json)

/-! ## Numbers and words -/

/-- Whether a character can be part of a number. -/
def isNumeric (ch : Char) : Bool := ch.isDigit || ch = '-' || ch = '+' || ch = '.' || ch = 'e' || ch = 'E'

/-- Digits, at least one. -/
def isDigits (cs : List Char) : Bool := !cs.isEmpty && cs.all Char.isDigit

/-- What follows the digits of a whole number may be an exponent. -/
def isExponent : List Char → Bool
  | [] => true
  | e :: rest => (e = 'e' || e = 'E') && match rest with
    | s :: ds => if s = '+' || s = '-' then isDigits ds else isDigits (s :: ds)
    | [] => false

/-- What follows the digits of a whole number may be a fraction and an exponent. -/
def isTail : List Char → Bool
  | '.' :: rest => isDigits (rest.takeWhile Char.isDigit) && isExponent (rest.dropWhile Char.isDigit)
  | rest => isExponent rest

/-- A whole number has no leading zeros. -/
def isWhole (digits : List Char) : Bool := isDigits digits && (digits.length = 1 || digits.head? ≠ some '0')

/-- The value of a number, if it is well written. -/
def number? (cs : List Char) : Option Json :=
  let unsigned := if cs.head? = some '-' then cs.tail else cs
  let whole := unsigned.takeWhile Char.isDigit
  let rest := unsigned.dropWhile Char.isDigit
  if isWhole whole && isTail rest then
    some (.number (if cs.head? ≠ some '-' && rest.isEmpty then some (Nat.ofDigitChars 10 whole 0) else none))
  else none

/-- The value that a word stands for. -/
def word? (cs : List Char) : Option Json :=
  if cs = "null".toList then some .null
  else if cs = "true".toList then some (.bool true)
  else if cs = "false".toList then some (.bool false)
  else none

/-! ## Texts -/

/-- The characters up to the closing quote, escapes still in place, and what follows it. -/
def splitQuote : List Char → Option (List Char × List Char)
  | [] => none
  | '"' :: rest => some ([], rest)
  | '\\' :: ch :: rest => (splitQuote rest).map fun p => ('\\' :: ch :: p.1, p.2)
  | ch :: rest => (splitQuote rest).map fun p => (ch :: p.1, p.2)

/-- The value of a hexadecimal digit. -/
def hexValue? (ch : Char) : Option Nat :=
  if ch.isDigit then some (ch.toNat - '0'.toNat)
  else if 'a' ≤ ch ∧ ch ≤ 'f' then some (ch.toNat - 'a'.toNat + 10)
  else if 'A' ≤ ch ∧ ch ≤ 'F' then some (ch.toNat - 'A'.toNat + 10)
  else none

/-- The value of four hexadecimal digits. -/
def hexUnit? (a b c d : Char) : Option Nat := do
  let a ← hexValue? a
  let b ← hexValue? b
  let c ← hexValue? c
  let d ← hexValue? d
  return ((a * 16 + b) * 16 + c) * 16 + d

/-- The character of an escape with one letter. -/
def escaped? : Char → Option Char
  | '"' => some '"'
  | '\\' => some '\\'
  | '/' => some '/'
  | 'b' => some '\x08'
  | 'f' => some '\x0c'
  | 'n' => some '\n'
  | 'r' => some '\r'
  | 't' => some '\t'
  | _ => none

/-- The code points and surrogates of a text. -/
def units? : List Char → Option (List Nat)
  | [] => some []
  | '\\' :: 'u' :: a :: b :: c :: d :: rest => do
    let u ← hexUnit? a b c d
    return u :: (← units? rest)
  | '\\' :: ch :: rest => do
    let e ← escaped? ch
    return e.toNat :: (← units? rest)
  | ch :: rest => if ch.toNat < 0x20 then none else do return ch.toNat :: (← units? rest)

/-- The characters of some code points and surrogates; surrogates have to come in pairs. -/
def join? : List Nat → Option (List Char)
  | [] => some []
  | u :: rest =>
    if 0xD800 ≤ u ∧ u < 0xDC00 then
      match rest with
      | v :: rest =>
        if 0xDC00 ≤ v ∧ v < 0xE000 then do
          return Char.ofNat (0x10000 + (u - 0xD800) * 0x400 + (v - 0xDC00)) :: (← join? rest)
        else none
      | [] => none
    else if 0xDC00 ≤ u ∧ u < 0xE000 then none
    else do return Char.ofNat u :: (← join? rest)

/-- The value of a text, given without its quotes, if it is well written. -/
def text? (body : List Char) : Option Json := do
  let us ← units? body
  return .text ((join? us).map String.ofList)

theorem length_splitQuote {cs : List Char} {p : List Char × List Char} (h : splitQuote cs = some p) :
    p.2.length < cs.length := by
  fun_induction splitQuote cs generalizing p with
  | case1 => simp at h
  | case2 rest =>
    obtain rfl := Option.some.inj h
    simp
  | case3 ch rest ih =>
    obtain ⟨q, hq, rfl⟩ := Option.map_eq_some_iff.1 h
    have := ih hq
    simp only [List.length_cons]
    omega
  | case4 ch rest _ _ ih =>
    obtain ⟨q, hq, rfl⟩ := Option.map_eq_some_iff.1 h
    have := ih hq
    simp only [List.length_cons]
    omega

/-! ## Symbols -/

/-- A bracket or a separator. -/
def mark? : Char → Option Symbol
  | '\x7b' => some .leftBrace
  | '\x7d' => some .rightBrace
  | '[' => some .leftBracket
  | ']' => some .rightBracket
  | ',' => some .comma
  | ':' => some .colon
  | _ => none

/-- Whether a character may stand between symbols. -/
def isSpace (ch : Char) : Bool := ch = ' ' || ch = '\t' || ch = '\n' || ch = '\r'

/-- The symbols of a text. -/
def symbols? (cs : List Char) : Option (List Symbol) :=
  match cs with
  | [] => some []
  | ch :: rest =>
    if isSpace ch then symbols? rest
    else if ch = '"' then
      match _ : splitQuote rest with
      | none => none
      | some (body, after) => do
        let v ← text? body
        return .scalar v :: (← symbols? after)
    else if isNumeric ch then do
      let v ← number? (ch :: rest.takeWhile isNumeric)
      return .scalar v :: (← symbols? (rest.dropWhile isNumeric))
    else if ch.isAlpha then do
      let v ← word? (ch :: rest.takeWhile Char.isAlpha)
      return .scalar v :: (← symbols? (rest.dropWhile Char.isAlpha))
    else do
      let m ← mark? ch
      return m :: (← symbols? rest)
termination_by cs.length
decreasing_by
  all_goals simp only [List.length_cons]
  · omega
  · have := length_splitQuote (by assumption)
    simp only at this
    omega
  · have := (List.dropWhile_sublist isNumeric (l := rest)).length_le
    omega
  · have := (List.dropWhile_sublist Char.isAlpha (l := rest)).length_le
    omega
  · omega

/-! ## Values -/

/-- An open bracket with what stands in it so far, last first. -/
inductive Frame where
  | array (values : List Json)
  | object (members : List (Option String × Json)) (key : Option String)

/-- What has to come next. -/
inductive Expected where
  /-- A value. -/
  | value
  /-- The first value of an array, or its end. -/
  | firstValue
  /-- The name of a member. -/
  | key (members : List (Option String × Json))
  /-- The name of the first member of an object, or its end. -/
  | firstKey
  /-- The colon after the name of a member. -/
  | colon (members : List (Option String × Json)) (key : Option String)
  /-- What may follow a complete value. -/
  | after (v : Json)

/-- Puts symbols together to a value. -/
def assemble : Expected → List Frame → List Symbol → Option Json
  | .after v, [], [] => some v
  | _, _, [] => none
  | .value, fs, .scalar v :: ss => assemble (.after v) fs ss
  | .value, fs, .leftBracket :: ss => assemble .firstValue fs ss
  | .value, fs, .leftBrace :: ss => assemble .firstKey fs ss
  | .firstValue, fs, .rightBracket :: ss => assemble (.after (.array [])) fs ss
  | .firstValue, fs, .scalar v :: ss => assemble (.after v) (.array [] :: fs) ss
  | .firstValue, fs, .leftBracket :: ss => assemble .firstValue (.array [] :: fs) ss
  | .firstValue, fs, .leftBrace :: ss => assemble .firstKey (.array [] :: fs) ss
  | .firstKey, fs, .rightBrace :: ss => assemble (.after (.object [])) fs ss
  | .firstKey, fs, .scalar (.text k) :: ss => assemble (.colon [] k) fs ss
  | .key ms, fs, .scalar (.text k) :: ss => assemble (.colon ms k) fs ss
  | .colon ms k, fs, .colon :: ss => assemble .value (.object ms k :: fs) ss
  | .after v, .array vs :: fs, .comma :: ss => assemble .value (.array (v :: vs) :: fs) ss
  | .after v, .array vs :: fs, .rightBracket :: ss => assemble (.after (.array (v :: vs).reverse)) fs ss
  | .after v, .object ms k :: fs, .comma :: ss => assemble (.key ((k, v) :: ms)) fs ss
  | .after v, .object ms k :: fs, .rightBrace :: ss =>
    assemble (.after (.object ((k, v) :: ms).reverse)) fs ss
  | _, _, _ :: _ => none

/-- The value that a text is. -/
def parse? (text : String) : Option Json := do
  let ss ← symbols? text.toList
  assemble .value [] ss

end Json

end PowerTower
