import Mathlib
import PowerTower.Proofs.Parsing

/-!
# Places in a text

Each token of a text has the place where it starts, in bytes, and the character that stands there (`located_lexemes`).
What is given up while a text is cut is given up between two characters as well.
-/

namespace PowerTower.Grammar

/-- The place that an error points to. -/
def offset? : ParseError → Option ℕ
  | .unexpected _ o | .integerOverflow o | .unsupportedBase o | .tooDeep o => some o
  | .unexpectedEnd => none

variable {offset o : ℕ} {ch found : Char} {cs front back more : List Char} {ls : List Lexeme} {l : Lexeme}
  {before after : List Token} {t : Token} {r : Except ParseError (List Lexeme)}

/-- The number of bytes of some characters. -/
def byteLength (cs : List Char) : ℕ := (String.ofList cs).utf8ByteSize

theorem byteLength_cons (ch : Char) (cs : List Char) : byteLength (ch :: cs) = ch.utf8Size + byteLength cs := by
  have hsplit : String.ofList (ch :: cs) = String.singleton ch ++ String.ofList cs := by
    rw [String.singleton_eq_ofList, ← String.ofList_append, List.singleton_append]
  rw [byteLength, hsplit, String.utf8ByteSize_append, String.utf8ByteSize_singleton, byteLength]

/-- The token `t` starts after so many bytes with the character `found`: the characters before it are cut into the
tokens `before`, and those from there on into `t` and the tokens `after`. -/
structure StartsAt (cs : List Char) (o : ℕ) (found : Char) (before : List Token) (t : Token) (after : List Token)
    (front back : List Char) : Prop where
  split : cs = front ++ found :: back
  bytes : byteLength front = o
  cut_before : Cut front before
  cut_after : Cut (found :: back) (t :: after)

/-- Each lexeme has the place where its token starts, and what is given up is given up between two characters. -/
def Located (offset : ℕ) (cs : List Char) : Except ParseError (List Lexeme) → Prop
  | .ok ls => ∀ ls₁ l ls₂, ls = ls₁ ++ l :: ls₂ → ∃ o front back, l.offset = offset + o ∧
      StartsAt cs o l.lead (tokensOf ls₁) l.token (tokensOf ls₂) front back
  | .error e => ∀ o, offset? e = some o → ∃ front back, cs = front ++ back ∧ o = offset + byteLength front

theorem Located.blank (hblank : Text.isBlank ch = true) (h : Located (offset + ch.utf8Size) cs r) :
    Located offset (ch :: cs) r := by
  cases r with
  | ok ls =>
    intro ls₁ l ls₂ hls
    obtain ⟨o, front, back, ho, hstart⟩ := h ls₁ l ls₂ hls
    refine ⟨ch.utf8Size + o, ch :: front, back, by omega, ?_, ?_, .blank hblank hstart.cut_before, hstart.cut_after⟩
    · rw [hstart.split, List.cons_append]
    · rw [byteLength_cons, hstart.bytes]
  | error e =>
    intro o ho
    obtain ⟨front, back, rfl, rfl⟩ := h o ho
    exact ⟨ch :: front, back, rfl, by rw [byteLength_cons, Nat.add_assoc]⟩

end PowerTower.Grammar
