import Mathlib
import PowerTower.Proofs.Grammar
import PowerTower.Proofs.Guards

/-!
# Reading expressions

* `Cut` : how a text is cut into tokens, which `lexemes` does (`cut_of_lexemes`, `lexemes_of_cut`);
* `Faithful` : what is read is derived, with as many levels as there is room for;
* `read_of_derivation` : what is derived is read, whatever follows that does not go on with it;
* `parse_eq_ok_iff_derived` : the texts that are expressions are those that have a derivation of at most 256 levels.
-/

namespace PowerTower.Grammar

/-! ## Tokens -/

/-- A text is cut into tokens: blanks separate, some tokens are written with one character, and a number takes all the
digits that there are. -/
inductive Cut : List Char → List Token → Prop where
  | done : Cut [] []
  | blank {ch : Char} {cs : List Char} {ts : List Token} (hblank : Text.isBlank ch = true) (others : Cut cs ts) :
    Cut (ch :: cs) ts
  | mark {ch : Char} {cs : List Char} {t : Token} {ts : List Token} (hmark : Token.ofChar? ch = some t)
    (others : Cut cs ts) : Cut (ch :: cs) (t :: ts)
  | number {digits cs : List Char} {ts : List Token} (nonempty : digits ≠ []) (digit : ∀ d ∈ digits, d.isDigit = true)
    (longest : ∀ d ∈ cs.head?, d.isDigit = false) (small : Nat.ofDigitChars 10 digits 0 < 2 ^ 64) (others : Cut cs ts) :
    Cut (digits ++ cs) (.number (Nat.ofDigitChars 10 digits 0) :: ts)

theorem not_isBlank_of_mark {ch : Char} {t : Token} (h : Token.ofChar? ch = some t) : Text.isBlank ch = false := by
  unfold Token.ofChar? at h
  split at h <;> first | rfl | cases h

theorem not_isBlank_of_digit {ch : Char} (h : ch.isDigit = true) : Text.isBlank ch = false := by
  have hrange : 48 ≤ ch.toNat ∧ ch.toNat ≤ 57 := by
    simpa [Char.isDigit, UInt32.le_iff_toNat_le] using h
  simp only [Text.isBlank, Text.blanks, Text.Ranges.mem, List.any_cons, List.any_nil, Bool.or_false,
    Bool.or_eq_false_iff,
    Bool.and_eq_false_iff, decide_eq_false_iff_not]
  omega

theorem ofChar?_of_digit {ch : Char} (h : ch.isDigit = true) : Token.ofChar? ch = none := by
  unfold Token.ofChar?
  split <;> first | rfl | cases h

/-- The tokens of the lexemes. -/
def tokensOf (ls : List Lexeme) : List Token := ls.map (·.token)

variable {offset : ℕ} {ch : Char} {cs rest : List Char} {ts : List Token} {ls : List Lexeme}

theorem lexemes_of_blank (h : Text.isBlank ch = true) :
    lexemes offset (ch :: rest) = lexemes (offset + ch.utf8Size) rest := by
  rw [lexemes, if_pos h]

theorem lexemes_of_mark {t : Token} (h : Token.ofChar? ch = some t) :
    lexemes offset (ch :: rest) = (lexemes (offset + 1) rest).map (⟨offset, ch, t⟩ :: ·) := by
  rw [lexemes, if_neg (by simp [not_isBlank_of_mark h]), h]
  cases lexemes (offset + 1) rest <;> rfl

theorem lexemes_of_digit (h : ch.isDigit = true) : lexemes offset (ch :: rest) =
    if 2 ^ 64 ≤ Nat.ofDigitChars 10 (ch :: rest.takeWhile Char.isDigit) 0 then .error (.integerOverflow offset)
    else (lexemes (offset + 1 + (rest.takeWhile Char.isDigit).length) (rest.dropWhile Char.isDigit)).map
      (⟨offset, ch, .number (Nat.ofDigitChars 10 (ch :: rest.takeWhile Char.isDigit) 0)⟩ :: ·) := by
  rw [lexemes, if_neg (by simp [not_isBlank_of_digit h]), ofChar?_of_digit h, if_pos h,
    show tokenLimit = 2 ^ 64 by norm_num [tokenLimit]]
  by_cases hlarge : 2 ^ 64 ≤ Nat.ofDigitChars 10 (ch :: rest.takeWhile Char.isDigit) 0
  · rw [if_pos hlarge, if_pos hlarge]
    rfl
  · rw [if_neg hlarge, if_neg hlarge]
    cases lexemes (offset + 1 + (rest.takeWhile Char.isDigit).length) (rest.dropWhile Char.isDigit) <;> rfl

theorem lexemes_of_other (hb : Text.isBlank ch = false) (hm : Token.ofChar? ch = none) (hd : ch.isDigit = false) :
    lexemes offset (ch :: rest) = .error (.unexpected ch offset) := by
  rw [lexemes, if_neg (by simp [hb]), hm, if_neg (by simp [hd])]
  rfl

theorem cut_of_lexemes (h : lexemes offset cs = .ok ls) : Cut cs (tokensOf ls) := by
  induction hn : cs.length using Nat.strong_induction_on generalizing offset cs ls with
  | _ k ih =>
    subst hn
    cases cs with
    | nil =>
      rw [lexemes] at h
      obtain rfl := Except.ok.inj h
      exact .done
    | cons ch rest =>
      by_cases hb : Text.isBlank ch = true
      · rw [lexemes_of_blank hb] at h
        exact .blank hb (ih _ (by simp) h rfl)
      cases hm : Token.ofChar? ch with
      | some t =>
        rw [lexemes_of_mark hm] at h
        obtain ⟨ks, hks, rfl⟩ := Guards.map_eq_ok.1 h
        exact .mark hm (ih _ (by simp) hks rfl)
      | none =>
        by_cases hd : ch.isDigit = true
        · rw [lexemes_of_digit hd] at h
          split at h
          · cases h
          · next hsmall =>
            obtain ⟨ks, hks, rfl⟩ := Guards.map_eq_ok.1 h
            have hlength := (List.dropWhile_sublist Char.isDigit (l := rest)).length_le
            have hothers := ih _ (by simp only [List.length_cons]; omega) hks rfl
            have hsplit : ch :: rest = (ch :: rest.takeWhile Char.isDigit) ++ rest.dropWhile Char.isDigit := by
              simp
            rw [hsplit]
            refine .number (by simp) ?_ ?_ (by omega) hothers
            · simpa [hd] using fun d hmem => List.mem_takeWhile_imp hmem
            · intro d hmem
              have := List.head?_dropWhile_not Char.isDigit rest
              rw [Option.mem_def.1 hmem] at this
              simpa using this
        · rw [lexemes_of_other (by simpa using hb) hm (by simpa using hd)] at h
          cases h

theorem lexemes_of_cut (h : Cut cs ts) (offset : ℕ) : ∃ ls, lexemes offset cs = .ok ls ∧ tokensOf ls = ts := by
  induction h generalizing offset with
  | done => exact ⟨[], by rw [lexemes], rfl⟩
  | @blank ch cs ts hblank _ ih =>
    obtain ⟨ls, hls, ht⟩ := ih (offset + ch.utf8Size)
    exact ⟨ls, by rw [lexemes_of_blank hblank, hls], ht⟩
  | @mark ch cs t ts hmark _ ih =>
    obtain ⟨ls, hls, ht⟩ := ih (offset + 1)
    exact ⟨⟨offset, ch, t⟩ :: ls, by rw [lexemes_of_mark hmark, hls]; rfl, by simp [tokensOf, ← ht]⟩
  | @number digits cs ts nonempty digit longest small _ ih =>
    obtain ⟨ch, digits, rfl⟩ := List.exists_cons_of_ne_nil nonempty
    have htail : ∀ d ∈ digits, d.isDigit = true := fun d hd => digit d (by simp [hd])
    have htake : (digits ++ cs).takeWhile Char.isDigit = digits := by
      rw [List.takeWhile_append_of_pos htail]
      cases cs with
      | nil => simp
      | cons d cs => simp [longest d rfl]
    have hdrop : (digits ++ cs).dropWhile Char.isDigit = cs := by
      rw [List.dropWhile_append_of_pos htail]
      cases cs with
      | nil => rfl
      | cons d cs => simp [longest d rfl]
    obtain ⟨ls, hls, ht⟩ := ih (offset + 1 + digits.length)
    refine ⟨⟨offset, ch, .number (Nat.ofDigitChars 10 (ch :: digits) 0)⟩ :: ls, ?_, by simp [tokensOf, ← ht]⟩
    rw [List.cons_append, lexemes_of_digit (digit ch (by simp)), htake, hdrop, if_neg (by omega), hls]
    rfl

/-! ## What is read is derived -/

variable {nested : Nested} {room size : ℕ} {s : Symbol} {l k : Lexeme} {more us : List Lexeme} {e : Expr}

/-- The lexemes begin with a derivation of a symbol that is less than so deep. -/
def Derives (s : Symbol) (room : ℕ) (ls : List Lexeme) (v : s.Tree) (more : List Lexeme) : Prop :=
  ∃ d : Derivation s, d.nesting < room ∧ d.tree = v ∧ tokensOf ls = d.tokens ++ tokensOf more

/-- The phrases that are read one level deeper are derived. -/
structure Faithful (nested : Nested) (room : ℕ) : Prop where
  expr : ∀ ts p, nested .expr ts = .ok p → Derives .expr room ts p.expr p.rest
  term : ∀ ts p, nested .term ts = .ok p → Derives .term room ts p.expr p.rest
  atom : ∀ ts p, nested .atom ts = .ok p → Derives .atom room ts p.expr p.rest

theorem literalLimit_eq : Parser.literalLimit = 2 ^ 63 := by norm_num [Parser.literalLimit]

theorem Faithful.derives_literal {v : ℕ} {p : Parsed (l :: us)} (hl : l.token = .number v)
    (h : Parser.atom.literal l v us = .ok p) : Derives .atom (room + 1) (l :: us) p.expr p.rest := by
  unfold Parser.atom.literal at h
  split at h
  · next hv =>
    obtain rfl := Except.ok.inj h
    exact ⟨.literal v (literalLimit_eq ▸ hv), Nat.succ_pos room, rfl, by simp [tokensOf, Derivation.tokens, hl]⟩
  · cases h

theorem Faithful.derives_atom (hn : Faithful nested room) {p : Parsed us} (h : Parser.atom nested us = .ok p) :
    Derives .atom (room + 1) us p.expr p.rest := by
  cases us with
  | nil => cases h
  | cons l us =>
    unfold Parser.atom at h
    dsimp only at h
    split at h
    · next v hl =>
      split at h
      · exact derives_literal hl h
      · next k us =>
        by_cases hk : k.token = .caret
        · rw [if_pos hk] at h
          split at h
          · next hv =>
            obtain ⟨q, hq, h⟩ := Guards.bind_eq_ok.1 h
            obtain rfl := Except.ok.inj h
            obtain ⟨d, hd, ht, htokens⟩ := hn.atom _ _ hq
            refine ⟨.power d, Nat.succ_lt_succ hd, by simp [Derivation.tree, ht], ?_⟩
            simp only [tokensOf, List.map_cons, Derivation.tokens, List.cons_append] at htokens ⊢
            rw [htokens, hl, hk, hv]
          · cases h
        · rw [if_neg hk] at h
          exact derives_literal hl h
    · next hl =>
      obtain ⟨q, hq, h⟩ := Guards.bind_eq_ok.1 h
      split at h
      · cases h
      · next k more hrest =>
        split at h
        · next hk =>
          obtain rfl := Except.ok.inj h
          obtain ⟨d, hd, ht, htokens⟩ := hn.expr _ _ hq
          refine ⟨.group d, Nat.succ_lt_succ hd, ht, ?_⟩
          simp only [tokensOf, List.map_cons, Derivation.tokens, List.cons_append, hrest] at htokens ⊢
          rw [htokens, hl, hk]
          simp
        · cases h
    · cases h

theorem Faithful.derives_term (hn : Faithful nested room) {p : Parsed us} (h : Parser.term nested us = .ok p) :
    Derives .term (room + 1) us p.expr p.rest := by
  have hplain {us : List Lexeme} {p : Parsed us} (h : Parser.atom nested us = .ok p) :
      Derives .term (room + 1) us p.expr p.rest := by
    obtain ⟨d, hd⟩ := hn.derives_atom h
    exact ⟨.plain d, hd⟩
  cases us with
  | nil => exact hplain h
  | cons l us =>
    unfold Parser.term at h
    dsimp only at h
    split at h
    · next hl =>
      split at h
      · next hlimit =>
        obtain rfl := Except.ok.inj h
        cases us with
        | nil => cases hlimit
        | cons k us =>
          simp only [Parser.startsWithLimit, Bool.and_eq_true, decide_eq_true_eq] at hlimit
          refine ⟨.least, Nat.succ_pos room, by simp [Derivation.tree, Parser.literalLimit], ?_⟩
          simp [tokensOf, Derivation.tokens, hl, hlimit.1, Parser.literalLimit]
      · obtain ⟨q, hq, h⟩ := Guards.bind_eq_ok.1 h
        obtain rfl := Except.ok.inj h
        obtain ⟨d, hd, ht, htokens⟩ := hn.term _ _ hq
        refine ⟨.negated d, Nat.succ_lt_succ hd, by simp [Derivation.tree, ht], ?_⟩
        simp only [tokensOf, List.map_cons, Derivation.tokens, List.cons_append] at htokens ⊢
        rw [htokens, hl]
    · exact hplain h

theorem opToken_of_addOp? {t : Token} {op : AddOp} (h : Parser.addOp? t = some op) : t = opToken op := by
  cases t <;> simp [Parser.addOp?] at h <;> subst h <;> rfl

theorem Faithful.derives_summands (hn : Faithful nested room) {q : Parser.Summands us}
    (h : Parser.summands nested us = .ok q) :
    Derives .tail (room + 1) us q.summands q.rest := by
  induction hlength : us.length using Nat.strong_induction_on generalizing us with
  | _ n ih =>
    subst hlength
    rw [Parser.summands.eq_def] at h
    split at h
    · obtain rfl := Except.ok.inj h
      exact ⟨.done, Nat.succ_pos room, rfl, rfl⟩
    · next l us =>
      split at h
      · obtain rfl := Except.ok.inj h
        exact ⟨.done, Nat.succ_pos room, rfl, rfl⟩
      · next op hop =>
        obtain ⟨p, hp, h⟩ := Guards.bind_eq_ok.1 h
        obtain ⟨q, hq, h⟩ := Guards.bind_eq_ok.1 h
        obtain rfl := Except.ok.inj h
        obtain ⟨d, hd, ht, htokens⟩ := hn.derives_term hp
        obtain ⟨ds, hds, hts, hmore⟩ := ih _ (by have := p.shorter; simp only [List.length_cons]; omega) hq rfl
        refine ⟨.more op d ds, max_lt hd hds, by simp [Derivation.tree, ht, hts], ?_⟩
        simp only [tokensOf, List.map_cons, Derivation.tokens, List.cons_append, List.append_assoc] at htokens hmore ⊢
        rw [htokens, hmore, opToken_of_addOp? hop]

theorem Faithful.derives_expr (hn : Faithful nested room) {p : Parsed us} (h : Parser.expr nested us = .ok p) :
    Derives .expr (room + 1) us p.expr p.rest := by
  obtain ⟨p, hp, h⟩ := Guards.bind_eq_ok.1 h
  obtain ⟨q, hq, h⟩ := Guards.bind_eq_ok.1 h
  obtain rfl := Except.ok.inj h
  obtain ⟨d, hd, ht, htokens⟩ := hn.derives_term hp
  obtain ⟨ds, hds, hts, hmore⟩ := hn.derives_summands hq
  refine ⟨.sum d ds, max_lt hd hds, by simp [Derivation.tree, ht, hts], ?_⟩
  rw [htokens, hmore, Derivation.tokens, List.append_assoc]

theorem faithful_within (size room : ℕ) : Faithful (Parser.within size room) room := by
  induction room with
  | zero => exact ⟨nofun, nofun, nofun⟩
  | succ room ih => exact ⟨fun _ _ => ih.derives_expr, fun _ _ => ih.derives_term, fun _ _ => ih.derives_atom⟩

/-! ## What is derived is read -/

/-- What is read for a symbol at the front of some lexemes, and the lexemes after it. -/
def read (nested : Nested) : (s : Symbol) → List Lexeme → Except ParseError (s.Tree × List Lexeme)
  | .expr, us => (Parser.expr nested us).map fun p => (p.expr, p.rest)
  | .tail, us => (Parser.summands nested us).map fun q => (q.summands, q.rest)
  | .term, us => (Parser.term nested us).map fun p => (p.expr, p.rest)
  | .atom, us => (Parser.atom nested us).map fun p => (p.expr, p.rest)

theorem exists_of_read_expr (h : read nested .expr us = .ok (e, more)) :
    ∃ p, Parser.expr nested us = .ok p ∧ p.expr = e ∧ p.rest = more := by
  obtain ⟨p, hp, heq⟩ := Guards.map_eq_ok.1 h
  exact ⟨p, hp, congrArg Prod.fst heq, congrArg Prod.snd heq⟩

theorem exists_of_read_term (h : read nested .term us = .ok (e, more)) :
    ∃ p, Parser.term nested us = .ok p ∧ p.expr = e ∧ p.rest = more := by
  obtain ⟨p, hp, heq⟩ := Guards.map_eq_ok.1 h
  exact ⟨p, hp, congrArg Prod.fst heq, congrArg Prod.snd heq⟩

theorem exists_of_read_atom (h : read nested .atom us = .ok (e, more)) :
    ∃ p, Parser.atom nested us = .ok p ∧ p.expr = e ∧ p.rest = more := by
  obtain ⟨p, hp, heq⟩ := Guards.map_eq_ok.1 h
  exact ⟨p, hp, congrArg Prod.fst heq, congrArg Prod.snd heq⟩

theorem token_ne_caret (h : Stops s (tokensOf (k :: us))) : k.token ≠ .caret := by
  intro hk
  rw [tokensOf, List.map_cons, hk] at h
  exact not_stops_caret s h

theorem read_literal {v : ℕ} (hl : l.token = .number v) (hv : v < 2 ^ 63) (hs : Stops .atom (tokensOf more)) :
    read nested .atom (l :: more) = .ok (.int v, more) := by
  have hliteral : Parser.atom.literal l v more = .ok ⟨.int v, more, by simp⟩ :=
    if_pos (literalLimit_eq ▸ hv)
  cases more with
  | nil => simp [read, Parser.atom, hl, hliteral, Except.map]
  | cons k us => simp [read, Parser.atom, hl, token_ne_caret hs, hliteral, Except.map]

theorem read_power {p : Parsed us} (hl : l.token = .number 2) (hk : k.token = .caret) (hp : nested .atom us = .ok p)
    (he : p.expr = e) (hrest : p.rest = more) : read nested .atom (l :: k :: us) = .ok (.power e, more) := by
  subst he hrest
  simp only [read, Parser.atom, hl, hk, hp, ↓reduceIte]
  rfl

theorem read_group {p : Parsed us} (hl : l.token = .left) (hp : nested .expr us = .ok p) (hrest : p.rest = k :: more)
    (hk : k.token = .right) : read nested .atom (l :: us) = .ok (p.expr, more) := by
  obtain ⟨e, rest, shorter⟩ := p
  obtain rfl : rest = k :: more := hrest
  simp only [read, Parser.atom, hl, hp]
  show Except.map _ (if k.token = .right then _ else _) = _
  rw [if_pos hk]
  rfl

theorem read_plain (h : ∀ k ∈ us.head?, k.token ≠ .minus) : read nested .term us = read nested .atom us := by
  cases us with
  | nil => rfl
  | cons k us => simp only [read, Parser.term, if_neg (h k rfl)]

theorem read_least (hl : l.token = .minus) (hk : k.token = .number (2 ^ 63)) (hs : Stops .term (tokensOf more)) :
    read nested .term (l :: k :: more) = .ok (.int (-2 ^ 63), more) := by
  have hstop : Parser.startsWith .caret more = false := by
    cases more with
    | nil => rfl
    | cons k us => simpa [Parser.startsWith] using token_ne_caret hs
  simp [read, Parser.term, hl, Parser.startsWithLimit, hk, hstop, literalLimit_eq, Except.map]

theorem read_negated {p : Parsed us} (hl : l.token = .minus) (hus : ∀ k ∈ us.head?, k.token ≠ .number (2 ^ 63))
    (hp : nested .term us = .ok p) (he : p.expr = e) (hrest : p.rest = more) :
    read nested .term (l :: us) = .ok (.neg e, more) := by
  subst he hrest
  have hlimit : Parser.startsWithLimit us = false := by
    cases us with
    | nil => rfl
    | cons k us => simpa [Parser.startsWithLimit, literalLimit_eq] using fun h => absurd h (hus k rfl)
  simp only [read, Parser.term, hl, hlimit, hp]
  rfl

theorem read_done (hs : Stops .tail (tokensOf more)) : read nested .tail more = .ok ([], more) := by
  cases more with
  | nil => simp [read, Parser.summands, Except.map]
  | cons k us =>
    have hop : Parser.addOp? k.token = none := by
      by_contra hne
      obtain ⟨op, hop⟩ := Option.ne_none_iff_exists'.1 hne
      rw [tokensOf, List.map_cons, opToken_of_addOp? hop] at hs
      exact not_stops_op op hs
    simp [read, Parser.summands, hop, Except.map]

theorem addOp?_opToken (op : AddOp) : Parser.addOp? (opToken op) = some op := by cases op <;> rfl

theorem read_more {op : AddOp} {vs : List (AddOp × Expr)} {mid : List Lexeme} (hl : l.token = opToken op)
    (hnext : read nested .term us = .ok (e, mid)) (hothers : read nested .tail mid = .ok (vs, more)) :
    read nested .tail (l :: us) = .ok ((op, e) :: vs, more) := by
  obtain ⟨p, hp, rfl, rfl⟩ := exists_of_read_term hnext
  obtain ⟨q, hq, heq⟩ := Guards.map_eq_ok.1 hothers
  obtain ⟨rfl, rfl⟩ := Prod.mk.inj heq
  simp only [read]
  rw [Parser.summands]
  simp only [hl, addOp?_opToken, hp, Except.map]
  show Except.map _ (Parser.summands nested p.rest >>= _) = _
  rw [hq]
  rfl

theorem read_sum {vs : List (AddOp × Expr)} {mid : List Lexeme} (hfirst : read nested .term us = .ok (e, mid))
    (hothers : read nested .tail mid = .ok (vs, more)) :
    read nested .expr us = .ok (Parser.sumOf e vs, more) := by
  obtain ⟨p, hp, rfl, rfl⟩ := exists_of_read_term hfirst
  obtain ⟨q, hq, heq⟩ := Guards.map_eq_ok.1 hothers
  obtain ⟨rfl, rfl⟩ := Prod.mk.inj heq
  simp only [read, Parser.expr, hp]
  show Except.map _ (Parser.summands nested p.rest >>= _) = _
  rw [hq]
  rfl

theorem tokensOf_append (ls us : List Lexeme) : tokensOf (ls ++ us) = tokensOf ls ++ tokensOf us := List.map_append

theorem split_of_tokensOf {ls : List Lexeme} {ts us : List Token} (h : tokensOf ls = ts ++ us) :
    ∃ ls₁ ls₂, ls = ls₁ ++ ls₂ ∧ tokensOf ls₁ = ts ∧ tokensOf ls₂ = us :=
  List.map_eq_append_iff.1 h

theorem cons_of_tokensOf {ls : List Lexeme} {t : Token} {ts : List Token} (h : tokensOf ls = t :: ts) :
    ∃ l us, ls = l :: us ∧ l.token = t ∧ tokensOf us = ts :=
  List.map_eq_cons_iff.1 h

/-- What the first lexeme is not, where the tokens do not begin with it. -/
theorem head_ne {t : Token} (h : ∀ ts, tokensOf us ≠ t :: ts) : ∀ k ∈ us.head?, k.token ≠ t := by
  intro k hk hkt
  obtain ⟨ks, rfl⟩ := List.head?_eq_some_iff.1 hk
  exact h (tokensOf ks) (by rw [tokensOf, List.map_cons, hkt]; rfl)

/-- A derivation is read with as much room as it is deep, whatever follows that does not go on with it. -/
theorem read_of_derivation (size : ℕ) (d : Derivation s) : ∀ {room : ℕ} {ls more : List Lexeme}, d.nesting ≤ room →
    tokensOf ls = d.tokens → Stops s (tokensOf more) →
    read (Parser.within size room) s (ls ++ more) = .ok (d.tree, more) := by
  induction d with
  | sum first others ihfirst ihothers =>
    intro room ls more hroom hls hs
    obtain ⟨ls₁, ls₂, rfl, h₁, h₂⟩ := split_of_tokensOf hls
    have hmid : Stops .term (tokensOf (ls₂ ++ more)) := by
      rw [tokensOf_append, h₂]
      exact stops_tail others hs
    rw [List.append_assoc]
    exact read_sum (ihfirst ((le_max_left _ _).trans hroom) h₁ hmid)
      (ihothers ((le_max_right _ _).trans hroom) h₂ hs)
  | done =>
    intro room ls more hroom hls hs
    obtain rfl : ls = [] := List.map_eq_nil_iff.1 hls
    exact read_done hs
  | more op next others ihnext ihothers =>
    intro room ls more hroom hls hs
    obtain ⟨l, us, rfl, hl, hus⟩ := cons_of_tokensOf hls
    obtain ⟨ls₁, ls₂, rfl, h₁, h₂⟩ := split_of_tokensOf hus
    have hmid : Stops .term (tokensOf (ls₂ ++ more)) := by
      rw [tokensOf_append, h₂]
      exact stops_tail others hs
    rw [List.cons_append, List.append_assoc]
    exact read_more hl (ihnext ((le_max_left _ _).trans hroom) h₁ hmid)
      (ihothers ((le_max_right _ _).trans hroom) h₂ hs)
  | negated t ih =>
    intro room ls more hroom hls hs
    obtain ⟨l, us, rfl, hl, hus⟩ := cons_of_tokensOf hls
    obtain ⟨room, rfl⟩ : ∃ k, room = k + 1 := Nat.exists_eq_succ_of_ne_zero (by rintro rfl; cases hroom)
    obtain ⟨p, hp, he, hrest⟩ := exists_of_read_term (ih (Nat.le_of_succ_le_succ hroom) hus hs)
    have hlimit : ∀ ts, tokensOf (us ++ more) ≠ .number (2 ^ 63) :: ts := fun ts => by
      rw [tokensOf_append, hus]
      exact term_ne_limit t _ ts
    exact read_negated hl (head_ne hlimit) hp he hrest
  | least =>
    intro room ls more hroom hls hs
    obtain ⟨l, us, rfl, hl, hus⟩ := cons_of_tokensOf hls
    obtain ⟨k, vs, rfl, hk, hvs⟩ := cons_of_tokensOf hus
    obtain rfl : vs = [] := List.map_eq_nil_iff.1 hvs
    exact read_least hl hk hs
  | plain a ih =>
    intro room ls more hroom hls hs
    have hminus : ∀ ts, tokensOf (ls ++ more) ≠ .minus :: ts := fun ts => by
      rw [tokensOf_append, hls]
      exact atom_ne_minus a _ ts
    rw [read_plain (head_ne hminus)]
    exact ih hroom hls hs
  | literal v small =>
    intro room ls more hroom hls hs
    obtain ⟨l, us, rfl, hl, hus⟩ := cons_of_tokensOf hls
    obtain rfl : us = [] := List.map_eq_nil_iff.1 hus
    exact read_literal hl small hs
  | power a ih =>
    intro room ls more hroom hls hs
    obtain ⟨l, us, rfl, hl, hus⟩ := cons_of_tokensOf hls
    obtain ⟨k, vs, rfl, hk, hvs⟩ := cons_of_tokensOf hus
    obtain ⟨room, rfl⟩ : ∃ k, room = k + 1 := Nat.exists_eq_succ_of_ne_zero (by rintro rfl; cases hroom)
    obtain ⟨p, hp, he, hrest⟩ := exists_of_read_atom (ih (Nat.le_of_succ_le_succ hroom) hvs hs)
    exact read_power hl hk hp he hrest
  | group inner ih =>
    intro room ls more hroom hls hs
    obtain ⟨l, us, rfl, hl, hus⟩ := cons_of_tokensOf hls
    obtain ⟨ls₁, ls₂, rfl, h₁, h₂⟩ := split_of_tokensOf hus
    obtain ⟨k, vs, rfl, hk, hvs⟩ := cons_of_tokensOf h₂
    obtain rfl : vs = [] := List.map_eq_nil_iff.1 hvs
    obtain ⟨room, rfl⟩ : ∃ k, room = k + 1 := Nat.exists_eq_succ_of_ne_zero (by rintro rfl; cases hroom)
    have hclose : Stops .expr (tokensOf (k :: more)) := by
      rw [tokensOf, List.map_cons, hk]
      exact stops_right _ _
    obtain ⟨p, hp, he, hrest⟩ := exists_of_read_expr (ih (Nat.le_of_succ_le_succ hroom) h₁ hclose)
    rw [List.cons_append, List.append_assoc, Derivation.tree, ← he]
    exact read_group hl hp hrest hk

theorem parse_of_derivation {text : String} {d : Derivation .expr} (hcut : Cut text.toList d.tokens)
    (hd : d.nesting ≤ maxDepth) : Expr.parse text = .ok d.tree := by
  obtain ⟨ls, hls, hts⟩ := lexemes_of_cut hcut 0
  have hread : read (Parser.within text.utf8ByteSize maxDepth) .expr (ls ++ []) = .ok (d.tree, []) :=
    read_of_derivation text.utf8ByteSize d hd hts (stops_nil _)
  rw [List.append_nil] at hread
  obtain ⟨⟨e, rest, shorter⟩, hp, rfl, rfl⟩ := exists_of_read_expr hread
  rw [Expr.parse, hls]
  show (Parser.expr _ ls >>= _) = _
  rw [hp]
  rfl

theorem derivation_of_parse {text : String} {e : Expr} (h : Expr.parse text = .ok e) :
    ∃ d : Derivation .expr, Cut text.toList d.tokens ∧ d.nesting ≤ maxDepth ∧ d.tree = e := by
  obtain ⟨ls, hls, h⟩ := Guards.bind_eq_ok.1 h
  obtain ⟨p, hp, h⟩ := Guards.bind_eq_ok.1 h
  split at h
  · next hrest =>
    obtain rfl := Except.ok.inj h
    obtain ⟨d, hd, ht, htokens⟩ := (faithful_within _ maxDepth).derives_expr hp
    rw [hrest, show tokensOf [] = [] from rfl, List.append_nil] at htokens
    exact ⟨d, htokens ▸ cut_of_lexemes hls, Nat.le_of_lt_succ hd, ht⟩
  · cases h

theorem Cut.unique {cs : List Char} {ts us : List Token} (h : Cut cs ts) (h' : Cut cs us) : ts = us := by
  obtain ⟨ls, hls, rfl⟩ := lexemes_of_cut h 0
  obtain ⟨ks, hks, rfl⟩ := lexemes_of_cut h' 0
  rw [hls] at hks
  rw [Except.ok.inj hks]

/-- A text is read as an expression exactly if it is cut into tokens that have a derivation of at most 256 levels; both
are unique then, and the expression is what the derivation stands for. In a derivation no caret follows the least
integer. -/
theorem parse_eq_ok_iff_derived (text : String) (e : Expr) :
    (Expr.parse text = .ok e ↔ ∃ ts, Cut text.toList ts ∧ (∀ us, Cut text.toList us → us = ts) ∧
      ∃ d : Derivation .expr, d.tokens = ts ∧ d.nesting ≤ 256 ∧ (∀ d' : Derivation .expr, d'.tokens = ts → d' = d) ∧
        d.tree = e) ∧
    ∀ d : Derivation .expr, CaretAfterTwo d.tokens := by
  refine ⟨⟨fun h => ?_, ?_⟩, caret_after_two⟩
  · obtain ⟨d, hcut, hd, ht⟩ := derivation_of_parse h
    exact ⟨d.tokens, hcut, fun us hus => hus.unique hcut, d, rfl, hd, fun d' hd' => unambiguous hd', ht⟩
  · rintro ⟨ts, hcut, -, d, rfl, hd, -, rfl⟩
    exact parse_of_derivation hcut hd

/-- Parentheses leave no node, and the caret binds tighter than the minus sign in front. -/
example : Expr.parse "-2^(3 - 1)" = .ok (.neg (.power (.sum (.int 3) [(.minus, .int 1)]))) := by cbv

end PowerTower.Grammar
