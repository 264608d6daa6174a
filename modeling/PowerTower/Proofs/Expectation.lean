import Mathlib
import PowerTower.Proofs.Grammar

/-!
# Beginnings of phrases

* `Viable`, `Stuck` : tokens that are the beginning of a phrase, and a token that no phrase goes on with after them;
* `Expects` : what a phrase has to go on with after its first tokens, so that the outer phrase is stuck where the inner
  one is (`Expects.stuck`);
* `Settled` : the token after a phrase does not go on with it, or is a caret that no two stands before. Then no other
  phrase begins like that (`Settled.unique`).
-/

namespace PowerTower.Grammar

variable {s s' : Symbol} {room room' size : ℕ} {pre start us more : List Token} {t : Token} {G : List Token → Prop}

/-- Some tokens are the beginning of a phrase that is less than so deep, and not all of it. -/
def Viable (s : Symbol) (room : ℕ) (pre : List Token) : Prop :=
  ∃ us, us ≠ [] ∧ ∃ d : Derivation s, d.nesting < room ∧ d.tokens = pre ++ us

/-- No phrase goes on with a token after some others. -/
def Blocked (s : Symbol) (pre : List Token) (t : Token) : Prop :=
  ∀ (d : Derivation s) (rest us : List Token), Stops s rest → d.tokens ++ rest ≠ pre ++ t :: us

/-- Some tokens are the beginning of a phrase, and no phrase goes on with the next one. A number is not refused at the
front. -/
structure Stuck (s : Symbol) (room : ℕ) (pre : List Token) (t : Token) : Prop where
  viable : Viable s room pre
  blocked : Blocked s pre t
  number : pre = [] → ∀ v, t ≠ .number v

/-- After the tokens `start` a phrase has to go on with one for `s'`, where the tokens that follow are as `G` says. -/
structure Expects (s : Symbol) (room : ℕ) (start : List Token) (s' : Symbol) (room' : ℕ)
    (G : List Token → Prop) : Prop where
  complete : ∀ d' : Derivation s', d'.nesting < room' →
    ∃ (d : Derivation s) (post : List Token), d.nesting < room ∧ d.tokens = start ++ (d'.tokens ++ post)
  inner : ∀ (d : Derivation s) (rest us : List Token), Stops s rest → G us → d.tokens ++ rest = start ++ us →
    ∃ (d' : Derivation s') (rest' : List Token), Stops s' rest' ∧ d'.tokens ++ rest' = us

theorem Expects.viable (h : Expects s room start s' room' G) (hpre : Viable s' room' pre) :
    Viable s room (start ++ pre) := by
  obtain ⟨us, hus, d', hd', htokens'⟩ := hpre
  obtain ⟨d, post, hd, htokens⟩ := h.complete d' hd'
  exact ⟨us ++ post, by simp [hus], d, hd, by rw [htokens, htokens', List.append_assoc, List.append_assoc]⟩

theorem Expects.stuck (h : Expects s room start s' room' G) (hG : ∀ us, G (pre ++ t :: us))
    (hstuck : Stuck s' room' pre t) :
    Stuck s room (start ++ pre) t where
  viable := h.viable hstuck.viable
  blocked := fun d rest us hrest heq => by
    rw [List.append_assoc] at heq
    obtain ⟨d', rest', hrest', heq'⟩ := h.inner d rest _ hrest (hG us) heq
    exact hstuck.blocked d' rest' us hrest' heq'
  number := fun hnil => hstuck.number (List.append_eq_nil_iff.1 hnil).2

/-- The next token does not go on with a phrase, or it is a caret and the phrase does not end with a two. -/
def Settled (s : Symbol) (pre more : List Token) : Prop :=
  ∀ t ∈ more.head?, GoesOn s t → t = .caret ∧ pre.getLast? ≠ some (.number 2)

theorem Settled.after (h : Settled s pre more) (hpre : pre ≠ []) (hs : ∀ t, GoesOn s' t → GoesOn s t)
    (start : List Token) :
    Settled s' (start ++ pre) more := fun t ht hgoes => by
  rw [List.getLast?_append_of_ne_nil _ hpre]
  exact h t ht (hs t hgoes)

/-- Where summands follow a term, the sum ends as they do. -/
theorem Settled.append (hterm : Settled .term start (pre ++ more)) (htail : Settled .tail pre more) :
    Settled .tail (start ++ pre) more := by
  rcases eq_or_ne pre [] with rfl | hpre
  · intro t ht hgoes
    have hcaret := (htail t ht hgoes).1
    rw [List.append_nil]
    exact hterm t ht hcaret
  · exact htail.after hpre (fun _ h => h) start

/-- A caret follows a two. -/
theorem CaretAfterTwo.getLast? (h : CaretAfterTwo (pre ++ .caret :: us)) : pre.getLast? = some (.number 2) := by
  rcases List.eq_nil_or_concat pre with rfl | ⟨front, t, rfl⟩
  · exact absurd rfl h.head
  · have htwo := (List.isChain_append.1 h.next).2.2 t (by simp) .caret rfl rfl
    simp [htwo]

/-- A phrase that was read is the only one that the tokens begin with. -/
theorem Settled.unique {d d' : Derivation s} {rest : List Token} (h : Settled s d'.tokens more) (hrest : Stops s rest)
    (heq : d.tokens ++ rest = d'.tokens ++ more) : d = d' ∧ rest = more := by
  by_cases hmore : Stops s more
  · exact derivation_unique d d' hrest hmore heq
  obtain ⟨t, ht, hgoes⟩ : ∃ t, t ∈ more.head? ∧ GoesOn s t := by simpa [Stops] using hmore
  obtain ⟨rfl, hlast⟩ := h t ht hgoes
  obtain ⟨us, rfl⟩ := List.head?_eq_some_iff.1 ht
  have hne : rest ≠ .caret :: us := fun heq => hmore (heq ▸ hrest)
  rcases List.append_eq_append_iff.1 heq with ⟨x, hd', rfl⟩ | ⟨x, hd, hx⟩
  · -- the shorter phrase and what follows it would be the longer phrase
    have hx : Stops s x := by
      cases x with
      | nil => exact stops_nil s
      | cons y x => exact hrest
    have hnil := (derivation_unique d d' hx (stops_nil s) (by rw [List.append_nil, hd'])).2
    exact absurd (by rw [hnil, List.nil_append]) hne
  · cases x with
    | nil => exact absurd hx.symm hne
    | cons y x =>
      -- the caret would be in a phrase, where it follows a two
      obtain ⟨rfl, -⟩ := List.cons.inj hx
      exact absurd (CaretAfterTwo.getLast? (hd ▸ caret_after_two d)) hlast

end PowerTower.Grammar
