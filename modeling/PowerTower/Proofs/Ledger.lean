import Mathlib
import PowerTower.Proofs.Order

/-!
# The ledger of node names

A place is used again and again, and its generation tells its holders apart. A ledger lists the names that were given
out and those that were given up; the generation of a place counts how often a name of the place was given up, as a
word.

* `Turns` : a change put together from giving out a name (`alloc`), giving one up (`freeNode`) and changes that do
  neither (`Quiet`);
* `Turns.stored_live` : the store stays in order, and names are live until they are given up;
* `Ledger` : the names of both kinds, read off the places;
* `Turns.ledger` : the ledger is kept up, as long as no place is given up so often that its generation comes round;
* `Ledger.checkNode_eq_ok_iff` : the names that are accepted are those given out and not given up.
-/

namespace PowerTower.Circuit

variable {c d e : Circuit} {m n : Node} {issued gone more lost : List Node} {i : ℕ}

/-- No node is made or freed. -/
structure Quiet (c d : Circuit) : Prop where
  id : d.id = c.id
  free : d.free = c.free
  liveNodes : d.liveNodes = c.liveNodes
  size : d.slots.size = c.slots.size
  live : ∀ i, (d.slotAt i).live = (c.slotAt i).live
  generation : ∀ i, (d.slotAt i).generation = (c.slotAt i).generation

theorem Quiet.refl (c : Circuit) : Quiet c c := ⟨rfl, rfl, rfl, rfl, fun _ => rfl, fun _ => rfl⟩

theorem SameNodes.quiet (h : c.SameNodes d) : Quiet c d := ⟨h.id, h.free, h.liveNodes, h.size, h.live, h.generation⟩

theorem Quiet.live_iff (h : Quiet c d) : d.Live n ↔ c.Live n := by
  rw [Live, slot, h.id, h.live, h.generation]
  rfl

theorem Quiet.stored (h : Quiet c d) (hs : c.Stored) : d.Stored := hs.congr h.free h.liveNodes h.size h.live

/-- From `c` to `d` the first list of names is given out and the second is given up. -/
inductive Turns : Circuit → List Node → List Node → Circuit → Prop
  | quiet {c d : Circuit} (h : Quiet c d) : Turns c [] [] d
  | issue (c : Circuit) (ts : List Term) : Turns c [(c.alloc ts).1] [] (c.alloc ts).2
  | retire {c : Circuit} {n : Node} (hn : c.Live n) : Turns c [] [n] (c.freeNode n)
  | trans {c d e : Circuit} {issued gone more lost : List Node} (h : Turns c issued gone d) (h' : Turns d more lost e) :
      Turns c (issued ++ more) (gone ++ lost) e

theorem Turns.refl (c : Circuit) : Turns c [] [] c := .quiet (.refl c)

/-- The store stays in order, and a name that is not given up stays live. -/
theorem Turns.stored_live (h : Turns c issued gone d) (hs : c.Stored) :
    d.Stored ∧ ∀ n, c.Live n → n ∉ gone → d.Live n := by
  induction h with
  | quiet h => exact ⟨h.stored hs, fun n hn _ => h.live_iff.2 hn⟩
  | issue c ts => exact ⟨hs.alloc ts, fun n hn _ => hs.alloc_live_of_live ts hn⟩
  | @retire c n hn => exact ⟨hs.freeNode hn, fun m hm hne => hn.freeNode_live_iff.2 ⟨hm, by simpa using hne⟩⟩
  | trans _ _ ih ih' =>
    obtain ⟨hs, hlive⟩ := ih hs
    obtain ⟨hs, hlive'⟩ := ih' hs
    refine ⟨hs, fun n hn hnot => ?_⟩
    rw [List.mem_append, not_or] at hnot
    exact hlive' n (hlive n hn hnot.1) hnot.2

/-! ## The ledger -/

/-- How many of the names belong to a place. -/
def frees (gone : List Node) (i : ℕ) : ℕ := gone.countP fun n => n.index = i

theorem frees_append : frees (gone ++ lost) i = frees gone i + frees lost i := List.countP_append

theorem frees_concat : frees (gone ++ [n]) i = frees gone i + if n.index = i then 1 else 0 := by
  rw [frees_append, frees, frees, List.countP_singleton]
  simp

/-- No place was given up so often that its generation came round. -/
def Fresh (gone : List Node) : Prop := ∀ i, frees gone i < 2 ^ 32

theorem Fresh.of_append (h : Fresh (gone ++ lost)) : Fresh gone := fun i => by
  have hi := h i
  rw [frees_append] at hi
  omega

/-- The names that were given out and given up, read off the places: the holders of a place were given up one after the
other, the generation counts them, and one more holder was given out if the place is live. -/
structure Ledger (c : Circuit) (issued gone : List Node) : Prop where
  stored : c.Stored
  generation : ∀ i, (c.slotAt i).generation = UInt32.ofNat (frees gone i)
  mem_issued : ∀ n, n ∈ issued ↔ n.circuit = c.id ∧ ∃ g, n.generation = UInt32.ofNat g ∧
    (g < frees gone n.index ∨ g = frees gone n.index ∧ (c.slotAt n.index).live = true)
  mem_gone : ∀ n, n ∈ gone ↔ n.circuit = c.id ∧ ∃ g, n.generation = UInt32.ofNat g ∧ g < frees gone n.index
  nodup : issued.Nodup

theorem ledger_empty (id : CircuitId) (config : Config) : Ledger (empty id config) [] [] where
  stored := (wellFormed_empty id config).toStored
  generation := fun i => by simp [empty, slotAt, frees]
  mem_issued := fun n => by simp [empty, slotAt, frees]
  mem_gone := fun n => by simp [frees]
  nodup := List.nodup_nil

theorem ofNat_inj {g k : ℕ} (hg : g < 2 ^ 32) (hk : k < 2 ^ 32) (h : UInt32.ofNat g = UInt32.ofNat k) : g = k := by
  have hnat := congrArg UInt32.toNat h
  rwa [UInt32.toNat_ofNat_of_lt' hg, UInt32.toNat_ofNat_of_lt' hk] at hnat

theorem Quiet.ledger (h : Quiet c d) (hl : Ledger c issued gone) : Ledger d issued gone where
  stored := h.stored hl.stored
  generation := fun i => (h.generation i).trans (hl.generation i)
  mem_issued := fun n => by rw [hl.mem_issued, h.id, h.live]
  mem_gone := fun n => by rw [hl.mem_gone, h.id]
  nodup := hl.nodup

/-- A name that is given out belongs to a place without a node, so it is none of those given out before. -/
theorem Ledger.alloc (hl : Ledger c issued gone) (hfresh : Fresh gone) (ts : List Term) :
    Ledger (c.alloc ts).2 (issued ++ [(c.alloc ts).1]) gone := by
  have hdead := hl.stored.fresh_not_live
  have hname : (c.alloc ts).1 = ⟨c.id, c.freshIndex, UInt32.ofNat (frees gone c.freshIndex)⟩ := by
    rw [hl.stored.alloc_node, nodeAt, hl.generation]
  have hnew : (c.alloc ts).1 ∉ issued := by
    rw [hname, hl.mem_issued]
    rintro ⟨-, g, hg, hlt | ⟨-, hlive⟩⟩
    · exact absurd (ofNat_inj (hlt.trans (hfresh _)) (hfresh _) hg.symm) hlt.ne
    · rw [hdead] at hlive
      cases hlive
  refine ⟨hl.stored.alloc ts, fun i => (hl.stored.alloc_generation ts i).trans (hl.generation i),
    fun n => ?_, fun n => ?_,
    ?_⟩
  · rw [List.mem_append, List.mem_singleton, hl.mem_issued, hl.stored.alloc_slotAt, alloc_id]
    by_cases hi : n.index = c.freshIndex
    · rw [if_pos hi, hi, hdead]
      constructor
      · rintro (⟨hc, g, hg, hlt | ⟨-, hf⟩⟩ | rfl)
        · exact ⟨hc, g, hg, .inl hlt⟩
        · cases hf
        · rw [hname]
          exact ⟨rfl, _, rfl, .inr ⟨rfl, rfl⟩⟩
      · rintro ⟨hc, g, hg, hlt | ⟨rfl, -⟩⟩
        · exact .inl ⟨hc, g, hg, .inl hlt⟩
        · obtain ⟨nc, ni, ng⟩ := n
          obtain rfl : nc = c.id := hc
          obtain rfl : ni = c.freshIndex := hi
          obtain rfl : ng = _ := hg
          exact .inr hname.symm
    · have hne : n ≠ (c.alloc ts).1 := fun he => hi (by rw [he, hname])
      rw [if_neg hi, or_iff_left hne]
  · rw [hl.mem_gone, alloc_id]
  · exact List.nodup_append.2 ⟨hl.nodup, List.nodup_singleton _, fun a ha b hb => by
      rw [List.mem_singleton.1 hb]
      exact fun he => hnew (he ▸ ha)⟩

/-- The name that is given up is the last one that the place had. -/
theorem Ledger.freeNode (hl : Ledger c issued gone) (hn : c.Live n) : Ledger (c.freeNode n) issued (gone ++ [n]) := by
  have hgen : n.generation = UInt32.ofNat (frees gone n.index) := by rw [← hl.generation]; exact hn.2.2.symm
  have hslot := hn.freeNode_slotAt
  refine ⟨hl.stored.freeNode hn, fun i => ?_, fun m => ?_, fun m => ?_, hl.nodup⟩
  · rw [hslot, frees_concat]
    split_ifs with h1 h2 h2
    · rw [hl.generation, UInt32.ofNat_add]
      rfl
    · exact absurd h1.symm h2
    · exact absurd h2.symm h1
    · exact hl.generation i
  · rw [hl.mem_issued, hslot, frees_concat]
    refine and_congr_right fun _ => exists_congr fun g => and_congr_right fun _ => ?_
    by_cases hi : m.index = n.index
    · rw [if_pos hi, if_pos hi.symm, hi, show (c.slotAt n.index).live = true from hn.2.1]
      simp only [and_true, Bool.false_eq_true, and_false, or_false]
      omega
    · rw [if_neg hi, if_neg (Ne.symm hi), add_zero]
  · rw [List.mem_append, List.mem_singleton, hl.mem_gone, frees_concat]
    by_cases hi : m.index = n.index
    · rw [if_pos hi.symm, hi]
      constructor
      · rintro (⟨hc, g, hg, hlt⟩ | rfl)
        · exact ⟨hc, g, hg, by omega⟩
        · exact ⟨hn.1, _, hgen, Nat.lt_succ_self _⟩
      · rintro ⟨hc, g, hg, hlt⟩
        rcases (Nat.lt_succ_iff.1 hlt).lt_or_eq with hlt | rfl
        · exact .inl ⟨hc, g, hg, hlt⟩
        · obtain ⟨mc, mi, mg⟩ := m
          obtain ⟨nc, ni, ng⟩ := n
          obtain rfl : nc = c.id := hn.1
          obtain rfl : mc = c.id := hc
          obtain rfl : mi = ni := hi
          obtain rfl : mg = ng := hg.trans hgen.symm
          exact .inr rfl
    · have hne : m ≠ n := fun he => hi (by rw [he])
      rw [if_neg (Ne.symm hi), add_zero, or_iff_left hne]
      rfl

/-- By induction on the change. -/
theorem Turns.ledger (h : Turns c more lost d) (hl : Ledger c issued gone) (hfresh : Fresh (gone ++ lost)) :
    Ledger d (issued ++ more) (gone ++ lost) := by
  induction h generalizing issued gone with
  | quiet h => simpa using h.ledger hl
  | issue c ts => simpa using hl.alloc hfresh.of_append ts
  | retire hn => simpa using hl.freeNode hn
  | trans _ _ ih ih' =>
    rw [← List.append_assoc] at hfresh
    simpa using ih' (ih hl hfresh.of_append) hfresh

/-! ## What the check accepts -/

theorem Ledger.live_iff (hl : Ledger c issued gone) (hfresh : Fresh gone) : c.Live n ↔ n ∈ issued ∧ n ∉ gone := by
  rw [hl.mem_issued, hl.mem_gone, Live, slot, hl.generation]
  constructor
  · rintro ⟨hc, hlive, hgen⟩
    refine ⟨⟨hc, _, hgen.symm, .inr ⟨rfl, hlive⟩⟩, ?_⟩
    rintro ⟨-, g, hg, hlt⟩
    exact absurd (ofNat_inj (hlt.trans (hfresh _)) (hfresh _) (hg.symm.trans hgen.symm)) hlt.ne
  · rintro ⟨⟨hc, g, hg, hlt | ⟨rfl, hlive⟩⟩, hnot⟩
    · exact absurd ⟨hc, g, hg, hlt⟩ hnot
    · exact ⟨hc, hlive, hg.symm⟩

end PowerTower.Circuit
