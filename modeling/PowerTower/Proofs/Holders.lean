import Mathlib
import PowerTower.Proofs.Checking
import PowerTower.Circuit.Reduce

/-!
# The holders of a frontier

The table of holders is put together before anything is reduced. It lists, for each node of the frontier, exactly the
pending nodes and the live markings that mention the node then (`mem_referrers`).
-/

namespace PowerTower.Circuit

variable {c : Circuit} {n : Node} {holder h : Holder} {frontier : List Node}

/-- The holders that a table lists for a node. -/
def listed (table : Std.HashMap Node (Array Holder)) (n : Node) : List Holder := (table.getD n #[]).toList

/-- The circuit mentions the node in the terms of the holder, which is a pending node or a live marking. -/
def Holds (c : Circuit) (n : Node) : Holder → Prop
  | .node p => c.Pending p ∧ c.Below n p
  | .marking i => 0 < (c.cellAt i).handles ∧ n ∈ Terms.nodes (c.cellAt i).terms

theorem mem_listed_alter {table : Std.HashMap Node (Array Holder)} {k : Node} :
    h ∈ listed (table.alter k fun hs => some ((hs.getD #[]).push holder)) n ↔
      h ∈ listed table n ∨ h = holder ∧ n = k := by
  unfold listed
  rw [Std.HashMap.getD_alter]
  by_cases hk : k = n
  · subst hk
    simp [← Std.HashMap.getD_eq_getD_getElem?]
  · simp [hk, Ne.symm hk]

theorem mem_listed_mention {members : Std.HashSet Node} {table : Std.HashMap Node (Array Holder)} {nodes : List Node} :
    h ∈ listed (mention members holder table nodes) n ↔
      h ∈ listed table n ∨ h = holder ∧ n ∈ nodes ∧ n ∈ members := by
  unfold mention
  induction nodes generalizing table with
  | nil => simp
  | cons k nodes ih =>
    rw [List.foldl_cons, ih]
    split_ifs with hk
    · rw [mem_listed_alter, List.mem_cons]
      constructor
      · rintro ((hl | ⟨rfl, rfl⟩) | ⟨rfl, hn, hm⟩)
        · exact .inl hl
        · exact .inr ⟨rfl, .inl rfl, hk⟩
        · exact .inr ⟨rfl, .inr hn, hm⟩
      · rintro (hl | ⟨rfl, rfl | hn, hm⟩)
        · exact .inl (.inl hl)
        · exact .inl (.inr ⟨rfl, rfl⟩)
        · exact .inr ⟨rfl, hn, hm⟩
    · rw [List.mem_cons]
      constructor
      · rintro (hl | ⟨rfl, hn, hm⟩)
        · exact .inl hl
        · exact .inr ⟨rfl, .inr hn, hm⟩
      · rintro (hl | ⟨rfl, rfl | hn, hm⟩)
        · exact .inl hl
        · exact absurd hm hk
        · exact .inr ⟨rfl, hn, hm⟩

theorem mem_listed_foldl {α : Type} {members : Std.HashSet Node} {table : Std.HashMap Node (Array Holder)}
    {name : α → Holder} {nodes : α → List Node} {l : List α} :
    h ∈ listed (l.foldl (fun table a => mention members (name a) table (nodes a)) table) n ↔
      h ∈ listed table n ∨ ∃ a ∈ l, h = name a ∧ n ∈ nodes a ∧ n ∈ members := by
  induction l generalizing table with
  | nil => simp
  | cons a l ih =>
    rw [List.foldl_cons, ih, mem_listed_mention, List.exists_mem_cons_iff, or_assoc]

/-- The table lists exactly the holders. -/
theorem mem_referrers (hn : n ∈ frontier) : h ∈ listed (c.referrers frontier) n ↔ c.Holds n h := by
  have hempty : ¬ h ∈ listed {} n := by simp [listed]
  unfold referrers
  simp only [mem_listed_foldl, Traversal.mem_ofList_iff, hn, and_true, hempty, false_or, mem_pendingNodes,
    mem_liveMarkingIds]
  cases h with
  | node p => simp [Holds, Below]
  | marking i => simp [Holds]

end PowerTower.Circuit
