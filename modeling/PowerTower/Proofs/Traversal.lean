import Mathlib
import PowerTower.Traversal

/-!
# What the walks find

* `mem_discover_iff` : `discover` finds what a path through unseen nodes leads to;
* `Sorted` : a list in which each node stands once, after its successors;
* `settle_ok`, `settle_cycle`, `settle_outside` : putting nodes in order extends a sorted list by the nodes
  it is given, or meets a node on a cycle, or one that is not let in;
* `Sorted.acc` : from a node of a sorted list no walk goes on for ever.
-/

namespace PowerTower.Traversal

variable {α : Type} {next : α → List α}

/-! ## Sorted lists -/

/-- Each node stands once, and after its successors. -/
inductive Sorted (next : α → List α) : List α → Prop
  | nil : Sorted next []
  | snoc {l : List α} {n : α} (sorted : Sorted next l) (fresh : n ∉ l) (after : ∀ m ∈ next n, m ∈ l) :
    Sorted next (l ++ [n])

theorem Sorted.nodup {l : List α} (h : Sorted next l) : l.Nodup := by
  induction h with
  | nil => exact List.nodup_nil
  | snoc _ fresh _ ih => exact List.Nodup.append ih (by simp) (by simpa using fresh)

theorem Sorted.mem_of_mem_next {l : List α} (h : Sorted next l) {n m : α} (hn : n ∈ l) (hm : m ∈ next n) : m ∈ l := by
  induction h with
  | nil => simp at hn
  | @snoc l k _ _ after ih =>
    rcases List.mem_append.1 hn with hn | hn
    · exact List.mem_append_left _ (ih hn)
    · rw [List.mem_singleton.1 hn] at hm
      exact List.mem_append_left _ (after m hm)

/-- Successors stand in the part of the list before a node. -/
theorem Sorted.mem_left {l r : List α} {n m : α} (h : Sorted next (l ++ n :: r)) (hm : m ∈ next n) : m ∈ l := by
  generalize hk : l ++ n :: r = k at h
  induction h generalizing r with
  | nil => simp at hk
  | @snoc k p sorted fresh after ih =>
    rcases List.eq_nil_or_concat r with rfl | ⟨r, q, rfl⟩
    · obtain ⟨rfl, hp⟩ := List.append_inj' hk rfl
      obtain rfl : n = p := by simpa using hp
      exact after m hm
    · have hsplit : (l ++ n :: r) ++ [q] = k ++ [p] := by simpa using hk
      exact ih (List.append_inj' hsplit rfl).1

/-- A node is no successor of those before it. -/
theorem Sorted.not_mem_next_of_mem_left {l r : List α} {n m : α} (h : Sorted next (l ++ n :: r)) (hm : m ∈ l) :
    n ∉ next m := by
  intro hn
  obtain ⟨l1, l2, rfl⟩ := List.append_of_mem hm
  have hsplit : l1 ++ m :: (l2 ++ n :: r) = l1 ++ m :: l2 ++ n :: r := by simp
  have hin := (hsplit ▸ h).mem_left hn
  have hnodup := h.nodup
  rw [List.nodup_append] at hnodup
  exact hnodup.2.2 n (by simp [hin]) n (by simp) rfl

/-- No walk from a node of a sorted list goes on for ever. -/
theorem Sorted.acc {l : List α} (h : Sorted next l) {n : α} (hn : n ∈ l) : Acc (fun b a => b ∈ next a) n := by
  induction h generalizing n with
  | nil => simp at hn
  | @snoc l k _ _ after ih =>
    rcases List.mem_append.1 hn with hn | hn
    · exact ih hn
    · rw [List.mem_singleton.1 hn]
      exact Acc.intro k fun m hm => ih (after m hm)

/-! ## Discovery -/

/-- A step of a walk inside a set. -/
def Step (next : α → List α) (S : α → Prop) (a b : α) : Prop := S a ∧ S b ∧ b ∈ next a

/-- A path either avoids a node from the start, or goes on from one of its successors and avoids it from there. -/
theorem avoid_or_restart {S : α → Prop} {n s x : α} (h : Relation.ReflTransGen (Step next S) s x) (hs : S s)
    (hx : x ≠ n) : (s ≠ n ∧ Relation.ReflTransGen (Step next fun a => S a ∧ a ≠ n) s x) ∨
      ∃ t ∈ next n, S t ∧ t ≠ n ∧ Relation.ReflTransGen (Step next fun a => S a ∧ a ≠ n) t x := by
  induction h using Relation.ReflTransGen.head_induction_on with
  | refl => exact .inl ⟨hx, .refl⟩
  | @head a b hab _ ih =>
    rcases ih hab.2.1 with ⟨hb, hpath⟩ | hrestart
    · by_cases ha : a = n
      · subst ha
        exact .inr ⟨b, hab.2.2, hab.2.1, hb, hpath⟩
      · exact .inl ⟨ha, .head ⟨⟨hab.1, ha⟩, ⟨hab.2.1, hb⟩, hab.2.2⟩ hpath⟩
    · exact .inr hrestart

variable [DecidableEq α] [Hashable α]

/-- A node is discovered exactly if a path through unseen nodes leads to it from the stack. -/
theorem mem_discover_iff {unseen : Std.HashSet α} {stack : List α} {x : α} :
    x ∈ discover next unseen stack ↔
      ∃ s ∈ stack, s ∈ unseen ∧ Relation.ReflTransGen (Step next (· ∈ unseen)) s x := by
  fun_induction discover next unseen stack with
  | case1 => simp
  | case2 unseen n rest hn ih =>
    have hmem : ∀ a, a ∈ unseen.erase n ↔ a ∈ unseen ∧ a ≠ n := fun a => by
      rw [Std.HashSet.mem_erase, beq_eq_false_iff_ne, ne_comm, and_comm]
    simp only [hmem] at ih
    rw [List.mem_cons, ih]
    constructor
    · rintro (rfl | ⟨s, hs, hu, hpath⟩)
      · exact ⟨x, by simp, hn, .refl⟩
      · have hwide : Relation.ReflTransGen (Step next (· ∈ unseen)) s x :=
          Relation.ReflTransGen.mono (fun _ _ hab => ⟨hab.1.1, hab.2.1.1, hab.2.2⟩) _ _ hpath
        rcases List.mem_append.1 hs with hs | hs
        · exact ⟨n, by simp, hn, .head ⟨hn, hu.1, hs⟩ hwide⟩
        · exact ⟨s, by simp [hs], hu.1, hwide⟩
    · rintro ⟨s, hs, hu, hpath⟩
      by_cases hx : x = n
      · exact .inl hx
      · rcases avoid_or_restart hpath hu hx with ⟨hsn, havoid⟩ | ⟨t, ht, htu, htn, havoid⟩
        · have hs : s ∈ rest := (List.mem_cons.1 hs).resolve_left hsn
          exact .inr ⟨s, by simp [hs], ⟨hu, hsn⟩, havoid⟩
        · exact .inr ⟨t, by simp [ht], ⟨htu, htn⟩, havoid⟩
  | case3 unseen n rest hn ih =>
    rw [ih]
    constructor
    · rintro ⟨s, hs, hu, hpath⟩
      exact ⟨s, by simp [hs], hu, hpath⟩
    · rintro ⟨s, hs, hu, hpath⟩
      rcases List.mem_cons.1 hs with rfl | hs
      · exact absurd hu hn
      · exact ⟨s, hs, hu, hpath⟩

/-! ## Putting nodes in order -/

/-- What is finished is sorted. -/
structure Progress.Valid (next : α → List α) (p : Progress α) : Prop where
  sorted : Sorted next p.sorted.toList
  finished : ∀ n, n ∈ p.finished ↔ n ∈ p.sorted.toList

theorem Progress.Valid.empty : (({} : Progress α)).Valid next := ⟨.nil, fun n => by simp⟩

theorem Progress.Valid.finish {p : Progress α} (h : p.Valid next) {n : α} (hn : n ∉ p.finished)
    (hs : ∀ m ∈ next n, m ∈ p.finished) : (p.finish n).Valid next := by
  refine ⟨?_, fun m => ?_⟩
  · rw [Progress.finish, Array.toList_push]
    exact .snoc h.sorted (fun hm => hn ((h.finished n).2 hm)) fun m hm => (h.finished m).1 (hs m hm)
  · rw [Progress.finish, Array.toList_push, Std.HashSet.mem_insert, h.finished]
    rw [List.mem_append, List.mem_singleton, beq_iff_eq, or_comm, eq_comm]

variable {members : Std.HashSet α} {path : List α} {p q : Progress α} {l : List α} {n : α}

/-- A list that is put in order is finished then, and of other nodes only members off the path are. -/
theorem settle_ok (h : settle next members path p l = .ok q) (hp : p.Valid next) (hpath : ∀ n ∈ path, n ∉ p.finished) :
    q.Valid next ∧ (∀ n ∈ l, n ∈ q.finished) ∧ (∀ n ∈ p.finished, n ∈ q.finished) ∧
      (∀ n ∈ q.finished, n ∈ p.finished ∨ n ∈ members) ∧ ∀ n ∈ path, n ∉ q.finished := by
  fun_induction settle next members path p l generalizing q with
  | case1 path p =>
    obtain rfl := Except.ok.inj h
    exact ⟨hp, by simp, fun _ h => h, fun _ h => .inl h, hpath⟩
  | case2 path p n rest hn ih =>
    obtain ⟨h1, h2, h3, h4, h5⟩ := ih h hp hpath
    exact ⟨h1, List.forall_mem_cons.2 ⟨h3 n hn, h2⟩, h3, h4, h5⟩
  | case3 => cases h
  | case4 => cases h
  | case5 path p n rest hn hm hnp p' hin ih1 ih2 =>
    obtain ⟨h1, h2, h3, h4, h5⟩ := ih1 hin hp (List.forall_mem_cons.2 ⟨hn, hpath⟩)
    have hfresh : n ∉ p'.finished := h5 n (by simp)
    have hpath' : ∀ m ∈ path, m ∉ (p'.finish n).finished := fun m hm' hf => by
      rw [Progress.finish, Std.HashSet.mem_insert, beq_iff_eq] at hf
      rcases hf with rfl | hf
      · exact hnp hm'
      · exact h5 m (by simp [hm']) hf
    have hgrow : ∀ m, m ∈ p'.finished → m ∈ (p'.finish n).finished := fun m hm' =>
      Std.HashSet.mem_insert.2 (.inr hm')
    obtain ⟨k1, k2, k3, k4, k5⟩ := ih2 h (h1.finish hfresh h2) hpath'
    refine ⟨k1, List.forall_mem_cons.2 ⟨k3 n (by simp [Progress.finish]), k2⟩, fun m hm' => k3 m (hgrow m (h3 m hm')),
      fun m hm' => ?_, k5⟩
    rcases k4 m hm' with hf | hf
    · rw [Progress.finish, Std.HashSet.mem_insert, beq_iff_eq] at hf
      rcases hf with rfl | hf
      · exact .inr hm
      · exact h4 m hf
    · exact .inr hf
  | case6 => cases h

/-- A cycle is reported of a node that lies on one, inside the members. -/
theorem settle_cycle (h : settle next members path p l = .error (.cycle n))
    (hpath : ∀ m ∈ path, ∀ k ∈ l, k ∈ members → Relation.TransGen (Step next (· ∈ members)) m k)
    (hmem : ∀ m ∈ path, m ∈ members) : Relation.TransGen (Step next (· ∈ members)) n n := by
  fun_induction settle next members path p l with
  | case1 => cases h
  | case2 path p k rest hk ih => exact ih h (fun m hm j hj => hpath m hm j (by simp [hj])) hmem
  | case3 path p k rest hk hm hp =>
    cases h
    exact hpath n hp n (by simp) hm
  | case4 path p k rest hk hm hp e hin ih =>
    cases h
    refine ih hin (fun m hm' j hj hjm => ?_) (List.forall_mem_cons.2 ⟨hm, hmem⟩)
    have hedge : Step next (· ∈ members) k j := ⟨hm, hjm, hj⟩
    rcases List.mem_cons.1 hm' with rfl | hm'
    · exact .single hedge
    · exact (hpath m hm' k (by simp) hm).tail hedge
  | case5 path p k rest hk hm hp p' hin ih1 ih2 =>
    exact ih2 h (fun m hm' j hj => hpath m hm' j (by simp [hj])) hmem
  | case6 => cases h

/-- The node that a cycle is reported of is reached from the list. -/
theorem settle_cycle_reaches (h : settle next members path p l = .error (.cycle n)) :
    ∃ r ∈ l, Relation.ReflTransGen (fun a b => b ∈ next a) r n := by
  fun_induction settle next members path p l with
  | case1 => cases h
  | case2 path p k rest hk ih =>
    obtain ⟨r, hr, hn⟩ := ih h
    exact ⟨r, by simp [hr], hn⟩
  | case3 path p k rest hk hm hp =>
    cases h
    exact ⟨n, by simp, .refl⟩
  | case4 path p k rest hk hm hp e hin ih =>
    cases h
    obtain ⟨r, hr, hn⟩ := ih hin
    exact ⟨k, by simp, .head hr hn⟩
  | case5 path p k rest hk hm hp p' hin ih1 ih2 =>
    obtain ⟨r, hr, hn⟩ := ih2 h
    exact ⟨r, by simp [hr], hn⟩
  | case6 => cases h

/-- A node that is not let in is one of the list, or a successor of a member. -/
theorem settle_outside (h : settle next members path p l = .error (.outside n)) :
    n ∉ members ∧ (n ∈ l ∨ ∃ m ∈ members, n ∈ next m) := by
  fun_induction settle next members path p l with
  | case1 => cases h
  | case2 path p k rest hk ih =>
    obtain ⟨h1, h2⟩ := ih h
    exact ⟨h1, h2.imp_left fun h => by simp [h]⟩
  | case3 => cases h
  | case4 path p k rest hk hm hp e hin ih =>
    cases h
    obtain ⟨h1, h2⟩ := ih hin
    exact ⟨h1, .inr (h2.elim (fun h => ⟨k, hm, h⟩) id)⟩
  | case5 path p k rest hk hm hp p' hin ih1 ih2 =>
    obtain ⟨h1, h2⟩ := ih2 h
    exact ⟨h1, h2.imp_left fun h => by simp [h]⟩
  | case6 path p k rest hk hm =>
    cases h
    exact ⟨hm, .inl (by simp)⟩

/-! ## The order of a list of roots -/

variable {roots names sorted : List α}

theorem mem_ofList_iff : n ∈ Std.HashSet.ofList names ↔ n ∈ names := by
  rw [Std.HashSet.mem_ofList, List.contains_iff_mem]

theorem orderWithin_ok (h : orderWithin next names roots = .ok sorted) :
    Sorted next sorted ∧ (∀ n ∈ roots, n ∈ sorted) ∧ ∀ n ∈ sorted, n ∈ names := by
  unfold orderWithin at h
  split at h
  · cases h
  · next q hq =>
    cases h
    obtain ⟨h1, h2, -, h4, -⟩ := settle_ok hq .empty (by simp)
    refine ⟨h1.sorted, fun n hn => (h1.finished n).1 (h2 n hn), fun n hn => ?_⟩
    rcases h4 n ((h1.finished n).2 hn) with hf | hf
    · simp at hf
    · exact mem_ofList_iff.1 hf

theorem orderWithin_cycle (h : orderWithin next names roots = .error (.cycle n)) :
    Relation.TransGen (Step next (· ∈ names)) n n ∧
      ∃ r ∈ roots, Relation.ReflTransGen (fun a b => b ∈ next a) r n := by
  unfold orderWithin at h
  split at h
  · next e he =>
    cases h
    refine ⟨Relation.TransGen.mono (fun a b hab => ?_) _ _ (settle_cycle he (by simp) (by simp)),
      settle_cycle_reaches he⟩
    simpa only [Step, mem_ofList_iff] using hab
  · cases h

theorem orderWithin_outside (h : orderWithin next names roots = .error (.outside n)) :
    n ∉ names ∧ (n ∈ roots ∨ ∃ m ∈ names, n ∈ next m) := by
  unfold orderWithin at h
  split at h
  · next e he =>
    cases h
    simpa only [mem_ofList_iff] using settle_outside he
  · cases h

/-- Roots that are closed under successors and lie on no cycle are put in order. -/
theorem exists_orderWithin_ok (hroots : ∀ n ∈ roots, n ∈ names) (hclosed : ∀ n ∈ names, ∀ m ∈ next n, m ∈ names)
    (hcycle : ∀ n ∈ names, ¬ Relation.TransGen (Step next (· ∈ names)) n n) :
    ∃ sorted, orderWithin next names roots = .ok sorted := by
  cases h : orderWithin next names roots with
  | ok sorted => exact ⟨sorted, rfl⟩
  | error e =>
    cases e with
    | outside n =>
      obtain ⟨h1, h2 | ⟨m, hm, hn⟩⟩ := orderWithin_outside h
      · exact absurd (hroots n h2) h1
      · exact absurd (hclosed m hm n hn) h1
    | cycle n =>
      have hc := (orderWithin_cycle h).1
      have hn : n ∈ names := by
        rcases Relation.TransGen.head'_iff.1 hc with ⟨_, hab, _⟩
        exact hab.1
      exact absurd hc (hcycle n hn)

end PowerTower.Traversal
