import Mathlib.Data.List.Chain
import Mathlib.Logic.Function.Iterate
import Mathlib.Order.Basic
import Mathlib.Order.Lattice
/-
# Singly linked circular lists

`Linked next l`: every element of `l` but the last leads to the one after it. A circular list with head
`h` and further nodes `l` is `Linked next (h :: l ++ [h])`; it can be entered at any of its nodes (`rotate`).
When the nodes are in order, the successor of a node is the least node above it, and `h` at the end (`next_least`).
-/
namespace Circle

variable {α : Type*} {next next' : α → α} {a b c h x : α} {l xs ys : List α}

def Linked (next : α → α) (l : List α) : Prop := l.IsChain fun a b => next a = b

theorem Linked.split (h : Linked next (xs ++ c :: ys)) : Linked next (xs ++ [c]) ∧ Linked next (c :: ys) :=
  List.isChain_split.1 h

theorem Linked.join (h : Linked next (xs ++ [c])) (h' : Linked next (c :: ys)) : Linked next (xs ++ c :: ys) :=
  List.isChain_split.2 ⟨h, h'⟩

theorem linked_cons : Linked next (a :: b :: l) ↔ next a = b ∧ Linked next (b :: l) := List.isChain_cons_cons

/-- The last element's successor does not matter. -/
theorem Linked.congr (h : Linked next (xs ++ [c])) (heq : ∀ x ∈ xs, next' x = next x) : Linked next' (xs ++ [c]) := by
  induction xs with
  | nil => exact List.isChain_singleton c
  | cons x xs ih =>
    have hx := heq x (List.mem_cons_self ..)
    have hxs := fun y hy => heq y (List.mem_cons_of_mem _ hy)
    cases xs with
    | nil =>
      obtain ⟨h1, _⟩ := linked_cons.1 h
      exact linked_cons.2 ⟨hx.trans h1, List.isChain_singleton c⟩
    | cons y xs =>
      obtain ⟨h1, h2⟩ := linked_cons.1 h
      exact linked_cons.2 ⟨hx.trans h1, ih h2 hxs⟩

/-- A circular list as its node `x` sees it. -/
theorem Linked.rotate (hl : Linked next (h :: l ++ [h])) (hx : x ∈ h :: l) :
    ∃ ys, Linked next (x :: ys ++ [x]) ∧ (x :: ys).Perm (h :: l) := by
  obtain ⟨us, vs, huv⟩ := List.append_of_mem hx
  cases us with
  | nil =>
    obtain ⟨rfl, rfl⟩ := List.cons.inj huv
    exact ⟨l, hl, .refl _⟩
  | cons u us =>
    rw [List.cons_append] at huv
    obtain ⟨rfl, rfl⟩ := List.cons.inj huv
    rw [← List.cons_append, List.append_assoc] at hl
    obtain ⟨h1, h2⟩ := hl.split
    refine ⟨vs ++ h :: us, ?_, ?_⟩
    · rw [← List.cons_append, List.append_assoc]
      exact Linked.join h2 h1
    · have : (x :: vs ++ h :: us).Perm (h :: us ++ x :: vs) := List.perm_append_comm
      exact this

/-- Every node is some steps behind the first. -/
theorem Linked.exists_iterate {l : List α} (hl : Linked next (x :: l)) (hc : c ∈ x :: l) : ∃ i, next^[i] x = c := by
  induction l generalizing x with
  | nil => exact ⟨0, (List.mem_singleton.1 hc).symm⟩
  | cons a l ih =>
    obtain ⟨rfl, hl⟩ := linked_cons.1 hl
    rcases List.mem_cons.1 hc with rfl | hc
    · exact ⟨0, rfl⟩
    · obtain ⟨i, rfl⟩ := ih hl hc
      exact ⟨i + 1, Function.iterate_succ_apply _ _ _⟩

/-- Steps stay on a circular list. -/
theorem Linked.iterate_mem (hl : Linked next (h :: l ++ [h])) (hx : x ∈ h :: l) (i : Nat) : next^[i] x ∈ h :: l := by
  induction i with
  | zero => exact hx
  | succ i ih =>
    rw [Function.iterate_succ_apply']
    obtain ⟨us, vs, huv⟩ := List.append_of_mem ih
    rw [huv, List.append_assoc] at hl
    cases vs with
    | nil => exact (linked_cons.1 hl.split.2).1 ▸ List.mem_cons_self ..
    | cons v vs =>
      rw [(linked_cons.1 hl.split.2).1, huv]
      simp

/-! ## Circular lists in order -/

section
variable [LinearOrder α]

/-- Where a value that is not in an ordered list belongs. -/
theorem exists_split {l : List α} (hl : l.Pairwise (· < ·)) (b : α) (hb : b ∉ l) :
    ∃ xs ys, l = xs ++ ys ∧ (∀ x ∈ xs, x < b) ∧ ∀ y ∈ ys, b < y := by
  induction l with
  | nil => exact ⟨[], [], rfl, by simp, by simp⟩
  | cons a l ih =>
    obtain ⟨h1, h2⟩ := List.pairwise_cons.1 hl
    obtain ⟨hne, hb⟩ := not_or.1 (mt List.mem_cons.2 hb)
    rcases lt_or_gt_of_ne hne with hba | hab
    · refine ⟨[], a :: l, rfl, by simp, fun y hy => ?_⟩
      rcases List.mem_cons.1 hy with rfl | hy
      · exact hba
      · exact hba.trans (h1 y hy)
    · obtain ⟨xs, ys, rfl, hx, hy⟩ := ih h2 hb
      exact ⟨a :: xs, ys, rfl, by simpa using ⟨hab, hx⟩, hy⟩

theorem Linked.next_least (hl : Linked next (h :: l ++ [h])) (hs : (h :: l).Pairwise (· < ·)) (hx : x ∈ h :: l) :
    (next x ∈ l ∧ x < next x ∧ ∀ y ∈ h :: l, y ≤ x ∨ next x ≤ y) ∨ (next x = h ∧ ∀ y ∈ h :: l, y ≤ x) := by
  obtain ⟨us, vs, huv⟩ := List.append_of_mem hx
  rw [huv] at hs
  rw [huv, List.append_assoc] at hl
  obtain ⟨_, h2, h3⟩ := List.pairwise_append.1 hs
  have below : ∀ y ∈ us, y ≤ x := fun y hy => (h3 y hy x (List.mem_cons_self ..)).le
  cases vs with
  | nil =>
    refine .inr ⟨(linked_cons.1 hl.split.2).1, fun y hy => ?_⟩
    rw [huv, List.mem_append, List.mem_singleton] at hy
    exact hy.elim (below y) (fun e => e.le)
  | cons v vs =>
    obtain ⟨h4, h5⟩ := List.pairwise_cons.1 h2
    obtain ⟨h6, _⟩ := List.pairwise_cons.1 h5
    have hv : next x = v := (linked_cons.1 hl.split.2).1
    have hxv : x < v := h4 v (List.mem_cons_self ..)
    have hmem : v ∈ h :: l := by simp [huv]
    -- `v` is not the head: the head is the least
    have hvl : v ∈ l := by
      rcases List.mem_cons.1 hmem with rfl | hvl
      · cases us with
        | nil => exact absurd (List.cons.inj huv).1 hxv.ne'
        | cons u us =>
          obtain ⟨rfl, _⟩ := List.cons.inj huv
          exact absurd (below v (List.mem_cons_self ..)) (not_le.2 hxv)
      · exact hvl
    refine .inl ⟨hv ▸ hvl, hv ▸ hxv, fun y hy => ?_⟩
    rw [huv] at hy
    rcases List.mem_append.1 hy with hy | hy
    · exact .inl (below y hy)
    · rcases List.mem_cons.1 hy with rfl | hy
      · exact .inl le_rfl
      · rcases List.mem_cons.1 hy with rfl | hy
        · exact .inr hv.le
        · exact .inr (hv ▸ (h6 y hy).le)

end

end Circle
