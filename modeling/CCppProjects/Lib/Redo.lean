import Mathlib.Logic.Function.Basic
import Mathlib.Data.List.Basic
/-
# Lists of writes to a store

`apply ws d` writes the pairs of `ws` into `d` in order. A redo log rests on two facts: at each address
the last write decides (`apply_of_last`), and writing some pair of the list first changes nothing
(`apply_write_of_last`).
-/
namespace Redo

variable {α β : Type*} [DecidableEq α]

def apply (ws : List (α × β)) (d : α → β) : α → β := ws.foldl (fun d w => Function.update d w.1 w.2) d

@[simp] theorem apply_nil (d : α → β) : apply [] d = d := rfl

@[simp] theorem apply_cons (w : α × β) (ws : List (α × β)) (d : α → β) :
    apply (w :: ws) d = apply ws (Function.update d w.1 w.2) := rfl

theorem apply_append (ws vs : List (α × β)) (d : α → β) : apply (ws ++ vs) d = apply vs (apply ws d) :=
  List.foldl_append ..

/-- An address no pair names keeps its value. -/
theorem apply_of_not_mem {ws : List (α × β)} {d : α → β} {x : α} (h : x ∉ ws.map Prod.fst) : apply ws d x = d x := by
  induction ws generalizing d with
  | nil => rfl
  | cons w ws ih =>
    rw [List.map_cons, List.mem_cons, not_or] at h
    rw [apply_cons, ih h.2, Function.update_of_ne h.1]

/-- The last pair that names an address decides. -/
theorem apply_of_last {as bs : List (α × β)} {d : α → β} {x : α} {v : β} (h : x ∉ bs.map Prod.fst) :
    apply (as ++ (x, v) :: bs) d x = v := by
  rw [apply_append, apply_cons, apply_of_not_mem h, Function.update_self]

/-- Stores that agree wherever no pair writes agree afterwards. -/
theorem apply_congr {ws : List (α × β)} {d e : α → β} {x : α} (h : x ∈ ws.map Prod.fst ∨ d x = e x) :
    apply ws d x = apply ws e x := by
  induction ws generalizing d e with
  | nil =>
    rcases h with h | h
    · cases h
    · exact h
  | cons w ws ih =>
    rw [apply_cons, apply_cons]
    apply ih
    rw [List.map_cons, List.mem_cons] at h
    by_cases hx : x = w.1
    · subst hx
      right
      rw [Function.update_self, Function.update_self]
    · rw [Function.update_of_ne hx, Function.update_of_ne hx]
      exact h.imp_left fun h => h.resolve_left hx

/-- Pairs of one value at one address, whatever their number and order. -/
theorem apply_of_all {ws : List (α × β)} {d : α → β} {x : α} {v : β} (hx : x ∈ ws.map Prod.fst)
    (h : ∀ w ∈ ws, w.1 = x → w.2 = v) : apply ws d x = v := by
  induction ws generalizing d with
  | nil => cases hx
  | cons w ws ih =>
    rw [List.forall_mem_cons] at h
    rw [apply_cons]
    by_cases hmem : x ∈ ws.map Prod.fst
    · exact ih hmem h.2
    · have hw : x = w.1 := by simpa [hmem] using hx
      rw [apply_of_not_mem hmem, hw, Function.update_self, h.1 hw.symm]

/-- Redoing one pair first changes nothing. -/
theorem apply_update {ws : List (α × β)} {d : α → β} {w : α × β} (h : w ∈ ws) :
    apply ws (Function.update d w.1 w.2) = apply ws d := by
  funext x
  apply apply_congr
  by_cases hx : x = w.1
  · subst hx
    exact .inl (List.mem_map_of_mem h)
  · right
    rw [Function.update_of_ne hx]

end Redo
