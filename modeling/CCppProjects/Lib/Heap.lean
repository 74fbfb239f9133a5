import Mathlib.Data.List.Basic
/-
# A heap of objects behind pointers

A pointer is `none` (null) or the number of a cell; a cell that has been deleted keeps its number and
holds nothing. `new` takes the next number, so no two live objects ever share one.
-/
namespace Heap

abbrev Ptr := Option Nat

/-- Objects of one type by address; `none` is a deleted object. -/
abbrev Cells (α : Type*) := List (Option α)

variable {α : Type*}

def new (h : Cells α) (a : α) : Cells α × Ptr := (h ++ [some a], some h.length)

/-- The live object at an address. -/
def live (h : Cells α) (a : Nat) : Option α := (h[a]?).join

def put (h : Cells α) (a : Nat) (v : α) : Cells α := h.set a (some v)

def free (h : Cells α) (a : Nat) : Cells α := h.set a none

theorem live_lt {h : Cells α} {a : Nat} {v : α} (ha : live h a = some v) : a < h.length := by
  by_contra hlt
  simp [live, List.getElem?_eq_none (Nat.le_of_not_lt hlt)] at ha

@[simp] theorem live_append_left {h : Cells α} {a : Nat} {v : α} (w : List (Option α)) (ha : live h a = some v) :
    live (h ++ w) a = some v := by
  rw [live, List.getElem?_append_left (live_lt ha)]
  exact ha

@[simp] theorem live_new (h : Cells α) (v : α) : live (h ++ [some v]) h.length = some v := by
  simp [live]

theorem live_put (h : Cells α) (a b : Nat) (v : α) :
    live (put h a v) b = if b = a ∧ a < h.length then some v else live h b := by
  by_cases hb : b = a
  · subst hb
    by_cases hlt : b < h.length
    · simp [live, put, hlt]
    · simp [live, put, hlt]
  · simp [live, put, Ne.symm hb, hb]

theorem live_free (h : Cells α) (a b : Nat) : live (free h a) b = if b = a then none else live h b := by
  by_cases hb : b = a
  · subst hb
    by_cases hlt : b < h.length
    · simp [live, free, hlt]
    · simp [live, free, hlt]
  · simp [live, free, Ne.symm hb, hb]

@[simp] theorem live_put_self {h : Cells α} {a : Nat} {v w : α} (ha : live h a = some w) :
    live (put h a v) a = some v := by
  simp [live_put, live_lt ha]

theorem live_put_ne {h : Cells α} {a b : Nat} {v : α} (hb : b ≠ a) : live (put h a v) b = live h b := by
  simp [live_put, hb]

theorem live_free_ne {h : Cells α} {a b : Nat} (hb : b ≠ a) : live (free h a) b = live h b := by
  simp [live_free, hb]

end Heap
