import Mathlib.Data.List.Basic
import Mathlib.Data.Nat.ModEq
import Mathlib.Logic.Function.Basic
/-
# A ring of `c` slots behind counters that never go back

The slot of counter value `k` is `k % c`; `held d r n` are the `n` items from counter `r` on. An item stored
at counter `r + n` goes behind them (`held_push`), the one at `r` is the first (`held_succ`), the one stored
last the last (`held_last`), and only the counter modulo `c` matters (`held_congr`), so the counters may wrap
at any multiple of `c`.
-/
namespace Ring

variable {α : Type*} {c : Nat} [NeZero c]

/-- The `n` items from counter value `r` on. -/
def held (d : Fin c → α) (r n : Nat) : List α := (List.range n).map fun k => d (Fin.ofNat c (r + k))

@[simp] theorem held_length (d : Fin c → α) (r n : Nat) : (held d r n).length = n := by
  simp [held]

@[simp] theorem held_zero (d : Fin c → α) (r : Nat) : held d r 0 = [] := rfl

/-- The item at the read counter is the first. -/
theorem held_succ (d : Fin c → α) (r n : Nat) : held d r (n + 1) = d (Fin.ofNat c r) :: held d (r + 1) n := by
  simp only [held, List.range_succ_eq_map, List.map_cons, List.map_map, Nat.add_zero]
  congr 1
  apply List.map_congr_left
  intro k _
  simp only [Function.comp_apply, Nat.succ_eq_add_one]
  rw [Nat.add_right_comm, Nat.add_assoc]

/-- The item stored last is the last. -/
theorem held_last (d : Fin c → α) (r n : Nat) : held d r (n + 1) = held d r n ++ [d (Fin.ofNat c (r + n))] := by
  simp [held, List.range_succ]

theorem held_congr (d : Fin c → α) {r s : Nat} (h : r % c = s % c) (n : Nat) : held d r n = held d s n := by
  apply List.map_congr_left
  intro k _
  congr 1
  ext
  simp only [Fin.ofNat]
  rw [Nat.add_mod, h, ← Nat.add_mod]

/-- Two counters less than a turn apart have different slots. -/
theorem slot_ne {r k n : Nat} (hk : k < n) (hn : n < c) : Fin.ofNat c (r + k) ≠ Fin.ofNat c (r + n) := by
  intro h
  have hmod : k ≡ n [MOD c] := Nat.ModEq.add_left_cancel' r (congrArg Fin.val h)
  exact absurd (hmod.eq_of_lt_of_lt (hk.trans hn) hn) hk.ne

/-- An item stored behind the ones held, while there is room, goes to the end and overwrites none. -/
theorem held_push (d : Fin c → α) {r n : Nat} (a : α) (hn : n < c) :
    held (Function.update d (Fin.ofNat c (r + n)) a) r (n + 1) = held d r n ++ [a] := by
  simp only [held, List.range_succ, List.map_append, List.map_cons, List.map_nil, Function.update_self]
  congr 1
  apply List.map_congr_left
  intro k hk
  rw [Function.update_of_ne (slot_ne (List.mem_range.1 hk) hn)]

end Ring
