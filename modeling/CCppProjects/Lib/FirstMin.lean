import Mathlib.Order.Defs.LinearOrder
import Mathlib.Order.Lattice
/-
# The first of the smallest

`FirstMin key q v rest` takes the first element with the smallest key out of a list. A loop that
remembers the index of the best so far (`Best`) ends with it.
-/

variable {α κ : Type*} [LinearOrder κ]

/-- `v` is the first element of `q` with the smallest key, `rest` the others in order. -/
def FirstMin (key : α → κ) (q : List α) (v : α) (rest : List α) : Prop :=
  ∃ l r, q = l ++ v :: r ∧ rest = l ++ r ∧ (∀ x ∈ l, key v < key x) ∧ ∀ x ∈ r, key v ≤ key x

namespace FirstMin

variable {key : α → κ} {q rest rest' : List α} {v w : α}

theorem mem (h : FirstMin key q v rest) : v ∈ q := by
  obtain ⟨l, r, rfl, -⟩ := h
  simp

theorem le (h : FirstMin key q v rest) {x : α} (hx : x ∈ q) : key v ≤ key x := by
  obtain ⟨l, r, rfl, -, hl, hr⟩ := h
  simp only [List.mem_append, List.mem_cons] at hx
  rcases hx with hx | rfl | hx
  · exact le_of_lt (hl x hx)
  · exact le_rfl
  · exact hr x hx

/-! ## A loop over the list -/

/-- `m` is the index of the first of the smallest among the first `n`. -/
def Best (key : α → κ) (q : List α) (n m : Nat) : Prop :=
  m < n ∧ ∃ v, q[m]? = some v ∧ (∀ j x, j < m → q[j]? = some x → key v < key x) ∧
    ∀ j x, m < j → j < n → q[j]? = some x → key v ≤ key x

variable {m n : Nat}

theorem Best.first (h : q[0]? = some v) : Best key q 1 0 := by
  refine ⟨Nat.one_pos, v, h, ?_, ?_⟩
  · intro j x hj
    exact absurd hj (Nat.not_lt_zero j)
  · intro j x h0 h1
    omega

/-- The next element is smaller. -/
theorem Best.better (h : Best key q n m) (hm : q[m]? = some v) (hn : q[n]? = some w) (hlt : key w < key v) :
    Best key q (n + 1) n := by
  obtain ⟨hmn, v', hv', hbefore, hafter⟩ := h
  obtain rfl : v = v' := by simpa [hm] using hv'
  refine ⟨n.lt_succ_self, w, hn, ?_, ?_⟩
  · intro j x hj hx
    rcases Nat.lt_trichotomy j m with hjm | rfl | hjm
    · exact lt_trans hlt (hbefore j x hjm hx)
    · obtain rfl : v = x := by simpa [hm] using hx
      exact hlt
    · exact lt_of_lt_of_le hlt (hafter j x hjm hj hx)
  · intro j x h0 h1
    omega

/-- The next element is no smaller. -/
theorem Best.keep (h : Best key q n m) (hm : q[m]? = some v) (hn : q[n]? = some w) (hle : ¬ key w < key v) :
    Best key q (n + 1) m := by
  obtain ⟨hmn, v', hv', hbefore, hafter⟩ := h
  obtain rfl : v = v' := by simpa [hm] using hv'
  refine ⟨Nat.lt_succ_of_lt hmn, v, hm, hbefore, ?_⟩
  intro j x hmj hj hx
  rcases Nat.lt_succ_iff_lt_or_eq.1 hj with hj | rfl
  · exact hafter j x hmj hj hx
  · obtain rfl : w = x := by simpa [hn] using hx
    exact not_lt.1 hle

theorem Best.firstMin (h : Best key q q.length m) (hm : q[m]? = some v) : FirstMin key q v (q.eraseIdx m) := by
  obtain ⟨hmn, v', hv', hbefore, hafter⟩ := h
  obtain rfl : v = v' := by simpa [hm] using hv'
  refine ⟨q.take m, q.drop (m + 1), ?_, List.eraseIdx_eq_take_drop_succ .., ?_, ?_⟩
  · have hq : q[m] = v := by simpa [List.getElem?_eq_getElem hmn] using hm
    rw [← hq, ← List.drop_eq_getElem_cons hmn, List.take_append_drop]
  · intro x hx
    obtain ⟨j, hj⟩ := List.mem_iff_getElem?.1 hx
    have hlt := (List.getElem?_eq_some_iff.1 hj).1
    rw [List.length_take] at hlt
    rw [List.getElem?_take_of_lt (by omega)] at hj
    exact hbefore j x (by omega) hj
  · intro x hx
    obtain ⟨j, hj⟩ := List.mem_iff_getElem?.1 hx
    rw [List.getElem?_drop] at hj
    exact hafter _ x (by omega) (List.getElem?_eq_some_iff.1 hj).1 hj

end FirstMin
