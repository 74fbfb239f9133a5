import Mathlib.Data.List.Chain
import Mathlib.Data.List.Basic
/-
# One pass of exchanges

`pass r` goes over a list from its end to its head and exchanges neighbours `a`, `b` with `r a b`, each `a` with what
the pass has left behind it.
-/
namespace Pass

universe u

variable {α : Type u} {r : α → α → Bool} {a b : α} {l m : List α}

/-- The exchange at the head. -/
def front (r : α → α → Bool) (a : α) : List α → List α
  | [] => [a]
  | b :: l => if r a b then b :: a :: l else a :: b :: l

def pass (r : α → α → Bool) (l : List α) : List α := l.foldr (front r) []

@[simp] theorem pass_nil : pass r [] = [] := rfl

theorem pass_cons : pass r (a :: l) = front r a (pass r l) := rfl

theorem front_perm : List.Perm (front r a l) (a :: l) := by
  cases l with
  | nil => exact .refl _
  | cons b l =>
    rw [front]
    split
    · exact .swap a b l
    · exact .refl _

theorem pass_perm (r : α → α → Bool) (l : List α) : List.Perm (pass r l) l := by
  induction l with
  | nil => exact .refl _
  | cons a l ih => exact front_perm.trans (ih.cons a)

theorem length_pass (r : α → α → Bool) (l : List α) : (pass r l).length = l.length := (pass_perm r l).length_eq

/-- Behind the head an exchange leaves at least what is there. -/
theorem drop_front : (front r a (b :: l)).drop 2 = l := by
  rw [front]
  split
  · rfl
  · rfl

/-- What the pass leaves behind a prefix does not depend on the prefix, but for one element. -/
theorem pass_append_drop (l : List α) : (pass r (l ++ a :: m)).drop (l.length + 1) = (pass r (a :: m)).drop 1 := by
  induction l with
  | nil => rfl
  | cons c l ih =>
    rw [List.cons_append, pass_cons]
    cases hp : pass r (l ++ a :: m) with
    | nil =>
      have hlen := length_pass r (l ++ a :: m)
      rw [hp] at hlen
      simp at hlen
    | cons d k =>
      rw [hp, List.drop_succ_cons] at ih
      rw [List.length_cons, ← ih, ← drop_front (r := r) (a := c) (b := d) (l := k), List.drop_drop,
        Nat.add_comm 2, drop_front]

/-- **One place back**: an element that is exchanged with the one behind it, which itself stays before the rest. -/
theorem pass_moves (hab : r a b = true) (hb : ∀ c, r b c = false) (l m : List α) :
    (pass r (l ++ a :: b :: m))[l.length + 1]? = some a := by
  have htail : pass r (b :: m) = b :: pass r m := by
    rw [pass_cons]
    cases pass r m with
    | nil => rfl
    | cons c k => rw [front, hb c, if_neg Bool.false_ne_true]
  have hdrop := pass_append_drop (r := r) (a := a) (m := b :: m) l
  rw [pass_cons, htail, front, if_pos hab] at hdrop
  rw [← List.head?_drop, hdrop]
  rfl

/-- The pass changes nothing where no neighbours are to be exchanged. -/
theorem pass_eq_self (hr : ∀ a, r a a = false) : pass r l = l ↔ l.IsChain fun a b => r a b = false := by
  induction l with
  | nil => exact iff_of_true rfl .nil
  | cons a l ih =>
    rw [pass_cons]
    constructor
    · intro h
      cases hp : pass r l with
      | nil =>
        have hlen := length_pass r l
        rw [hp] at hlen
        obtain rfl := List.length_eq_zero_iff.1 hlen.symm
        exact .singleton a
      | cons b k =>
        rw [hp, front] at h
        split at h
        · next hab =>
          obtain ⟨rfl, -⟩ := List.cons.inj h
          rw [hr] at hab
          cases hab
        · next hab =>
          obtain ⟨-, hk⟩ := List.cons.inj h
          have hl := ih.1 (hp.trans hk)
          rw [← hk] at hl ⊢
          exact List.isChain_cons_cons.2 ⟨by simpa using hab, hl⟩
    · intro h
      rw [ih.2 h.tail]
      cases l with
      | nil => rfl
      | cons b k => rw [front, (List.isChain_cons_cons.1 h).1, if_neg Bool.false_ne_true]

end Pass
