/-
# Contracts for computations that can fail

`Sat m E Q`: the result of `m` is in `Q`, its error in `E`. The rules follow the shape of a program:
a value, a bind, a case distinction; a contract can be weakened and two of them combined.
-/

universe u v

def Sat {ε : Type u} {α : Type v} (m : Except ε α) (E : ε → Prop) (Q : α → Prop) : Prop :=
  match m with
  | .ok a => Q a
  | .error e => E e

/-- A computation that succeeds, taken apart at its first bind. -/
theorem bind_ok {ε : Type u} {α β : Type v} {m : Except ε α} {g : α → Except ε β} {b : β} (h : m >>= g = .ok b) :
    ∃ a, m = .ok a ∧ g a = .ok b := by
  cases m with
  | error e => cases h
  | ok a => exact ⟨a, rfl, h⟩

theorem ok_bind {ε : Type u} {α β : Type v} (a : α) (f : α → Except ε β) : (Except.ok a >>= f) = f a := rfl

namespace Sat

variable {ε : Type u} {α β : Type v} {m : Except ε α} {f : α → Except ε β} {E E' : ε → Prop}
    {Q Q' : α → Prop} {R : β → Prop}

theorem ok {a : α} (h : Q a) : Sat (.ok a : Except ε α) E Q := h

theorem error {e : ε} (h : E e) : Sat (.error e : Except ε α) E Q := h

theorem of_ok {a : α} (h : Sat m E Q) (hm : m = .ok a) : Q a := by
  rw [hm] at h
  exact h

theorem of_error {e : ε} (h : Sat m E Q) (hm : m = .error e) : E e := by
  rw [hm] at h
  exact h

theorem intro (hok : ∀ a, m = .ok a → Q a) (herr : ∀ e, m = .error e → E e) : Sat m E Q := by
  cases h : m with
  | ok a => exact hok a h
  | error e => exact herr e h

theorem bind (h : Sat m E Q) (hf : ∀ a, m = .ok a → Q a → Sat (f a) E R) : Sat (m >>= f) E R := by
  cases hm : m with
  | ok a => exact hf a hm (h.of_ok hm)
  | error e => exact h.of_error hm

theorem mono (h : Sat m E Q) (hE : ∀ e, E e → E' e) (hQ : ∀ a, Q a → Q' a) : Sat m E' Q' :=
  .intro (fun a ha => hQ a (h.of_ok ha)) fun e he => hE e (h.of_error he)

theorem and (h : Sat m E Q) (h' : Sat m E' Q') : Sat m (fun e => E e ∧ E' e) fun a => Q a ∧ Q' a :=
  .intro (fun _ ha => ⟨h.of_ok ha, h'.of_ok ha⟩) fun _ he => ⟨h.of_error he, h'.of_error he⟩

theorem ite {p : Prop} [Decidable p] {m' : Except ε α} (h : p → Sat m E Q) (h' : ¬ p → Sat m' E Q) :
    Sat (if p then m else m') E Q := by
  by_cases hp : p
  · rw [if_pos hp]
    exact h hp
  · rw [if_neg hp]
    exact h' hp

-- a contract is taken apart by the rules above, never by running the program
attribute [irreducible] Sat

end Sat
