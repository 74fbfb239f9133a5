import Mathlib.Data.Finset.Card
/-
# Straight-line code that takes and gives back locks

What a thread holds can be read off the code it has still to run: `owes` is what that code gives back without
having taken it. `Kept` code takes nothing it holds, gives nothing it does not hold, and does everything else
with the locks it needs. Both look at the rest of the code only through what it owes (`owes_append`,
`kept_append`), so code can be put before other code.
-/
namespace Locks

variable {ι κ : Type*} [DecidableEq κ]

/-- What an instruction does to the locks of its thread. -/
inductive Eff (κ : Type*)
  | take (k : κ)
  | give (k : κ)
  | none

/-- How a lock set reads before an instruction, from how it reads after it. -/
def Eff.before : Eff κ → Finset κ → Finset κ
  | .take k, o => o.erase k
  | .give k, o => insert k o
  | .none, o => o

/-- Whether the instruction fits before code that owes `o`. -/
def Eff.fits : Eff κ → Finset κ → Prop
  | .take k, o => k ∈ o
  | .give k, o => k ∉ o
  | .none, _ => True

variable (eff : ι → Eff κ) (need : ι → Finset κ → Prop)

def owes : List ι → Finset κ
  | [] => ∅
  | i :: is => (eff i).before (owes is)

def Kept : List ι → Prop
  | [] => True
  | i :: is => (eff i).fits (owes eff is) ∧ need i (owes eff is) ∧ Kept is

section

variable {eff need} {i : ι} {is js js' : List ι} {k : κ}

@[simp] theorem owes_nil : owes eff ([] : List ι) = ∅ := rfl

theorem owes_cons : owes eff (i :: is) = (eff i).before (owes eff is) := rfl

theorem Kept.needs (h : Kept eff need (i :: is)) : need i (owes eff is) := h.2.1

theorem Kept.tail (h : Kept eff need (i :: is)) : Kept eff need is := h.2.2

/-- After a lock is taken, what is held is that lock and what was held. -/
theorem Kept.owes_take (h : Kept eff need (i :: is)) (hi : eff i = .take k) :
    k ∉ owes eff (i :: is) ∧ owes eff is = insert k (owes eff (i :: is)) := by
  have hk : k ∈ owes eff is := by
    have := h.1
    rwa [hi] at this
  rw [owes_cons, hi]
  exact ⟨Finset.notMem_erase k _, (Finset.insert_erase hk).symm⟩

theorem Kept.owes_give (h : Kept eff need (i :: is)) (hi : eff i = .give k) :
    k ∉ owes eff is ∧ owes eff (i :: is) = insert k (owes eff is) := by
  have hk : k ∉ owes eff is := by
    have := h.1
    rwa [hi] at this
  rw [owes_cons, hi]
  exact ⟨hk, rfl⟩

theorem owes_none (hi : eff i = .none) : owes eff (i :: is) = owes eff is := by
  rw [owes_cons, hi]
  rfl

/-- Only what the code behind owes matters. -/
theorem owes_append (h : owes eff js = owes eff js') (is : List ι) : owes eff (is ++ js) = owes eff (is ++ js') := by
  induction is with
  | nil => exact h
  | cons i is ih => rw [List.cons_append, List.cons_append, owes_cons, owes_cons, ih]

theorem kept_append (h : owes eff js = owes eff js') (hjs : Kept eff need js) :
    ∀ {is : List ι}, Kept eff need (is ++ js') → Kept eff need (is ++ js)
  | [], _ => hjs
  | i :: is, hk => by
    rw [List.cons_append, Kept, owes_append h is]
    exact ⟨hk.1, hk.2.1, kept_append h hjs hk.2.2⟩

theorem Kept.suffix (h : Kept eff need js) (hs : is <:+ js) : Kept eff need is := by
  obtain ⟨pre, rfl⟩ := hs
  induction pre with
  | nil => exact h
  | cons i pre ih => exact ih h.tail

end

end Locks
