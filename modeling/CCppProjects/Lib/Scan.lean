import Mathlib.Data.List.MinMax
/-
# Loops that remember the best element so far

A loop over a list that keeps, in whatever form (`enc`), the smallest of the elements of a kind ends with the
`argmin` of these (`foldl_eq`). Taking the smallest of what is left again and again gives the sorted list
(`argmin_drop`).
-/
namespace Scan

open List

variable {α β κ : Type*} [LinearOrder κ] {l ds : List α} {key : α → κ} {m : α}

/-! ## One loop -/

/-- The best of a kind after one more element. -/
def better (p : α → Bool) (key : α → κ) (best : Option α) (a : α) : Option α :=
  if p a then argAux (fun b c => key b < key c) best a else best

theorem foldl_better (p : α → Bool) (key : α → κ) (l : List α) :
    l.foldl (better p key) none = (l.filter p).argmin key := by
  rw [argmin, foldl_filter]
  rfl

theorem better_mem {p : α → Bool} {best : Option α} {a b : α} (h : b ∈ better p key best a) : b ∈ best ∨ b = a := by
  unfold better at h
  split at h
  · cases best with
    | none => exact .inr (Option.mem_some_iff.1 h).symm
    | some c =>
      simp only [argAux] at h
      split at h
      · exact .inr (Option.mem_some_iff.1 h).symm
      · exact .inl h
  · exact .inl h

/-- A loop that does in its own terms what `better` does keeps what `better` keeps. A step may rely on how the
elements before it are related to the present one. -/
theorem foldl_enc {r : α → α → Prop} (p : α → Bool) (key : α → κ) (enc : Option α → β) (step : β → α → β) :
    ∀ (l : List α) (best : Option α), l.Pairwise r → (∀ b ∈ best, ∀ a ∈ l, r b a) →
      (∀ best a, a ∈ l → (∀ b ∈ best, r b a) → step (enc best) a = enc (better p key best a)) →
      l.foldl step (enc best) = enc (l.foldl (better p key) best)
  | [], _, _, _, _ => rfl
  | a :: l, best, hl, hbest, hstep => by
    rw [pairwise_cons] at hl
    rw [foldl_cons, foldl_cons, hstep best a mem_cons_self fun b hb => hbest b hb a mem_cons_self]
    refine foldl_enc p key enc step l _ hl.2 (fun b hb c hc => ?_)
      (fun best c hc => hstep best c (mem_cons_of_mem a hc))
    rcases better_mem hb with hb | rfl
    · exact hbest b hb c (mem_cons_of_mem a hc)
    · exact hl.1 c hc

/-- The same from nothing found. -/
theorem foldl_eq {r : α → α → Prop} {p : α → Bool} {key : α → κ} (enc : Option α → β)
    {step : β → α → β} (hl : l.Pairwise r)
    (hstep : ∀ best a, a ∈ l → (∀ b ∈ best, r b a) → step (enc best) a = enc (better p key best a)) :
    l.foldl step (enc none) = enc ((l.filter p).argmin key) := by
  rw [← foldl_better]
  exact foldl_enc p key enc step l none hl (by simp) hstep

/-! ## The smallest of what is left -/

theorem argmin_least (hm : m ∈ l) (hleast : ∀ a ∈ l, a ≠ m → key m < key a) : l.argmin key = some m := by
  cases h : l.argmin key with
  | none =>
    rw [argmin_eq_none.1 h] at hm
    simp at hm
  | some b =>
    have hb : b ∈ l := argmin_mem h
    by_cases hbm : b = m
    · rw [hbm]
    · exact absurd (hleast b hb hbm) (not_lt_of_mem_argmin hm h)

theorem least_of_argmin {b : α} (h : l.argmin key = some b) {a : α} (ha : a ∈ l) : key b ≤ key a :=
  le_of_not_gt (not_lt_of_mem_argmin ha h)

/-- What is left once the first `k` of the sorted list are gone. -/
theorem argmin_drop (hds : ds.Pairwise fun a b => key a < key b) {k : Nat} (hl : l.Perm (ds.drop k)) :
    l.argmin key = ds[k]? := by
  cases hk : ds[k]? with
  | none =>
    rw [drop_eq_nil_of_le (getElem?_eq_none_iff.1 hk)] at hl
    exact argmin_eq_none.2 hl.eq_nil
  | some m =>
    obtain ⟨hlt, hm⟩ := List.getElem?_eq_some_iff.1 hk
    have hdrop : ds.drop k = m :: ds.drop (k + 1) := by rw [drop_eq_getElem_cons hlt, hm]
    have hsorted : (m :: ds.drop (k + 1)).Pairwise fun a b => key a < key b := hdrop ▸ hds.sublist (drop_sublist k ds)
    rw [hdrop] at hl
    refine argmin_least (hl.mem_iff.2 mem_cons_self) fun a ha hne => ?_
    exact (pairwise_cons.1 hsorted).1 a ((mem_cons.1 (hl.mem_iff.1 ha)).resolve_left hne)

end Scan
