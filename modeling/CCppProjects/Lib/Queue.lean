import Mathlib.Data.List.Nodup
import Mathlib.Logic.Function.Basic
/-
# A queue linked through its own elements

`Linked next p q`: the pointer `p` leads through the elements of `q`, each pointing to the next, to null. The first
element is taken by moving the pointer past it, a new one goes behind the last (`Linked.append`), which a walk along
the pointers finds (`lastLink_eq`). An element is in the queue once (`Linked.nodup`).
-/
namespace Queue

variable {α : Type*} {next next' : α → Option α} {p : Option α} {q : List α} {a b : α}

def Linked (next : α → Option α) : Option α → List α → Prop
  | p, [] => p = none
  | p, a :: q => p = some a ∧ Linked next (next a) q

/-- A queue depends on the pointers of its elements only. -/
theorem Linked.congr : ∀ {q : List α} {p : Option α}, Linked next p q → (∀ a ∈ q, next' a = next a) → Linked next' p q
  | [], _, h, _ => h
  | a :: q, _, ⟨hp, hq⟩, hn => by
    refine ⟨hp, ?_⟩
    rw [hn a List.mem_cons_self]
    exact hq.congr fun b hb => hn b (List.mem_cons_of_mem _ hb)

theorem Linked.unique : ∀ {q r : List α} {p : Option α}, Linked next p q → Linked next p r → q = r
  | [], [], _, _, _ => rfl
  | [], _ :: _, _, h, ⟨h', _⟩ => by
    rw [h] at h'
    cases h'
  | _ :: _, [], _, ⟨h, _⟩, h' => by
    rw [h'] at h
    cases h
  | a :: q, b :: r, _, ⟨hp, hq⟩, ⟨hp', hr⟩ => by
    obtain rfl : a = b := Option.some.inj (hp.symm.trans hp')
    rw [hq.unique hr]

/-- Behind an element comes the rest of the queue. -/
theorem Linked.drop : ∀ {xs ys : List α} {p : Option α}, Linked next p (xs ++ a :: ys) → Linked next (next a) ys
  | [], _, _, h => h.2
  | _ :: _, _, _, h => Linked.drop h.2

theorem Linked.nodup : ∀ {q : List α} {p : Option α}, Linked next p q → q.Nodup
  | [], _, _ => List.nodup_nil
  | a :: q, _, ⟨_, hq⟩ => by
    rw [List.nodup_cons]
    refine ⟨fun ha => ?_, hq.nodup⟩
    -- a second visit would begin the same rest again
    obtain ⟨xs, ys, rfl⟩ := List.append_of_mem ha
    have hlen := congrArg List.length (hq.unique hq.drop)
    rw [List.length_append, List.length_cons] at hlen
    omega

/-- The walk to the pointer that is null: whose it is, or `none` for the head's; at most `n` elements. -/
def lastLink (next : α → Option α) : Nat → Option α → Option α → Option (Option α)
  | _, link, none => some link
  | 0, _, some _ => none
  | n + 1, _, some a => lastLink next n (some a) (next a)

theorem lastLink_eq : ∀ {q : List α} {p : Option α} {n : Nat} (link : Option α), Linked next p q → q.length ≤ n →
    lastLink next n link p = some (q.getLast?.or link)
  | [], _, n, link, h, _ => by
    rw [h]
    cases n <;> rfl
  | a :: q, _, n, link, ⟨hp, hq⟩, hn => by
    cases n with
    | zero => cases hn
    | succ n =>
      rw [hp, lastLink, lastLink_eq (some a) hq (Nat.le_of_succ_le_succ hn)]
      cases q with
      | nil => rfl
      | cons b q =>
        rw [List.getLast?_cons_cons]
        cases hl : (b :: q).getLast? with
        | none => simp at hl
        | some c => rfl

variable [DecidableEq α]

/-- A new element behind the last. -/
theorem Linked.append : ∀ {q : List α} {p : Option α}, Linked next p (q ++ [a]) → b ∉ q ++ [a] → next b = none →
    Linked (Function.update next a (some b)) p (q ++ [a] ++ [b])
  | [], _, ⟨hp, _⟩, hb, hnb => by
    have hne : b ≠ a := by
      rintro rfl
      exact hb (by simp)
    refine ⟨hp, ?_, ?_⟩
    · rw [Function.update_self]
    · rw [Function.update_of_ne hne]
      exact hnb
  | c :: q, _, h, hb, hnb => by
    have hca : c ≠ a := by
      rintro rfl
      have := h.nodup
      simp at this
    refine ⟨h.1, ?_⟩
    rw [Function.update_of_ne hca]
    exact Linked.append h.2 (fun hm => hb (List.mem_cons_of_mem _ hm)) hnb

end Queue
