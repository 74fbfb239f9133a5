import CCppProjects.Lib.Heap
import Mathlib.Data.List.Nodup
import Mathlib.Data.List.Perm.Subperm
/-
# Singly linked lists on a heap

| here | meaning |
|---|---|
| `cell e r` | what the heap holds for the element `e` when the next cell is `r` |
| `addr e` | where it holds it |
| `Seg cell addr h p es q` | from `p` through the cells of `es` to `q` |

A list that ends in null visits no cell twice (`Seg.nodup`). A cell is taken out by sending the one before it past it
(`Seg.bypass`).
-/
namespace Heap

variable {α ε : Type*} {cell : ε → Ptr → α} {addr : ε → Nat} {h h' : Cells α} {p q r : Ptr} {es fs : List ε} {b e : ε}

def Seg (cell : ε → Ptr → α) (addr : ε → Nat) (h : Cells α) : Ptr → List ε → Ptr → Prop
  | p, [], q => p = q
  | p, e :: es, q => p = some (addr e) ∧ ∃ r, live h (addr e) = some (cell e r) ∧ Seg cell addr h r es q

theorem Seg.append_iff : ∀ {es : List ε} {p : Ptr},
    Seg cell addr h p (es ++ fs) q ↔ ∃ r, Seg cell addr h p es r ∧ Seg cell addr h r fs q
  | [], p => by simp [Seg]
  | e :: es, p => by
    simp only [List.cons_append, Seg]
    constructor
    · rintro ⟨hp, r, hr, hs⟩
      obtain ⟨t, hes, hfs⟩ := Seg.append_iff.1 hs
      exact ⟨t, ⟨hp, r, hr, hes⟩, hfs⟩
    · rintro ⟨t, ⟨hp, r, hr, hes⟩, hfs⟩
      exact ⟨hp, r, hr, Seg.append_iff.2 ⟨t, hes, hfs⟩⟩

/-- A list depends on the cells of its elements only. -/
theorem Seg.congr : ∀ {es : List ε} {p : Ptr}, Seg cell addr h p es q →
    (∀ e ∈ es, live h' (addr e) = live h (addr e)) → Seg cell addr h' p es q
  | [], _, hs, _ => hs
  | e :: es, _, ⟨hp, r, hr, hs⟩, hh =>
    ⟨hp, r, (hh e (by simp)).trans hr, hs.congr fun f hf => hh f (List.mem_cons_of_mem _ hf)⟩

theorem Seg.mem : ∀ {es : List ε} {p : Ptr}, Seg cell addr h p es q → e ∈ es →
    ∃ r, live h (addr e) = some (cell e r)
  | [], _, _, he => by simp at he
  | f :: es, _, ⟨_, r, hr, hs⟩, he => by
    rcases List.mem_cons.1 he with rfl | he
    · exact ⟨r, hr⟩
    · exact hs.mem he

theorem Seg.head (hs : Seg cell addr h p es none) : p = es.head?.map addr := by
  cases es with
  | nil => exact hs
  | cons e es => exact hs.1

theorem Seg.addr_lt (hs : Seg cell addr h p es q) (he : e ∈ es) : addr e < h.length := by
  obtain ⟨r, hr⟩ := hs.mem he
  exact live_lt hr

section

-- a cell says which one comes next
variable (hcell : ∀ e f r t, cell e r = cell f t → r = t)
include hcell

theorem Seg.length_eq : ∀ {es fs : List ε} {p : Ptr}, Seg cell addr h p es none → Seg cell addr h p fs none →
    es.length = fs.length
  | [], [], _, _, _ => rfl
  | [], f :: fs, _, hs, ht => by
    obtain ⟨hp, -⟩ := ht
    rw [hs] at hp
    cases hp
  | e :: es, [], _, hs, ht => by
    obtain ⟨hp, -⟩ := hs
    rw [ht] at hp
    cases hp
  | e :: es, f :: fs, _, ⟨hp, r, hr, hs⟩, ⟨hq, t, ht, hu⟩ => by
    have haddr : addr e = addr f := Option.some.inj (hp.symm.trans hq)
    rw [haddr, ht] at hr
    obtain rfl := hcell _ _ _ _ (Option.some.inj hr)
    rw [List.length_cons, List.length_cons, hs.length_eq hu]

theorem Seg.nodup : ∀ {es : List ε} {p : Ptr}, Seg cell addr h p es none → (es.map addr).Nodup
  | [], _, _ => by simp
  | e :: es, _, ⟨_, r, hr, hs⟩ => by
    rw [List.map_cons, List.nodup_cons]
    refine ⟨fun hmem => ?_, hs.nodup⟩
    -- a second visit would begin the same list again
    obtain ⟨f, hf, haddr⟩ := List.mem_map.1 hmem
    obtain ⟨xs, ys, rfl⟩ := List.append_of_mem hf
    obtain ⟨_, -, -, t, ht, hys⟩ := Seg.append_iff.1 hs
    rw [haddr, hr] at ht
    obtain rfl := hcell _ _ _ _ (Option.some.inj ht)
    have hlen := hs.length_eq hcell hys
    rw [List.length_append, List.length_cons] at hlen
    omega

/-- No more elements than cells. -/
theorem Seg.length_le (hs : Seg cell addr h p es none) : es.length ≤ h.length := by
  have hsub : es.map addr ⊆ List.range h.length := fun a ha => by
    obtain ⟨e, he, rfl⟩ := List.mem_map.1 ha
    exact List.mem_range.2 (hs.addr_lt he)
  have := (List.subperm_of_subset (hs.nodup hcell) hsub).length_le
  rwa [List.length_map, List.length_range] at this

end

/-- The cell behind `b` is taken out: `b` points where it pointed. -/
theorem Seg.bypass (hs : Seg cell addr h p (es ++ b :: e :: fs) q) (hn : ((es ++ b :: e :: fs).map addr).Nodup)
    (hr : live h (addr e) = some (cell e r)) (hcell : ∀ e f r t, cell e r = cell f t → r = t) :
    Seg cell addr (put h (addr b) (cell b r)) p (es ++ b :: fs) q := by
  obtain ⟨t, hes, rfl, _, hb, rfl, r', hr', hfs⟩ := Seg.append_iff.1 hs
  rw [hr] at hr'
  obtain rfl := hcell _ _ _ _ (Option.some.inj hr')
  rw [List.map_append, List.map_cons, List.map_cons, List.nodup_append, List.nodup_cons, List.nodup_cons] at hn
  obtain ⟨-, ⟨hbe, -⟩, hdis⟩ := hn
  refine Seg.append_iff.2 ⟨some (addr b), hes.congr fun f hf => ?_, rfl, r, live_put_self hb, hfs.congr fun f hf => ?_⟩
  · exact live_put_ne (hdis _ (List.mem_map_of_mem hf) _ (by simp))
  · refine live_put_ne fun heq => hbe ?_
    rw [← heq]
    exact List.mem_cons_of_mem _ (List.mem_map_of_mem hf)

end Heap
