import CCppProjects.Lib.Run
import CCppProjects.Xv6.Defs
import Mathlib.Data.List.Perm.Basic
import Mathlib.Data.Finset.Card
import Mathlib.Tactic.Ring
/-
# The page allocator (kalloc.c)

`kalloc` and `kfree` deal in kernel virtual addresses, the count functions in physical ones;
both index `page_refs_num` by `pa >> PGSHIFT`. `kfree` puts a frame on the free list only when its
count is *already* 0 and otherwise takes one off the count (kalloc.c:76-88), so the drop that
takes a count from 1 to 0 leaves the frame off the list with nobody holding it.
-/
namespace Xv6

/-- kalloc.c:65. -/
def kfree (c : Cfg) (v : Nat) (k : Kmem) : Except Halt Kmem :=
  if v % PGSIZE ≠ 0 ∨ v < P2V c.kend ∨ PHYSTOP ≤ V2P v then .error (.panic "kfree")
  else
    let f := V2P v / PGSIZE
    if k.pageRefsNum f = 0 then
      .ok { k with amountOfFreePages := (k.amountOfFreePages + 1) % UINT, freelist := f :: k.freelist }
    else .ok { k with pageRefsNum := Function.update k.pageRefsNum f (k.pageRefsNum f - 1) }

/-- kalloc.c:98; `none` is the null pointer. -/
def kalloc (k : Kmem) : Option Nat × Kmem :=
  match k.freelist with
  | [] => (none, k)
  | f :: rest =>
    (some (P2V (f * PGSIZE)),
     { freelist := rest
       amountOfFreePages := (k.amountOfFreePages + UINT - 1) % UINT
       pageRefsNum := Function.update k.pageRefsNum f 1 })

/-- kalloc.c:132. -/
def decRefCount (c : Cfg) (pa : Nat) (k : Kmem) : Except Halt Kmem :=
  if pa < c.kend ∨ PHYSTOP ≤ pa then .error (.panic "dec_ref_count")
  else
    let f := pa / PGSIZE
    .ok { k with pageRefsNum := Function.update k.pageRefsNum f ((k.pageRefsNum f + UINT - 1) % UINT) }

/-- kalloc.c:150. -/
def incRefCount (c : Cfg) (pa : Nat) (k : Kmem) : Except Halt Kmem :=
  if pa < c.kend ∨ PHYSTOP ≤ pa then .error (.panic "inc_ref_count")
  else
    let f := pa / PGSIZE
    .ok { k with pageRefsNum := Function.update k.pageRefsNum f ((k.pageRefsNum f + 1) % UINT) }

/-- kalloc.c:161. -/
def getRefCount (c : Cfg) (pa : Nat) (k : Kmem) : Except Halt Nat :=
  if pa < c.kend ∨ PHYSTOP ≤ pa then .error (.panic "get_ref_count")
  else .ok (k.pageRefsNum (pa / PGSIZE))

/-- kalloc.c:172. -/
def numberOfFreePages (k : Kmem) : Nat := k.amountOfFreePages

/-- The loop of `freerange` (kalloc.c:54), `n` pages from `p` on. -/
def freerangeLoop (c : Cfg) : Nat → Nat → Kmem → Except Halt Kmem
  | 0, _, k => .ok k
  | n + 1, p, k => do
    let k ← kfree c p k
    freerangeLoop c n (p + PGSIZE)
      { k with pageRefsNum := Function.update k.pageRefsNum (V2P p / PGSIZE) 0 }

/-- kalloc.c:50; `p + PGSIZE <= vend` bounds the loop. -/
def freerange (c : Cfg) (vstart vend : Nat) (k : Kmem) : Except Halt Kmem :=
  freerangeLoop c ((vend - pgUp vstart * PGSIZE) / PGSIZE) (pgUp vstart * PGSIZE) k

/-- `kmem` before `kinit1`: `bss`, so all zero. -/
def Kmem.zero : Kmem := ⟨[], 0, fun _ => 0⟩

/-! ## The functions on a frame in range -/

/-- A frame between `end` and `PHYSTOP`. -/
def Cfg.FrameOk (c : Cfg) (f : Nat) : Prop := c.kend ≤ f * PGSIZE ∧ f * PGSIZE < PHYSTOP

instance (c : Cfg) (f : Nat) : Decidable (c.FrameOk f) := inferInstanceAs (Decidable (_ ∧ _))

/-- The kernel address of a frame. -/
def kva (f : Nat) : Nat := P2V (f * PGSIZE)

/-- A count after `--`, and after `kfree`, which stops at 0. -/
def Kmem.setRefs (k : Kmem) (f n : Nat) : Kmem := { k with pageRefsNum := Function.update k.pageRefsNum f n }

@[simp] theorem Kmem.setRefs_freelist (k : Kmem) (f n : Nat) : (k.setRefs f n).freelist = k.freelist := rfl
@[simp] theorem Kmem.setRefs_amount (k : Kmem) (f n : Nat) :
    (k.setRefs f n).amountOfFreePages = k.amountOfFreePages := rfl
theorem Kmem.setRefs_refs (k : Kmem) (f n g : Nat) :
    (k.setRefs f n).pageRefsNum g = if g = f then n else k.pageRefsNum g := by
  simp [Kmem.setRefs, Function.update_apply]

/-- `kfree` of a frame: on the free list at count 0, one reference less otherwise. -/
def Kmem.drop (k : Kmem) (f : Nat) : Kmem :=
  if k.pageRefsNum f = 0 then
    { k with amountOfFreePages := (k.amountOfFreePages + 1) % UINT, freelist := f :: k.freelist }
  else k.setRefs f (k.pageRefsNum f - 1)

theorem V2P_P2V {a : Nat} (h : a < UINT) : V2P (P2V a) = a := by
  simp only [V2P, P2V, UINT, KERNBASE] at *; omega

/-- `P2V` of an address that is already virtual comes back to the physical address. -/
theorem P2V_P2V {a : Nat} (h : a < UINT) : P2V (P2V a) = a := by
  simp only [P2V, UINT, KERNBASE] at *; omega

theorem Cfg.FrameOk.lt {c : Cfg} {f : Nat} (h : c.FrameOk f) : f * PGSIZE < UINT := by
  have := h.2; simp only [PHYSTOP, UINT] at *; omega

@[simp] theorem V2P_kva {c : Cfg} {f : Nat} (h : c.FrameOk f) : V2P (kva f) = f * PGSIZE := V2P_P2V h.lt

theorem mul_PGSIZE_div (f : Nat) : f * PGSIZE / PGSIZE = f := Nat.mul_div_cancel f (by decide)

theorem kfree_kva {c : Cfg} {f : Nat} (h : c.FrameOk f) (k : Kmem) : kfree c (kva f) k = .ok (k.drop f) := by
  have hv := V2P_kva h
  obtain ⟨h1, h2⟩ := h
  have hmod : kva f % PGSIZE = 0 := by
    simp only [kva, P2V, PGSIZE, UINT, KERNBASE] at *; omega
  have hge : ¬ kva f < P2V c.kend := by
    simp only [kva, P2V, PGSIZE, UINT, KERNBASE, PHYSTOP] at *; omega
  unfold kfree Kmem.drop Kmem.setRefs
  rw [hv, mul_PGSIZE_div, if_neg (by rw [not_or, not_or]; exact ⟨by simp [hmod], hge, by omega⟩)]
  simp only
  split <;> rfl

theorem decRefCount_frame {c : Cfg} {f : Nat} (h : c.FrameOk f) (k : Kmem) :
    decRefCount c (f * PGSIZE) k = .ok (k.setRefs f ((k.pageRefsNum f + UINT - 1) % UINT)) := by
  unfold decRefCount
  rw [mul_PGSIZE_div, if_neg (by have := h.1; have := h.2; omega)]; rfl

theorem incRefCount_frame {c : Cfg} {f : Nat} (h : c.FrameOk f) (k : Kmem) :
    incRefCount c (f * PGSIZE) k = .ok (k.setRefs f ((k.pageRefsNum f + 1) % UINT)) := by
  unfold incRefCount
  rw [mul_PGSIZE_div, if_neg (by have := h.1; have := h.2; omega)]; rfl

theorem getRefCount_frame {c : Cfg} {f : Nat} (h : c.FrameOk f) (k : Kmem) :
    getRefCount c (f * PGSIZE) k = .ok (k.pageRefsNum f) := by
  unfold getRefCount
  rw [mul_PGSIZE_div, if_neg (by have := h.1; have := h.2; omega)]

/-- What `kalloc` can do. -/
theorem kalloc_cases (k : Kmem) :
    (k.freelist = [] ∧ kalloc k = (none, k)) ∨
    ∃ f rest, k.freelist = f :: rest ∧ kalloc k =
      (some (kva f), ⟨rest, (k.amountOfFreePages + UINT - 1) % UINT, Function.update k.pageRefsNum f 1⟩) := by
  unfold kalloc
  cases h : k.freelist with
  | nil => exact .inl ⟨rfl, rfl⟩
  | cons f rest => exact .inr ⟨f, rest, rfl, rfl⟩

end Xv6
