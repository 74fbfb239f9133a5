import CCppProjects.Xv6.Kalloc
/-
# What the allocator keeps (kalloc.c)

A user of the allocator holds references: `kalloc` hands out the first to a frame,
`inc_ref_count` another, and `kfree` or `dec_ref_count` drops one. `Alloc` is `kmem` with the
references still held; a drop needs one (`allocStep`). `FreeListExact` is what the free list is for:
no duplicates, exactly the frames nobody refers to, counted right, each of them to be had again.

`kfree` pushes a frame only when its count was 0 before the call, so `FreeListExact` lasts through a
run exactly as long as no drop takes a count from 1 to 0 (`freeListExact_iff`).
-/
namespace Xv6

structure Alloc where
  kmem : Kmem
  held : Nat → Nat

inductive AllocOp
  | kalloc
  | inc (f : Nat)
  | kfree (f : Nat)
  | dec (f : Nat)
  deriving DecidableEq, Repr

/-- One call; `none` where the caller has no reference to drop, where `inc_ref_count` is called
for a frame the allocator does not manage, or where the call panics. -/
def allocStep (c : Cfg) (dom : List Nat) (a : Alloc) : AllocOp → Option Alloc
  | .kalloc => match kalloc a.kmem with
    | (none, k) => some { a with kmem := k }
    | (some v, k) =>
      some ⟨k, Function.update a.held (V2P v / PGSIZE) (a.held (V2P v / PGSIZE) + 1)⟩
  | .inc f => if f ∈ dom then
      (incRefCount c (f * PGSIZE) a.kmem).toOption.map fun k =>
        ⟨k, Function.update a.held f (a.held f + 1)⟩
    else none
  | .kfree f => if a.held f = 0 then none else
      (kfree c (kva f) a.kmem).toOption.map fun k => ⟨k, Function.update a.held f (a.held f - 1)⟩
  | .dec f => if a.held f = 0 then none else
      (decRefCount c (f * PGSIZE) a.kmem).toOption.map fun k =>
        ⟨k, Function.update a.held f (a.held f - 1)⟩

/-- The allocator after `freerange`: nobody holds anything. -/
def Alloc.start (k : Kmem) : Alloc := ⟨k, fun _ => 0⟩

/-- The free list after `n` more calls of `kalloc`. -/
def kallocs : Nat → Kmem → Kmem
  | 0, k => k
  | n + 1, k => kallocs n (kalloc k).2

/-- The law of the free list over the managed frames `dom`: the last conjunct is the free page
count, which therefore depends on nothing but the frames in use. -/
def FreeListExact (dom : List Nat) (a : Alloc) : Prop :=
  a.kmem.freelist.Nodup ∧
  (∀ f ∈ dom, f ∈ a.kmem.freelist ↔ a.kmem.pageRefsNum f = 0) ∧
  a.kmem.amountOfFreePages = a.kmem.freelist.length ∧
  (∀ f ∈ dom, a.kmem.pageRefsNum f = 0 → ∃ n, (kalloc (kallocs n a.kmem)).1 = some (kva f)) ∧
  numberOfFreePages a.kmem + (dom.filter fun f => a.held f != 0).length = dom.length

/-- No drop takes the last reference away, and no count is raised from 0 or past `uint`. -/
def NoLastDrop (a : Alloc) : AllocOp → Prop
  | .kalloc => True
  | .inc f => a.kmem.pageRefsNum f ≠ 0 ∧ a.kmem.pageRefsNum f + 1 ≠ UINT
  | .kfree f | .dec f => a.kmem.pageRefsNum f ≠ 1

/-! ## `freerange` -/

/-- `kmem` while `freerange` is at address `p`. -/
structure FreeRangeInv (c : Cfg) (p : Nat) (k : Kmem) : Prop where
  nodup : k.freelist.Nodup
  frame : ∀ f ∈ k.freelist, c.FrameOk f ∧ f * PGSIZE + KERNBASE < p
  refs : ∀ f, k.pageRefsNum f = 0
  amount : k.amountOfFreePages = k.freelist.length

/-- Distinct frames below `PHYSTOP` are far fewer than `2 ^ 32`. -/
theorem length_lt_UINT {c : Cfg} {l : List Nat} (hn : l.Nodup) (hf : ∀ f ∈ l, c.FrameOk f) :
    l.length < PHYSTOP := by
  have hsub : l.toFinset ⊆ Finset.range (PHYSTOP / PGSIZE) := by
    intro f hm
    have := (hf f (List.mem_toFinset.1 hm)).2
    rw [Finset.mem_range, Nat.lt_div_iff_mul_lt (by decide)]
    simp only [PHYSTOP, PGSIZE] at *; omega
  have := Finset.card_le_card hsub
  rw [List.toFinset_card_of_nodup hn, Finset.card_range] at this
  exact Nat.lt_of_le_of_lt this (by decide)

/-- An address `kfree` accepts is the kernel address of a frame in range. -/
theorem kfree_ok_inv {c : Cfg} {v : Nat} {k k' : Kmem} (hv : v < UINT) (h : kfree c v k = .ok k') :
    ∃ f, c.FrameOk f ∧ v = f * PGSIZE + KERNBASE ∧ v = kva f ∧ V2P v / PGSIZE = f := by
  have hc := c.hkend
  have hnot : ¬ (v % PGSIZE ≠ 0 ∨ v < P2V c.kend ∨ PHYSTOP ≤ V2P v) := by
    intro hc; unfold kfree at h; rw [if_pos hc] at h; cases h
  rw [not_or, not_or] at hnot
  obtain ⟨h1, h2, h3⟩ := hnot
  refine ⟨V2P v / PGSIZE, ⟨?_, ?_⟩, ?_, ?_, rfl⟩ <;>
    simp only [kva, P2V, V2P, UINT, KERNBASE, PHYSTOP, PGSIZE] at * <;> omega

theorem freerangeLoop_inv {c : Cfg} : ∀ (n p : Nat) (k k' : Kmem), p + n * PGSIZE ≤ UINT →
    FreeRangeInv c p k → freerangeLoop c n p k = .ok k' → FreeRangeInv c (p + n * PGSIZE) k'
  | 0, p, k, k', _, hI, h => by cases h; simpa using hI
  | n + 1, p, k, k', hp, hI, h => by
    simp only [freerangeLoop] at h
    cases hk : kfree c p k with
    | error e => rw [hk] at h; cases h
    | ok k1 =>
      rw [hk] at h
      obtain ⟨f, hf, hpf, hva, hfr⟩ := kfree_ok_inv (by simp only [PGSIZE, UINT] at *; omega) hk
      rw [hva, kfree_kva hf] at hk
      obtain rfl : k.drop f = k1 := by simpa using hk
      have hlen := length_lt_UINT hI.nodup fun g hg => (hI.frame g hg).1
      have hlt : k.freelist.length + 1 < UINT := by simp only [PHYSTOP, UINT] at *; omega
      have hdrop : k.drop f =
          { k with amountOfFreePages := k.freelist.length + 1, freelist := f :: k.freelist } := by
        rw [Kmem.drop, if_pos (hI.refs f), hI.amount, Nat.mod_eq_of_lt hlt]
      have hnot : f ∉ k.freelist := by
        intro hm
        have := (hI.frame f hm).2
        omega
      have hI' : FreeRangeInv c (p + PGSIZE)
          { k.drop f with pageRefsNum := Function.update (k.drop f).pageRefsNum (V2P p / PGSIZE) 0 } := by
        rw [hdrop, hfr]
        refine ⟨List.nodup_cons.2 ⟨hnot, hI.nodup⟩, ?_, ?_, by simp⟩
        · intro g hg
          simp only [List.mem_cons] at hg
          rcases hg with rfl | hg
          · exact ⟨hf, by rw [hpf]; simp [PGSIZE]⟩
          · have := hI.frame g hg
            exact ⟨this.1, by omega⟩
        · intro g
          simp only [Function.update_apply, hI.refs, ite_self]
      have := freerangeLoop_inv n (p + PGSIZE) _ k' (by simp only [Nat.add_mul] at hp ⊢; omega) hI' h
      rwa [show p + (n + 1) * PGSIZE = p + PGSIZE + n * PGSIZE by rw [Nat.add_mul]; omega]

/-- After `freerange` over a range of 32-bit addresses the list holds every page of it once. -/
theorem freerange_inv {c : Cfg} {vstart vend : Nat} {k : Kmem} (hv : vend < UINT)
    (h : freerange c vstart vend .zero = .ok k) :
    ∃ p, FreeRangeInv c p k := by
  by_cases hle : pgUp vstart * PGSIZE ≤ vend
  · refine ⟨_, freerangeLoop_inv _ _ _ _ ?_ ⟨by simp [Kmem.zero], by simp [Kmem.zero], fun _ => rfl, rfl⟩ h⟩
    have := Nat.div_mul_le_self (vend - pgUp vstart * PGSIZE) PGSIZE
    omega
  · have h0 : vend - pgUp vstart * PGSIZE = 0 := by omega
    rw [freerange, h0] at h
    cases h
    exact ⟨0, by simp [Kmem.zero], by simp [Kmem.zero], fun _ => rfl, rfl⟩

/-! ## The invariant of a run -/

/-- The counts are the references held, and the free list is the managed frames without any. -/
structure AllocInv (c : Cfg) (dom : List Nat) (a : Alloc) : Prop where
  domNodup : dom.Nodup
  domOk : ∀ f ∈ dom, c.FrameOk f
  nodup : a.kmem.freelist.Nodup
  sub : ∀ f ∈ a.kmem.freelist, f ∈ dom
  free : ∀ f ∈ dom, f ∈ a.kmem.freelist ↔ a.kmem.pageRefsNum f = 0
  amount : a.kmem.amountOfFreePages = a.kmem.freelist.length
  held : ∀ f, a.kmem.pageRefsNum f = a.held f
  heldDom : ∀ f, a.held f ≠ 0 → f ∈ dom
  lt : ∀ f, a.kmem.pageRefsNum f < UINT

theorem AllocInv.start {c : Cfg} {vstart vend : Nat} {k : Kmem} (hv : vend < UINT)
    (h : freerange c vstart vend .zero = .ok k) : AllocInv c k.freelist (.start k) := by
  obtain ⟨p, hI⟩ := freerange_inv hv h
  exact ⟨hI.nodup, fun f hf => (hI.frame f hf).1, hI.nodup, fun f hf => hf,
    fun f hf => ⟨fun _ => hI.refs f, fun _ => hf⟩, hI.amount, hI.refs,
    fun f hf => absurd rfl hf, fun f => by rw [Alloc.start, hI.refs]; decide⟩

theorem kallocs_getElem : ∀ (n : Nat) (k : Kmem) (f : Nat), k.freelist[n]? = some f →
    (kalloc (kallocs n k)).1 = some (kva f)
  | n, k, f, h => by
    rcases kalloc_cases k with ⟨hnil, _⟩ | ⟨g, rest, hl, hk⟩
    · simp [hnil] at h
    · cases n with
      | zero =>
        rw [hl] at h
        obtain rfl : g = f := by simpa using h
        simp [kallocs, hk]
      | succ n =>
        rw [hl] at h
        simp only [kallocs, hk]
        exact kallocs_getElem n _ f (by simpa using h)

/-- The frames split into those on the list and those held. -/
theorem filter_length_split {p q : Nat → Bool} : ∀ (l : List Nat), (∀ f ∈ l, q f = !p f) →
    (l.filter p).length + (l.filter q).length = l.length
  | [], _ => rfl
  | a :: l, h => by
    have ih := filter_length_split l fun f hf => h f (by simp [hf])
    have ha := h a (by simp)
    cases hp : p a <;> simp [hp, ha] <;> omega

theorem AllocInv.exact {c : Cfg} {dom : List Nat} {a : Alloc} (h : AllocInv c dom a) :
    FreeListExact dom a := by
  refine ⟨h.nodup, h.free, h.amount, ?_, ?_⟩
  · intro f hf h0
    obtain ⟨n, hn⟩ := List.mem_iff_getElem?.1 ((h.free f hf).2 h0)
    exact ⟨n, kallocs_getElem n _ f hn⟩
  · have hperm : (dom.filter fun f => a.held f == 0).Perm a.kmem.freelist := by
      refine (List.perm_ext_iff_of_nodup (h.domNodup.filter _) h.nodup).2 fun f => ?_
      rw [List.mem_filter, beq_iff_eq, ← h.held]
      exact ⟨fun ⟨hd, h0⟩ => (h.free f hd).2 h0, fun hm => ⟨h.sub f hm, (h.free f (h.sub f hm)).1 hm⟩⟩
    rw [numberOfFreePages, h.amount, ← hperm.length_eq]
    exact filter_length_split dom fun f _ => rfl

/-- `kalloc` takes the head of the list and gives it a count of 1. -/
theorem AllocInv.kalloc {c : Cfg} {dom : List Nat} {a b : Alloc} (h : AllocInv c dom a)
    (hs : allocStep c dom a .kalloc = some b) : AllocInv c dom b := by
  rcases kalloc_cases a.kmem with ⟨_, hk⟩ | ⟨f, rest, hl, hk⟩
  · simp only [allocStep, hk, Option.some.injEq] at hs
    exact hs ▸ h
  have hfd : f ∈ dom := h.sub f (by simp [hl])
  have hnd := h.nodup
  rw [hl, List.nodup_cons] at hnd
  have hf0 : a.kmem.pageRefsNum f = 0 := (h.free f hfd).1 (by simp [hl])
  have hV : V2P (kva f) / PGSIZE = f := by rw [V2P_kva (h.domOk f hfd), mul_PGSIZE_div]
  simp only [allocStep, hk, hV, Option.some.injEq] at hs
  subst hs
  have hlen : a.kmem.freelist.length < UINT := by
    have := length_lt_UINT h.nodup fun g hg => h.domOk g (h.sub g hg)
    simp only [PHYSTOP, UINT] at *; omega
  refine ⟨h.domNodup, h.domOk, hnd.2, fun g hg => h.sub g (by simp [hl, hg]), ?_, ?_, ?_, ?_, ?_⟩
  · intro g hg
    simp only [Function.update_apply]
    by_cases hgf : g = f
    · subst hgf; simp [hnd.1]
    · rw [if_neg hgf, ← h.free g hg, hl]; simp [hgf]
  · simp only [h.amount, hl, List.length_cons] at hlen ⊢
    simp only [UINT] at *; omega
  · intro g
    simp only [Function.update_apply]
    split
    · rename_i hg; rw [← h.held, hf0]
    · exact h.held g
  · intro g hg
    simp only [Function.update_apply] at hg
    split at hg
    · rename_i hgf; exact hgf ▸ hfd
    · exact h.heldDom g hg
  · intro g
    simp only [Function.update_apply]
    split
    · decide
    · exact h.lt g

/-- A count that changes between two non-zero values leaves the free list right. -/
theorem AllocInv.setRefs {c : Cfg} {dom : List Nat} {a : Alloc} (h : AllocInv c dom a) {f n : Nat}
    (hf : f ∈ dom) (h0 : a.kmem.pageRefsNum f ≠ 0) (hn : n ≠ 0) (hlt : n < UINT) :
    AllocInv c dom ⟨a.kmem.setRefs f n, Function.update a.held f n⟩ := by
  refine ⟨h.domNodup, h.domOk, h.nodup, h.sub, ?_, h.amount, ?_, ?_, ?_⟩
  · intro g hg
    rw [Kmem.setRefs_freelist, Kmem.setRefs_refs, h.free g hg]
    split
    · rename_i e; subst e; simp [h0, hn]
    · rfl
  · intro g
    show (a.kmem.setRefs f n).pageRefsNum g = Function.update a.held f n g
    rw [Kmem.setRefs_refs, Function.update_apply]
    split
    · rfl
    · exact h.held g
  · intro g hg
    simp only [Function.update_apply] at hg
    split at hg
    · rename_i e; exact e ▸ hf
    · exact h.heldDom g hg
  · intro g
    rw [Kmem.setRefs_refs]
    split
    · exact hlt
    · exact h.lt g

/-- Giving a frame off the list the count 0, or one on it another count, breaks the law. -/
theorem setRefs_not_exact {dom : List Nat} {k : Kmem} {held : Nat → Nat} {f n : Nat} (hf : f ∈ dom)
    (h : f ∈ k.freelist ↔ n ≠ 0) : ¬ FreeListExact dom ⟨k.setRefs f n, held⟩ := by
  intro hx
  have := hx.2.1 f hf
  rw [Kmem.setRefs_freelist, Kmem.setRefs_refs, if_pos rfl, h] at this
  by_cases h0 : n = 0 <;> simp [h0] at this

/-- What a call that changes a count does: `n` is the new count of `f`, and `NoLastDrop` says that
neither the old nor the new one is 0. -/
theorem allocStep_cases {c : Cfg} {dom : List Nat} {a b : Alloc} (h : AllocInv c dom a) {op : AllocOp}
    (hop : op ≠ .kalloc) (hs : allocStep c dom a op = some b) :
    ∃ f n, f ∈ dom ∧ n < UINT ∧ b.kmem = a.kmem.setRefs f n ∧
      (NoLastDrop a op → b.held = Function.update a.held f n) ∧
      (NoLastDrop a op ↔ a.kmem.pageRefsNum f ≠ 0 ∧ n ≠ 0) ∧ (a.kmem.pageRefsNum f = 0 → n ≠ 0) := by
  have hU : 1 < UINT := by decide
  cases op with
  | kalloc => exact absurd rfl hop
  | inc f =>
    simp only [allocStep] at hs
    split at hs
    · rename_i hf
      have hlt := h.lt f
      rw [incRefCount_frame (h.domOk f hf)] at hs
      simp only [Except.toOption, Option.map_some, Option.some.injEq] at hs
      subst hs
      refine ⟨f, _, hf, Nat.mod_lt _ (by decide), rfl, ?_, ?_, ?_⟩
      · rintro ⟨_, h2⟩
        rw [← h.held, Nat.mod_eq_of_lt (by omega)]
      · simp only [NoLastDrop]
        rcases Nat.lt_or_ge (a.kmem.pageRefsNum f + 1) UINT with h1 | h1
        · rw [Nat.mod_eq_of_lt h1]; omega
        · rw [show a.kmem.pageRefsNum f + 1 = UINT by omega, Nat.mod_self]; simp
      · intro h0; rw [h0, Nat.mod_eq_of_lt (by omega)]; omega
    · cases hs
  | kfree f =>
    simp only [allocStep] at hs
    split at hs
    · cases hs
    · rename_i hh
      have hf := h.heldDom f hh
      have h0 : a.kmem.pageRefsNum f ≠ 0 := by rw [h.held]; exact hh
      have hlt := h.lt f
      rw [kfree_kva (h.domOk f hf), Kmem.drop, if_neg h0] at hs
      simp only [Except.toOption, Option.map_some, Option.some.injEq] at hs
      subst hs
      exact ⟨f, _, hf, by omega, rfl, fun _ => by rw [← h.held], by simp only [NoLastDrop]; omega,
        fun h1 => absurd h1 h0⟩
  | dec f =>
    simp only [allocStep] at hs
    split at hs
    · cases hs
    · rename_i hh
      have hf := h.heldDom f hh
      have h0 : a.kmem.pageRefsNum f ≠ 0 := by rw [h.held]; exact hh
      have hlt := h.lt f
      have hm : (a.kmem.pageRefsNum f + UINT - 1) % UINT = a.kmem.pageRefsNum f - 1 := by
        rw [show a.kmem.pageRefsNum f + UINT - 1 = a.kmem.pageRefsNum f - 1 + UINT by omega,
          Nat.add_mod_right, Nat.mod_eq_of_lt (by omega)]
      rw [decRefCount_frame (h.domOk f hf), hm] at hs
      simp only [Except.toOption, Option.map_some, Option.some.injEq] at hs
      subst hs
      exact ⟨f, _, hf, by omega, rfl, fun _ => by rw [← h.held], by simp only [NoLastDrop]; omega,
        fun h1 => absurd h1 h0⟩

theorem AllocInv.step {c : Cfg} {dom : List Nat} {a b : Alloc} {op : AllocOp} (h : AllocInv c dom a)
    (hp : NoLastDrop a op) (hs : allocStep c dom a op = some b) : AllocInv c dom b := by
  by_cases hop : op = .kalloc
  · subst hop; exact h.kalloc hs
  · obtain ⟨f, n, hf, hlt, hk, hh, hiff, _⟩ := allocStep_cases h hop hs
    obtain ⟨h0, hn⟩ := hiff.1 hp
    obtain ⟨bk, bh⟩ := b
    obtain rfl : bk = _ := hk
    obtain rfl : bh = _ := hh hp
    exact h.setRefs hf h0 hn hlt

/-- A step that takes the last reference away leaves a frame lost. -/
theorem AllocInv.step_bad {c : Cfg} {dom : List Nat} {a b : Alloc} {op : AllocOp} (h : AllocInv c dom a)
    (hp : ¬ NoLastDrop a op) (hs : allocStep c dom a op = some b) : ¬ FreeListExact dom b := by
  have hop : op ≠ .kalloc := by rintro rfl; exact hp trivial
  obtain ⟨f, n, hf, _, hk, _, hiff, hz⟩ := allocStep_cases h hop hs
  obtain ⟨bk, bh⟩ := b
  obtain rfl : bk = _ := hk
  refine setRefs_not_exact hf ?_
  rw [h.free f hf]
  constructor
  · exact hz
  · intro hn
    by_contra h0
    exact hp (hiff.2 ⟨h0, hn⟩)

/-- The calls of the allocator as a transition system. -/
def AllocStep (c : Cfg) (dom : List Nat) (a : Alloc) (op : AllocOp) (b : Alloc) : Prop :=
  allocStep c dom a op = some b

/-- **The free list law.** After `freerange`, a run in which each reference is dropped at most once
keeps `FreeListExact` exactly when none of its drops takes a count from 1 to 0 (and none of its
`inc_ref_count`s starts from 0 or wraps). -/
theorem freeListExact_iff {c : Cfg} {vstart vend : Nat} {k : Kmem} {ops : List AllocOp} {a : Alloc}
    (hv : vend < UINT) (hk : freerange c vstart vend .zero = .ok k)
    (h : Lts.Run (AllocStep c k.freelist) (.start k) ops a) :
    Lts.AtAll (AllocStep c k.freelist) (FreeListExact k.freelist) (.start k) ops ↔
      Lts.Steps (AllocStep c k.freelist) NoLastDrop (.start k) ops :=
  Lts.atAll_iff_steps (fun _ _ _ _ h1 h2 => Option.some.inj (h1.symm.trans h2))
    (fun _ _ _ hI hp hs => hI.step hp hs) (fun _ hI => hI.exact) (fun _ _ _ hI hp hs => hI.step_bad hp hs)
    h (AllocInv.start hv hk)

/-- A kernel that ends at physical 1 MB, for the closed statements. -/
def exCfg (sel : Selection) : Cfg := ⟨sel, 0x100000, 0x8010a, by decide⟩

/-- `freerange` over two pages. -/
def exFree : Kmem := (freerange (exCfg .NONE) 0x80100000 0x80102000 .zero).toOption.getD .zero

theorem exFree_eq : freerange (exCfg .NONE) 0x80100000 0x80102000 .zero = .ok exFree := by
  have h : (freerange (exCfg .NONE) 0x80100000 0x80102000 .zero).isOk = true := by decide +kernel
  unfold exFree
  cases hf : freerange (exCfg .NONE) 0x80100000 0x80102000 .zero with
  | error e => rw [hf] at h; cases h
  | ok k => rfl

/-- The run of `ops` from there. -/
def exRun (ops : List AllocOp) : Option Alloc :=
  ops.foldlM (allocStep (exCfg .NONE) exFree.freelist) (.start exFree)

theorem exRun_run {ops : List AllocOp} (h : (exRun ops).isSome = true) :
    Lts.Run (AllocStep (exCfg .NONE) exFree.freelist) (.start exFree) ops ((exRun ops).get h) :=
  Lts.Run.of_foldlM (Option.some_get h).symm

theorem freeListExact_iff_shared :
    Lts.AtAll (AllocStep (exCfg .NONE) exFree.freelist) (FreeListExact exFree.freelist)
        (.start exFree) [.kalloc, .inc 0x101, .kfree 0x101] ↔
      Lts.Steps (AllocStep (exCfg .NONE) exFree.freelist) NoLastDrop (.start exFree)
        [.kalloc, .inc 0x101, .kfree 0x101] :=
  freeListExact_iff (by decide) exFree_eq (exRun_run (by decide +kernel))

/-- `kalloc` then `kfree`: the frame has no reference and is not on the list. -/
theorem freeListExact_not_always :
    ¬ ∀ (c : Cfg) (vstart vend : Nat) (k : Kmem) (ops : List AllocOp) (a : Alloc), vend < UINT →
      freerange c vstart vend .zero = .ok k → Lts.Run (AllocStep c k.freelist) (.start k) ops a →
      Lts.AtAll (AllocStep c k.freelist) (FreeListExact k.freelist) (.start k) ops := by
  intro h
  have hr := @exRun_run [.kalloc, .kfree 0x101] (by decide +kernel)
  have hx := h _ _ _ _ _ _ (by decide) exFree_eq hr _ _ (List.prefix_refl _) hr
  have hno : ¬ (0x101 ∈ ((exRun [.kalloc, .kfree 0x101]).get (by decide +kernel)).kmem.freelist ↔
      ((exRun [.kalloc, .kfree 0x101]).get (by decide +kernel)).kmem.pageRefsNum 0x101 = 0) := by
    decide +kernel
  exact hno (hx.2.1 0x101 (by decide +kernel))

end Xv6
