import CCppProjects.Xv6.Loading
import CCppProjects.Xv6.Transparency
import CCppProjects.Xv6.Victim
/-
# What a failed `sbrk` leaves behind (proc.c:188)

`growproc` returns -1 when `allocuvm` gives up, and when `deallocuvm` returns the new size 0. `Unchanged` is the call
without a trace. The rollback of `allocuvm` takes the pages away again but not their slots of `pages[]`, and a shrink
to 0 has freed everything by then: only the calls of `Harmless` leave no trace.

| here | there |
| --- | --- |
| `Ctx.mapped` | a page that `deallocuvm` takes (vm.c:300-321) |
| `Ctx.contents` | what its bytes are, in its frame or where `get_page` finds them (vm.c:588-600) |
-/
namespace Xv6

variable {c : Cfg} {x x' y : Ctx} {n : Int}

/-! ## The state a call must keep -/

/-- The process has page `u`, in memory or, if it is tracked, in its swap file. -/
def Ctx.mapped (c : Cfg) (x : Ctx) (u : Nat) : Bool :=
  (x.proc.pgdir.pde (u / NPTENTRIES)).isSome && ((x.proc.pgdir.pte u).P || x.tracked c && (x.proc.pgdir.pte u).PG)

/-- What `get_page` reads for page `u`. -/
def Proc.onFile (p : Proc) (u : Nat) : Option PageData :=
  (p.pages.find? fun pg => pg.vAddress == u * PGSIZE).bind fun pg =>
    p.swapFile.map fun fl => readFromSwapFile fl pg.fileOffset zeroPage

/-- The bytes of page `u`. -/
def Ctx.contents (c : Cfg) (x : Ctx) (u : Nat) : Option PageData :=
  if x.tracked c && (x.proc.pgdir.pte u).PG then x.proc.onFile u else some (x.data (x.proc.pgdir.pte u).addr)

/-- `sz`, the pages and their bytes, the allocated slots, the queue and the count of pages are the same. -/
structure Unchanged (c : Cfg) (x x' : Ctx) : Prop where
  sz : x'.proc.sz = x.proc.sz
  mapped : ∀ u < USERPAGES, x'.mapped c u = x.mapped c u
  contents : ∀ u < USERPAGES, x.mapped c u = true → x'.contents c u = x.contents c u
  slots : ∀ (s : Nat) (pg : Page), pg.isAllocated = true → (x'.proc.pages[s]? = some pg ↔ x.proc.pages[s]? = some pg)
  queue : ∀ i : Nat, x'.proc.RAMQueue.count (some i) = x.proc.RAMQueue.count (some i)
  count : x'.proc.numberOfAllocatedPages = x.proc.numberOfAllocatedPages

/-- Not even the first page of the request can be had. -/
def Ctx.noPage (x : Ctx) : Prop :=
  x.kmem.freelist = [] ∨ (x.proc.pgdir.pde (pgUp x.proc.sz / NPTENTRIES) = none ∧ x.kmem.freelist.length = 1)

/-- The requests that leave no trace when they fail: a growth past `KERNBASE`, or into unmapped space, which for a
tracked process gets no page and evicts none; a shrink of a process without pages that takes nothing off the count. -/
def Harmless (c : Cfg) (n : Int) (x : Ctx) : Prop :=
  if 0 < n then KERNBASE ≤ addInt x.proc.sz n ∨
    ((∀ u, pgUp x.proc.sz ≤ u → u < pgUp (addInt x.proc.sz n) → x.mapped c u = false) ∧
      (x.tracked c = true → pgUp x.proc.sz < MAX_PSYC_PAGES ∧ x.noPage))
  else (∀ u < pgUp x.proc.sz, x.mapped c u = false) ∧ (n + PGSIZE - 1) / PGSIZE = 0

/-- No page of the process in memory lies in a free frame. -/
structure FreeApart (c : Cfg) (x : Ctx) : Prop where
  frame : ∀ f ∈ x.kmem.freelist, c.FrameOk f
  apart : ∀ u < USERPAGES, x.mapped c u = true → (x.tracked c && (x.proc.pgdir.pte u).PG) = false →
    (x.proc.pgdir.pte u).addr ∉ x.kmem.freelist

/-! ## The record of a process but for its table -/

/-- The fields that `Unchanged` speaks of besides the table. -/
def Proc.book (p : Proc) : Nat × Nat × List Page × List (Option Nat) × Int × Option SwapFile :=
  (p.sz, p.pid, p.pages, p.RAMQueue, p.numberOfAllocatedPages, p.swapFile)

theorem book_follows (c : Cfg) : Follows c (fun _ => False) fun p q => q.book = p.book where
  refl _ := rfl
  trans h h' := h'.trans h
  table _ _ := rfl
  fault _ _ _ _ := rfl
  swap h := h.elim
  dealloc h := h.elim
  record h := h.elim
  load h := h.elim

theorem tracked_of_book (h : y.proc.book = x.proc.book) : y.tracked c = x.tracked c :=
  Ctx.tracked_of_pid (congrArg (fun b => b.2.1) h)

theorem mapped_congr {u : Nat} (htr : y.tracked c = x.tracked c) (hpde : y.proc.pgdir.pde = x.proc.pgdir.pde)
    (hpte : y.proc.pgdir.pte u = x.proc.pgdir.pte u) : y.mapped c u = x.mapped c u := by
  rw [Ctx.mapped, htr, hpde, hpte, Ctx.mapped]

theorem mapped_of_proc {u : Nat} (h : y.proc = x.proc) : y.mapped c u = x.mapped c u := by
  rw [Ctx.mapped, Ctx.tracked, h, Ctx.mapped, Ctx.tracked]

/-! ## `deallocuvm` -/

theorem freePage_unmapped {flag : Bool} {v : Nat} (h : freePage c .own flag v x = .ok x')
    (hv : ((x.proc.pgdir.pte v).P || x.tracked c && (x.proc.pgdir.pte v).PG) = false) : x' = x := by
  rw [Bool.or_eq_false_iff] at hv
  obtain ⟨q, ⟨-, ⟨hP, -⟩ | ⟨-, hPG, htr, -⟩⟩ | ⟨-, -, hx⟩⟩ := freePage_cases h
  · change (x.proc.pgdir.pte v).P = true at hP
    rw [hv.1] at hP
    cases hP
  · change (x.proc.pgdir.pte v).PG = true at hPG
    rw [htr, hPG] at hv
    cases hv.2
  · exact hx

/-- The page is gone, and nothing else. -/
theorem freePage_spec {flag : Bool} {v : Nat} (h : freePage c .own flag v x = .ok x') :
    ((x'.proc.pgdir.pte v).P || x'.tracked c && (x'.proc.pgdir.pte v).PG) = false ∧
      (∀ u, u ≠ v → x'.proc.pgdir.pte u = x.proc.pgdir.pte u) ∧ x'.proc.pgdir.pde = x.proc.pgdir.pde ∧
      x'.proc.pid = x.proc.pid ∧ x'.data = x.data := by
  have hid : ∀ {q : Proc}, (if x.tracked c && flag then deallocatePage c (v * PGSIZE) x.proc else .ok x.proc) = .ok q →
      q.pid = x.proc.pid ∧ q.pgdir = x.proc.pgdir := by
    intro q hq
    split at hq
    · exact ⟨congrArg Prod.fst (deallocatePage_id hq).1, (deallocatePage_id hq).2.1⟩
    · cases hq
      exact ⟨rfl, rfl⟩
  obtain ⟨q, ⟨hq, ⟨-, k, -, rfl⟩ | ⟨-, -, -, rfl⟩⟩ | ⟨hP, hPG, rfl⟩⟩ := freePage_cases h
  · obtain ⟨hpid, hpg⟩ := hid hq
    refine ⟨?_, fun u hu => ?_, ?_, hpid, rfl⟩
    · simp [Ctx.setTbl, Ctx.tbl, Pgdir.setPte]
    · simp [Ctx.setTbl, Ctx.tbl, Pgdir.setPte, Function.update_of_ne hu, Ctx.setProc, Ctx.setKmem, hpg]
    · simp [Ctx.setTbl, Ctx.tbl, Pgdir.setPte, Ctx.setProc, Ctx.setKmem, hpg]
  · obtain ⟨hpid, hpg⟩ := hid hq
    refine ⟨?_, fun u hu => ?_, ?_, hpid, rfl⟩
    · simp [Ctx.setTbl, Ctx.tbl, Pgdir.setPte]
    · simp [Ctx.setTbl, Ctx.tbl, Pgdir.setPte, Function.update_of_ne hu, Ctx.setProc, hpg]
    · simp [Ctx.setTbl, Ctx.tbl, Pgdir.setPte, Ctx.setProc, hpg]
  · refine ⟨?_, fun _ _ => rfl, rfl, rfl, rfl⟩
    change (x'.proc.pgdir.pte v).P = false at hP
    rw [hP, Bool.false_or, Bool.and_eq_false_iff]
    cases hpg : (x'.proc.pgdir.pte v).PG with
    | false => exact .inr rfl
    | true => exact .inl (hPG hpg)

/-- What is left once the pages from `v` up to `oldsz` are freed. -/
structure Freed (c : Cfg) (v oldsz : Nat) (x x' : Ctx) : Prop where
  gone : ∀ u, v ≤ u → u < pgUp oldsz → x'.mapped c u = false
  pte : ∀ u, u < v ∨ pgUp oldsz ≤ u → x'.proc.pgdir.pte u = x.proc.pgdir.pte u
  pde : x'.proc.pgdir.pde = x.proc.pgdir.pde
  pid : x'.proc.pid = x.proc.pid
  data : x'.data = x.data

theorem deallocuvmLoop_freed {oldsz : Nat} {flag : Bool} : ∀ (n v : Nat) {x x' : Ctx}, pgUp oldsz ≤ v + n →
    deallocuvmLoop c .own oldsz flag n v x = .ok x' → Freed c v oldsz x x' := by
  intro n
  induction n with
  | zero =>
    intro v x x' hn h
    cases h
    exact ⟨fun u h1 h2 => absurd h2 (by omega), fun _ _ => rfl, rfl, rfl, rfl⟩
  | succ n ih =>
    intro v x x' hn h
    rw [deallocuvmLoop] at h
    by_cases hle : oldsz ≤ v * PGSIZE
    · rw [if_pos hle] at h
      cases h
      have hv : ¬ v < pgUp oldsz := by rw [lt_pgUp]; omega
      exact ⟨fun u h1 h2 => absurd h2 (by omega), fun _ _ => rfl, rfl, rfl, rfl⟩
    rw [if_neg hle] at h
    split at h
    · next hpde =>
      change x.proc.pgdir.pde (v / NPTENTRIES) = none at hpde
      -- the pages of a table that is missing
      have hskip : v < (v / NPTENTRIES + 1) * NPTENTRIES := by
        simp only [NPTENTRIES]
        omega
      have hrest := ih _ (by omega) h
      refine ⟨fun u h1 h2 => ?_, fun u hu => hrest.pte u (by omega), hrest.pde, hrest.pid, hrest.data⟩
      by_cases hu : u < (v / NPTENTRIES + 1) * NPTENTRIES
      · have hsame : u / NPTENTRIES = v / NPTENTRIES := by
          simp only [NPTENTRIES] at hu ⊢
          omega
        rw [Ctx.mapped, hrest.pde, hsame, hpde]
        rfl
      · exact hrest.gone u (by omega) h2
    · obtain ⟨y, hy, h⟩ := bind_ok h
      obtain ⟨hgone, hpte, hpde, hpid, hdata⟩ := freePage_spec hy
      have hrest := ih (v + 1) (by omega) h
      refine ⟨fun u h1 h2 => ?_, fun u hu => ?_, hrest.pde.trans hpde, hrest.pid.trans hpid, hrest.data.trans hdata⟩
      · by_cases huv : u = v
        · subst huv
          rw [Ctx.mapped, hrest.pte u (.inl (by omega)), Ctx.tracked_of_pid hrest.pid, hgone, Bool.and_false]
        · exact hrest.gone u (by omega) h2
      · have hvp : v < pgUp oldsz := lt_pgUp.2 (by omega)
        rw [hrest.pte u (by omega), hpte u (by omega)]

theorem deallocuvmLoop_unmapped {oldsz : Nat} {flag : Bool} : ∀ (n v : Nat) {x' : Ctx},
    (∀ u, v ≤ u → u < pgUp oldsz → x.mapped c u = false) →
    deallocuvmLoop c .own oldsz flag n v x = .ok x' → x' = x := by
  intro n
  induction n with
  | zero =>
    intro v x' _ h
    cases h
    rfl
  | succ n ih =>
    intro v x' hno h
    rw [deallocuvmLoop] at h
    by_cases hle : oldsz ≤ v * PGSIZE
    · rw [if_pos hle] at h
      cases h
      rfl
    rw [if_neg hle] at h
    split at h
    · refine ih _ (fun u hu => hno u ?_) h
      have hskip : v < (v / NPTENTRIES + 1) * NPTENTRIES := by
        simp only [NPTENTRIES]
        omega
      omega
    · next pd hpd =>
      obtain ⟨z, hz, hrest⟩ := bind_ok h
      have hv := hno v (Nat.le_refl _) (lt_pgUp.2 (by omega))
      change x.proc.pgdir.pde (v / NPTENTRIES) = some pd at hpd
      rw [Ctx.mapped, hpd, Option.isSome_some, Bool.true_and] at hv
      rw [freePage_unmapped hz hv] at hrest
      exact ih (v + 1) (fun u hu => hno u (by omega)) hrest

/-! ## The rounds of a growth -/

/-- The state after rounds from page `a` up to `v` of which the record of the process tells nothing. -/
structure Extended (c : Cfg) (a v : Nat) (x y : Ctx) : Prop where
  book : y.proc.book = x.proc.book
  mapped : ∀ u, u < a ∨ v ≤ u → y.mapped c u = x.mapped c u
  pte : ∀ u, u < a ∨ v ≤ u → x.mapped c u = true → y.proc.pgdir.pte u = x.proc.pgdir.pte u
  free : ∀ u, a ≤ u → u < v → x.mapped c u = false
  freelist : ∀ f ∈ y.kmem.freelist, f ∈ x.kmem.freelist
  data : ∀ f, f ∉ x.kmem.freelist → y.data f = x.data f

theorem Extended.refl (c : Cfg) (a : Nat) (x : Ctx) : Extended c a a x x :=
  ⟨rfl, fun _ _ => rfl, fun _ _ _ => rfl, fun u h1 h2 => absurd h2 (by omega), fun _ h => h, fun _ _ => rfl⟩

theorem Extended.tracked {a v : Nat} (h : Extended c a v x y) : y.tracked c = x.tracked c := tracked_of_book h.book

/-- What `mappages` does to a table that has no page `v`. -/
theorem walkpgdirAlloc_mapped {k k' : Kmem} {t t' : Pgdir} {v : Nat} (h : walkpgdirAlloc k t v = some (k', t')) :
    (t' = t ∧ k' = k ∧ (t.pde (v / NPTENTRIES)).isSome = true) ∨
      (t.pde (v / NPTENTRIES) = none ∧ (t'.pde (v / NPTENTRIES)).isSome = true ∧
        (∀ d, d ≠ v / NPTENTRIES → t'.pde d = t.pde d) ∧ (∀ f ∈ k'.freelist, f ∈ k.freelist) ∧
        ∀ u, t'.pte u = if u / NPTENTRIES = v / NPTENTRIES then {} else t.pte u) := by
  unfold walkpgdirAlloc at h
  split at h
  · next pd hpd =>
    cases h
    exact .inl ⟨rfl, rfl, by rw [hpd]; rfl⟩
  · next hpd =>
    rcases kalloc_cases k with ⟨-, hk⟩ | ⟨f, rest, hfree, hk⟩
    · rw [hk] at h
      cases h
    · rw [hk] at h
      cases h
      refine .inr ⟨hpd, by simp, fun d hd => Function.update_of_ne hd _ _, fun g hg => ?_, fun u => rfl⟩
      rw [hfree]
      exact List.mem_cons_of_mem f hg

theorem walkpgdirAlloc_none {k : Kmem} {t : Pgdir} {v : Nat} (h : walkpgdirAlloc k t v = none) :
    t.pde (v / NPTENTRIES) = none ∧ k.freelist = [] := by
  unfold walkpgdirAlloc at h
  split at h
  · cases h
  · next hpd =>
    rcases kalloc_cases k with ⟨hfree, -⟩ | ⟨f, rest, -, hk⟩
    · exact ⟨hpd, hfree⟩
    · rw [hk] at h
      cases h

theorem kva_frame {f : Nat} (h : c.FrameOk f) : V2P (kva f) / PGSIZE = f := by rw [V2P_kva h, mul_PGSIZE_div]

/-- The frame `kalloc` hands out is filled with zeroes; no other is written to. -/
theorem data_fill {f : Nat} {rest : List Nat} (hok : ∀ f ∈ x.kmem.freelist, c.FrameOk f)
    (hfree : x.kmem.freelist = f :: rest)
    {g : Nat} (hg : g ∉ x.kmem.freelist) : Function.update x.data (V2P (kva f) / PGSIZE) zeroPage g = x.data g := by
  rw [kva_frame (hok f (by rw [hfree]; exact List.mem_cons_self))]
  refine Function.update_of_ne ?_ _ _
  rintro rfl
  exact hg (by rw [hfree]; exact List.mem_cons_self)

/-- No page for `v` can be had. -/
theorem allocPage_fails {v : Nat} {r : Mapped} (hok : ∀ f ∈ x.kmem.freelist, c.FrameOk f)
    (h : allocPage .own v x = .ok (r, y)) (hr : r ≠ .done) :
    (x.kmem.freelist = [] ∨ (x.proc.pgdir.pde (v / NPTENTRIES) = none ∧ x.kmem.freelist.length = 1)) ∧
      y.proc = x.proc ∧ (∀ f ∈ y.kmem.freelist, f ∈ x.kmem.freelist) ∧ ∀ f, f ∉ x.kmem.freelist →
      y.data f = x.data f := by
  unfold allocPage at h
  rcases kalloc_cases x.kmem with ⟨hfree, hk⟩ | ⟨f, rest, hfree, hk⟩
  · rw [hk] at h
    cases h
    exact ⟨.inl hfree, rfl, fun _ hf => hf, fun _ _ => rfl⟩
  · rw [hk] at h
    obtain ⟨o, ho, h⟩ := lift_bind_ok h
    rcases mappages_cases ho with ⟨rfl, hw⟩ | ⟨k', t', rfl, -⟩
    · cases h
      obtain ⟨hpde, hrest⟩ := walkpgdirAlloc_none hw
      change rest = [] at hrest
      refine ⟨.inr ⟨hpde, by rw [hfree, hrest]; rfl⟩, rfl, fun g hg => ?_, fun g hg => data_fill hok hfree hg⟩
      rw [hfree]
      exact List.mem_cons_of_mem f hg
    · cases h
      exact absurd rfl hr

theorem setTbl_mapped {t : Pgdir} {e : Pte} {u v : Nat} (hu : u ≠ v) : (y.setTbl .own (t.setPte v e)).mapped c u =
    ((t.pde (u / NPTENTRIES)).isSome && ((t.pte u).P || y.tracked c && (t.pte u).PG)) := by
  rw [Ctx.mapped]
  simp only [Ctx.setTbl, Pgdir.setPte, Function.update_of_ne hu]
  rfl

/-- Page `v` is mapped. -/
theorem allocPage_maps {v : Nat} (hok : ∀ f ∈ x.kmem.freelist, c.FrameOk f) (h : allocPage .own v x = .ok (.done, y)) :
    ¬ (x.kmem.freelist = [] ∨ (x.proc.pgdir.pde (v / NPTENTRIES) = none ∧ x.kmem.freelist.length = 1)) ∧
      y.proc.book = x.proc.book ∧ (∀ f ∈ y.kmem.freelist, f ∈ x.kmem.freelist) ∧
      (∀ f, f ∉ x.kmem.freelist → y.data f = x.data f) ∧ (x.tracked c = false → x.mapped c v = false) ∧
      ∀ u, u ≠ v → y.mapped c u = x.mapped c u ∧ (x.mapped c u = true → y.proc.pgdir.pte u = x.proc.pgdir.pte u) := by
  rcases allocPage_cases h with ⟨hr, -⟩ | ⟨mem, k, hk, ⟨hr, -⟩ | ⟨k', t', -, hw, hP, -, rfl⟩⟩
  · cases hr
  · cases hr
  rcases kalloc_cases x.kmem with ⟨-, hk'⟩ | ⟨f, rest, hfree, hk'⟩
  · rw [hk'] at hk
    cases hk
  rw [hk'] at hk
  obtain ⟨hmem, hrest⟩ := Prod.mk.inj hk
  obtain rfl := Option.some.inj hmem
  have hkfree : k.freelist = rest := by rw [← hrest]
  clear hk hk' hrest hmem
  change walkpgdirAlloc _ x.proc.pgdir v = some (k', t') at hw
  refine ⟨?_, rfl, fun g hg => ?_, fun g hg => data_fill hok hfree hg, fun htr => ?_, fun u hu => ?_⟩
  · rw [hfree]
    rintro (hnil | ⟨hpde, hone⟩)
    · cases hnil
    · obtain rfl : rest = [] := by simpa using hone
      have hnone : kalloc k = (none, k) := by rw [kalloc, hkfree]
      unfold walkpgdirAlloc at hw
      rw [hpde, hnone] at hw
      cases hw
  · have hg' : g ∈ rest := by
      rw [← hkfree]
      rcases walkpgdirAlloc_mapped hw with ⟨-, rfl, -⟩ | ⟨-, -, -, hsub, -⟩
      · exact hg
      · exact hsub g hg
    rw [hfree]
    exact List.mem_cons_of_mem f hg'
  · rcases walkpgdirAlloc_mapped hw with ⟨rfl, -, -⟩ | ⟨hpde, -⟩
    · rw [Ctx.mapped, htr, hP]
      simp
    · rw [Ctx.mapped, hpde]
      rfl
  · rw [setTbl_mapped hu]
    rcases walkpgdirAlloc_mapped hw with ⟨rfl, -, -⟩ | ⟨hpde, hsome, hother, -, hpte⟩
    · refine ⟨rfl, fun _ => ?_⟩
      simp [Ctx.setTbl, Pgdir.setPte, Function.update_of_ne hu]
    · by_cases hsame : u / NPTENTRIES = v / NPTENTRIES
      · -- a table just made has no pages
        have hno : x.mapped c u = false := by
          rw [Ctx.mapped, hsame, hpde]
          rfl
        refine ⟨?_, fun hyes => ?_⟩
        · rw [hno, hpte, if_pos hsame]
          simp
        · rw [hno] at hyes
          cases hyes
      · refine ⟨?_, fun _ => ?_⟩
        · rw [hpte, if_neg hsame, hother _ hsame]
          rfl
        · simp [Ctx.setTbl, Pgdir.setPte, Function.update_of_ne hu, hpte, hsame]

/-- The rounds of an untracked process. -/
theorem Rounds.extended {a b : Nat} (hok : ∀ f ∈ x.kmem.freelist, c.FrameOk f) (htr : x.tracked c = false)
    (h : Rounds c .own a b x y) : Extended c a b x y := by
  have hinv := h.inv (I := fun v y => a ≤ v ∧ Extended c a v x y) ?_ ⟨Nat.le_refl _, .refl c a x⟩
  · exact hinv.2
  rintro v y u - ⟨hav, hy⟩ ⟨y', z, hroom, hz, hu⟩
  have hytr : y.tracked c = false := hy.tracked.trans htr
  rw [makeRoom, hytr] at hroom
  cases hroom
  obtain ⟨-, hbook, hfree, hdata, hno, hpte⟩ := allocPage_maps (fun f hf => hok f (hy.freelist f hf)) hz
  rw [(tracked_of_book hbook).trans hytr] at hu
  cases hu
  refine ⟨by omega, hbook.trans hy.book, fun r hr => ?_, fun r hr hm => ?_, fun r h1 h2 => ?_,
    fun f hf => hy.freelist f (hfree f hf),
    fun f hf => (hdata f fun hn => hf (hy.freelist f hn)).trans (hy.data f hf)⟩
  · exact (hpte r (by omega)).1.trans (hy.mapped r (by omega))
  · exact ((hpte r (by omega)).2 ((hy.mapped r (by omega)).trans hm)).trans (hy.pte r (by omega) hm)
  · by_cases hrv : r = v
    · subst hrv
      exact (hy.mapped r (.inr (Nat.le_refl _))).symm.trans (hno hytr)
    · exact hy.free r h1 (by omega)

theorem pgUp_le_user {sz : Nat} (h : sz < KERNBASE) : pgUp sz ≤ USERPAGES := Loading.pgUp_le h

/-- The round at which a growth fails, when it evicts no page. -/
theorem Fails.unchanged {newsz v : Nat} (hap : FreeApart c x) (hy : Extended c (pgUp x.proc.sz) v x y)
    (hlt : newsz < KERNBASE)
    (hav : pgUp x.proc.sz ≤ v) (hroom : makeRoom c .own v y = .ok y)
    (hf : Fails c .own x.proc.sz newsz v y x') (hv : v < pgUp newsz) :
    Unchanged c x x' ↔ ∀ u, pgUp x.proc.sz ≤ u → u < pgUp newsz → x.mapped c u = false := by
  obtain ⟨y', r, z, s, hroom', hz, hs, hx⟩ := hf
  obtain rfl : y = y' := Except.ok.inj (hroom.symm.trans hroom')
  have hr : r ≠ .done := by
    rintro rfl
    rcases hx with ⟨hr, -⟩ | ⟨mem, k, hr, -⟩
    · cases hr
    · cases hr
  obtain ⟨-, hproc, hfree, hdata⟩ := allocPage_fails (fun f hf => hap.frame f (hy.freelist f hf)) hz hr
  -- the rollback
  have hsz : ¬ newsz ≤ x.proc.sz := by
    rw [lt_pgUp] at hv
    have : ¬ pgUp x.proc.sz < pgUp x.proc.sz := Nat.lt_irrefl _
    rw [lt_pgUp] at this
    have := Nat.mul_le_mul_right PGSIZE hav
    omega
  unfold deallocuvm at hs
  rw [if_neg hsz] at hs
  obtain ⟨w, hw, hs⟩ := bind_ok hs
  cases hs
  have hbook : w.proc.book = z.proc.book :=
    (book_follows c).deallocuvmLoop .own newsz Follows.unflagged _ _ (z.emit _) w hw
  have hfreed := deallocuvmLoop_freed _ _ (by omega) hw
  obtain ⟨hx1, hx2⟩ : x'.proc = w.proc ∧ x'.data = w.data := by
    rcases hx with ⟨-, rfl⟩ | ⟨mem, k, -, -, rfl⟩
    · exact ⟨rfl, rfl⟩
    · exact ⟨rfl, rfl⟩
  have hxbook : x'.proc.book = x.proc.book := by
    rw [hx1, hbook, hproc, hy.book]
  have htr : x'.tracked c = x.tracked c := tracked_of_book hxbook
  have hpte : ∀ u, u < pgUp x.proc.sz ∨ pgUp newsz ≤ u → x'.proc.pgdir.pte u = y.proc.pgdir.pte u := by
    intro u hu
    rw [hx1, hfreed.pte u hu]
    exact congrArg (fun p => p.pgdir.pte u) hproc
  have hmapped : ∀ u, x'.mapped c u = if pgUp x.proc.sz ≤ u ∧ u < pgUp newsz then false else x.mapped c u := by
    intro u
    split
    · next hu => exact (mapped_of_proc hx1).trans (hfreed.gone u hu.1 hu.2)
    · next hu =>
      rw [← hy.mapped u (by omega)]
      refine mapped_congr (htr.trans hy.tracked.symm) ?_ (hpte u (by omega))
      rw [hx1, hfreed.pde]
      exact congrArg (fun p => p.pgdir.pde) hproc
  constructor
  · intro hun u h1 h2
    have := hun.mapped u (by have := pgUp_le_user hlt; omega)
    rw [hmapped, if_pos ⟨h1, h2⟩] at this
    exact this.symm
  · intro hno
    refine ⟨congrArg (·.1) hxbook, fun u _ => ?_, fun u hu hm => ?_, fun s pg _ => ?_,
      fun i => ?_, congrArg (·.2.2.2.2.1) hxbook⟩
    · rw [hmapped]
      split
      · next hu => exact (hno u hu.1 hu.2).symm
      · rfl
    · have hout : u < pgUp x.proc.sz ∨ pgUp newsz ≤ u := by
        by_contra hin
        rw [hno u (by omega) (by omega)] at hm
        cases hm
      have hsame : x'.proc.pgdir.pte u = x.proc.pgdir.pte u := (hpte u hout).trans (hy.pte u (by omega) hm)
      rw [Ctx.contents, htr, hsame, Ctx.contents]
      split
      · rw [Proc.onFile, Proc.onFile, show x'.proc.pages = x.proc.pages from congrArg (·.2.2.1) hxbook,
          show x'.proc.swapFile = x.proc.swapFile from congrArg (·.2.2.2.2.2) hxbook]
      · next hPG =>
        have hap := hap.apart u hu hm (by simpa using hPG)
        rw [hx2, hfreed.data]
        exact congrArg some ((hdata _ fun hn => hap (hy.freelist _ hn)).trans (hy.data _ hap))
    · rw [show x'.proc.pages = x.proc.pages from congrArg (·.2.2.1) hxbook]
    · rw [show x'.proc.RAMQueue = x.proc.RAMQueue from congrArg (·.2.2.2.1) hxbook]

/-! ## A tracked process -/

theorem updateQueue_count {a : List (Option Nat)} {m i : Nat} (hlen : a.length = MAX_PSYC_PAGES)
    (hm : a.getD m none = some i) :
    (updateQueue m a).count (some i) < a.count (some i) := by
  have hlt : m < a.length := by
    by_contra hge
    rw [List.getD_eq_getElem?_getD, List.getElem?_eq_none (by omega)] at hm
    cases hm
  have hget : a[m] = some i := by
    rw [List.getD_eq_getElem?_getD, List.getElem?_eq_getElem hlt] at hm
    exact hm
  have hperm := (List.getElem_cons_eraseIdx_perm hlt).count_eq (some i)
  rw [hget, List.count_cons_self] at hperm
  rw [updateQueue_eq, updateQueueAt_eq hlen (hlen ▸ hlt), List.count_append]
  have : List.count (some i) [none] = 0 := by simp
  omega

theorem scfifoScan_parts : ∀ {l : List (Option Nat)} {p : Proc} {t t' : Pgdir}
    {temp temp' rest : List (Option Nat)} {q : Option Nat},
    scfifoScan c p l t temp = .ok (t', temp', some (q, rest)) → temp ++ l = temp' ++ q :: rest := by
  intro l
  induction l with
  | nil =>
    intro p t t' temp temp' rest q h
    cases h
  | cons a l ih =>
    intro p t t' temp temp' rest q h
    rw [scfifoScan] at h
    obtain ⟨pg, -, h⟩ := bind_ok h
    split at h
    · cases h
    · split at h
      · rw [← ih h]
        simp
      · cases h
        rfl

/-- The victim leaves the queue. -/
theorem removeVictim_count {p p' : Proc} {i : Nat} (hpag : c.paging = true) (hlen : p.RAMQueue.length = MAX_PSYC_PAGES)
    (h : removeVictim c p = .ok (some i, p')) : p'.RAMQueue.count (some i) < p.RAMQueue.count (some i) := by
  unfold removeVictim at h
  split at h
  · next hsel =>
    rw [Cfg.paging, hsel] at hpag
    cases hpag
  · unfold removeSCFIFO at h
    obtain ⟨⟨t, temp, found⟩, hs, h⟩ := bind_ok h
    dsimp only at h
    split at h
    · next q rest =>
      cases h
      -- those behind the victim move to the front, those before it follow
      have hparts := congrArg (List.count (some i)) (scfifoScan_parts hs)
      rw [List.nil_append, List.count_append, List.count_cons_self] at hparts
      have hfront : (rest.takeWhile (· != none)).count (some i) ≤ rest.count (some i) :=
        (List.takeWhile_sublist _).count_le _
      have hback := (List.take_sublist (MAX_PSYC_PAGES - (rest.takeWhile (· != none)).length)
        (temp ++ List.replicate (MAX_PSYC_PAGES - temp.length) none)).count_le (some i)
      rw [List.count_append, List.count_replicate] at hback
      rw [List.count_append]
      simp only [Option.none_beq_some, Bool.false_eq_true, if_false] at hback
      omega
    · next hnone =>
      split at h
      · cases h
      · next j hj =>
        cases h
        exact updateQueue_count hlen hj
  · unfold removeNFUA at h
    obtain ⟨m, -, h⟩ := bind_ok h
    obtain ⟨hm, rfl⟩ := Prod.mk.inj (Except.ok.inj h)
    exact updateQueue_count hlen hm
  · unfold removeLAPA at h
    obtain ⟨m, -, h⟩ := bind_ok h
    split at h
    · cases h
    · obtain ⟨hm, rfl⟩ := Prod.mk.inj (Except.ok.inj h)
      exact updateQueue_count hlen hm
  · unfold removeAQ at h
    obtain ⟨hm, rfl⟩ := Prod.mk.inj (Except.ok.inj h)
    exact updateQueue_count hlen hm

theorem getFreeFileOffset_queue (p : Proc) : (getFreeFileOffset p).2.RAMQueue = p.RAMQueue := by
  cases ho : p.offsetQueue.getD 0 none with
  | none => simp only [getFreeFileOffset, removeOffsetQueue, ho]
  | some off => simp only [getFreeFileOffset, removeOffsetQueue, ho, updateOffsetQueue]

theorem SwapsOut.queue {p q : Proc} (hpag : c.paging = true) (hlen : p.RAMQueue.length = MAX_PSYC_PAGES)
    (h : SwapsOut c p q) :
    ∃ i, q.RAMQueue.count (some i) < p.RAMQueue.count (some i) := by
  obtain ⟨addr, p', fl, page, hsel, -, hq⟩ := h
  unfold selectPage at hsel
  obtain ⟨⟨r, p1⟩, hv, hsel⟩ := bind_ok hsel
  obtain ⟨pg, hpg, hsel⟩ := bind_ok hsel
  cases hsel
  cases r with
  | none => cases hpg
  | some i =>
    refine ⟨i, lt_of_eq_of_lt ?_ (removeVictim_count hpag hlen hv)⟩
    simp only [recordSwapOut] at hq
    split at hq
    · cases hq
    · cases hq
      exact congrArg (List.count (some i)) (getFreeFileOffset_queue p')

/-- Nothing but `recordPage` counts a page. -/
theorem count_follows (c : Cfg) : Follows c (· = .swap) fun p q =>
    q.numberOfAllocatedPages = p.numberOfAllocatedPages ∧ q.pid = p.pid where
  refl _ := ⟨rfl, rfl⟩
  trans h h' := ⟨h'.1.trans h.1, h'.2.trans h.2⟩
  table _ _ := ⟨rfl, rfl⟩
  fault _ _ _ _ := ⟨rfl, rfl⟩
  swap _ p q h := by
    obtain ⟨i, pg, off, -, -, hid, hcount⟩ := h.spec
    exact ⟨hcount, congrArg Prod.fst hid⟩
  dealloc h := nomatch h
  record h := nomatch h
  load h := nomatch h

theorem makeRoom_count {w : Tbl} {v : Nat} (h : makeRoom c w v x = .ok y) :
    y.proc.numberOfAllocatedPages = x.proc.numberOfAllocatedPages ∧ y.proc.pid = x.proc.pid := by
  unfold makeRoom at h
  split at h
  · exact (count_follows c).swapToFile rfl w x y h
  · cases h
    exact ⟨rfl, rfl⟩

theorem Round.count {w : Tbl} {v : Nat} (htr : x.tracked c = true) (h : Round c w v x y) :
    y.proc.numberOfAllocatedPages = x.proc.numberOfAllocatedPages + 1 ∧ y.tracked c = true := by
  obtain ⟨y', z, hroom, hz, hu⟩ := h
  obtain ⟨hy1, hy2⟩ := makeRoom_count hroom
  obtain ⟨t, ht⟩ := allocPage_proc hz
  have hztr : z.tracked c = true := by
    rw [Ctx.tracked_of_pid (y := z) (x := x) (by rw [ht]; exact hy2), htr]
  rw [if_pos hztr] at hu
  simp only [recordPage] at hu
  split at hu
  · cases hu
  · next pg hpg =>
    obtain ⟨q, hq, hu⟩ := lift_bind_ok hu
    have hrec : Records v z.proc { q with numberOfAllocatedPages := q.numberOfAllocatedPages + 1 } :=
      ⟨pg, q, hpg, hq, rfl⟩
    obtain ⟨i, pg', -, -, -, hid, hcount⟩ := hrec.spec
    have hz1 : z.proc.numberOfAllocatedPages = x.proc.numberOfAllocatedPages := by rw [ht]; exact hy1
    split at hu
    · cases hu
    · cases hu
      have hpid := congrArg Prod.fst hid
      refine ⟨?_, ?_⟩
      · rw [← hz1, ← hcount]
        cases w <;> rfl
      · rw [← hztr]
        refine Ctx.tracked_of_pid ?_
        rw [← show ({ q with numberOfAllocatedPages := q.numberOfAllocatedPages + 1 } : Proc).pid =
          z.proc.pid from hpid]
        cases w <;> rfl

theorem Rounds.count {w : Tbl} {a b : Nat} (htr : x.tracked c = true) (h : Rounds c w a b x y) :
    y.proc.numberOfAllocatedPages = x.proc.numberOfAllocatedPages + (b - a : Nat) := by
  have hinv := h.inv (I := fun v y => a ≤ v ∧ y.tracked c = true ∧
    y.proc.numberOfAllocatedPages = x.proc.numberOfAllocatedPages + (v - a : Nat)) ?_ ⟨Nat.le_refl _, htr, by simp⟩
  · exact hinv.2.2
  · rintro v y u - ⟨hv, hy, hcount⟩ hr
    obtain ⟨h1, h2⟩ := hr.count hy
    refine ⟨by omega, h2, ?_⟩
    rw [h1, hcount]
    omega

theorem Fails.count {w : Tbl} {oldsz newsz v : Nat} (h : Fails c w oldsz newsz v x x') :
    x'.proc.numberOfAllocatedPages = x.proc.numberOfAllocatedPages := by
  obtain ⟨y, r, z, s, hroom, hz, hs, hx⟩ := h
  have h1 := (makeRoom_count hroom).1
  obtain ⟨t, ht⟩ := allocPage_proc hz
  have h2 : s.2.proc.numberOfAllocatedPages = z.proc.numberOfAllocatedPages :=
    ((count_follows c).deallocuvm w newsz oldsz Follows.unflagged (z.emit _) s hs).1
  have h3 : x'.proc = s.2.proc := by
    rcases hx with ⟨-, rfl⟩ | ⟨mem, k, -, -, rfl⟩
    · rfl
    · rfl
  rw [h3, h2, ht]
  exact h1

/-- A round that evicts takes the victim out of the queue, even where it then finds no page. -/
theorem Fails.queue {oldsz newsz v : Nat} (htr : x.tracked c = true) (hv : MAX_PSYC_PAGES ≤ v)
    (hlen : x.proc.RAMQueue.length = MAX_PSYC_PAGES) (h : Fails c .own oldsz newsz v x x') :
    ∃ i, x'.proc.RAMQueue.count (some i) < x.proc.RAMQueue.count (some i) := by
  obtain ⟨y, r, z, s, hroom, hz, hs, hx⟩ := h
  have hpag : c.paging = true := (Bool.and_eq_true _ _ ▸ htr).1
  rw [makeRoom, htr, if_pos (by simpa using hv)] at hroom
  obtain ⟨addr, p, u, q, hsel, hu, hq, hroom⟩ := swapToFile_cases hroom
  obtain ⟨fl, page, hfl, rfl⟩ := writeUserPage_cases hu
  obtain ⟨e, k, -, -, rfl⟩ := releasePage_cases hroom
  obtain ⟨i, hi⟩ := SwapsOut.queue hpag hlen ⟨addr, p, fl, page, hsel, hfl, hq⟩
  obtain ⟨t, ht⟩ := allocPage_proc hz
  have hbook : s.2.proc.book = z.proc.book :=
    (book_follows c).deallocuvm .own newsz oldsz Follows.unflagged (z.emit _) s hs
  have h3 : x'.proc = s.2.proc := by
    rcases hx with ⟨-, rfl⟩ | ⟨mem, k, -, -, rfl⟩
    · rfl
    · rfl
  refine ⟨i, ?_⟩
  rw [h3, show s.2.proc.RAMQueue = z.proc.RAMQueue from congrArg (·.2.2.2.1) hbook, ht]
  exact hi

theorem Unchanged.refl (c : Cfg) (x : Ctx) : Unchanged c x x :=
  ⟨rfl, fun _ _ => rfl, fun _ _ _ => rfl, fun _ _ _ => .rfl, fun _ => rfl, rfl⟩

/-- A growth that fails. -/
theorem grow_unchanged {newsz : Nat} (hap : FreeApart c x) (hlen : x.proc.RAMQueue.length = MAX_PSYC_PAGES)
    (h0 : newsz ≠ 0) (h : allocuvm c .own x.proc.sz newsz x = .ok (0, x')) : Unchanged c x x' ↔ KERNBASE ≤ newsz ∨
      ((∀ u, pgUp x.proc.sz ≤ u → u < pgUp newsz → x.mapped c u = false) ∧
        (x.tracked c = true → pgUp x.proc.sz < MAX_PSYC_PAGES ∧ x.noPage)) := by
  rcases allocuvm_rounds h with ⟨-, hk, rfl⟩ | ⟨-, hmax, -⟩ | ⟨hlt, -, -, v, y, hav, hv, hrounds, hfail⟩
  · exact iff_of_true (.refl c _) (.inl hk)
  · omega
  rw [or_iff_right (by omega)]
  have hroom : ∀ {y : Ctx}, (y.tracked c = true → v < MAX_PSYC_PAGES) → makeRoom c .own v y = .ok y := by
    intro y hy
    rw [makeRoom, if_neg]
    · rfl
    · rw [Bool.and_eq_true, decide_eq_true_eq]
      rintro ⟨htr, hge⟩
      have := hy htr
      omega
  cases htr : x.tracked c with
  | false =>
    have hext := hrounds.extended hap.frame htr
    rw [hfail.unchanged hap hext hlt hav (hroom fun h => by rw [hext.tracked, htr] at h; cases h) hv]
    simp
  | true =>
    by_cases hva : v = pgUp x.proc.sz
    · -- the first page fails
      subst hva
      obtain rfl : x = y := by
        cases hrounds with
        | nil => rfl
        | cons _ hrest => exact absurd hrest.le (by omega)
      by_cases h16 : pgUp x.proc.sz < MAX_PSYC_PAGES
      · rw [hfail.unchanged hap (.refl c _ x) hlt hav (hroom fun _ => h16) hv]
        have hno : x.noPage := by
          obtain ⟨y', r, z, s, hy', hz, -, hx⟩ := hfail
          obtain rfl : x = y' := Except.ok.inj ((hroom fun _ => h16).symm.trans hy')
          refine (allocPage_fails hap.frame hz ?_).1
          rintro rfl
          rcases hx with ⟨hr, -⟩ | ⟨mem, k, hr, -⟩
          · cases hr
          · cases hr
        exact ⟨fun hu => ⟨hu, fun _ => ⟨h16, hno⟩⟩, fun hh => hh.1⟩
      · obtain ⟨i, hi⟩ := hfail.queue htr (by omega) hlen
        refine iff_of_false (fun hun => ?_) fun hh => h16 (hh.2 rfl).1
        have := hun.queue i
        omega
    · -- a page has been counted
      refine iff_of_false (fun hun => ?_) fun hh => ?_
      · have h1 := hrounds.count htr
        have h2 := hfail.count
        have h3 := hun.count
        omega
      · obtain ⟨h16, hno⟩ := hh.2 rfl
        cases hrounds with
        | nil => exact hva rfl
        | cons hround _ =>
          obtain ⟨y', z, hy', hz, -⟩ := hround
          rw [makeRoom, if_neg (by simp; omega)] at hy'
          cases hy'
          exact (allocPage_maps hap.frame hz).1 hno

/-- A shrink that fails. -/
theorem shrink_unchanged {k : Int} {newsz : Nat} (hsz : x.proc.sz < KERNBASE)
    (h : deallocuvm c .own x.proc.sz newsz true
      (x.setProc { x.proc with numberOfAllocatedPages := x.proc.numberOfAllocatedPages + k }) = .ok (0, x')) :
    Unchanged c x x' ↔ (∀ u < pgUp x.proc.sz, x.mapped c u = false) ∧ k = 0 := by
  have hsame : ∀ u, (x.setProc { x.proc with numberOfAllocatedPages := x.proc.numberOfAllocatedPages +
    k }).mapped c u = x.mapped c u :=
    fun u => mapped_congr rfl rfl rfl
  have hcount :
    Unchanged c x (x.setProc { x.proc with numberOfAllocatedPages := x.proc.numberOfAllocatedPages + k })
    ↔ k = 0 := by
    refine ⟨fun hun => ?_, fun hk => ?_⟩
    · have : x.proc.numberOfAllocatedPages + k = x.proc.numberOfAllocatedPages := hun.count
      omega
    · exact ⟨rfl, fun u _ => hsame u, fun _ _ _ => rfl, fun _ _ _ => .rfl, fun _ => rfl,
        show x.proc.numberOfAllocatedPages + k = x.proc.numberOfAllocatedPages by omega⟩
  unfold deallocuvm at h
  by_cases hle : x.proc.sz ≤ newsz
  · rw [if_pos hle] at h
    obtain ⟨h0, rfl⟩ := Prod.mk.inj (Except.ok.inj h)
    rw [hcount, h0]
    exact ⟨fun hk => ⟨fun u hu => absurd hu (Nat.not_lt_zero u), hk⟩, fun hh => hh.2⟩
  · rw [if_neg hle] at h
    obtain ⟨y, hy, h⟩ := bind_ok h
    obtain ⟨h0, rfl⟩ := Prod.mk.inj (Except.ok.inj h)
    subst h0
    by_cases hno : ∀ u < pgUp x.proc.sz, x.mapped c u = false
    · rw [deallocuvmLoop_unmapped _ _ (fun u _ hu => (hsame u).trans (hno u hu)) hy, hcount]
      exact ⟨fun hk => ⟨hno, hk⟩, fun hh => hh.2⟩
    · refine iff_of_false (fun hun => hno fun u hu => ?_) fun hh => hno hh.1
      have hgone := (deallocuvmLoop_freed _ _ (Nat.le_add_left _ _) hy).gone u (Nat.zero_le u) hu
      rw [← hun.mapped u (Nat.lt_of_lt_of_le hu (pgUp_le_user hsz))]
      exact hgone

theorem growproc_unchanged (hap : FreeApart c x) (hlen : x.proc.RAMQueue.length = MAX_PSYC_PAGES)
    (hsz : x.proc.sz < KERNBASE)
    (hn : n < 2 ^ 31) (h : growproc c n x = .ok (false, x')) : Unchanged c x x' ↔ Harmless c n x := by
  unfold growproc at h
  rw [Harmless]
  by_cases hpos : 0 < n
  · rw [if_pos hpos] at h ⊢
    obtain ⟨⟨sz, y⟩, hy, h⟩ := bind_ok h
    have h0 : addInt x.proc.sz n ≠ 0 := by
      simp only [addInt, UINT, KERNBASE] at hsz ⊢
      omega
    dsimp only at h
    split at h
    · next hz =>
      cases h
      subst hz
      exact grow_unchanged hap hlen h0 hy
    · cases h
  · rw [if_neg hpos] at h ⊢
    by_cases hneg : n < 0
    · rw [if_pos hneg] at h
      obtain ⟨⟨sz, y⟩, hy, h⟩ := bind_ok h
      dsimp only at h
      split at h
      · next hz =>
        cases h
        subst hz
        exact shrink_unchanged hsz hy
      · cases h
    · rw [if_neg hneg] at h
      cases h

/-! ## Runs -/

theorem updateQueue_length (m : Nat) (a : List (Option Nat)) : (updateQueue m a).length = a.length := by
  rw [updateQueue, List.length_set, shiftLoop_length]

theorem removeVictim_length {p p' : Proc} {r : Option Nat} (hlen : p.RAMQueue.length = MAX_PSYC_PAGES)
    (h : removeVictim c p = .ok (r, p')) : p'.RAMQueue.length = MAX_PSYC_PAGES := by
  unfold removeVictim at h
  split at h
  · cases h
    exact hlen
  · unfold removeSCFIFO at h
    obtain ⟨⟨t, temp, found⟩, hs, h⟩ := bind_ok h
    dsimp only at h
    split at h
    · next q rest =>
      cases h
      have hfront := (List.takeWhile_sublist (· != none) (l := rest)).length_le
      have hparts := congrArg List.length (scfifoScan_parts hs)
      simp only [List.nil_append, List.length_append, List.length_cons] at hparts
      simp only [List.length_append, List.length_take, List.length_replicate]
      omega
    · split at h
      · cases h
      · cases h
        exact (updateQueue_length _ _).trans hlen
  · unfold removeNFUA at h
    obtain ⟨m, -, h⟩ := bind_ok h
    cases h
    exact (updateQueue_length _ _).trans hlen
  · unfold removeLAPA at h
    obtain ⟨m, -, h⟩ := bind_ok h
    split at h
    · cases h
    · cases h
      exact (updateQueue_length _ _).trans hlen
  · unfold removeAQ at h
    cases h
    exact (updateQueue_length _ _).trans hlen

theorem SwapsOut.length {p q : Proc} (hlen : p.RAMQueue.length = MAX_PSYC_PAGES) (h : SwapsOut c p q) :
    q.RAMQueue.length = MAX_PSYC_PAGES := by
  obtain ⟨addr, p', fl, page, hsel, -, hq⟩ := h
  unfold selectPage at hsel
  obtain ⟨⟨r, p1⟩, hv, hsel⟩ := bind_ok hsel
  obtain ⟨pg, -, hsel⟩ := bind_ok hsel
  cases hsel
  simp only [recordSwapOut] at hq
  split at hq
  · cases hq
  · cases hq
    exact (congrArg List.length (getFreeFileOffset_queue p')).trans (removeVictim_length hlen hv)

theorem insert_length {i : Nat} {p q : Proc} (h : insert i p = .ok q) : q.RAMQueue.length = p.RAMQueue.length := by
  unfold insert at h
  split at h
  · cases h
    exact List.length_set
  · cases h

theorem insertOffsetQueue_queue {off : Option Nat} {p q : Proc} (h : insertOffsetQueue off p = .ok q) :
    q.RAMQueue = p.RAMQueue := by
  unfold insertOffsetQueue at h
  split at h
  · cases h
    rfl
  · cases h

/-- The queue keeps its places. -/
theorem queue_follows (c : Cfg) : Follows c (fun _ => True) fun p q =>
    p.RAMQueue.length = MAX_PSYC_PAGES → q.RAMQueue.length = MAX_PSYC_PAGES where
  refl _ h := h
  trans h h' hp := h' (h hp)
  table _ _ h := h
  fault _ _ _ _ h := h
  swap _ _ _ h hp := h.length hp
  dealloc _ va p q h hp := by
    simp only [deallocatePage] at h
    split at h
    · cases h
    · obtain ⟨p', hp', h⟩ := bind_ok h
      cases h
      have hq : p'.RAMQueue = p.RAMQueue := by
        split at hp'
        · cases hp'
          rfl
        · exact insertOffsetQueue_queue hp'
      dsimp only
      split
      · rw [updateQueue_length, hq, hp]
      · rw [hq, hp]
  record _ v p q h hp := by
    obtain ⟨pg, q', -, hq, rfl⟩ := h
    exact (insert_length hq).trans hp
  load _ v p q h hp := by
    obtain ⟨pg, p', q', t, -, hp', hq, rfl⟩ := h
    exact (insert_length hq).trans ((congrArg List.length (insertOffsetQueue_queue hp')).trans hp)

theorem advanceLoop_length : ∀ (n : Nat) (i : Int) {p q : Proc}, advanceLoop c n i p = .ok q →
    q.RAMQueue.length = p.RAMQueue.length := by
  intro n
  induction n with
  | zero =>
    intro i p q h
    cases h
    rfl
  | succ n ih =>
    intro i p q h
    rw [advanceLoop] at h
    split at h
    · obtain ⟨p', hp', h⟩ := bind_ok h
      refine (ih _ h).trans ?_
      unfold advanceBody at hp'
      obtain ⟨cur, -, hp'⟩ := bind_ok hp'
      split at hp'
      · cases hp'
        rfl
      · obtain ⟨prev, -, hp'⟩ := bind_ok hp'
        obtain ⟨pgCur, -, hp'⟩ := bind_ok hp'
        obtain ⟨pgPre, -, hp'⟩ := bind_ok hp'
        split at hp'
        · split at hp'
          · cases hp'
            simp
          · cases hp'
            rfl
        · cases hp'
    · cases h
      rfl

theorem tick_length {p q : Proc} (h : tick c p = .ok q) : q.RAMQueue.length = p.RAMQueue.length := by
  have haging : agingPages c p = .ok q → q.RAMQueue.length = p.RAMQueue.length := by
    intro h
    obtain ⟨ps, t, rfl, -⟩ := agingLoop_cases _ _ h
    rfl
  unfold tick at h
  split at h
  · exact haging h
  · exact haging h
  · exact advanceLoop_length _ _ h
  · cases h
    rfl
  · cases h
    rfl

theorem queue_kept (c : Cfg) : Kept c fun _ p => p.RAMQueue.length = MAX_PSYC_PAGES where
  mono h := h
  follows _ := queue_follows c
  shrink _ h := h
  size _ _ h := h
  init _ := List.length_replicate
  restore hb _ := hb
  create h := h
  alloc _ _ _ _ _ := List.length_replicate
  copies hp _ h := by
    rcases h with ⟨-, rfl⟩ | ⟨src, buffer, -, rfl⟩
    · exact hp
    · exact hp
  state _ h := h
  undone _ _ _ := List.length_replicate
  noStack h := h
  exit _ _ _ h _ := h
  reaped h := h
  tick hp h := (tick_length h).trans hp
  unused _ := List.length_replicate

/-- **A failed `sbrk` changes nothing only where nothing has been done yet**, in any state reached from
`userinit` on in which the process has no page in a free frame. -/
theorem failed_sbrk_unchanged {k : Kmem} {data : Nat → PageData} {init : List UInt8}
    {m0 m : Machine} {ls : List Label} {i : Nat}
    {p : Proc} (hb : boot c k data init = .ok m0) (hrun : Lts.Run (Trans c) m0 ls m) (hp : m.proc[i]? = some p)
    (hap : FreeApart c (m.ctx p)) (hn : -2 ^ 31 ≤ n ∧ n < 2 ^ 31) (h : growproc c n (m.ctx p) = .ok (false, x')) :
    Unchanged c (m.ctx p) x' ↔ Harmless c n (m.ctx p) :=
  growproc_unchanged hap ((queue_kept c).run hb hrun p (List.mem_of_getElem? hp))
    (sizes_below hb hrun p (List.mem_of_getElem? hp))
    hn.2 h

/-- Where each frame has one owner, no page lies in a free frame. -/
theorem MachInv.freeApart {L : RefLaw c} {m : Machine} {i : Nat} {p : Proc} (h : MachInv L m)
    (hp : m.proc[i]? = some p) :
    FreeApart c (m.ctx p) := by
  obtain ⟨sw, hI⟩ := h.mem
  have ht : p.vtable ∈ m.proc.map Proc.vtable := List.mem_map_of_mem (List.mem_of_getElem? hp)
  have hfree : ∀ f ∈ m.kmem.freelist, f ∈ kernelFrames m.kmem m.stacks (m.proc.map Proc.vtable) := fun f hf =>
    List.mem_append_left _ hf
  refine ⟨fun f hf => hI.frameOk f (hfree f hf), fun u hu hm hPG hf => ?_⟩
  change ((p.pgdir.pde (u / NPTENTRIES)).isSome &&
    ((p.pgdir.pte u).P || (m.ctx p).tracked c && (p.pgdir.pte u).PG)) = true at hm
  change ((m.ctx p).tracked c && (p.pgdir.pte u).PG) = false at hPG
  rw [hPG, Bool.or_false, Bool.and_eq_true] at hm
  have hmaps : Share.Maps p.vtable.frame (p.pgdir.pte u).addr := by
    rw [(h.procOk hp).vtable_frame]
    exact ⟨u, Pgdir.frame_of hu hm.2⟩
  exact (hI.user _ ht _ hmaps).2 (hfree _ hf)

/-- Seven forks and a growth by 50 pages leave the first process, which is not tracked, seven frames. -/
def exFew : List Op := List.replicate 7 (.fork 0) ++ [.sbrk 0 (50 * PGSIZE)]

/-- It asks for twelve pages where nothing is mapped, and gets the seven until the call fails. -/
def exFalls (m : Machine) : Bool :=
  (m.proc[0]?).any fun p => (m.ctx p).tracked (exCfg .SCFIFO) == false && m.kmem.freelist.length == 7 &&
    decide (∀ u < pgUp (addInt p.sz (12 * PGSIZE)), pgUp p.sz ≤ u → (m.ctx p).mapped (exCfg .SCFIFO) u = false) &&
    match growproc (exCfg .SCFIFO) (12 * PGSIZE) (m.ctx p) with
    | .ok (false, x') => x'.kmem.freelist.isEmpty
    | _ => false

theorem failed_sbrk_unchanged_midway : ∃ m0 ls m p x', Lts.Run (Trans (exCfg .SCFIFO)) m0 ls m ∧ m.proc[0]? = some p ∧
    growproc (exCfg .SCFIFO) (12 * PGSIZE) (m.ctx p) = .ok (false, x') ∧ m.kmem.freelist.length = 7 ∧
    x'.kmem.freelist = [] ∧
    Unchanged (exCfg .SCFIFO) (m.ctx p) x' := by
  have hx : (bootRun .SCFIFO exFew).any
    (fun s => s.2.1.all (fun l => l.events.all Event.shares) && exFalls s.2.2) = true := by
    decide +kernel
  obtain ⟨m0, ls, m, hb, hrun, hf⟩ :=
    @bootRun_spec _ _ (fun ls m => ls.all (fun l => l.events.all Event.shares) && exFalls m) hx
  rw [Bool.and_eq_true] at hf
  obtain ⟨hshares, hf⟩ := hf
  simp only [List.all_eq_true] at hshares
  have hinv : MachInv (exactLaw (exCfg .SCFIFO)) m :=
    (exactLaw _).atAll (fun _ _ h => h) (fun _ h => h) (exKmem_ready .SCFIFO) hb
      (.of_labels fun l hl _ ev hev => hshares l hl ev hev) ls m (List.prefix_refl _) hrun
  obtain ⟨p, hp, hf⟩ := (Option.any_eq_true _ _).1 hf
  simp only [Bool.and_eq_true, beq_iff_eq, decide_eq_true_eq] at hf
  obtain ⟨⟨⟨htr, hfree⟩, hmap⟩, hf⟩ := hf
  split at hf
  · next x' hg =>
    have hap : FreeApart (exCfg .SCFIFO) (m.ctx p) := hinv.freeApart hp
    refine ⟨m0, ls, m, p, x', hrun, hp, hg, hfree, List.isEmpty_iff.1 hf,
      (failed_sbrk_unchanged hb hrun hp hap (by decide) hg).2 ?_⟩
    rw [Harmless, if_pos (by decide)]
    exact .inr ⟨fun u h1 h2 => hmap u h2 h1, fun h => absurd (htr.symm.trans h) (by decide)⟩
  · cases hf

/-- The first process gives up all its memory: it fails, and the memory is gone. -/
def exFrees (m : Machine) : Bool :=
  (m.proc[0]?).any fun p => match growproc (exCfg .SCFIFO) (-4096) (m.ctx p) with
    | .ok (false, x') => (m.ctx p).mapped (exCfg .SCFIFO) 0 && !x'.mapped (exCfg .SCFIFO) 0
    | _ => false

theorem failed_sbrk_frees : ¬ ∀ (c : Cfg) (k : Kmem) (data : Nat → PageData) (init : List UInt8) (m0 m : Machine)
    (ls : List Label) (i : Nat) (p : Proc) (n : Int) (x' : Ctx), k.Ready c → boot c k data init = .ok m0 →
    Lts.Run (Trans c) m0 ls m → m.proc[i]? = some p → -2 ^ 31 ≤ n ∧ n < 2 ^ 31 →
    growproc c n (m.ctx p) = .ok (false, x') →
    Unchanged c (m.ctx p) x' := by
  intro h
  have hx : (bootRun .SCFIFO []).any (fun s => exFrees s.2.2) = true := by decide +kernel
  obtain ⟨m0, ls, m, hb, hrun, hf⟩ := @bootRun_spec _ _ (fun _ m => exFrees m) hx
  obtain ⟨p, hp, hf⟩ := (Option.any_eq_true _ _).1 hf
  split at hf
  · next x' hg =>
    have hun := h _ _ _ _ _ _ _ _ _ _ _ (exKmem_ready _) hb hrun hp (by decide) hg
    rw [hun.mapped 0 (by decide)] at hf
    cases hm : (m.ctx p).mapped (exCfg .SCFIFO) 0 <;> simp [hm] at hf
  · cases hf

end Xv6
