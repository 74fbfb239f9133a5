import CCppProjects.Xv6.SwapSpec
/-
# What page faults do to memory

`get_page` takes a page from its slot to a new frame, a write fault takes it to a frame of its own or
makes it writeable. Between the two halves of a write fault the process has the page's count in a
local: where it is 1 nobody else maps the page, and nobody else comes to (`Proc.vtable`).
-/
namespace Xv6

open Share

variable {c : Cfg} {L : RefLaw c} {ks : List Nat} {ts : List Pgdir} {d : Prop}

/-! ## `get_page` -/

theorem Pgdir.setPte_setPte (t : Pgdir) (v : Nat) (e e' : Pte) : (t.setPte v e).setPte v e' = t.setPte v e' := by
  simp [Pgdir.setPte]

/-- `swapToFile` only adds `PTE_PG` to user entries and takes `PTE_A` from them. -/
theorem swapToFile_own {x x' : Ctx} (h : swapToFile c .own x = .ok x') {v : Nat} (hv : v < USERPAGES) :
    (x'.proc.pgdir.pte v).P = (x.proc.pgdir.pte v).P ∧ (x'.proc.pgdir.pte v).W = (x.proc.pgdir.pte v).W ∧
      (x'.proc.pgdir.pte v).U = (x.proc.pgdir.pte v).U ∧
      ((x.proc.pgdir.pte v).PG = true → (x'.proc.pgdir.pte v).PG = true) := by
  obtain ⟨addr, p, y, q, hsel, hy, hq, h⟩ := swapToFile_cases h
  obtain ⟨⟨_, hw, _⟩, _⟩ := selectPage_spec hsel
  obtain ⟨_, hg, _⟩ := getFreeFileOffset_id p
  obtain ⟨_, hr, _⟩ := recordSwapOut_id hq
  have hyp : y.proc.pgdir = p.pgdir := by
    obtain ⟨_, _, _, rfl⟩ := writeUserPage_cases hy
    exact hg
  obtain ⟨a, ha, _⟩ := hw.2.2 v hv
  have hqv : q.pgdir.pte v = { x.proc.pgdir.pte v with A := a } := by rw [hr, hyp, ha]
  obtain ⟨e, k, he, _, rfl⟩ := releasePage_cases h
  show ((q.pgdir.setPte _ _).pte v).P = _ ∧ ((q.pgdir.setPte _ _).pte v).W = _ ∧
    ((q.pgdir.setPte _ _).pte v).U = _ ∧ (_ → ((q.pgdir.setPte _ _).pte v).PG = true)
  rw [Pgdir.pte_setPte]
  split
  · rename_i huv
    subst huv
    obtain ⟨rfl, _⟩ := walkpgdir_user hv he
    simp [Ctx.tbl, hqv]
  · simp [hqv]

/-- The parts of the second half of `get_page`. -/
theorem loadPage_cases {v mem : Nat} {x x' : Ctx} (h : loadPage c v mem x = .ok x') :
    ∃ pg fl e q q' n, x.proc.pages[x.proc.pages.findIdx fun pg => pg.vAddress == v * PGSIZE]? = some pg ∧
      x.proc.swapFile = some fl ∧ walkpgdir c x.proc.pgdir v = some e ∧
      insertOffsetQueue pg.fileOffset { x.proc with
        pgdir := x.proc.pgdir.setPte v { permWU with addr := V2P mem / PGSIZE, P := true }
        pages := x.proc.pages.set (x.proc.pages.findIdx fun pg => pg.vAddress == v * PGSIZE)
          { pg with isInRAM := true, fileOffset := none } } = .ok q ∧
      insert (x.proc.pages.findIdx fun pg => pg.vAddress == v * PGSIZE) q = .ok q' ∧
      n = (q'.numberOfPagedOut + UINT - 1) % UINT ∧
      x' = ((x.emit [.swapIn e (readFromSwapFile fl pg.fileOffset zeroPage) (x.data e.addr)]).setData
        (Function.update x.data (V2P mem / PGSIZE) (readFromSwapFile fl pg.fileOffset zeroPage))).setProc
          { q' with numberOfPagedOut := n } := by
  simp only [loadPage] at h
  split at h
  · cases h
  · cases h
  · cases h
  rename_i pg fl e hpg hfl he
  obtain ⟨q, hq, h⟩ := lift_bind_ok h
  obtain ⟨q', hq', h⟩ := lift_bind_ok h
  cases h
  exact ⟨pg, fl, e, q, q', _, hpg, hfl, he, hq, hq', rfl, rfl⟩

/-- The page at `v` moves to a new frame, which takes the old frame's place in the table. -/
theorem MemOk.movePage {x : Ctx} (hm : MemOk L ks ts d x) {v mem : Nat} {k k' k'' : Kmem} (hv : v < USERPAGES)
    (hP : (x.proc.pgdir.pte v).P = true) (hk : Xv6.kalloc x.kmem = (some mem, k))
    (hother : ∀ g, g ≠ (x.proc.pgdir.pte v).addr → k'.pageRefsNum g = k.pageRefsNum g)
    (hfree : k'.freelist = k.freelist) (h'' : k'' = k'.setRefs (V2P mem / PGSIZE) (k''.pageRefsNum (V2P mem / PGSIZE)))
    (hold : ∀ {b n}, L.R b (k.pageRefsNum (x.proc.pgdir.pte v).addr) (n + 1) → b = (x.proc.pgdir.pte v).PG → 0 < n →
      L.R b (k'.pageRefsNum (x.proc.pgdir.pte v).addr) n)
    (hnew : L.R false (k''.pageRefsNum (V2P mem / PGSIZE)) 1) :
    let f := V2P mem / PGSIZE
    let x' := ((x.setKmem k'').setData (Function.update x.data f (x.data (x.proc.pgdir.pte v).addr))).setTbl .own
      (x.proc.pgdir.setPte v { permWU with addr := f, P := true })
    MemOk L ks ts d x' ∧ x'.mems = x.mems ∧ ∀ t ∈ ts, view x'.data t.frame = view x.data t.frame := by
  obtain ⟨f, hmem, hV, href, _, hno, hmf, hmems, hts⟩ := hm.kalloc hk (x.data (x.proc.pgdir.pte v).addr)
  simp only [hV] at *
  obtain ⟨⟨sw, hI⟩, hpr, hu⟩ := hmf
  have hfr := Pgdir.frame_of hv hP
  have hI : MemInv L k (f :: ks) (x.proc.pgdir :: x.other :: ts) sw := hI
  have hcnt : cnt (frames (x.proc.pgdir :: x.other :: ts)) (x.proc.pgdir.pte v).addr =
      cnt (frames (x.other :: ts)) (x.proc.pgdir.pte v).addr + 1 := by
    have hm : Maps x.proc.pgdir.frame (x.proc.pgdir.pte v).addr := ⟨v, hfr⟩
    rw [frames_cons, cnt_cons, if_pos hm]
  have hR := hI.refs _ (show 0 < cnt (frames (x.proc.pgdir :: x.other :: ts)) (x.proc.pgdir.pte v).addr by omega)
  rw [hcnt] at hR
  have hpres := hI.present (List.mem_cons_self ..) hv hP
  have hclear := hI.clear hfr hother (.inl hfree) fun h0 => hold hR hpres.2.1.symm h0
  have hkern : MemInv L k'' (f :: ks) (x.proc.pgdir.setPte v {} :: x.other :: ts) sw := by
    rw [h'']
    refine hclear.kernel hclear.nodup (fun _ h => h) fun g hg => ?_
    rw [Kmem.setRefs_refs, if_neg]
    rintro rfl
    exact hg (List.perm_middle.mem_iff.2 (List.mem_cons_self ..))
  have hmap := hkern.mapFresh (v := v) (e := { permWU with addr := f, P := true }) hv
    (Pgdir.frame_eq_none.2 fun _ => by simp [Pgdir.pte_setPte]) hpres.1 rfl rfl rfl (by simp [permWU]) hnew
  rw [Pgdir.setPte_setPte] at hmap
  refine hm.step (w := .own) (g := id) ⟨_, hmap⟩ (fun u hu => ?_) (fun _ h => by cases h) hu ?_ fun t ht => ?_
  · cases u with
    | own => exact absurd rfl hu
    | other => rfl
  · show view (Function.update x.data f (x.data (x.proc.pgdir.pte v).addr)) (x.proc.pgdir.setPte v _).frame = _
    rw [Pgdir.frame_setPte _ hv, view_set, view_update_of_not_maps (hno _ (by simp [Ctx.tables])),
      Function.update_eq_self_iff.2]
    · rfl
    · simp [Pte.frame, view, hfr]
  · exact view_update_of_not_maps (hno t (List.mem_cons_of_mem _ ht)) _ _

theorem Kmem.setRefs_self (k : Kmem) (f : Nat) : k.setRefs f (k.pageRefsNum f) = k := by
  simp [Kmem.setRefs]

theorem loadPage_does {v mem : Nat} {k : Kmem} {x x' : Ctx} (hv : v < USERPAGES)
    (hPG : (x.proc.pgdir.pte v).PG = true) (hk : kalloc x.kmem = (some mem, k))
    (h : loadPage c v mem (x.setKmem k) = .ok x') : Does L ks ts d id x x' := by
  obtain ⟨pg, fl, e, q, q', n, hpg, hfl, he, hq, hq', _, rfl⟩ := loadPage_cases h
  obtain ⟨rfl, _⟩ := walkpgdir_user hv he
  obtain ⟨i1, i2, i3⟩ := insertOffsetQueue_id hq
  obtain ⟨j1, j2, j3⟩ := insert_id hq'
  refine ⟨j1.trans i1, List.prefix_append _ _, fun hf => hf.kalloc hk, fun hc hm => ?_⟩
  obtain ⟨f, _, hV, href, _⟩ := hm.kalloc hk zeroPage
  have hOk : L.Ok ts (.swapIn (x.proc.pgdir.pte v) (readFromSwapFile fl pg.fileOffset zeroPage)
      (x.data (x.proc.pgdir.pte v).addr)) := by
    refine hc _ ?_
    simp only [Ctx.setProc_log, Ctx.setData_log, Ctx.emit_log, Ctx.setKmem_data, List.mem_append, List.mem_singleton]
    exact .inr rfl
  have hP : (x.proc.pgdir.pte v).P = true := by
    obtain ⟨sw, hI⟩ := hm.inv
    by_contra hP
    rw [hI.absent (List.mem_cons_self ..) hv hP] at hPG
    exact absurd hPG (by decide)
  have hbuf : readFromSwapFile fl pg.fileOffset zeroPage = x.data (x.proc.pgdir.pte v).addr := by
    obtain ⟨sw, hI⟩ := hm.inv
    have hm' : Maps x.proc.pgdir.frame (x.proc.pgdir.pte v).addr := ⟨v, Pgdir.frame_of hv hP⟩
    have hR := hI.refs _ (cnt_frames_pos (List.mem_cons_self ..) hm')
    rw [← (hI.present (List.mem_cons_self ..) hv hP).2.1, hPG, Ctx.tables, frames_cons, cnt_cons, if_pos hm'] at hR
    exact (L.swapIn hR hOk).1
  have hmove := hm.movePage hv hP hk (fun _ _ => rfl) rfl (Kmem.setRefs_self ..).symm
    (fun hR hb hn => ?_) (by rw [hV, href]; exact L.fresh)
  · obtain ⟨⟨hI, hpr, hu⟩, h2, h3⟩ := hmove
    rw [← hbuf] at hI h2 h3
    have hpgdir : q'.pgdir = x.proc.pgdir.setPte v { permWU with addr := V2P mem / PGSIZE, P := true } :=
      j2.trans i2
    refine ⟨⟨?_, fun hd v hv hP => hm.priv hd v hv hP, ?_⟩, ?_, h3⟩
    · show ∃ sw, MemInv L k ks (q'.pgdir :: x.other :: ts) sw
      rw [hpgdir]
      exact hI
    · refine hm.pages.set (q := { q' with numberOfPagedOut := n })
        (j3.trans i3) ?_
      exact hm.pages pg (List.mem_of_getElem? hpg)
    · show (view _ q'.pgdir.frame, _) = _
      rw [hpgdir]
      exact h2
  · rw [hPG] at hb
    subst hb
    exact (L.swapIn hR hOk).2 hn

/-- **`get_page` is invisible**: the page has the content its frame had. -/
theorem getPage_does (hpag : c.paging = true) (hd : d) {va : Nat} {x x' : Ctx} {b : Bool}
    (hv : va / PGSIZE < USERPAGES) (hPG : (x.proc.pgdir.pte (va / PGSIZE)).PG = true)
    (h : getPage c va x = .ok (b, x')) : Does L ks ts d id x x' := by
  unfold getPage at h
  obtain ⟨y, hy, h⟩ := bind_ok h
  obtain ⟨hdo, hPGy⟩ : Does L ks ts d id x y ∧ (y.proc.pgdir.pte (va / PGSIZE)).PG = true := by
    split at hy
    · exact ⟨swapToFile_does hpag hd hy, (swapToFile_own hy hv).2.2.2 hPG⟩
    · cases hy
      exact ⟨.refl x, hPG⟩
  split at h
  · cases h
    exact hdo
  · rename_i mem k hk
    obtain ⟨z, hz, h⟩ := bind_ok h
    cases h
    exact hdo.trans (loadPage_does hv hPGy hk hz)

theorem getPage_other {va : Nat} {x x' : Ctx} {b : Bool} (h : getPage c va x = .ok (b, x')) : x'.other = x.other := by
  unfold getPage at h
  obtain ⟨y, hy, h⟩ := bind_ok h
  have hy : y.other = x.other := by
    split at hy
    · exact swapToFile_other hy
    · cases hy; rfl
  split at h
  · cases h
    exact hy
  · obtain ⟨z, hz, h⟩ := bind_ok h
    cases h
    obtain ⟨_, _, _, _, _, _, _, _, _, _, _, _, rfl⟩ := loadPage_cases hz
    exact hy

/-! ## `handle_page_fault` -/

/-- What a process knows of the page it is in the middle of a fault on. -/
structure Fault.Ok (flt : Fault) (t : Pgdir) : Prop where
  va : flt.va < KERNBASE
  pa : flt.pa = (t.pte (flt.va / PGSIZE)).addr * PGSIZE
  P : (t.pte (flt.va / PGSIZE)).P = true
  U : (t.pte (flt.va / PGSIZE)).U = true
  W : (t.pte (flt.va / PGSIZE)).W = false
  C : (t.pte (flt.va / PGSIZE)).C = true
  PG : (t.pte (flt.va / PGSIZE)).PG = false
  amount : 0 < flt.amount

/-- The page at `v` made writeable. -/
def Pgdir.grantW (t : Pgdir) (v : Nat) : Pgdir := t.setPte v { t.pte v with W := true }

/-- The page table with the page that is about to become writeable as if it were. -/
def Proc.vtable (p : Proc) : Pgdir :=
  match p.fault with
  | some flt => if flt.amount = 1 then p.pgdir.grantW (flt.va / PGSIZE) else p.pgdir
  | none => p.pgdir

theorem lt_USERPAGES_of_lt {va : Nat} (h : va < KERNBASE) : va / PGSIZE < USERPAGES := by
  simp only [KERNBASE, PGSIZE, USERPAGES] at *; omega

/-- What the first half can do. -/
theorem handlePageFault_cases {va : Nat} {x x' : Ctx} (h : handlePageFault c va x = .ok x') :
    x' = x.setProc { x.proc with numberOfPageFaults := x.proc.numberOfPageFaults + 1, killed := true } ∨
      ∃ amount, va < KERNBASE ∧ (x.proc.pgdir.pte (va / PGSIZE)).P = true ∧ (x.proc.pgdir.pte (va / PGSIZE)).U = true ∧
        (x.proc.pgdir.pte (va / PGSIZE)).W = false ∧
        getRefCount c ((x.proc.pgdir.pte (va / PGSIZE)).addr * PGSIZE) x.kmem = .ok amount ∧
        x' = x.setProc { x.proc with
          numberOfPageFaults := x.proc.numberOfPageFaults + 1
          fault := some ⟨va, (x.proc.pgdir.pte (va / PGSIZE)).addr * PGSIZE, amount⟩ } := by
  simp only [handlePageFault] at h
  by_cases hva : KERNBASE ≤ va
  · rw [if_pos hva] at h
    cases h
    exact .inl rfl
  rw [if_neg hva] at h
  split at h
  · cases h
  rename_i e he
  obtain ⟨heq, _⟩ := walkpgdir_user (lt_USERPAGES_of_lt (by omega)) he
  by_cases hPU : (!e.P || !e.U) = true
  · rw [if_pos hPU] at h
    cases h
    exact .inl rfl
  rw [if_neg hPU] at h
  simp only [Bool.not_eq_eq_eq_not, Bool.not_true, Bool.or_eq_true, not_or, Bool.not_eq_false] at hPU
  by_cases hW : e.W = true
  · rw [if_pos hW] at h
    cases h
  rw [if_neg hW] at h
  obtain ⟨amount, ha, h⟩ := lift_bind_ok h
  subst heq
  cases h
  exact .inr ⟨amount, by omega, hPU.1, hPU.2, by simpa using hW, ha, rfl⟩

/-- After the first half the process's page is as its locals say, and counts as writeable where its
frame has the one reference. -/
theorem handlePageFault_inv {va : Nat} {x x' : Ctx} (hPG : c.paging = true →
    (x.proc.pgdir.pte (va / PGSIZE)).PG = false)
    (hf : x.proc.fault = none) (h : handlePageFault c va x = .ok x') {us : List Pgdir}
    (hI : ∃ sw, MemInv L x.kmem ks (x.proc.pgdir :: us) sw) :
    (∃ sw, MemInv L x.kmem ks (x'.proc.vtable :: us) sw) ∧ ∀ flt, x'.proc.fault = some flt → flt.Ok x'.proc.pgdir := by
  obtain ⟨sw, hI⟩ := hI
  rcases handlePageFault_cases h with rfl | ⟨amount, hva, hP, hU, hW, ha, rfl⟩
  · refine ⟨⟨sw, by simpa [Proc.vtable, hf] using hI⟩, fun flt hflt => ?_⟩
    rw [Ctx.setProc_proc, hf] at hflt
    cases hflt
  have hv := lt_USERPAGES_of_lt hva
  have hpres := hI.present (List.mem_cons_self ..) hv hP
  have hmap : Maps x.proc.pgdir.frame (x.proc.pgdir.pte (va / PGSIZE)).addr := ⟨_, Pgdir.frame_of hv hP⟩
  rw [getRefCount_frame (hI.user _ (List.mem_cons_self ..) _ hmap).1] at ha
  obtain rfl := Except.ok.inj ha
  have hR := hI.refs _ (cnt_frames_pos (List.mem_cons_self ..) hmap)
  rw [frames_cons, cnt_cons, if_pos hmap] at hR
  have hsw : sw (x.proc.pgdir.pte (va / PGSIZE)).addr = false := by
    cases hpag : c.paging with
    | true => rw [← hpres.2.1, hPG hpag]
    | false => exact L.noPaging hpag hR
  refine ⟨⟨sw, ?_⟩, ?_⟩
  · simp only [Ctx.setProc_proc, Proc.vtable]
    split
    · rename_i h1
      refine hI.flags hP hP rfl rfl (fun h => by cases h) fun _ _ => ?_
      rw [hsw, h1] at hR
      rw [frames_cons, cnt_cons, if_pos hmap, L.lone hR]
    · exact hI
  · intro flt hflt
    obtain rfl := Option.some.inj hflt
    refine ⟨hva, rfl, hP, hU, hW, hpres.2.2 hW, hpres.2.1.trans hsw, ?_⟩
    rw [hsw] at hR
    exact L.copied hR

/-- What the second half can do. -/
theorem finishPageFault_cases {flt : Fault} {x x' : Ctx} (hok : flt.Ok x.proc.pgdir)
    (h : finishPageFault c flt x = .ok x') :
    (1 < flt.amount ∧ ∃ mem k k1 k2, kalloc x.kmem = (some mem, k) ∧ decRefCount c flt.pa k = .ok k1 ∧
      incRefCount c (P2V mem) k1 = .ok k2 ∧
      x' = (((x.setProc { x.proc with
          fault := none
          pgdir := x.proc.pgdir.setPte (flt.va / PGSIZE) { permWU with addr := V2P mem / PGSIZE, P := true } }).emit
        [.cowCopy]).setData (Function.update x.data (V2P mem / PGSIZE) (x.data (flt.pa / PGSIZE)))).setKmem k2) ∨
    (1 < flt.amount ∧ (kalloc x.kmem).1 = none ∧ x' = x.setProc { x.proc with fault := none, killed := true }) ∨
    (flt.amount = 1 ∧
      x' = x.setProc { x.proc with fault := none, pgdir := x.proc.pgdir.grantW (flt.va / PGSIZE) }) := by
  simp only [finishPageFault] at h
  split at h
  · cases h
  rename_i e he
  obtain ⟨rfl, _⟩ := walkpgdir_user (lt_USERPAGES_of_lt hok.va) he
  by_cases h1 : 1 < flt.amount
  · rw [if_pos h1] at h
    split at h
    · rename_i hk
      cases h
      exact .inr (.inl ⟨h1, by rw [Ctx.setProc_kmem] at hk; rw [hk], rfl⟩)
    · rename_i mem k hk
      simp only [copyPage] at h
      obtain ⟨k1, hk1, h⟩ := lift_bind_ok h
      obtain ⟨k2, hk2, h⟩ := lift_bind_ok h
      cases h
      exact .inl ⟨h1, mem, k, k1, k2, hk, hk1, hk2, rfl⟩
  · rw [if_neg h1] at h
    have := hok.amount
    split at h
    · cases h
      exact .inr (.inr ⟨by omega, rfl⟩)
    · cases h

theorem Pgdir.grantW_frame (t : Pgdir) {v : Nat} (hv : v < USERPAGES) (hP : (t.pte v).P = true) :
    (t.grantW v).frame = t.frame := by
  rw [Pgdir.grantW, Pgdir.frame_setPte _ hv, Pte.frame, if_pos hP, ← Pgdir.frame_of hv hP, Function.update_eq_self]

theorem P2V_kva {f : Nat} (h : c.FrameOk f) : P2V (kva f) = f * PGSIZE := P2V_P2V h.lt

theorem pred_mod {r : Nat} (h0 : 0 < r) (h : r < UINT) : (r + UINT - 1) % UINT = r - 1 := by
  rw [show r + UINT - 1 = r - 1 + UINT by omega, Nat.add_mod_right, Nat.mod_eq_of_lt (by omega)]

/-- The frames of a copy: the count of the old page's goes down, the new one's up to 2. -/
theorem copyRefs {f g : Nat} {k k1 k2 : Kmem} (hf : c.FrameOk f) (hg : c.FrameOk g) (hne : f ≠ g)
    (h1 : k.pageRefsNum f = 1) (hk1 : decRefCount c (g * PGSIZE) k = .ok k1)
    (hk2 : incRefCount c (P2V (kva f)) k1 = .ok k2) :
    (∀ u, u ≠ g → k1.pageRefsNum u = k.pageRefsNum u) ∧ k1.freelist = k.freelist ∧ k2.pageRefsNum f = 2 ∧
      k2 = k1.setRefs f (k2.pageRefsNum f) ∧ k1.pageRefsNum g = (k.pageRefsNum g + UINT - 1) % UINT := by
  rw [decRefCount_frame hg] at hk1
  obtain rfl := Except.ok.inj hk1
  rw [P2V_kva hf, incRefCount_frame hf] at hk2
  obtain rfl := Except.ok.inj hk2
  refine ⟨fun u hu => by rw [Kmem.setRefs_refs, if_neg hu], rfl, ?_, ?_, by rw [Kmem.setRefs_refs, if_pos rfl]⟩
  · rw [Kmem.setRefs_refs, if_pos rfl, Kmem.setRefs_refs, if_neg hne, h1]
    rfl
  · rw [Kmem.setRefs_refs _ f _ f, if_pos rfl]

/-- The process as if the page its fault is on were writeable already, where nobody else maps it. -/
def Ctx.virtual (x : Ctx) : Ctx := x.setProc { x.proc with pgdir := x.proc.vtable }

/-- The fields a page fault leaves alone. -/
def Proc.fixed (p : Proc) : Nat × ProcState × Option Nat × Nat × Option Nat :=
  (p.pid, p.state, p.parent, p.sz, p.kstack)

theorem Proc.fixed_of_id {p q : Proc} (h : p.id = q.id) : p.fixed = q.fixed := by
  simp only [Proc.id, Prod.mk.injEq] at h
  simp only [Proc.fixed, h]

theorem finishPageFault_free {flt : Fault} {x x' : Ctx} (hok : flt.Ok x.proc.pgdir)
    (h : finishPageFault c flt x = .ok x') :
    x.log <+: x'.log ∧ (FreeOk c x.kmem → FreeOk c x'.kmem) ∧ x'.other = x.other ∧ x'.proc.fault = none ∧
      x'.proc.fixed = x.proc.fixed := by
  rcases finishPageFault_cases hok h with ⟨_, mem, k, k1, k2, hk, hk1, hk2, rfl⟩ | ⟨_, _, rfl⟩ | ⟨_, rfl⟩
  · refine ⟨List.prefix_append _ _, fun hf => ?_, rfl, rfl, rfl⟩
    have : FreeOk c k := hf.kalloc hk
    unfold decRefCount at hk1
    unfold incRefCount at hk2
    split at hk1
    · cases hk1
    · split at hk2
      · cases hk2
      · cases hk1
        cases hk2
        exact this
  · exact ⟨List.prefix_refl _, fun h => h, rfl, rfl, rfl⟩
  · exact ⟨List.prefix_refl _, fun h => h, rfl, rfl, rfl⟩

/-- **The second half of a write fault is invisible.** -/
theorem finishPageFault_inv {flt : Fault} {x x' : Ctx} (hfault : x.proc.fault = some flt) (hok : flt.Ok x.proc.pgdir)
    (h : finishPageFault c flt x = .ok x') (hc : Clean L ts x') (hm : MemOk L ks ts d x.virtual) :
    MemOk L ks ts d x' ∧ x'.mems = x.mems ∧ ∀ t ∈ ts, view x'.data t.frame = view x.data t.frame := by
  have hv := lt_USERPAGES_of_lt hok.va
  have hmany : 1 < flt.amount → MemOk L ks ts d x := by
    intro h1
    have : x.virtual = x := by
      rw [Ctx.virtual, Proc.vtable, hfault]
      simp only [if_neg (by omega : ¬ flt.amount = 1)]
      rfl
    exact this ▸ hm
  rcases finishPageFault_cases hok h with ⟨h1, mem, k, k1, k2, hk, hk1, hk2, rfl⟩ | ⟨h1, _, rfl⟩ | ⟨h1, rfl⟩
  · have hm := hmany h1
    obtain ⟨f, hmem, hV, href, hf, hno, _⟩ := hm.kalloc hk zeroPage
    obtain ⟨sw, hI⟩ := hm.inv
    have hmap : Maps x.proc.pgdir.frame (x.proc.pgdir.pte (flt.va / PGSIZE)).addr := ⟨_, Pgdir.frame_of hv hok.P⟩
    have hg := (hI.user _ (List.mem_cons_self ..) _ hmap).1
    have hne : f ≠ (x.proc.pgdir.pte (flt.va / PGSIZE)).addr := by
      rintro rfl
      exact hno _ (List.mem_cons_self ..) hmap
    rw [hok.pa] at hk1
    rw [hmem] at hk2
    obtain ⟨c1, c2, c3, c4, c5⟩ := copyRefs hf hg hne href hk1 hk2
    have hOk : L.Ok ts .cowCopy := hc _ (List.mem_append_right _ (List.mem_singleton_self _))
    have hmove := hm.movePage hv hok.P hk c1 c2 (by rw [hV]; exact c4) (fun hR hb hn => ?_)
      (by rw [hV, c3]; exact L.copy hOk)
    · obtain ⟨⟨hI', _, hu⟩, g2, g3⟩ := hmove
      rw [hok.pa, mul_PGSIZE_div]
      exact ⟨⟨hI', fun hd v hv hP => hm.priv hd v hv hP, hu⟩, g2, g3⟩
    · rw [hok.PG] at hb
      subst hb
      rw [c5, pred_mod (L.copied hR) (L.lt hR)]
      exact (L.unmap hR hn).2
  · have hm := hmany h1
    exact ⟨⟨hm.inv, hm.priv, hm.pages⟩, rfl, fun _ _ => rfl⟩
  · have hvt : x.proc.vtable = x.proc.pgdir.grantW (flt.va / PGSIZE) := by
      rw [Proc.vtable, hfault]
      simp only [if_pos h1]
    have hinv := hm.inv
    rw [Ctx.virtual, Ctx.tables, Ctx.setProc_proc, hvt] at hinv
    refine ⟨⟨hinv, hm.priv, hm.pages⟩, ?_, fun _ _ => rfl⟩
    show (view x.data (x.proc.pgdir.grantW _).frame, _) = _
    rw [Pgdir.grantW_frame _ hv hok.P]
    rfl

/-! ## Both halves -/

/-- What a half of a page fault has done to the process at hand: its program sees no change, and the
page it is in the middle of is as its locals say. -/
structure Faults (L : RefLaw c) (ks : List Nat) (ts : List Pgdir) (x x' : Ctx) : Prop where
  fixed : x'.proc.fixed = x.proc.fixed
  other : x'.other = .empty
  log : x.log <+: x'.log
  free : FreeOk c x.kmem → FreeOk c x'.kmem
  mem : Clean L ts x' → MemOk L ks ts True x.virtual →
    MemOk L ks ts True x'.virtual ∧ (∀ flt, x'.proc.fault = some flt → flt.Ok x'.proc.pgdir) ∧
      x'.mem .own = x.mem .own ∧ ∀ t ∈ ts, view x'.data t.frame = view x.data t.frame

theorem Ctx.virtual_eq {x : Ctx} (h : x.proc.fault = none) : x.virtual = x := by
  rw [Ctx.virtual, Proc.vtable, h]
  rfl

theorem isPgOn_ok {va : Nat} {p : Proc} {b : Bool} (h : isPgOn c va p = .ok b) (hv : va / PGSIZE < USERPAGES) :
    (p.pgdir.pte (va / PGSIZE)).PG = b := by
  unfold isPgOn at h
  split at h
  · cases h
  rename_i e he
  obtain ⟨rfl, _⟩ := walkpgdir_user hv he
  exact Except.ok.inj h

/-- Only a user page has `PTE_PG`. -/
theorem isPgOn_user {va : Nat} {p : Proc} (h : isPgOn c va p = .ok true) : va / PGSIZE < USERPAGES := by
  unfold isPgOn walkpgdir at h
  split at h
  · cases h
  rename_i e he
  split at he
  · cases he
  · by_contra hv
    rw [if_neg hv] at he
    obtain rfl := Option.some.inj he
    cases h

theorem trapPgflt_faults {va : Nat} {w : Bool} {x x' : Ctx} (hf : x.proc.fault = none) (ho : x.other = .empty)
    (h : trapPgflt c va w x = .ok x') : Faults L ks ts x x' := by
  unfold trapPgflt at h
  obtain ⟨pg, hpg, h⟩ := lift_bind_ok h
  cases pg with
  | true =>
    have hpag : c.paging = true := by
      by_contra hn
      rw [if_neg hn] at hpg
      cases hpg
    rw [if_pos hpag] at hpg
    obtain ⟨⟨b, y⟩, hy, h⟩ := bind_ok h
    cases h
    have hv := isPgOn_user hpg
    have hdo : Does L ks ts True id x x' := getPage_does hpag trivial hv (isPgOn_ok hpg hv) hy
    have hf' : x'.proc.fault = none := by
      have := hdo.same
      simp only [Proc.id, Prod.mk.injEq] at this
      exact this.2.2.2.2.2.2.trans hf
    refine ⟨Proc.fixed_of_id hdo.same, (getPage_other hy).trans ho, hdo.log, hdo.free, fun hc hm => ?_⟩
    rw [Ctx.virtual_eq hf] at hm
    obtain ⟨h1, h2, h3⟩ := hdo.mem hc hm
    rw [Ctx.virtual_eq hf']
    exact ⟨h1, fun flt hflt => (by rw [hf'] at hflt; cases hflt), congrArg Prod.fst h2, h3⟩
  | false =>
    simp only [Bool.false_eq_true, if_false] at h
    cases w with
    | false =>
      cases h
      refine ⟨rfl, ho, List.prefix_refl _, fun h => h, fun _ hm => ⟨hm, fun flt hflt => ?_, rfl, fun _ _ => rfl⟩⟩
      rw [hf] at hflt
      cases hflt
    | true =>
      have hPG : va < KERNBASE → c.paging = true → (x.proc.pgdir.pte (va / PGSIZE)).PG = false := by
        intro hva hpag
        rw [if_pos hpag] at hpg
        exact isPgOn_ok hpg (lt_USERPAGES_of_lt hva)
      rcases handlePageFault_cases h with hx | ⟨amount, hva, _, _, _, _, hx⟩
      · have hf' : x'.proc.fault = none := by
          rw [hx]
          exact hf
        have hm' : MemOk L ks ts True x.virtual → MemOk L ks ts True x'.virtual := by
          rw [Ctx.virtual_eq hf, Ctx.virtual_eq hf', hx]
          exact fun hm => ⟨hm.inv, hm.priv, hm.pages⟩
        have hnone : ∀ flt, x'.proc.fault = some flt → flt.Ok x'.proc.pgdir := fun flt hflt => by
          rw [hf'] at hflt
          cases hflt
        subst hx
        exact ⟨rfl, ho, List.prefix_refl _, fun h => h, fun _ hm => ⟨hm' hm, hnone, rfl, fun _ _ => rfl⟩⟩
      · have hinv := fun us (hI : ∃ sw, MemInv L x.kmem ks (x.proc.pgdir :: us) sw) =>
          handlePageFault_inv (hPG hva) hf h hI
        have hm' : MemOk L ks ts True x.virtual → (∃ sw, MemInv L x.kmem ks (x'.proc.vtable :: x.other :: ts) sw) ∧
            ∀ flt, x'.proc.fault = some flt → flt.Ok x'.proc.pgdir := by
          intro hm
          rw [Ctx.virtual_eq hf] at hm
          exact hinv _ hm.inv
        subst hx
        refine ⟨rfl, ho, List.prefix_refl _, fun h => h, fun _ hm => ?_⟩
        obtain ⟨h1, h2⟩ := hm' hm
        exact ⟨⟨h1, hm.priv, hm.pages⟩, h2, rfl, fun _ _ => rfl⟩

theorem finishPageFault_faults {flt : Fault} {x x' : Ctx} (hfault : x.proc.fault = some flt)
    (hok : flt.Ok x.proc.pgdir) (ho : x.other = .empty) (h : finishPageFault c flt x = .ok x') :
    Faults L ks ts x x' := by
  obtain ⟨h1, h2, h3, h4, h5⟩ := finishPageFault_free hok h
  refine ⟨h5, h3.trans ho, h1, h2, fun hc hm => ?_⟩
  obtain ⟨g1, g2, g3⟩ := finishPageFault_inv hfault hok h hc hm
  rw [Ctx.virtual_eq h4]
  exact ⟨g1, fun flt hflt => (by rw [h4] at hflt; cases hflt), congrArg Prod.fst g2, g3⟩

end Xv6
