import CCppProjects.Xv6.MemSpec
/-
# Page replacement, `allocuvm` and page faults: what they do to memory

`swapToFile` gives one reference of a frame back and leaves the page mapped, so as long as nobody
else maps the frame the page's content stays where it is. `allocuvm` adds pages of zeros;
`get_page` and `handle_page_fault` move pages to other frames without a visible change.
-/
namespace Xv6

open Share

variable {c : Cfg} {L : RefLaw c} {ks : List Nat} {ts : List Pgdir} {d : Prop}

/-! ## Choosing the victim -/

theorem walkpgdir_user {t : Pgdir} {v : Nat} {e : Pte} (hv : v < USERPAGES) (h : walkpgdir c t v = some e) :
    e = t.pte v ∧ (t.pde (v / NPTENTRIES)).isSome = true := by
  unfold walkpgdir at h
  split at h
  · cases h
  · rename_i f hf
    rw [if_pos hv] at h
    exact ⟨(Option.some.inj h).symm, by simp [hf]⟩

theorem scfifoScan_walked {p : Proc} : ∀ (qs : List (Option Nat)) (t t' : Pgdir) (temp temp' : List (Option Nat))
    {r : Option (Option Nat × List (Option Nat))}, scfifoScan c p qs t temp = .ok (t', temp', r) → t.Walked t'
  | [], t, t', temp, temp', r, h => by
    cases h
    exact .refl t
  | q :: qs, t, t', temp, temp', r, h => by
    rw [scfifoScan] at h
    obtain ⟨pg, _, h⟩ := bind_ok h
    split at h
    · cases h
    · rename_i e he
      split at h
      · exact (Pgdir.Walked.setPte t (fun hv => (walkpgdir_user hv he).1) (by simp)).trans
          (scfifoScan_walked qs _ _ _ _ h)
      · cases h
        exact .refl t

/-- Choosing a victim changes `RAMQueue` and `PTE_A` bits only. -/
theorem removeVictim_cases {p p' : Proc} {r : Option Nat} (h : removeVictim c p = .ok (r, p')) :
    ∃ t a, p' = { p with pgdir := t, RAMQueue := a } ∧ p.pgdir.Walked t := by
  unfold removeVictim at h
  split at h
  · cases h
    exact ⟨p.pgdir, _, rfl, .refl _⟩
  · unfold removeSCFIFO at h
    obtain ⟨⟨t, temp, found⟩, hs, h⟩ := bind_ok h
    have hw := scfifoScan_walked _ _ _ _ _ hs
    simp only at h
    split at h
    · cases h
      exact ⟨t, _, rfl, hw⟩
    · split at h
      · cases h
      · cases h
        exact ⟨t, _, rfl, hw⟩
  · unfold removeNFUA at h
    obtain ⟨m, _, h⟩ := bind_ok h
    cases h
    exact ⟨p.pgdir, _, rfl, .refl _⟩
  · unfold removeLAPA at h
    obtain ⟨m, _, h⟩ := bind_ok h
    split at h
    · cases h
    · cases h
      exact ⟨p.pgdir, _, rfl, .refl _⟩
  · unfold removeAQ at h
    cases h
    exact ⟨p.pgdir, _, rfl, .refl _⟩

theorem removeVictim_id {p p' : Proc} {r : Option Nat} (h : removeVictim c p = .ok (r, p')) :
    p'.id = p.id ∧ p.pgdir.Walked p'.pgdir ∧ p'.pages = p.pages := by
  obtain ⟨t, a, rfl, hw⟩ := removeVictim_cases h
  exact ⟨rfl, hw, rfl⟩

theorem getFreeFileOffset_id (p : Proc) : (getFreeFileOffset p).2.id = p.id ∧
    (getFreeFileOffset p).2.pgdir = p.pgdir ∧ (getFreeFileOffset p).2.pages = p.pages := by
  cases hq : p.offsetQueue.getD 0 none <;>
    simp only [getFreeFileOffset, removeOffsetQueue, hq, updateOffsetQueue, Proc.id, and_self]

/-- The victim's address is that of a slot of `pages[]`. -/
theorem selectPage_spec {p p' : Proc} {addr : Nat} (h : selectPage c p = .ok (addr, p')) :
    (p'.id = p.id ∧ p.pgdir.Walked p'.pgdir ∧ p'.pages = p.pages) ∧ ∃ pg ∈ p.pages, addr = pg.vAddress := by
  unfold selectPage at h
  obtain ⟨⟨i, q⟩, hq, h⟩ := bind_ok h
  obtain ⟨pg, hpg, h⟩ := bind_ok h
  cases h
  have hid := removeVictim_id hq
  refine ⟨hid, pg, ?_, rfl⟩
  rw [← hid.2.2]
  unfold Proc.page at hpg
  split at hpg
  · cases hpg
  · split at hpg
    · cases hpg
    · rename_i hpg'
      cases hpg
      exact List.mem_of_getElem? hpg'

/-! ## `swapToFile` -/

/-- A page of bytes goes to the swap file. -/
theorem writeUserPage_cases {addr offset : Nat} {x x' : Ctx} (h : writeUserPage c addr offset x = .ok x') :
    ∃ fl page, x.proc.swapFile = some fl ∧ x' = (x.setProc
      { x.proc with swapFile := some (writeToSwapFile page offset fl).1 }).emit (writeToSwapFile page offset fl).2 := by
  unfold writeUserPage at h
  split at h
  · cases h
  rename_i fl hfl
  simp only at h
  split at h
  · cases h
    exact ⟨fl, _, hfl, rfl⟩
  · split at h
    · cases h
    · split at h
      · cases h
        exact ⟨fl, _, hfl, rfl⟩
      · cases h

theorem writeUserPage_does {addr offset : Nat} {x x' : Ctx} (h : writeUserPage c addr offset x = .ok x') :
    Does L ks ts d id x x' := by
  obtain ⟨fl, page, _, rfl⟩ := writeUserPage_cases h
  have h1 : Does L ks ts d id x (x.setProc { x.proc with swapFile := some (writeToSwapFile page offset fl).1 }) :=
    .setProc x rfl (.refl _) fun h => h
  exact h1.trans (.emit _ _)

theorem recordSwapOut_id {addr offset : Nat} {p p' : Proc} (h : recordSwapOut addr offset p = .ok p') :
    p'.id = p.id ∧ p'.pgdir = p.pgdir ∧ p'.pages.map Page.vAddress = p.pages.map Page.vAddress := by
  simp only [recordSwapOut] at h
  split at h
  · cases h
  · rename_i pg hpg
    cases h
    refine ⟨rfl, rfl, ?_⟩
    obtain ⟨hlt, rfl⟩ := List.getElem?_eq_some_iff.1 hpg
    rw [List.map_set]
    refine List.ext_getElem (by simp) fun j h1 h2 => ?_
    rw [List.getElem_set]
    split
    · rename_i hj; subst hj; simp
    · rfl

/-- Where the other table at hand is private, a page of one of the two is not one of the other. -/
theorem MemOk.unshared {x : Ctx} (hm : MemOk L ks ts d x) (hd : d) {w : Tbl} {v f : Nat}
    (hf : (x.tbl w).frame v = some f) (hts : ∀ t ∈ ts, ¬ Maps t.frame f) :
    cnt (frames (x.tbl w :: x.rest ts w)) f = 1 := by
  obtain ⟨sw, hI⟩ := hm.head w
  have hpr := hm.priv hd
  have hmap : Maps (x.tbl w).frame f := ⟨v, hf⟩
  cases w with
  | other =>
    obtain ⟨hlt, hP, _⟩ := Pgdir.frame_eq_some.1 hf
    exact hI.excl _ (List.mem_cons_self ..) v f hf (hpr v hlt hP)
  | own =>
    have hno : ¬ Maps x.other.frame f := by
      rintro ⟨u, hu⟩
      obtain ⟨hlt, hP, _⟩ := Pgdir.frame_eq_some.1 hu
      have hone := hI.excl x.other (by simp [Ctx.rest]) u f hu (hpr u hlt hP)
      have h2 : Maps x.other.frame f := ⟨u, hu⟩
      rw [frames_cons, cnt_cons, if_pos hmap, Ctx.rest, frames_cons, cnt_cons, if_pos h2] at hone
      omega
    rw [frames_cons, cnt_cons, if_pos hmap, Ctx.rest, frames_cons, cnt_cons, if_neg hno,
      cnt_frames_eq_zero.2 hts]

/-- The null frame is not one `kfree` takes. -/
theorem kfree_zero (k k' : Kmem) : kfree c (P2V (0 * PGSIZE)) k ≠ .ok k' := by
  have hlt : P2V (0 * PGSIZE) < P2V c.kend := by
    have := c.hkend
    simp only [P2V, UINT, KERNBASE, PHYSTOP, PGSIZE] at *; omega
  unfold kfree
  rw [if_pos (.inr (.inl hlt))]
  intro h
  cases h

theorem releasePage_cases {w : Tbl} {addr : Nat} {x x' : Ctx} (h : releasePage c w addr x = .ok x') :
    ∃ e k, walkpgdir c (x.tbl w) (addr / PGSIZE) = some e ∧ kfree c (P2V (e.addr * PGSIZE)) x.kmem = .ok k ∧
      x' = ((x.emit [.swapOut (x.kmem.pageRefsNum e.addr) e]).setTbl w
        ((x.tbl w).setPte (addr / PGSIZE) { e with PG := true })).setKmem k := by
  unfold releasePage at h
  cases he : walkpgdir c (x.tbl w) (addr / PGSIZE) with
  | none => rw [he] at h; cases h
  | some e =>
    rw [he] at h
    obtain ⟨k, hk, h⟩ := lift_bind_ok h
    simp only [Ctx.emit_tbl] at hk h
    cases h
    rw [Ctx.setTbl_kmem, Ctx.emit_kmem] at hk
    exact ⟨e, k, rfl, hk, rfl⟩

theorem releasePage_does (hpag : c.paging = true) (hd : d) {w : Tbl} {addr : Nat} {x x' : Ctx}
    (ha : x.proc.UserPages → addr < KERNBASE) (h : releasePage c w addr x = .ok x') :
    Does L ks ts d id x x' := by
  obtain ⟨e, k, he, hk, rfl⟩ := releasePage_cases h
  refine ⟨by simp, by simp, fun hf => hf.kfree (P2V_lt _) hk, fun hc hm => ?_⟩
  have hv : addr / PGSIZE < USERPAGES := by
    have := ha hm.pages
    simp only [PGSIZE, USERPAGES, KERNBASE] at *; omega
  obtain ⟨rfl, hpde⟩ := walkpgdir_user hv he
  obtain ⟨sw, hI⟩ := hm.head w
  have hent := hI.entry _ (List.mem_cons_self ..) _ hv
  by_cases hP : ((x.tbl w).pte (addr / PGSIZE)).P = true
  · have hfr := Pgdir.frame_of hv hP
    rw [EntryOk, if_pos hP] at hent
    have hmap : Maps (x.tbl w).frame ((x.tbl w).pte (addr / PGSIZE)).addr := ⟨_, hfr⟩
    have hR := hI.refs _ (cnt_frames_pos (List.mem_cons_self ..) hmap)
    have hOk : L.Ok ts (.swapOut (x.kmem.pageRefsNum ((x.tbl w).pte (addr / PGSIZE)).addr)
      ((x.tbl w).pte (addr / PGSIZE))) := hc _ (by simp)
    obtain ⟨hPG, hts, hR'⟩ := L.swapOut hpag hR hOk
    have hone := hm.unshared hd hfr hts
    obtain ⟨h0, hR'⟩ := hR' (hent.2.1 ▸ hPG) hone
    have hout := hI.swapOut hfr hone h0 hR'
    have hok := (hI.user _ (List.mem_cons_self ..) _ hmap).1
    rw [show P2V (((x.tbl w).pte (addr / PGSIZE)).addr * PGSIZE) = kva ((x.tbl w).pte (addr / PGSIZE)).addr from rfl,
      kfree_kva hok] at hk
    obtain rfl := Except.ok.inj hk
    have hfr' : ((x.tbl w).setPte (addr / PGSIZE) { (x.tbl w).pte (addr / PGSIZE) with PG := true }).frame =
        (x.tbl w).frame := by
      rw [Pgdir.frame_setPte _ hv, Pte.frame, if_pos hP, ← hfr, Function.update_eq_self]
    refine (hm.step (w := w) (g := id) ⟨_, by simpa using hout⟩ (fun u hu => ?_) (fun hd' hw => ?_) ?_ ?_
      (fun _ _ => by simp)).imp_right (.imp_left fun h => h.trans (Tbl.on_id ..))
    · rw [Ctx.setKmem_tbl, Ctx.tbl_setTbl_ne _ _ _ _ hu, Ctx.emit_tbl]
    · subst hw
      intro u hu hPu
      simp only [Ctx.setKmem_tbl, Ctx.setTbl_tbl, Pgdir.pte_setPte] at hPu ⊢
      split
      · rename_i huv
        exact hm.priv hd _ hv hP
      · rename_i huv
        rw [if_neg huv] at hPu
        exact hm.priv hd u hu hPu
    · cases w <;> exact hm.pages
    · simp [Ctx.mem, hfr']
  -- an empty entry has address 0, which `kfree` refuses
  · rw [EntryOk, if_neg hP] at hent
    rw [hent] at hk
    exact absurd hk (kfree_zero _ _)

/-- The four parts of `swapToFile`. -/
theorem swapToFile_cases {w : Tbl} {x x' : Ctx} (h : swapToFile c w x = .ok x') :
    ∃ addr p y q, selectPage c x.proc = .ok (addr, p) ∧
      writeUserPage c addr (getFreeFileOffset p).1
        ((x.emit [.swapCall x.proc]).setProc (getFreeFileOffset p).2) = .ok y ∧
      recordSwapOut addr (getFreeFileOffset p).1 y.proc = .ok q ∧ releasePage c w addr (y.setProc q) = .ok x' := by
  simp only [swapToFile] at h
  obtain ⟨⟨addr, p⟩, hsel, h⟩ := lift_bind_ok h
  obtain ⟨y, hy, h⟩ := bind_ok h
  obtain ⟨q, hq, h⟩ := lift_bind_ok h
  exact ⟨addr, p, y, q, hsel, hy, hq, h⟩

theorem swapToFile_does (hpag : c.paging = true) (hd : d) {w : Tbl} {x x' : Ctx}
    (h : swapToFile c w x = .ok x') : Does L ks ts d id x x' := by
  obtain ⟨addr, p, y, q, hsel, hy, hq, h⟩ := swapToFile_cases h
  obtain ⟨⟨h1, h2, h3⟩, pg, hpg, rfl⟩ := selectPage_spec hsel
  obtain ⟨g1, g2, g3⟩ := getFreeFileOffset_id p
  obtain ⟨r1, r2, r3⟩ := recordSwapOut_id hq
  have hpages : q.pages.map Page.vAddress = x.proc.pages.map Page.vAddress := by
    obtain ⟨_, _, _, rfl⟩ := writeUserPage_cases hy
    rw [r3, Ctx.emit_proc, Ctx.setProc_proc, Ctx.setProc_proc, g3, h3]
  have huser : ∀ {p p' : Proc}, p'.pages.map Page.vAddress = p.pages.map Page.vAddress →
    p.UserPages → p'.UserPages := by
    intro p p' hpp hu r hr
    have : r.vAddress ∈ p.pages.map Page.vAddress := hpp ▸ List.mem_map_of_mem hr
    obtain ⟨r', hr', he⟩ := List.mem_map.1 this
    exact he ▸ hu r' hr'
  have d1 : Does L ks ts d id x (x.emit [.swapCall x.proc]) := .emit x _
  have d2 : Does L ks ts d id _ ((x.emit [.swapCall x.proc]).setProc (getFreeFileOffset p).2) :=
    .setProc _ (g1.trans h1) (g2.symm ▸ h2) fun hu => by rw [Proc.UserPages, g3, h3]; exact hu
  have d3 : Does L ks ts d id _ y := writeUserPage_does hy
  have d4 : Does L ks ts d id y (y.setProc q) := .setProc y r1 (r2 ▸ .refl _) (huser r3)
  have d5 : Does L ks ts d id (y.setProc q) x' := releasePage_does hpag hd (fun hu => by
    obtain ⟨r, hr, he⟩ := List.mem_map.1 (hpages ▸ List.mem_map_of_mem hpg)
    exact he ▸ hu r hr) h
  exact (((d1.trans d2).trans d3).trans d4).trans d5

/-! ## `allocuvm` -/

/-- What `mappages` of one page can do. -/
theorem mappages_cases {k : Kmem} {t : Pgdir} {v f : Nat} {perm : Pte} {r : Option (Kmem × Pgdir)}
    (h : mappages k t v f perm = .ok r) :
    (r = none ∧ walkpgdirAlloc k t v = none) ∨ ∃ k' t', r = some (k', t'.setPte v { perm with addr := f, P := true }) ∧
      walkpgdirAlloc k t v = some (k', t') ∧ (t'.pte v).P = false := by
  unfold mappages at h
  split at h
  · rename_i hw
    cases h
    exact .inl ⟨rfl, hw⟩
  · rename_i k1 t1 hw
    split at h
    · cases h
    · rename_i hP
      cases h
      exact .inr ⟨k1, t1, rfl, hw, by simpa using hP⟩

theorem FreeOk.walkpgdirAlloc {k k' : Kmem} {t t' : Pgdir} {v : Nat} (h : FreeOk c k)
    (hw : Xv6.walkpgdirAlloc k t v = some (k', t')) : FreeOk c k' := by
  unfold Xv6.walkpgdirAlloc at hw
  split at hw
  · cases hw; exact h
  · split at hw
    · cases hw
    · rename_i hk
      cases hw
      exact h.kalloc hk

theorem kalloc_lt {k k' : Kmem} {mem : Nat} (hk : kalloc k = (some mem, k')) : mem < UINT := by
  rcases kalloc_cases k with ⟨_, hn⟩ | ⟨f, rest, _, hs⟩
  · rw [hn] at hk; cases hk
  · rw [hs] at hk
    obtain ⟨h1, _⟩ := Prod.mk.inj hk
    rw [← Option.some.inj h1]
    exact P2V_lt _

/-- A frame taken off the free list and filled: nobody sees it yet. -/
theorem MemOk.kalloc {x : Ctx} (hm : MemOk L ks ts d x) {mem : Nat} {k : Kmem}
    (hk : Xv6.kalloc x.kmem = (some mem, k)) (page : PageData) :
    ∃ f, mem = kva f ∧ V2P mem / PGSIZE = f ∧ k.pageRefsNum f = 1 ∧ c.FrameOk f ∧
      (∀ t ∈ x.tables ts, ¬ Maps t.frame f) ∧
      MemOk L (f :: ks) ts d ((x.setKmem k).setData (Function.update x.data f page)) ∧
      ((x.setKmem k).setData (Function.update x.data f page)).mems = x.mems ∧
      ∀ t ∈ ts, view (Function.update x.data f page) t.frame = view x.data t.frame := by
  obtain ⟨⟨sw, hI⟩, hpr, hu⟩ := hm
  obtain ⟨f, hmem, hok, hV, href, hno, hI⟩ := hI.kalloc hk
  have hview : ∀ t ∈ x.tables ts, view (Function.update x.data f page) t.frame = view x.data t.frame :=
    fun t ht => view_update_of_not_maps (hno t ht) _ _
  refine ⟨f, hmem, hV, href, hok, hno, ⟨⟨sw, hI⟩, hpr, hu⟩, ?_, fun t ht => hview t (by simp [Ctx.tables, ht])⟩
  exact Prod.ext (hview x.proc.pgdir (by simp [Ctx.tables])) (hview x.other (by simp [Ctx.tables]))

/-- What `allocPage` can do. -/
theorem allocPage_cases {w : Tbl} {v : Nat} {x x' : Ctx} {r : Mapped} (h : allocPage w v x = .ok (r, x')) :
    (r = .noFrame ∧ x' = x) ∨ ∃ mem k, kalloc x.kmem = (some mem, k) ∧
      ((r = .noTable mem ∧ x' = (x.setKmem k).setData (Function.update x.data (V2P mem / PGSIZE) zeroPage)) ∨
        ∃ k' t', r = .done ∧ walkpgdirAlloc k (x.tbl w) v = some (k', t') ∧ (t'.pte v).P = false ∧
          mappages k (x.tbl w) v (V2P mem / PGSIZE) permWU =
            .ok (some (k', t'.setPte v { permWU with addr := V2P mem / PGSIZE, P := true })) ∧
          x' = (((x.setKmem k).setData (Function.update x.data (V2P mem / PGSIZE) zeroPage)).setKmem k').setTbl w
            (t'.setPte v { permWU with addr := V2P mem / PGSIZE, P := true })) := by
  unfold allocPage at h
  split at h
  · cases h; exact .inl ⟨rfl, rfl⟩
  rename_i mem k hk
  obtain ⟨o, ho, h⟩ := lift_bind_ok h
  simp only [Ctx.setData_kmem, Ctx.setKmem_kmem, Ctx.setData_tbl, Ctx.setKmem_tbl] at ho
  refine .inr ⟨mem, k, hk, ?_⟩
  rcases mappages_cases ho with ⟨rfl, _⟩ | ⟨k', t', rfl, hw, hP⟩
  · cases h
    exact .inl ⟨rfl, rfl⟩
  · cases h
    exact .inr ⟨k', t', rfl, hw, hP, ho, rfl⟩

/-- A frame for which there is no page table page is still the kernel's. -/
theorem allocPage_noTable {w : Tbl} {v mem : Nat} {x x' : Ctx} (h : allocPage w v x = .ok (.noTable mem, x')) :
    x'.proc = x.proc ∧ x'.other = x.other ∧ x'.log = x.log ∧ (FreeOk c x.kmem → FreeOk c x'.kmem) ∧ mem < UINT ∧
      (MemOk L ks ts d x → ∃ f, mem = kva f ∧ MemOk L (f :: ks) ts d x' ∧ x'.mems = x.mems ∧
        ∀ t ∈ ts, view x'.data t.frame = view x.data t.frame) := by
  rcases allocPage_cases h with ⟨hr, _⟩ | ⟨mem', k, hk, ⟨hr, rfl⟩ | ⟨_, _, hr, _⟩⟩
  · cases hr
  · cases hr
    refine ⟨rfl, rfl, rfl, fun hf => hf.kalloc hk, kalloc_lt hk, fun hm => ?_⟩
    obtain ⟨f, hmem, hV, _, _, _, h1, h2, h3⟩ := hm.kalloc hk zeroPage
    rw [hV]
    exact ⟨f, hmem, h1, h2, h3⟩
  · cases hr

theorem allocPage_done {w : Tbl} {v : Nat} (hv : v < USERPAGES) {x x' : Ctx}
    (h : allocPage w v x = .ok (.done, x')) :
    Does L ks ts d (w.on fun m => Function.update m v (some zeroPage)) x x' ∧
      ∃ f, (x'.tbl w).pte v = { permWU with addr := f, P := true } := by
  rcases allocPage_cases h with ⟨hr, _⟩ | ⟨mem, k, hk, ⟨hr, _⟩ | ⟨k', t', _, hw, hP, ho, rfl⟩⟩
  · cases hr
  · cases hr
  · refine ⟨⟨by simp, by simp, fun hf => ?_, fun _ hm => ?_⟩, _, by rw [Ctx.setTbl_tbl, Pgdir.pte_setPte, if_pos rfl]⟩
    · rw [Ctx.setTbl_kmem]
      exact FreeOk.walkpgdirAlloc (hf.kalloc hk) hw
    obtain ⟨f, hmem, hV, href, _, hno, h1, h2, h3⟩ := hm.kalloc hk zeroPage
    rw [hV] at ho ⊢
    obtain ⟨sw, hI⟩ := h1.head w
    rw [Ctx.setData_tbl, Ctx.setKmem_tbl] at hI
    obtain ⟨hI, hnone, hfr⟩ := hI.mappages hv href ho
    have hview : ∀ t ∈ x.tables ts, view (Function.update x.data f zeroPage) t.frame = view x.data t.frame :=
      fun t ht => view_update_of_not_maps (hno t ht) _ _
    refine hm.step (w := w) ⟨_, by simpa [Ctx.rest] using hI⟩ (fun u hu => ?_) (fun hd hw' => ?_) ?_ ?_ ?_
    · rw [Ctx.tbl_setTbl_ne _ _ _ _ hu]
      simp
    · subst hw'
      intro u hu hPu
      rw [Ctx.setTbl_tbl, Pgdir.pte_setPte] at hPu ⊢
      split
      · rfl
      · rename_i hne
        rw [if_neg hne] at hPu
        obtain ⟨_, _, _, hpte, _⟩ := MemInv.walkpgdirAlloc (h1.head .other).choose_spec hv hw
        rw [hpte u hu] at hPu ⊢
        exact hm.priv hd u hu hPu
    · cases w <;> exact hm.pages
    · rw [Ctx.mem, Ctx.setTbl_tbl, hfr]
      simp only [Ctx.setTbl_data, Ctx.setKmem_data, Ctx.setData_data, view_set, Option.map_some,
        Function.update_self]
      rw [show view (Function.update x.data f zeroPage) (x.tbl w).frame = x.mem w from hview _ ?_]
      cases w <;> simp [Ctx.tables, Ctx.tbl]
    · intro t ht
      simp only [Ctx.setTbl_data, Ctx.setKmem_data, Ctx.setData_data]
      refine hview t ?_
      cases w <;> simp [Ctx.tables, Ctx.rest] at ht ⊢ <;> rcases ht with rfl | ht <;> simp [*]

/-- The bookkeeping of a page just mapped leaves the tables as they are. -/
theorem recordPage_cases {w : Tbl} {v : Nat} (hv : v < USERPAGES) {x x' : Ctx} {f : Nat}
    (hf : (x.tbl w).pte v = { permWU with addr := f, P := true }) (h : recordPage c w v x = .ok x') :
    ∃ pg q, x.proc.pages[x.proc.pages.findIdx fun pg => !pg.isAllocated]? = some pg ∧
      insert (x.proc.pages.findIdx fun pg => !pg.isAllocated)
        { x.proc with pages := x.proc.pages.set (x.proc.pages.findIdx fun pg => !pg.isAllocated) (pg.alloc v) } = .ok q ∧
      x' = x.setProc { q with numberOfAllocatedPages := q.numberOfAllocatedPages + 1 } := by
  simp only [recordPage] at h
  split at h
  · cases h
  rename_i pg hpg
  obtain ⟨q, hq, h⟩ := lift_bind_ok h
  obtain ⟨_, h2, _⟩ := insert_id hq
  refine ⟨pg, q, hpg, hq, ?_⟩
  have htbl : (x.setProc { q with numberOfAllocatedPages := q.numberOfAllocatedPages + 1 }).tbl w = x.tbl w :=
    Ctx.tbl_setProc (p := { q with numberOfAllocatedPages := q.numberOfAllocatedPages + 1 }) h2 w
  rw [htbl] at h
  split at h
  · cases h
  rename_i e he
  cases h
  obtain ⟨rfl, _⟩ := walkpgdir_user hv he
  have hsame : (x.tbl w).setPte v { (x.tbl w).pte v with P := true, PG := false } = x.tbl w := by
    rw [Pgdir.setPte, show ({ (x.tbl w).pte v with P := true, PG := false } : Pte) = (x.tbl w).pte v by rw [hf]; rfl,
      Function.update_eq_self]
  rw [hsame, ← htbl]
  cases w <;> rfl

theorem recordPage_does {w : Tbl} {v : Nat} (hv : v < USERPAGES) {x x' : Ctx} {f : Nat}
    (hf : (x.tbl w).pte v = { permWU with addr := f, P := true }) (h : recordPage c w v x = .ok x') :
    Does L ks ts d id x x' := by
  obtain ⟨pg, q, _, hq, rfl⟩ := recordPage_cases hv hf h
  obtain ⟨h1, h2, h3⟩ := insert_id hq
  refine .setProc x h1 (h2 ▸ .refl _) fun hu => ?_
  refine hu.set (q := { q with numberOfAllocatedPages := q.numberOfAllocatedPages + 1 }) h3 ?_
  show v * PGSIZE < KERNBASE
  simp only [USERPAGES, PGSIZE, KERNBASE] at *; omega

theorem cut_update {v u newsz : Nat} (hle : v ≤ u) (hu : u * PGSIZE < newsz) (m : Mem) (o : Option PageData) :
    Mem.cut v newsz (Function.update m u o) = Mem.cut v newsz m := by
  funext r
  simp only [Mem.cut, Function.update_apply]
  by_cases hr : r = u
  · subst hr
    rw [if_pos ⟨hle, hu⟩, if_pos ⟨hle, hu⟩]
  · rw [if_neg hr]

theorem grow_update {v newsz : Nat} (hv : v * PGSIZE < newsz) (m : Mem) :
    Mem.grow (v + 1) newsz (Function.update m v (some zeroPage)) = Mem.grow v newsz m := by
  funext r
  simp only [Mem.grow, Function.update_apply]
  by_cases hr : r = v
  · subst hr
    rw [if_neg (by omega), if_pos rfl, if_pos ⟨Nat.le_refl _, hv⟩]
  · have : (v + 1 ≤ r ∧ r * PGSIZE < newsz) ↔ (v ≤ r ∧ r * PGSIZE < newsz) := by omega
    simp only [this, if_neg hr]

theorem grow_id {v newsz : Nat} (hv : newsz ≤ v * PGSIZE) : Mem.grow v newsz = id := by
  funext m r
  rw [Mem.grow, if_neg]
  · rfl
  · rintro ⟨h1, h2⟩
    have := Nat.mul_le_mul_right PGSIZE h1
    omega

/-- Making room for the page at `v`. -/
theorem makeRoom_does (hd : d) {w : Tbl} {v : Nat} {x y : Ctx}
    (h : (if x.tracked c && decide (MAX_PSYC_PAGES ≤ v) then swapToFile c w x else pure x) = .ok y) :
    Does L ks ts d id x y := by
  split at h
  · rename_i ht
    simp only [Ctx.tracked, Bool.and_eq_true] at ht
    exact swapToFile_does ht.1.1 hd h
  · cases h
    exact .refl x

/-- The error exit with a frame in hand: the frame goes back, the pages from `oldsz` on go. -/
theorem allocFail_does {w : Tbl} {v mem r oldsz newsz : Nat} (hsz : newsz ≤ KERNBASE) {x y z : Ctx} {k : Kmem}
    {es : List Event} (hx : allocPage w v x = .ok (.noTable mem, y))
    (hy : deallocuvm c w newsz oldsz false (y.emit es) = .ok (r, z))
    (hk : kfree c mem z.kmem = .ok k) :
    Does L ks ts d (w.on (Mem.cut (pgUp oldsz) newsz)) x (z.setKmem k) := by
  obtain ⟨hp, ho, hl, hf, hlt, _⟩ := @allocPage_noTable c L ks ts d _ _ _ _ _ hx
  have hdo : Does L ks ts d _ y z := (Does.emit y es).trans (deallocuvm_does hsz hy).1
  refine ⟨hdo.same.trans (by rw [hp]), hl ▸ hdo.log, fun h => (hdo.free (hf h)).kfree hlt hk, fun hc hm => ?_⟩
  obtain ⟨_, _, _, _, _, hmem⟩ := @allocPage_noTable c L ks ts d _ _ _ _ _ hx
  obtain ⟨f, hf', hmy, hyx, hty⟩ := hmem hm
  -- the deallocation runs with the frame among the kernel's own
  have hdf : Does L (f :: ks) ts d _ y z := (Does.emit y es).trans (deallocuvm_does hsz hy).1
  obtain ⟨hmz, hzy, htz⟩ := hdf.mem hc hmy
  obtain ⟨sw, hI⟩ := hmz.inv
  rw [hf', kfree_kva hI.kernelOk] at hk
  obtain rfl := Except.ok.inj hk
  exact ⟨⟨⟨sw, hI.dropKernel⟩, hmz.priv, hmz.pages⟩, hyx ▸ hzy, fun t ht => (htz t ht).trans (hty t ht)⟩

theorem allocuvmLoop_does (hd : d) {w : Tbl} {oldsz newsz : Nat} (hsz : newsz ≤ KERNBASE) :
    ∀ (n v : Nat) (x x' : Ctx) (b : Bool), pgUp oldsz ≤ v → pgUp newsz ≤ v + n →
      allocuvmLoop c w oldsz newsz n v x = .ok (b, x') →
      Does L ks ts d (w.on (if b then Mem.grow v newsz else Mem.cut (pgUp oldsz) newsz)) x x'
  | 0, v, x, x', b, hv, hn, h => by
    cases h
    refine (Does.refl x).congr fun m => ?_
    have : newsz ≤ v * PGSIZE := by
      have : ¬ v < pgUp newsz := by omega
      rw [lt_pgUp] at this
      omega
    rw [if_pos rfl, grow_id this, Tbl.on_id]
    rfl
  | n + 1, v, x, x', b, hv, hn, h => by
    rw [allocuvmLoop] at h
    by_cases hle : newsz ≤ v * PGSIZE
    · rw [if_pos hle] at h
      cases h
      refine (Does.refl x).congr fun m => ?_
      rw [if_pos rfl, grow_id hle, Tbl.on_id]
      rfl
    rw [if_neg hle] at h
    have hlt : v * PGSIZE < newsz := by omega
    have hvu := lt_USERPAGES hsz hlt
    obtain ⟨y, hy, h⟩ := bind_ok h
    have hroom : Does L ks ts d id x y := makeRoom_does hd hy
    obtain ⟨⟨r, z⟩, hz, h⟩ := bind_ok h
    cases r with
    | noFrame =>
      obtain ⟨⟨_, q⟩, hq, h⟩ := bind_ok h
      cases h
      have hal : z = y := by
        rcases allocPage_cases hz with ⟨_, hal⟩ | ⟨_, _, _, ⟨hr, _⟩ | ⟨_, _, hr, _⟩⟩
        · exact hal
        · cases hr
        · cases hr
      subst hal
      exact ((hroom.trans (.emit z _)).trans (deallocuvm_does hsz hq).1).congr fun m => rfl
    | noTable mem =>
      obtain ⟨⟨_, q⟩, hq, h⟩ := bind_ok h
      obtain ⟨k, hk, h⟩ := lift_bind_ok h
      cases h
      refine (hroom.trans (allocFail_does hsz hz hq hk)).congr fun m => rfl
    | done =>
      obtain ⟨y', hy', h⟩ := bind_ok h
      obtain ⟨hal, f, hf⟩ : Does L ks ts d (w.on fun m => Function.update m v (some zeroPage)) y z ∧ _ :=
        allocPage_done hvu hz
      have hrec : Does L ks ts d id z y' := by
        split at hy'
        · exact recordPage_does hvu hf hy'
        · cases hy'
          exact .refl z
      have ih := allocuvmLoop_does hd hsz n (v + 1) y' x' b (by omega) (by omega) h
      refine (((hroom.trans hal).trans hrec).trans ih).congr fun m => ?_
      simp only [Function.comp_apply, id_eq, Tbl.on_on]
      congr 1
      funext m
      cases b
      · exact cut_update hv hlt m _
      · exact grow_update hlt m

theorem grow_eq_id {oldsz newsz : Nat} (h : newsz ≤ oldsz) : Mem.grow (pgUp oldsz) newsz = id := by
  funext m u
  rw [Mem.grow, if_neg]
  · rfl
  · rintro ⟨h1, h2⟩
    have : ¬ u < pgUp oldsz := by omega
    rw [lt_pgUp] at this
    omega

/-- `allocuvm` adds the pages up to `newsz`, or none, and on the error exit takes away what lies
above `oldsz`. -/
theorem allocuvm_does (hd : d) {w : Tbl} {oldsz newsz : Nat} {x x' : Ctx} {r : Nat}
    (h : allocuvm c w oldsz newsz x = .ok (r, x')) :
    (r = 0 ∧ KERNBASE ≤ newsz ∧ x' = x) ∨
      (r = 0 ∧ newsz < KERNBASE ∧ Does L ks ts d (w.on (Mem.cut (pgUp oldsz) newsz)) x x') ∨
      (r = max oldsz newsz ∧ newsz < KERNBASE ∧ Does L ks ts d (w.on (Mem.grow (pgUp oldsz) newsz)) x x') := by
  unfold allocuvm at h
  by_cases hk : KERNBASE ≤ newsz
  · rw [if_pos hk] at h
    cases h
    exact .inl ⟨rfl, hk, rfl⟩
  rw [if_neg hk] at h
  by_cases hlt : newsz < oldsz
  · rw [if_pos hlt] at h
    obtain ⟨rfl, rfl⟩ := Prod.mk.inj (Except.ok.inj h)
    refine .inr (.inr ⟨by omega, by omega, (Does.refl x).congr fun m => ?_⟩)
    rw [grow_eq_id (Nat.le_of_lt hlt), Tbl.on_id]
    rfl
  rw [if_neg hlt] at h
  obtain ⟨⟨b, y⟩, hy, h⟩ := bind_ok h
  obtain ⟨rfl, rfl⟩ := Prod.mk.inj (Except.ok.inj h)
  have hdo : Does L ks ts d _ x y := allocuvmLoop_does hd (by omega) _ _ _ _ _ (Nat.le_refl _) (by omega) hy
  cases b with
  | false => exact .inr (.inl ⟨rfl, by omega, hdo⟩)
  | true => exact .inr (.inr ⟨by simp; omega, by omega, hdo⟩)

/-! ## Calls on the own table leave the other one alone -/

theorem swapToFile_other {x x' : Ctx} (h : swapToFile c .own x = .ok x') : x'.other = x.other := by
  obtain ⟨addr, p, y, q, _, hy, _, h⟩ := swapToFile_cases h
  obtain ⟨_, _, _, rfl⟩ := writeUserPage_cases hy
  obtain ⟨_, _, _, _, rfl⟩ := releasePage_cases h
  rfl

theorem allocPage_other {v : Nat} {x x' : Ctx} {r : Mapped} (h : allocPage .own v x = .ok (r, x')) :
    x'.other = x.other := by
  rcases allocPage_cases h with ⟨_, rfl⟩ | ⟨_, _, _, ⟨_, rfl⟩ | ⟨_, _, _, _, _, _, rfl⟩⟩ <;> rfl

theorem recordPage_other {v : Nat} {x x' : Ctx} (h : recordPage c .own v x = .ok x') : x'.other = x.other := by
  simp only [recordPage] at h
  split at h
  · cases h
  obtain ⟨q, _, h⟩ := lift_bind_ok h
  split at h
  · cases h
  · cases h
    rfl

theorem allocuvmLoop_other {oldsz newsz : Nat} : ∀ (n v : Nat) (x x' : Ctx) (b : Bool),
    allocuvmLoop c .own oldsz newsz n v x = .ok (b, x') → x'.other = x.other
  | 0, v, x, x', b, h => by cases h; rfl
  | n + 1, v, x, x', b, h => by
    rw [allocuvmLoop] at h
    by_cases hle : newsz ≤ v * PGSIZE
    · rw [if_pos hle] at h
      cases h
      rfl
    rw [if_neg hle] at h
    obtain ⟨y, hy, h⟩ := bind_ok h
    have hy : y.other = x.other := by
      split at hy
      · exact swapToFile_other hy
      · cases hy; rfl
    obtain ⟨⟨r, z⟩, hz, h⟩ := bind_ok h
    replace hz := allocPage_other hz
    cases r with
    | noFrame =>
      obtain ⟨⟨_, q⟩, hq, h⟩ := bind_ok h
      cases h
      exact ((deallocuvm_onlyPtes hq).other .other (by decide)).trans (hz.trans hy)
    | noTable mem =>
      obtain ⟨⟨_, q⟩, hq, h⟩ := bind_ok h
      obtain ⟨k, _, h⟩ := lift_bind_ok h
      cases h
      exact ((deallocuvm_onlyPtes hq).other .other (by decide)).trans (hz.trans hy)
    | done =>
      obtain ⟨y', hy', h⟩ := bind_ok h
      have hrec : y'.other = z.other := by
        split at hy'
        · exact recordPage_other hy'
        · cases hy'; rfl
      exact (allocuvmLoop_other n _ y' x' b h).trans (hrec.trans (hz.trans hy))

theorem allocuvm_other {oldsz newsz r : Nat} {x x' : Ctx} (h : allocuvm c .own oldsz newsz x = .ok (r, x')) :
    x'.other = x.other := by
  unfold allocuvm at h
  split at h
  · cases h; rfl
  split at h
  · cases h; rfl
  obtain ⟨⟨b, y⟩, hy, h⟩ := bind_ok h
  cases h
  exact allocuvmLoop_other _ _ _ _ _ hy

end Xv6
