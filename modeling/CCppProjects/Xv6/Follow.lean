import CCppProjects.Xv6.Size
/-
# What a call does to its process

The kernel's functions change `*myproc()` in few ways: the table, a victim swapped out, a page recorded, brought back
or deallocated. A relation that these moves keep to holds between the process before and after any of the functions
(`Follows`), a property that they and the system calls keep holds of every process in every run (`Kept.run`).

| here | there |
| --- | --- |
| `SwapsOut` | `swapToFile` up to the page table (vm.c:472-484) |
| `Records`, `Loads` | the bookkeeping of `allocuvm` (vm.c:258-276) and of `get_page` (vm.c:591-610) |
-/
namespace Xv6

variable {c : Cfg}

/-- A victim is chosen, its page written to a free slot and that noted. -/
def SwapsOut (c : Cfg) (p q : Proc) : Prop :=
  ∃ addr p' fl page, selectPage c p = .ok (addr, p') ∧ (getFreeFileOffset p').2.swapFile = some fl ∧
    recordSwapOut addr (getFreeFileOffset p').1 { (getFreeFileOffset p').2 with
      swapFile := some (writeToSwapFile page (getFreeFileOffset p').1 fl).1 } = .ok q

/-- A new page gets a slot of `pages[]`. -/
def Records (v : Nat) (p q : Proc) : Prop :=
  ∃ pg q', p.pages[p.pages.findIdx fun pg => !pg.isAllocated]? = some pg ∧
    insert (p.pages.findIdx fun pg => !pg.isAllocated)
      { p with pages := p.pages.set (p.pages.findIdx fun pg => !pg.isAllocated) (pg.alloc v) } = .ok q' ∧
    q = { q' with numberOfAllocatedPages := q'.numberOfAllocatedPages + 1 }

/-- A page is back in memory. -/
def Loads (v : Nat) (p q : Proc) : Prop :=
  ∃ pg p' q' t, p.pages[p.pages.findIdx fun pg => pg.vAddress == v * PGSIZE]? = some pg ∧
    insertOffsetQueue pg.fileOffset { p with
      pgdir := t
      pages := p.pages.set (p.pages.findIdx fun pg => pg.vAddress == v * PGSIZE)
        { pg with isInRAM := true, fileOffset := none } } = .ok p' ∧
    insert (p.pages.findIdx fun pg => pg.vAddress == v * PGSIZE) p' = .ok q' ∧
    q = { q' with numberOfPagedOut := (q'.numberOfPagedOut + UINT - 1) % UINT }

/-- The slot of the victim says where the page is. -/
theorem SwapsOut.spec {p q : Proc} (h : SwapsOut c p q) : ∃ i pg off, p.pages[i]? = some pg ∧
    q.pages = p.pages.set i { pg with fileOffset := some off, isInRAM := false } ∧ q.id = p.id ∧
    q.numberOfAllocatedPages = p.numberOfAllocatedPages := by
  obtain ⟨addr, p', fl, page, hsel, -, hq⟩ := h
  unfold selectPage at hsel
  obtain ⟨⟨v, p1⟩, hv, hsel⟩ := bind_ok hsel
  obtain ⟨pg', -, hsel⟩ := bind_ok hsel
  cases hsel
  obtain ⟨t, a, rfl, -⟩ := removeVictim_cases hv
  obtain ⟨oq, fo, hoff⟩ : ∃ oq fo, (getFreeFileOffset { p with pgdir := t, RAMQueue := a }).2 =
      { p with pgdir := t, RAMQueue := a, offsetQueue := oq, fileOffset := fo } := by
    cases ho : p.offsetQueue.getD 0 none with
    | none =>
      exact ⟨p.offsetQueue, (p.fileOffset + PGSIZE) %
        UINT, by simp only [getFreeFileOffset, removeOffsetQueue, ho]⟩
    | some off =>
      exact ⟨updateQueue 0 p.offsetQueue, p.fileOffset, by
        simp only [getFreeFileOffset, removeOffsetQueue, ho, updateOffsetQueue]⟩
  rw [hoff] at hq
  simp only [recordSwapOut] at hq
  split at hq
  · cases hq
  · next pg hpg =>
    cases hq
    exact ⟨_, pg, _, hpg, rfl, rfl, rfl⟩

theorem Records.spec {v : Nat} {p q : Proc} (h : Records v p q) :
    ∃ i pg, i = p.pages.findIdx (fun pg => !pg.isAllocated) ∧ p.pages[i]? = some pg ∧
      q.pages = p.pages.set i (pg.alloc v) ∧ q.id = p.id ∧
      q.numberOfAllocatedPages = p.numberOfAllocatedPages + 1 := by
  obtain ⟨pg, q', hpg, hq, rfl⟩ := h
  unfold insert at hq
  split at hq
  · cases hq
    exact ⟨_, pg, rfl, hpg, rfl, rfl, rfl⟩
  · cases hq

/-- What a function can do to the record of the pages. -/
inductive Move
  | swap | dealloc | record | load
  deriving DecidableEq

/-- The moves in `may`, and those that leave the record of the pages alone, keep to `R`. -/
structure Follows (c : Cfg) (may : Move → Prop) (R : Proc → Proc → Prop) : Prop where
  refl : ∀ p, R p p
  trans : ∀ {p q r}, R p q → R q r → R p r
  table : ∀ p t, R p { p with pgdir := t }
  fault : ∀ p k f n, R p { p with killed := k, fault := f, numberOfPageFaults := n }
  swap : may .swap → ∀ {p q}, SwapsOut c p q → R p q
  dealloc : may .dealloc → ∀ {va p q}, deallocatePage c va p = .ok q → R p q
  record : may .record → ∀ {v p q}, Records v p q → R p q
  load : may .load → ∀ {v p q}, Loads v p q → R p q

/-- A call that starts at `x` and comes back at `g` of its result has followed `R`. -/
def Goes {α : Type} (R : Proc → Proc → Prop) (x : Ctx) (g : α → Ctx) (m : K α) : Prop :=
  ∀ a, m = .ok a → R x.proc (g a).proc

namespace Follows

variable {may : Move → Prop} {R : Proc → Proc → Prop} {α β : Type} {x y : Ctx} {g : α → Ctx}
    {g' : β → Ctx} {m m' : K α} {f : α → K β}

/-! ## Rules -/

theorem ok {a : α} (h : R x.proc (g a).proc) : Goes R x g (.ok a) := by
  rintro b hb
  cases hb
  exact h

theorem error {e : Halt × List Event} : Goes R x g (.error e : K α) := by
  rintro b hb
  cases hb

theorem halt {h : Halt} : Goes R x g (y.halt h : K α) := error

theorem ite {p : Prop} [Decidable p] (h : Goes R x g m) (h' : Goes R x g m') : Goes R x g (if p then m else m') := by
  split
  · exact h
  · exact h'

theorem lift {m : Except Halt α} (hf : ∀ a, m = .ok a → Goes R x g' (f a)) : Goes R x g' (y.lift m >>= f) := by
  intro b hb
  obtain ⟨a, ha, hb⟩ := lift_bind_ok hb
  exact hf a ha b hb

theorem unflagged {P : Prop} (h : false = true) : P := nomatch h

section

variable (hR : Follows c may R)
include hR

theorem same {a : α} (h : (g a).proc = x.proc) : Goes R x g (.ok a) := ok (h ▸ hR.refl _)

theorem after (h : R x.proc y.proc) (hm : Goes R y g m) : Goes R x g m := fun a ha => hR.trans h (hm a ha)

theorem bind (h : Goes R x g m) (hf : ∀ a, Goes R (g a) g' (f a)) : Goes R x g' (m >>= f) := by
  intro b hb
  obtain ⟨a, ha, hb⟩ := bind_ok hb
  exact hR.trans (h a ha) (hf a b hb)

theorem setTbl (x : Ctx) (w : Tbl) (t : Pgdir) : R x.proc (x.setTbl w t).proc := by
  cases w with
  | own => exact hR.table x.proc t
  | other => exact hR.refl _

/-- What is kept along `R` is kept by the moves. -/
theorem keeping {I : Proc → Prop} (h : ∀ p q, R p q → I p → I q) : Follows c may fun p q => I p → I q where
  refl _ hp := hp
  trans h1 h2 hp := h2 (h1 hp)
  table p t := h _ _ (hR.table p t)
  fault p k f n := h _ _ (hR.fault p k f n)
  swap hm _ _ hs := h _ _ (hR.swap hm hs)
  dealloc hm _ _ _ hd := h _ _ (hR.dealloc hm hd)
  record hm _ _ _ hr := h _ _ (hR.record hm hr)
  load hm _ _ _ hl := h _ _ (hR.load hm hl)

/-! ## Memory -/

theorem freePage (w : Tbl) {flag : Bool} (hd : flag = true → may .dealloc) (v : Nat) (x : Ctx) :
    Goes R x id (Xv6.freePage c w flag v x) := by
  intro x' h
  obtain ⟨q, ⟨hq, hx⟩ | ⟨_, _, rfl⟩⟩ := freePage_cases h
  · have hpq : R x.proc q := by
      split at hq
      · next hf => exact hR.dealloc (hd (Bool.and_eq_true _ _ ▸ hf).2) hq
      · cases hq
        exact hR.refl _
    rcases hx with ⟨_, k, _, rfl⟩ | ⟨_, _, _, rfl⟩
    · exact hR.trans hpq (hR.setTbl ((x.setProc q).setKmem k) w _)
    · exact hR.trans hpq (hR.setTbl (x.setProc q) w _)
  · exact hR.refl _

theorem deallocuvmLoop (w : Tbl) (oldsz : Nat) {flag : Bool} (hd : flag = true → may .dealloc) (n : Nat) :
    ∀ (v : Nat) (x : Ctx),
    Goes R x id (Xv6.deallocuvmLoop c w oldsz flag n v x) := by
  induction n with
  | zero => exact fun _ _ => hR.same rfl
  | succ n ih =>
    intro v x
    rw [Xv6.deallocuvmLoop]
    refine ite (hR.same rfl) ?_
    split
    · apply ih
    · exact hR.bind (hR.freePage w hd v x) fun y => ih _ y

theorem deallocuvm (w : Tbl) (oldsz newsz : Nat) {flag : Bool} (hd : flag = true → may .dealloc) (x : Ctx) :
    Goes R x Prod.snd (Xv6.deallocuvm c w oldsz newsz flag x) := by
  unfold Xv6.deallocuvm
  exact ite (hR.same rfl) (hR.bind (hR.deallocuvmLoop w oldsz hd _ _ x) fun y => hR.same rfl)

theorem freevm (x : Ctx) : Goes R x id (Xv6.freevm c x) := by
  unfold Xv6.freevm
  split
  · exact halt
  · refine hR.bind (hR.deallocuvm .other KERNBASE 0 unflagged x) fun s => ?_
    exact lift fun k _ => lift fun k' _ => hR.same rfl

theorem setupkvm (x : Ctx) : Goes R x Prod.snd (Xv6.setupkvm c x) := by
  unfold Xv6.setupkvm
  split
  · exact hR.same rfl
  · split
    · exact hR.same rfl
    · refine hR.after (y := (x.setKmem _).setTbl .other _) (hR.refl _) ?_
      exact hR.bind (hR.freevm _) fun y => hR.same rfl

theorem recordPage (hm : may .record) (w : Tbl) (v : Nat) (x : Ctx) : Goes R x id (Xv6.recordPage c w v x) := by
  unfold Xv6.recordPage
  simp only
  split
  · exact halt
  · next pg hpg =>
    refine lift fun q hq => ?_
    have hrec : R x.proc { q with numberOfAllocatedPages := q.numberOfAllocatedPages + 1 } :=
      hR.record hm (v := v) ⟨pg, q, hpg, hq, rfl⟩
    split
    · exact halt
    · exact ok (hR.trans hrec (hR.setTbl (x.setProc _) w _))

theorem allocPage (w : Tbl) (v : Nat) (x : Ctx) : Goes R x Prod.snd (Xv6.allocPage w v x) := by
  intro s hs
  obtain ⟨r, x'⟩ := s
  rcases allocPage_cases hs with ⟨_, rfl⟩ | ⟨mem, k, _, ⟨_, rfl⟩ | ⟨k', t', _, _, _, _, rfl⟩⟩
  · exact hR.refl _
  · exact hR.refl _
  · exact hR.setTbl (((x.setKmem k).setData _).setKmem k') w _

theorem swapToFile (hm : may .swap) (w : Tbl) (x : Ctx) : Goes R x id (Xv6.swapToFile c w x) := by
  intro x' h
  obtain ⟨addr, p, y, q, hsel, hy, hq, h⟩ := swapToFile_cases h
  obtain ⟨fl, page, hfl, rfl⟩ := writeUserPage_cases hy
  obtain ⟨e, k, _, _, rfl⟩ := releasePage_cases h
  have hswap : R x.proc q := hR.swap hm ⟨addr, p, fl, page, hsel, hfl, hq⟩
  exact hR.trans hswap (hR.setTbl (Ctx.emit (Ctx.setProc _ q) _) w _)

theorem allocuvmLoop (hs : may .swap) (hr : may .record) (w : Tbl) (oldsz newsz : Nat) (n : Nat) :
    ∀ (v : Nat) (x : Ctx),
    Goes R x Prod.snd (Xv6.allocuvmLoop c w oldsz newsz n v x) := by
  induction n with
  | zero => exact fun _ _ => hR.same rfl
  | succ n ih =>
    intro v x
    rw [Xv6.allocuvmLoop]
    refine ite (hR.same rfl) ?_
    refine hR.bind (g := id) (ite (hR.swapToFile hs w x) (hR.same rfl)) fun y => ?_
    refine hR.bind (hR.allocPage w v y) ?_
    rintro ⟨r, z⟩
    have hfail := hR.deallocuvm w newsz oldsz unflagged (z.emit [.growFailed w (v - pgUp oldsz)])
    cases r with
    | noFrame => exact hR.after (y := z.emit _) (hR.refl _) (hR.bind hfail fun s => hR.same rfl)
    | noTable mem =>
      exact hR.after (y := z.emit _) (hR.refl _) (hR.bind hfail fun s => lift fun k _ => hR.same rfl)
    | done => exact hR.bind (g := id) (ite (hR.recordPage hr w v z) (hR.same rfl)) fun u => ih _ u

theorem allocuvm (hs : may .swap) (hr : may .record) (w : Tbl) (oldsz newsz : Nat) (x : Ctx) :
    Goes R x Prod.snd (Xv6.allocuvm c w oldsz newsz x) := by
  unfold Xv6.allocuvm
  exact ite (hR.same rfl) (ite (hR.same rfl) (hR.bind (hR.allocuvmLoop hs hr w oldsz newsz _ _ x) fun s => hR.same rfl))

theorem loaduvm (bs : List UInt8) (va : Nat) (x : Ctx) : Goes R x id (Xv6.loaduvm c va bs x) := by
  intro x' h
  rw [id_eq, (loaduvm_same bs va x x' h).1]
  exact hR.refl _

theorem copyout : ∀ (bs : List UInt8) (va : Nat) (x : Ctx), Goes R x Prod.snd (Xv6.copyout c va bs x)
  | [], _, _ => hR.same rfl
  | b :: bs, va, x => by
    rw [Xv6.copyout]
    refine lift fun r _ => ?_
    split
    · exact hR.same rfl
    · exact hR.after (y := x.setData _) (hR.refl _) (copyout bs _ _)

theorem clearpteu (va : Nat) (x : Ctx) : Goes R x id (Xv6.clearpteu c va x) := by
  unfold Xv6.clearpteu
  split
  · exact halt
  · exact hR.same rfl

/-! ## Faults and fork -/

theorem getPage (hs : may .swap) (hl : may .load) (va : Nat) (x : Ctx) : Goes R x Prod.snd (Xv6.getPage c va x) := by
  unfold Xv6.getPage
  refine hR.bind (g := id) (ite (hR.swapToFile hs .own x) (hR.same rfl)) fun y => ?_
  split
  · exact hR.same rfl
  · next mem k _ =>
    refine hR.after (y := y.setKmem k) (hR.refl _) (hR.bind (g := id) ?_ fun z => hR.same rfl)
    intro z hz
    obtain ⟨pg, fl, e, q, q', n, hpg, _, _, hq, hq', hn, rfl⟩ := loadPage_cases hz
    exact hR.load hl (v := va / PGSIZE) ⟨pg, q, q', _, hpg, hq, hq', by rw [← hn]; rfl⟩

theorem trapPgflt (hs : may .swap) (hl : may .load) (va : Nat) (w : Bool) (x : Ctx) :
    Goes R x id (Xv6.trapPgflt c va w x) := by
  unfold Xv6.trapPgflt
  refine lift fun pg _ => ite (hR.bind (hR.getPage hs hl va x) fun s => hR.same rfl) (ite ?_ (hR.same rfl))
  intro x' h
  rcases handlePageFault_cases h with rfl | ⟨amount, _, _, _, _, _, rfl⟩
  · exact hR.fault x.proc true _ _
  · exact hR.fault x.proc x.proc.killed _ _

theorem finishPageFault (flt : Fault) (x : Ctx) : Goes R x id (Xv6.finishPageFault c flt x) := by
  unfold Xv6.finishPageFault
  refine hR.after (y := x.setProc { x.proc with fault := none }) (hR.fault x.proc x.proc.killed none _) ?_
  generalize x.setProc { x.proc with fault := none } = y
  dsimp only
  split
  · exact halt
  · refine ite ?_ (ite (ok (hR.table y.proc _)) halt)
    split
    · exact ok (hR.fault y.proc true y.proc.fault _)
    · unfold copyPage
      exact lift fun k _ => lift fun k' _ => ok (hR.table y.proc _)

theorem copyuvm (sz : Nat) (x : Ctx) : Goes R x Prod.snd (Xv6.copyuvm c sz x) := by
  have hshare : ∀ v e x, Goes R x Prod.snd (sharePage c v e x) := by
    intro v e x
    unfold sharePage
    refine lift fun r _ => ?_
    split
    · exact ok (hR.table x.proc _)
    · exact lift fun k _ => ok (hR.table x.proc _)
  have hloop : ∀ n v x, Goes R x Prod.snd (copyuvmLoop c sz n v x) := by
    intro n
    induction n with
    | zero => exact fun _ _ => hR.same rfl
    | succ n ih =>
      intro v x
      rw [copyuvmLoop]
      refine ite (hR.same rfl) ?_
      split
      · exact halt
      · next e _ => exact ite (hR.bind (hshare v e x) fun s => ite (ih _ s.2) (hR.same rfl)) (ite (ih _ x) halt)
  unfold Xv6.copyuvm
  refine hR.bind (hR.setupkvm x) fun s => ite (hR.same rfl) (hR.bind (hloop _ _ s.2) fun u => ite (hR.same rfl) ?_)
  exact hR.bind (hR.freevm u.2) fun y => hR.same rfl

/-! ## exec -/

theorem loadSegments (hs : may .swap) (hr : may .record) : ∀ (phs : List Segment) (sz : Nat) (x : Ctx),
    Goes R x Prod.snd (Xv6.loadSegments c phs sz x)
  | [], _, _ => hR.same rfl
  | ph :: phs, sz, x => by
    rw [Xv6.loadSegments]
    refine ite (hR.same rfl) (ite (loadSegments hs hr phs sz x) (ite (hR.same rfl) (ite (hR.same rfl) ?_)))
    refine hR.bind (hR.allocuvm hs hr .other sz _ x) fun s => ite (hR.same rfl) (ite (hR.same rfl) ?_)
    exact hR.bind (hR.loaduvm _ _ s.2) fun y => ite (hR.same rfl) (loadSegments hs hr phs _ y)

theorem execStack (hs : may .swap) (hr : may .record) (argv : List (List UInt8)) (sz : Nat) (x : Ctx) :
    Goes R x Prod.snd (Xv6.execStack c argv sz x) := by
  have hpush : ∀ args sp ptrs x, Goes R x Prod.snd (pushArgs c args sp ptrs x) := by
    intro args
    induction args with
    | nil => exact fun _ _ _ => hR.same rfl
    | cons arg args ih =>
      intro sp ptrs x
      rw [pushArgs]
      exact ite (hR.same rfl) (hR.bind (hR.copyout _ _ x) fun s => ite (ih _ _ s.2) (hR.same rfl))
  unfold Xv6.execStack
  refine hR.bind (hR.allocuvm hs hr .other _ _ x) fun s => ite (hR.same rfl) ?_
  refine hR.bind (hR.clearpteu _ s.2) fun y => hR.bind (hpush argv s.1 [] y) ?_
  rintro ⟨_ | ⟨sp, ptrs⟩, z⟩
  · exact hR.same rfl
  · exact hR.bind (hR.copyout _ _ z) fun u => hR.same rfl

end

end Follows

/-! ## The scheduler's hook -/

/-- A slot but for its age. -/
def Page.ageless (pg : Page) : Page := { pg with age := 0 }

theorem ageless_set (a : List Page) (i age : Nat) :
    (a.set i { a.getD i default with age := age }).map Page.ageless = a.map Page.ageless := by
  refine List.ext_getElem (by simp) fun j h1 h2 => ?_
  simp only [List.length_map] at h2
  simp only [List.getElem_map, List.getElem_set]
  split
  · next h =>
    subst h
    simp [Page.ageless, h2]
  · rfl

theorem agingLoop_cases : ∀ (n i : Nat) {p q : Proc}, agingLoop c n i p = .ok q →
    ∃ ps t, q = { p with pages := ps, pgdir := t } ∧ ps.map Page.ageless = p.pages.map Page.ageless
  | 0, _, p, _, h => by
    cases h
    exact ⟨p.pages, p.pgdir, rfl, rfl⟩
  | n + 1, i, p, q, h => by
    simp only [agingLoop] at h
    split at h
    · split at h
      · cases h
      · obtain ⟨ps, t, rfl, hps⟩ := agingLoop_cases n (i + 1) h
        exact ⟨ps, t, rfl, hps.trans (ageless_set _ _ _)⟩
    · exact agingLoop_cases n (i + 1) h

theorem advanceLoop_cases : ∀ (n : Nat) (i : Int) {p q : Proc}, advanceLoop c n i p = .ok q →
    ∃ a, q = { p with RAMQueue := a }
  | 0, _, p, _, h => by
    cases h
    exact ⟨p.RAMQueue, rfl⟩
  | n + 1, i, p, q, h => by
    rw [advanceLoop] at h
    split at h
    · obtain ⟨p', hp', h⟩ := bind_ok h
      obtain ⟨a, rfl⟩ := advanceLoop_cases n _ h
      unfold advanceBody at hp'
      obtain ⟨cur, -, hp'⟩ := bind_ok hp'
      split at hp'
      · cases hp'
        exact ⟨a, rfl⟩
      · obtain ⟨prev, -, hp'⟩ := bind_ok hp'
        obtain ⟨pgCur, -, hp'⟩ := bind_ok hp'
        obtain ⟨pgPre, -, hp'⟩ := bind_ok hp'
        split at hp'
        · split at hp'
          · cases hp'
            exact ⟨a, rfl⟩
          · cases hp'
            exact ⟨a, rfl⟩
        · cases hp'
    · cases h
      exact ⟨p.RAMQueue, rfl⟩

/-- The hook changes the ages, the order of the queue and `PTE_A`. -/
theorem tick_cases {p q : Proc} (h : tick c p = .ok q) :
    ∃ ps t a, q = { p with pages := ps, pgdir := t, RAMQueue := a } ∧
    ps.map Page.ageless = p.pages.map Page.ageless := by
  have haging : agingPages c p = .ok q → ∃ ps t a, q = { p with pages := ps, pgdir := t, RAMQueue := a } ∧
      ps.map Page.ageless = p.pages.map Page.ageless := by
    intro h
    obtain ⟨ps, t, rfl, hps⟩ := agingLoop_cases _ _ h
    exact ⟨ps, t, p.RAMQueue, rfl, hps⟩
  unfold tick at h
  split at h
  · exact haging h
  · exact haging h
  · obtain ⟨a, rfl⟩ := advanceLoop_cases _ _ h
    exact ⟨p.pages, p.pgdir, a, rfl, rfl⟩
  · cases h
    exact ⟨p.pages, p.pgdir, p.RAMQueue, rfl, rfl⟩
  · cases h
    exact ⟨p.pages, p.pgdir, p.RAMQueue, rfl, rfl⟩

/-! ## Properties of every process -/

/-- What `fork` makes of the child's bookkeeping and swap file. -/
def Copies (p np np' : Proc) : Prop :=
  (p.numberOfPagedOut = 0 ∧ np' = copyBook p np) ∨ ∃ src buffer, p.swapFile = some src ∧ np' = { copyBook p np with
    swapFile := some (copySwapLoop src p.numberOfPagedOut 0 buffer ⟨0, fun _ => 0⟩ []).2.1 }

theorem copySwapFile_cases {np np' : Proc} {x x' : Ctx} (h : copySwapFile c np x = .ok (np', x')) :
    Copies x.proc np np' ∧ x'.proc = x.proc ∧ x'.other = x.other := by
  unfold copySwapFile at h
  dsimp only at h
  split at h
  · cases h
  · next newPage k _ =>
    obtain ⟨⟨q, y⟩, hy, h⟩ := bind_ok h
    obtain ⟨k', _, h⟩ := lift_bind_ok h
    cases h
    unfold copySwapPages at hy
    split at hy
    · next hz =>
      cases hy
      exact ⟨.inl ⟨hz, rfl⟩, rfl, rfl⟩
    · split at hy
      · cases hy
      · next src hsrc =>
        cases hy
        exact ⟨.inr ⟨src, _, hsrc, rfl⟩, rfl, rfl⟩

/-- The moves of a process and the system calls keep `I`, which can speak of the next pid. -/
structure Kept (c : Cfg) (I : Nat → Proc → Prop) : Prop where
  mono : ∀ {n p}, I n p → I (n + 1) p
  follows : ∀ n, Follows c (fun _ => True) fun p q => I n p → I n q
  shrink : ∀ {n p} a, I n p → I n { p with numberOfAllocatedPages := a }
  size : ∀ {n p} sz t, I n p → I n { p with sz := sz, pgdir := t }
  init : ∀ {n p}, I n p → I n (initPagesData p)
  restore : ∀ {n b p}, I n b → I n p → I n (restoreFromBackup b p)
  create : ∀ {n p}, I n p → I n (createSwapFile p)
  alloc : ∀ {n q} kstack t sz i, I n q → I (n + 1) { allocproc c n kstack q with pgdir := t, sz := sz, parent := i }
  copies : ∀ {n p np np'}, I n p → I n np → Copies p np np' → I n np'
  state : ∀ {n p} st, I n p → I n { p with state := st }
  undone : ∀ {n q} kstack st, I n q → I (n + 1) { allocproc c n kstack q with kstack := none, state := st }
  noStack : ∀ {n q}, I n q → I (n + 1) { q with pid := n }
  exit : ∀ {n p} i st fl, I n p → (fl = none ∨ fl = p.swapFile) →
    I n { p with parent := i, state := st, swapFile := fl }
  reaped : ∀ {n q}, I n q → I n q.reaped
  tick : ∀ {n p q}, I n p → Xv6.tick c p = .ok q → I n q
  unused : ∀ n, I n .unused

/-- Every process has the property. -/
def Machine.All (I : Nat → Proc → Prop) (m : Machine) : Prop := ∀ p ∈ m.proc, I m.nextpid p

namespace Kept

variable {I : Nat → Proc → Prop} {m m' : Machine} {p : Proc} {i n : Nat}

theorem setProc (h : m.All I) {q : Proc} (hq : I m.nextpid q) (j : Nat) : (m.setProc j q).All I := by
  intro r hr
  rcases List.mem_or_eq_of_mem_set hr with hr | rfl
  · exact h r hr
  · exact hq

theorem put (h : m.All I) {x : Ctx} (hx : I m.nextpid x.proc) (j : Nat) : (m.put j x).All I :=
  setProc (m := { m with kmem := x.kmem, data := x.data }) h hx j

section

variable (hI : Kept c I)
include hI

theorem growproc {a : Int} {x x' : Ctx} {ok : Bool} (hx : I n x.proc)
    (h : Xv6.growproc c a x = .ok (ok, x')) : I n x'.proc := by
  unfold Xv6.growproc at h
  split at h
  · obtain ⟨⟨sz, y⟩, hy, h⟩ := bind_ok h
    have hyI : I n y.proc := (hI.follows n).allocuvm trivial trivial .own _ _ x _ hy hx
    dsimp only at h
    split at h <;> cases h
    · exact hyI
    · exact hI.size sz y.proc.pgdir hyI
  · split at h
    · obtain ⟨⟨sz, y⟩, hy, h⟩ := bind_ok h
      have hyI : I n y.proc := (hI.follows n).deallocuvm .own _ _ (fun _ => trivial) _ _ hy (hI.shrink _ hx)
      dsimp only at h
      split at h <;> cases h
      · exact hyI
      · exact hI.size sz y.proc.pgdir hyI
    · cases h
      exact hx

theorem execBad {b : Proc} {pgdir ip : Bool} {x x' : Ctx} (hb : I n b) (hx : I n x.proc)
    (h : Xv6.execBad c b pgdir ip x = .ok x') : I n x'.proc := by
  unfold Xv6.execBad at h
  obtain ⟨y, hy, h⟩ := bind_ok h
  have hx' : I n (if c.paging then x.setProc (restoreFromBackup b x.proc) else x).proc := by
    split
    · exact hI.restore hb hx
    · exact hx
  have hyI : I n y.proc := by
    split at hy
    · exact (hI.follows n).freevm _ _ hy hx'
    · cases hy
      exact hx'
  cases h
  split
  · exact hyI
  · exact hyI

theorem execCommit {sz : Nat} {x x' : Ctx} (hx : I n x.proc) (h : Xv6.execCommit c sz x = .ok x') : I n x'.proc := by
  unfold Xv6.execCommit at h
  refine (hI.follows n).freevm _ _ h ?_
  have hsz : I n { x.proc with pgdir := x.other, sz := sz } := hI.size sz x.other hx
  split
  · exact hI.create hsz
  · exact hsz

theorem exec {file : Option Image} {argv : List (List UInt8)} {x x' : Ctx} {ok : Bool} (hx : I n x.proc)
    (h : Xv6.exec c file argv x = .ok (ok, x')) : I n x'.proc := by
  simp only [Xv6.exec] at h
  cases file with
  | none =>
    cases h
    exact hx
  | some img =>
    dsimp only at h
    have hinit : I n (if c.paging then (x.emit [.beginOp]).setProc (initPagesData (x.emit [.beginOp]).proc)
        else x.emit [.beginOp]).proc := by
      split
      · exact hI.init hx
      · exact hx
    generalize (if c.paging then (x.emit [.beginOp]).setProc (initPagesData (x.emit [.beginOp]).proc)
      else x.emit [.beginOp]) = u at h hinit
    -- the error exits
    have hbad : ∀ {pgdir ip : Bool} {y : Ctx}, I n y.proc →
        (do let x ← Xv6.execBad c x.proc pgdir ip y; pure (false, x)) = .ok (ok, x') → I n x'.proc := by
      intro pgdir ip y hy h
      obtain ⟨z, hz, h⟩ := bind_ok h
      cases h
      exact hI.execBad hx hy hz
    split at h
    · unfold execImage at h
      obtain ⟨⟨ok1, y⟩, hy, h⟩ := bind_ok h
      have hyI : I n y.proc := (hI.follows n).setupkvm u _ hy hinit
      cases ok1 with
      | false => exact hbad hyI h
      | true =>
        obtain ⟨⟨r, z⟩, hz, h⟩ := bind_ok h
        have hzI : I n z.proc := (hI.follows n).loadSegments trivial trivial _ _ _ _ hz hyI
        cases r with
        | none => exact hbad hzI h
        | some sz =>
          obtain ⟨⟨r, v⟩, hv, h⟩ := bind_ok h
          have hvI : I n v.proc := (hI.follows n).execStack trivial trivial _ _ _ _ hv hzI
          cases r with
          | none => exact hbad hvI h
          | some top =>
            obtain ⟨w, hw, h⟩ := bind_ok h
            cases h
            exact hI.execCommit hvI hw
    · exact hbad hinit h

theorem fork {o : Option Nat} {es : List Event} (h : m.All I) (hp : I m.nextpid p)
    (hf : Xv6.fork c i p m = .ok (o, es, m')) :
    m'.All I := by
  have hnext : Machine.All I { m with nextpid := m.nextpid + 1 } := fun q hq => hI.mono (h q hq)
  simp only [Xv6.fork] at hf
  split at hf
  · cases hf
    exact h
  · next q hq =>
    have hqI : I m.nextpid q := h q (List.mem_of_getElem? hq)
    split at hf
    · cases hf
      exact setProc hnext (hI.noStack hqI) _
    · next kstack k _ =>
      obtain ⟨b, y, hy, ⟨_, np, z, hz, _, _, rfl⟩ | ⟨_, k', _, _, _, rfl⟩⟩ := forkInto_cases hf
      · have hyI : I (m.nextpid + 1) y.proc := (hI.follows _).copyuvm _ _ _ hy (hI.mono hp)
        have halloc := hI.alloc kstack y.other y.proc.sz (some i) hqI
        obtain ⟨hnp, hzp⟩ : I (m.nextpid + 1) np ∧ z.proc = y.proc := by
          split at hz
          · obtain ⟨hcop, hzp, -⟩ := copySwapFile_cases hz
            exact ⟨hI.copies hyI halloc hcop, hzp⟩
          · cases hz
            exact ⟨halloc, rfl⟩
        exact setProc (put hnext (hzp ▸ hyI) i) (hI.state .RUNNABLE hnp) _
      · have hyI : I (m.nextpid + 1) y.proc := (hI.follows _).copyuvm _ _ _ hy (hI.mono hp)
        exact setProc (put (x := y.setKmem k') hnext hyI i) (hI.undone kstack .UNUSED hqI) _

theorem exit' {es : List Event} (h : m.All I) (hp : I m.nextpid p)
    (hx : Xv6.exit c i p m = .ok (es, m')) : m'.All I := by
  unfold Xv6.exit at hx
  split at hx
  · cases hx
  · cases hx
    intro r hr
    rcases List.mem_or_eq_of_mem_set hr with hr | rfl
    · obtain ⟨q, hq, rfl⟩ := List.mem_map.1 hr
      change I m.nextpid (if q.parent = some i then { q with parent := some 0 } else q)
      split
      · exact hI.exit (some 0) q.state q.swapFile (h q hq) (.inr rfl)
      · exact h q hq
    · refine hI.exit (n := m.nextpid) _ .ZOMBIE _ hp ?_
      split
      · exact .inl rfl
      · exact .inr rfl

theorem wait {o : Option Nat} {es : List Event} (h : m.All I) (hp : I m.nextpid p)
    (hx : Xv6.wait c i p m = .ok (o, es, m')) :
    m'.All I := by
  rcases wait_cases hx with ⟨_, _, rfl⟩ | ⟨j, q, a, k, x, hq, _, _, _, _, hfree, _, _, rfl⟩
  · exact h
  · have hxI : I m.nextpid x.proc := (hI.follows _).freevm _ _ hfree hp
    exact setProc (put h hxI i) (hI.reaped (h q (List.mem_of_getElem? hq))) j

theorem trapRet {x : Ctx} {os : List Obs} {es : List Event} (h : m.All I) (hx : I m.nextpid x.proc)
    (ht : Xv6.trapRet c m i x = .ok (os, es, m')) : m'.All I := by
  simp only [Xv6.trapRet] at ht
  split at ht
  · split at ht
    · cases ht
    · next es' m1 he =>
      cases ht
      exact hI.exit' (put h hx i) hx he
  · cases ht
    exact put h hx i

theorem stepProc {op : Op} {os : List Obs} {es : List Event} (h : m.All I) (hp : I m.nextpid p)
    (hx : Xv6.stepProc c m p op = .ok (os, es, m')) : m'.All I := by
  have hF := hI.follows m.nextpid
  have htrap : ∀ {f : K Ctx} {i : Nat}, Goes (fun p q => I m.nextpid p → I m.nextpid q) (m.ctx p) id f →
      (do Xv6.trapRet c m i (← f)) = .ok (os, es, m') → m'.All I := by
    intro f i hf ht
    obtain ⟨y, hy, ht⟩ := bind_ok ht
    exact hI.trapRet h (x := y) (hf y hy hp) ht
  cases op with
  | load i va =>
    simp only [Xv6.stepProc] at hx
    split at hx
    · cases hx
      exact h
    · exact htrap (hF.trapPgflt trivial trivial va false _) hx
  | store i va b =>
    simp only [Xv6.stepProc] at hx
    split at hx
    · cases hx
      exact h
    · exact htrap (hF.trapPgflt trivial trivial va true _) hx
  | access i v =>
    simp only [Xv6.stepProc] at hx
    split at hx
    · cases hx
      exact setProc h (hF.table p _ hp) i
    · cases hx
      exact h
  | resume i =>
    simp only [Xv6.stepProc] at hx
    split at hx
    · cases hx
      exact h
    · exact htrap (hF.finishPageFault _ _) hx
  | sbrk i a =>
    obtain ⟨⟨ok, y⟩, hy, hx⟩ := bind_ok hx
    cases hx
    exact put h (hI.growproc hp hy) i
  | fork i =>
    obtain ⟨⟨o, es', m1⟩, hy, hx⟩ := bind_ok hx
    cases hx
    exact hI.fork h hp hy
  | exit i =>
    obtain ⟨⟨es', m1⟩, hy, hx⟩ := bind_ok hx
    cases hx
    exact hI.exit' h hp hy
  | wait i =>
    obtain ⟨⟨o, es', m1⟩, hy, hx⟩ := bind_ok hx
    cases hx
    exact hI.wait h hp hy
  | exec i file argv =>
    obtain ⟨⟨ok, y⟩, hy, hx⟩ := bind_ok hx
    cases hx
    exact put h (hI.exec hp hy) i
  | tick i =>
    obtain ⟨q, hq, hx⟩ := lift_bind_ok hx
    cases hx
    exact setProc h (hI.tick hp hq) i

theorem boot {k : Kmem} {data : Nat → PageData} {init : List UInt8}
    (hb : Xv6.boot c k data init = .ok m) : m.All I := by
  obtain ⟨kstack, k', x, y, z, _, hx, _, hy, hz, rfl⟩ := boot_cases hb
  have halloc : I 2 (allocproc c 1 kstack .unused) := by
    have := hI.alloc (n := 1) kstack Proc.unused.pgdir Proc.unused.sz Proc.unused.parent (hI.unused 1)
    exact this
  have hzI : I 2 z.proc := by
    refine (hI.follows 2).loaduvm _ _ _ _ hz ?_
    exact (hI.follows 2).allocPage .other 0 x _ hy ((hI.follows 2).setupkvm _ _ hx halloc)
  intro q hq
  rcases List.mem_cons.1 hq with rfl | hq
  · exact hI.state .RUNNABLE (hI.size PGSIZE z.other hzI)
  · obtain ⟨_, rfl⟩ := List.mem_replicate.1 hq
    exact hI.unused 2

theorem step {l : Label} (h : m.All I) (ht : Trans c m l m') : m'.All I := by
  obtain ⟨op, os, es⟩ := l
  simp only [Trans, Xv6.step] at ht
  split at ht
  · cases ht
    exact h
  · next p hp =>
    split at ht
    · exact hI.stepProc h (h p (List.mem_of_getElem? hp)) ht
    · cases ht
      exact h

/-- **The property holds of every process in every state reached from `userinit` on.** -/
theorem run {k : Kmem} {data : Nat → PageData} {init : List UInt8} {m0 : Machine} (hb : Xv6.boot c k data init = .ok m0)
    {ls : List Label} (hrun : Lts.Run (Trans c) m0 ls m) : m.All I :=
  hrun.inv (I := Machine.All I) (fun _ _ _ hs ht => hI.step hs ht) (hI.boot hb)

end

end Kept

end Xv6
