import CCppProjects.Xv6.Kalloc
import CCppProjects.Xv6.Queue
/-
# Page tables, swapping and user memory (vm.c, fs.c:796-818, proc.c:813)

| here | there |
| --- | --- |
| `walkpgdirAlloc`, `mappages`, `setupkvm`  | vm.c:36, :61, :118 (`mappages` is only called for one page at a time outside `setupkvm`) |
| `filewrite`, `fileread`                   | file.c:118, :96 on an inode file, `writei` / `readi` as fs.c:453-512 for a regular file |
| `deallocatePage`                          | proc.c:813 |
| `swapToFile`, `allocuvm`, `deallocuvm`, `freevm`, `copyuvm` | vm.c:470, :222, :287, :331, :363 |
| `loaduvm`, `clearpteu`, `uva2ka`, `copyout` | vm.c:198, :350, :410, :426, byte by byte |

Loops over pages carry the number of pages still to do, so they end by structure; the loop
condition of the source is tested each time.
-/
namespace Xv6

/-! ## Page tables -/

/-- `walkpgdir(pgdir, va, 1)` (vm.c:36): a missing page table page comes from `kalloc`, zeroed. -/
def walkpgdirAlloc (k : Kmem) (t : Pgdir) (v : Nat) : Option (Kmem × Pgdir) :=
  match t.pde (v / NPTENTRIES) with
  | some _ => some (k, t)
  | none => match kalloc k with
    | (none, _) => none
    | (some mem, k) =>
      some (k, { t with
        pde := Function.update t.pde (v / NPTENTRIES) (some (V2P mem / PGSIZE))
        pte := fun u => if u / NPTENTRIES = v / NPTENTRIES then {} else t.pte u })

/-- vm.c:61 for one user page; `none` is `-1`. -/
def mappages (k : Kmem) (t : Pgdir) (v f : Nat) (perm : Pte) : Except Halt (Option (Kmem × Pgdir)) :=
  match walkpgdirAlloc k t v with
  | none => .ok none
  | some (k, t) =>
    if (t.pte v).P then .error (.panic "remap")
    else .ok (some (k, t.setPte v { perm with addr := f, P := true }))

/-- `PTE_W|PTE_U` -/
def permWU : Pte := { W := true, U := true }

/-- The directory entries `setupkvm` fills: `KERNBASE..PHYSTOP` and `DEVSPACE..` of `kmap`. -/
def kmapPdx : List Nat := (List.range 56).map (512 + ·) ++ (List.range 8).map (1016 + ·)

/-- The loop of `setupkvm` over the kernel's mappings: one page table page for each entry; `false`
when `mappages` fails. -/
def setupkvmLoop : List Nat → Kmem → Pgdir → Bool × Kmem × Pgdir
  | [], k, t => (true, k, t)
  | d :: ds, k, t => match kalloc k with
    | (none, _) => (false, k, t)
    | (some mem, k) => setupkvmLoop ds k { t with pde := Function.update t.pde d (some (V2P mem / PGSIZE)) }

/-! ## Files and the swap file -/

/-- `writei` on a regular file. -/
def writei (fl : SwapFile) (off n : Nat) (src : Nat → UInt8) : Option SwapFile :=
  if off > fl.size ∨ off + n > MAXFILEBYTES then none
  else some
    { size := max fl.size (off + n)
      byte := fun a => if off ≤ a ∧ a < off + n then src (a - off) else fl.byte a }

/-- The bytes of one transaction in `filewrite` (file.c:133). -/
def FILEMAX : Nat := ((10 - 1 - 1 - 2) / 2) * 512

/-- The loop of `filewrite` (file.c:135) from byte `i` of `n`: one transaction for each chunk; a
failing `writei` ends it. -/
def filewriteLoop (src : Nat → UInt8) (base n : Nat) : Nat → Nat → SwapFile → SwapFile × List Event
  | 0, _, fl => (fl, [])
  | fuel + 1, i, fl =>
    if i < n then
      let n1 := min (n - i) FILEMAX
      match writei fl (base + i) n1 (fun a => src (i + a)) with
      | none => (fl, [.beginOp, .endOp])
      | some fl =>
        let (fl, es) := filewriteLoop src base n fuel (i + n1) fl
        (fl, .beginOp :: .endOp :: es)
    else (fl, [])

/-- fs.c:796: `PGSIZE` bytes of a page at `placeOnFile`. -/
def writeToSwapFile (buffer : PageData) (place : Nat) (fl : SwapFile) : SwapFile × List Event :=
  filewriteLoop (fun a => if h : a < PGSIZE then buffer ⟨a, h⟩ else 0) place PGSIZE PGSIZE 0 fl

/-- fs.c:806: `readi` copies what the file has; past the end the buffer keeps its bytes. -/
def readFromSwapFile (fl : SwapFile) (place : Option Nat) (buffer : PageData) : PageData :=
  match place with
  | none => buffer
  | some off => fun a => if off + a.val < fl.size then fl.byte (off + a.val) else buffer a

/-! ## `deallocatePage` -/

/-- proc.c:813. -/
def deallocatePage (c : Cfg) (va : Nat) (p : Proc) : Except Halt Proc :=
  let i := p.pages.findIdx fun pg => pg.isAllocated && pg.vAddress == va
  match p.pages[i]? with
  | none => .error (.panic "deallocatePage")
  | some pg => do
    let p ← (if pg.isInRAM then .ok p else insertOffsetQueue pg.fileOffset p)
    let pg : Page := { vAddress := 0, fileOffset := none, isInRAM := false, isAllocated := false, age := c.freshAge }
    let p := { p with pages := p.pages.set i pg }
    let j := p.RAMQueue.findIdx (· == some i)
    .ok { p with RAMQueue := if j < MAX_PSYC_PAGES then updateQueue j p.RAMQueue else p.RAMQueue }

/-! ## `swapToFile` -/

/-- `selectPage` (vm.c:449): the victim's `v_address`. -/
def selectPage (c : Cfg) (p : Proc) : Except Halt (Nat × Proc) := do
  let (index, p) ← removeVictim c p
  let pg ← p.page index
  .ok (pg.vAddress, p)

/-- `writeToSwapFile` of the page at user address `addr` (vm.c:476). The kernel reads it through
`curproc->pgdir`, inside the first transaction, and only when `writei` has accepted the offset. -/
def writeUserPage (c : Cfg) (addr offset : Nat) (x : Ctx) : K Ctx :=
  match x.proc.swapFile with
  | none => x.halt (.wild "swapFile")
  | some fl =>
    let put (page : PageData) : Ctx :=
      let (fl, es) := writeToSwapFile page offset fl
      (x.setProc { x.proc with swapFile := some fl }).emit es
    if fl.size < offset ∨ MAXFILEBYTES < offset + FILEMAX then pure (put zeroPage) else
    match walkpgdir c x.proc.pgdir (addr / PGSIZE) with
    | none => (x.emit [.beginOp]).halt .nullPte
    | some src => if src.P then pure (put (x.data src.addr)) else (x.emit [.beginOp]).halt .hang

/-- The page's slot now says where on file it is (vm.c:477-484). -/
def recordSwapOut (addr offset : Nat) (p : Proc) : Except Halt Proc :=
  let i := p.pages.findIdx fun pg => pg.vAddress == addr
  match p.pages[i]? with
  | none => .error (.wild "pages")
  | some pg =>
    let pg := { pg with fileOffset := some offset, isInRAM := false }
    .ok { p with
      pages := p.pages.set i pg
      totalNumberOfPagedOut := p.totalNumberOfPagedOut + 1
      numberOfPagedOut := (p.numberOfPagedOut + 1) % UINT }

/-- The end of `swapToFile` (vm.c:486-491): the entry in `pgdir` gets `PTE_PG`, keeps `PTE_P`, and
its frame one reference less. -/
def releasePage (c : Cfg) (w : Tbl) (addr : Nat) (x : Ctx) : K Ctx :=
  match walkpgdir c (x.tbl w) (addr / PGSIZE) with
  | none => x.halt .nullPte
  | some e => do
    let x := x.emit [.swapOut (x.kmem.pageRefsNum e.addr) e]
    let x := x.setTbl w ((x.tbl w).setPte (addr / PGSIZE) { e with PG := true })
    let k ← x.lift (kfree c (P2V (e.addr * PGSIZE)) x.kmem)
    pure (x.setKmem k)

/-- vm.c:470 on table `w`. -/
def swapToFile (c : Cfg) (w : Tbl) (x : Ctx) : K Ctx := do
  let x := x.emit [.swapCall x.proc]
  let (addr, p) ← x.lift (selectPage c x.proc)
  let (offset, p) := getFreeFileOffset p
  let x ← writeUserPage c addr offset (x.setProc p)
  let p ← x.lift (recordSwapOut addr offset x.proc)
  releasePage c w addr (x.setProc p)

/-! ## `deallocuvm` -/

/-- `#if` a policy is built in, `myproc()->pid > DEF_PROCS` -/
def Ctx.tracked (c : Cfg) (x : Ctx) : Bool := c.paging && decide (DEF_PROCS < x.proc.pid)

/-- The body of the loop of `deallocuvm` for an entry that is there (vm.c:300-321). -/
def freePage (c : Cfg) (w : Tbl) (flag : Bool) (v : Nat) (x : Ctx) : K Ctx :=
  let e := (x.tbl w).pte v
  if e.P then
    if e.addr = 0 then x.halt (.panic "kfree") else do
    let p ← x.lift (if x.tracked c && flag then deallocatePage c (v * PGSIZE) x.proc else .ok x.proc)
    let k ← x.lift (kfree c (P2V (e.addr * PGSIZE)) x.kmem)
    let x := (x.setProc p).setKmem k
    pure (x.setTbl w ((x.tbl w).setPte v {}))
  else if x.tracked c && e.PG then
    if e.addr = 0 then x.halt (.panic "kfree") else do
    let p ← x.lift (if flag then deallocatePage c (v * PGSIZE) x.proc else .ok x.proc)
    let x := x.setProc p
    pure (x.setTbl w ((x.tbl w).setPte v {}))
  else pure x

/-- The loop of `deallocuvm` (vm.c:296) from page `v`, at most `n` pages. -/
def deallocuvmLoop (c : Cfg) (w : Tbl) (oldsz : Nat) (flag : Bool) : Nat → Nat → Ctx → K Ctx
  | 0, _, x => pure x
  | n + 1, v, x =>
    if oldsz ≤ v * PGSIZE then pure x else
    match (x.tbl w).pde (v / NPTENTRIES) with
    | none => deallocuvmLoop c w oldsz flag n ((v / NPTENTRIES + 1) * NPTENTRIES) x
    | some _ => do
      let x ← freePage c w flag v x
      deallocuvmLoop c w oldsz flag n (v + 1) x

/-- vm.c:287; the result is the new size. -/
def deallocuvm (c : Cfg) (w : Tbl) (oldsz newsz : Nat) (flag : Bool) (x : Ctx) : K (Nat × Ctx) :=
  if oldsz ≤ newsz then pure (oldsz, x) else do
    let x ← deallocuvmLoop c w oldsz flag (pgUp oldsz - pgUp newsz) (pgUp newsz) x
    pure (newsz, x)

/-- The loop of `freevm` (vm.c:338) over the directory entries. -/
def freePdes (c : Cfg) : List Nat → Pgdir → Kmem → Except Halt Kmem
  | [], _, k => .ok k
  | d :: ds, t, k => match t.pde d with
    | none => freePdes c ds t k
    | some f => do
      let k ← kfree c (P2V (f * PGSIZE)) k
      freePdes c ds t k

/-- vm.c:331 on the table at hand. -/
def freevm (c : Cfg) (x : Ctx) : K Ctx :=
  match x.other.page with
  | none => x.halt (.panic "freevm: no pgdir")
  | some pg => do
    let (_, x) ← deallocuvm c .other KERNBASE 0 false x
    let k ← x.lift (freePdes c (List.range NPDENTRIES) x.other x.kmem)
    let k ← x.lift (kfree c (P2V (pg * PGSIZE)) k)
    pure ((x.setKmem k).setTbl .other .empty)

/-- vm.c:118: a fresh table in `other`; `false` is the null pointer. -/
def setupkvm (c : Cfg) (x : Ctx) : K (Bool × Ctx) :=
  match kalloc x.kmem with
  | (none, _) => pure (false, x)
  | (some mem, k) =>
    match setupkvmLoop kmapPdx k { Pgdir.empty with page := some (V2P mem / PGSIZE) } with
    | (true, k, t) => pure (true, (x.setKmem k).setTbl .other t)
    | (false, k, t) => do
      let x ← freevm c ((x.setKmem k).setTbl .other t)
      pure (false, x)

/-! ## `allocuvm` -/

/-- A slot of `pages[]` for a new page (vm.c:262-267). -/
def Page.alloc (pg : Page) (v : Nat) : Page :=
  { pg with isAllocated := true, vAddress := v * PGSIZE, isInRAM := true, fileOffset := none }

/-- The bookkeeping of one new page (vm.c:258-276): the first free slot of `pages[]`, which without
one is the element past the end. -/
def recordPage (c : Cfg) (w : Tbl) (v : Nat) (x : Ctx) : K Ctx :=
  let p := x.proc
  let i := p.pages.findIdx fun pg => !pg.isAllocated
  match p.pages[i]? with
  | none => x.halt (.wild "pages[MAX_TOTAL_PAGES]")
  | some pg => do
    let p ← x.lift (insert i { p with pages := p.pages.set i (pg.alloc v) })
    let x := x.setProc { p with numberOfAllocatedPages := p.numberOfAllocatedPages + 1 }
    match walkpgdir c (x.tbl w) v with
    | none => x.halt .nullPte
    | some e => pure (x.setTbl w ((x.tbl w).setPte v { e with P := true, PG := false }))

/-- How far `kalloc` and `mappages` got with a new page. -/
inductive Mapped
  | noFrame
  | noTable (mem : Nat)
  | done
  deriving DecidableEq, Repr

/-- `kalloc`, `memset` and `mappages` of one page (vm.c:241-249). -/
def allocPage (w : Tbl) (v : Nat) (x : Ctx) : K (Mapped × Ctx) :=
  match kalloc x.kmem with
  | (none, _) => pure (.noFrame, x)
  | (some mem, k) => do
    let x := (x.setKmem k).setData (Function.update x.data (V2P mem / PGSIZE) zeroPage)
    match ← x.lift (mappages x.kmem (x.tbl w) v (V2P mem / PGSIZE) permWU) with
    | none => pure (.noTable mem, x)
    | some (k, t) => pure (.done, (x.setKmem k).setTbl w t)

/-- The loop of `allocuvm` (vm.c:233) from page `v`, at most `n` pages; `false` is the error exit. -/
def allocuvmLoop (c : Cfg) (w : Tbl) (oldsz newsz : Nat) : Nat → Nat → Ctx → K (Bool × Ctx)
  | 0, _, x => pure (true, x)
  | n + 1, v, x =>
    if newsz ≤ v * PGSIZE then pure (true, x) else do
    let x ← (if x.tracked c && decide (MAX_PSYC_PAGES ≤ v) then swapToFile c w x else pure x)
    match ← allocPage w v x with
    | (.noFrame, x) => do
      let (_, x) ← deallocuvm c w newsz oldsz false (x.emit [.growFailed w (v - pgUp oldsz)])
      pure (false, x)
    | (.noTable mem, x) => do
      let (_, x) ← deallocuvm c w newsz oldsz false (x.emit [.growFailed w (v - pgUp oldsz)])
      let k ← x.lift (kfree c mem x.kmem)
      pure (false, x.setKmem k)
    | (.done, x) => do
      let x ← (if x.tracked c then recordPage c w v x else pure x)
      allocuvmLoop c w oldsz newsz n (v + 1) x

/-- vm.c:222; the result is the new size, 0 on error. -/
def allocuvm (c : Cfg) (w : Tbl) (oldsz newsz : Nat) (x : Ctx) : K (Nat × Ctx) :=
  if KERNBASE ≤ newsz then pure (0, x)
  else if newsz < oldsz then pure (oldsz, x)
  else do
    let (ok, x) ← allocuvmLoop c w oldsz newsz (pgUp newsz - pgUp oldsz) (pgUp oldsz) x
    pure (if ok then newsz else 0, x)

/-! ## `copyuvm` -/

/-- A parent's entry once its page is shared (vm.c:382-386). -/
def Pte.shared (e : Pte) : Pte := if e.W then { e with C := true, W := false } else e

/-- The body of the loop of `copyuvm` for a present page with entry `e` (vm.c:380-400). -/
def sharePage (c : Cfg) (v : Nat) (e : Pte) (x : Ctx) : K (Bool × Ctx) := do
  let x := x.setTbl .own (x.proc.pgdir.setPte v e.shared)
  match ← x.lift (mappages x.kmem x.other v e.addr e.shared) with
  | none => pure (false, x)
  | some (k, d) => do
    let x := ((x.setKmem k).setTbl .other d).emit [.share (k.pageRefsNum e.addr)]
    let k ← x.lift (incRefCount c (e.addr * PGSIZE) k)
    pure (true, x.setKmem k)

/-- The loop of `copyuvm` (vm.c:372) from page `v`, at most `n` pages; `false` is `goto bad`. -/
def copyuvmLoop (c : Cfg) (sz : Nat) : Nat → Nat → Ctx → K (Bool × Ctx)
  | 0, _, x => pure (true, x)
  | n + 1, v, x =>
    if sz ≤ v * PGSIZE then pure (true, x) else
    match walkpgdir c x.proc.pgdir v with
    | none => x.halt (.panic "copyuvm: pte should exist")
    | some e =>
      if e.P then do
        let (ok, x) ← sharePage c v e x
        if ok then copyuvmLoop c sz n (v + 1) x else pure (false, x)
      else if e.PG then copyuvmLoop c sz n (v + 1) x
      else x.halt (.panic "copyuvm: page not present")

/-- vm.c:363: the child's table in `other`; `false` is the null pointer. -/
def copyuvm (c : Cfg) (sz : Nat) (x : Ctx) : K (Bool × Ctx) := do
  let (ok, x) ← setupkvm c x
  if !ok then pure (false, x) else do
  let (ok, x) ← copyuvmLoop c sz (pgUp sz) 0 x
  if ok then pure (true, x) else do
    let x ← freevm c x
    pure (false, x)

/-! ## Writing a new image -/

/-- `pa + off` gets byte `b`. -/
def setByte (data : Nat → PageData) (f va : Nat) (b : UInt8) : Nat → PageData :=
  Function.update data f (Function.update (data f) ⟨va % PGSIZE, pgoff_lt va⟩ b)

/-- vm.c:198, the bytes `readi` delivers one after another; what `readi` cannot deliver makes the
caller give up. -/
def loaduvm (c : Cfg) : Nat → List UInt8 → Ctx → K Ctx
  | _, [], x => pure x
  | va, b :: bs, x => match walkpgdir c x.other (va / PGSIZE) with
    | none => x.halt (.panic "loaduvm: address should exist")
    | some e => loaduvm c (va + 1) bs (x.setData (setByte x.data e.addr va b))

/-- vm.c:350. -/
def clearpteu (c : Cfg) (va : Nat) (x : Ctx) : K Ctx :=
  match walkpgdir c x.other (va / PGSIZE) with
  | none => x.halt (.panic "clearpteu")
  | some e => pure (x.setTbl .other (x.other.setPte (va / PGSIZE) { e with U := false }))

/-- vm.c:410. -/
def uva2ka (c : Cfg) (t : Pgdir) (v : Nat) : Except Halt (Option Nat) :=
  match walkpgdir c t v with
  | none => .error .nullPte
  | some e => .ok (if e.P && e.U then some e.addr else none)

/-- vm.c:426; `false` is `-1`. -/
def copyout (c : Cfg) : Nat → List UInt8 → Ctx → K (Bool × Ctx)
  | _, [], x => pure (true, x)
  | va, b :: bs, x => do
    match ← x.lift (uva2ka c x.other (va / PGSIZE)) with
    | none => pure (false, x)
    | some f => copyout c ((va + 1) % UINT) bs (x.setData (setByte x.data f va b))

end Xv6
