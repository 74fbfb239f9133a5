import CCppProjects.Xv6.Vm
/-
# Page faults (vm.c:519-619, trap.c:82-98)

`handle_page_fault` is cut in two after `get_ref_count`, where the handlers of two processes
that share a page can interleave: `handlePageFault` leaves what it has in its locals in
`Proc.fault`, `finishPageFault` is the rest. `get_page` and the first half are one step.
-/
namespace Xv6

/-- vm.c:615: `*pte & PTE_PG`, whether or not there is a `pte`. -/
def isPgOn (c : Cfg) (va : Nat) (p : Proc) : Except Halt Bool :=
  match walkpgdir c p.pgdir (va / PGSIZE) with
  | none => .error .nullPte
  | some e => .ok e.PG

/-- The pages `get_page` counts against `MAX_PSYC_PAGES`. -/
def Proc.inRAM (p : Proc) : Nat := (p.pages.filter fun pg => pg.isAllocated && pg.isInRAM).length

/-- The second part of `get_page` (vm.c:591-610), `mem` the new page: `mappages` cannot fail here,
`pte` is there and its `PTE_P` has just been cleared. -/
def loadPage (c : Cfg) (v mem : Nat) (x : Ctx) : K Ctx :=
  let i := x.proc.pages.findIdx fun pg => pg.vAddress == v * PGSIZE
  match x.proc.pages[i]?, x.proc.swapFile, walkpgdir c x.proc.pgdir v with
  | none, _, _ => x.halt (.panic "can't find page")
  | some _, none, _ => x.halt (.wild "swapFile")
  | some _, some _, none => x.halt .nullPte
  | some pg, some fl, some e => do
    let buffer := readFromSwapFile fl pg.fileOffset zeroPage
    let x := x.emit [.swapIn e buffer (x.data e.addr)]
    let x := x.setData (Function.update x.data (V2P mem / PGSIZE) buffer)
    let x := x.setTbl .own (x.proc.pgdir.setPte v { permWU with addr := V2P mem / PGSIZE, P := true })
    let pages := x.proc.pages.set i { pg with isInRAM := true, fileOffset := none }
    let p ← x.lift (insertOffsetQueue pg.fileOffset { x.proc with pages := pages })
    let p ← x.lift (insert i p)
    pure (x.setProc { p with numberOfPagedOut := (p.numberOfPagedOut + UINT - 1) % UINT })

/-- vm.c:574; `false` is `-1`. -/
def getPage (c : Cfg) (va : Nat) (x : Ctx) : K (Bool × Ctx) := do
  let x ← (if x.proc.inRAM = MAX_PSYC_PAGES then swapToFile c .own x else pure x)
  match kalloc x.kmem with
  | (none, _) => pure (false, x)
  | (some mem, k) => do
    let x ← loadPage c (va / PGSIZE) mem (x.setKmem k)
    pure (true, x)

def Ctx.kill (x : Ctx) : Ctx := x.setProc { x.proc with killed := true }

/-- The first half of vm.c:519; the `cprintf` for an illegal address prints `*pte & PTE_P` even
when `pte == 0`. -/
def handlePageFault (c : Cfg) (va : Nat) (x : Ctx) : K Ctx :=
  let x := x.setProc { x.proc with numberOfPageFaults := x.proc.numberOfPageFaults + 1 }
  if KERNBASE ≤ va then pure x.kill else
  match walkpgdir c x.proc.pgdir (va / PGSIZE) with
  | none => x.halt .nullPte
  | some e =>
    if !e.P || !e.U then pure x.kill
    else if e.W then x.halt (.panic "The page is already writeable\n") else do
    let amount ← x.lift (getRefCount c (e.addr * PGSIZE) x.kmem)
    pure (x.setProc { x.proc with fault := some ⟨va, e.addr * PGSIZE, amount⟩ })

/-- The branch for a page with other references (vm.c:546-559), `mem` the new page. -/
def copyPage (c : Cfg) (flt : Fault) (mem : Nat) (x : Ctx) : K Ctx := do
  let x := x.emit [.cowCopy]
  let x := x.setData (Function.update x.data (V2P mem / PGSIZE) (x.data (flt.pa / PGSIZE)))
  let x := x.setTbl .own
    (x.proc.pgdir.setPte (flt.va / PGSIZE) { permWU with addr := V2P mem / PGSIZE, P := true })
  let k ← x.lift (decRefCount c flt.pa x.kmem)
  -- `mem` is a kernel address already, `P2V` of it wraps to the physical one
  let k ← x.lift (incRefCount c (P2V mem) k)
  pure (x.setKmem k)

/-- The second half of vm.c:519, from `amount_of_refs_to_page` on. -/
def finishPageFault (c : Cfg) (flt : Fault) (x : Ctx) : K Ctx :=
  let x := x.setProc { x.proc with fault := none }
  match walkpgdir c x.proc.pgdir (flt.va / PGSIZE) with
  | none => x.halt .nullPte
  | some e =>
    if 1 < flt.amount then
      match kalloc x.kmem with
      | (none, _) => pure x.kill
      | (some mem, k) => copyPage c flt mem (x.setKmem k)
    else if flt.amount = 1 ∧ e.C then
      pure (x.setTbl .own (x.proc.pgdir.setPte (flt.va / PGSIZE) { e with W := true }))
    else x.halt (.panic "wrong ref count")

/-- `case T_PGFLT` of `trap` (trap.c:82), `w` the write bit of `tf->err`. -/
def trapPgflt (c : Cfg) (va : Nat) (w : Bool) (x : Ctx) : K Ctx := do
  let pg ← x.lift (if c.paging then isPgOn c va x.proc else .ok false)
  if pg then do
    let (_, x) ← getPage c va x
    pure x
  else if w then handlePageFault c va x
  else pure x

/-- What the processor allows a program: its entry is present and its own, and writeable for a
store. -/
def permits (t : Pgdir) (va : Nat) (w : Bool) : Bool :=
  va < KERNBASE && (t.pde (va / PGSIZE / NPTENTRIES)).isSome && (t.pte (va / PGSIZE)).P &&
    (t.pte (va / PGSIZE)).U && (!w || (t.pte (va / PGSIZE)).W)

end Xv6
