import CCppProjects.Xv6.Trap
/-
# The system calls (proc.c, exec.c) and the machine's steps

| here | there |
| --- | --- |
| `initPagesData`, `restoreFromBackup`, `exec` | exec.c:11, :51, :76 |
| `growproc`, `fork`, `exit`, `wait`           | proc.c:184, :207, :278, :340 |
| `boot`                                       | `userinit` (proc.c:141) |
| `step`                                       | one instruction, fault, system call or scheduler round of one process |

`exec` takes the program file as `readi` delivers it and the strings of `argv`. The states
`RUNNABLE`, `RUNNING` and `SLEEPING` are not told apart: a process that can go on is `RUNNABLE`.
-/
namespace Xv6

/-! ## `sbrk` -/

/-- proc.c:184; `false` is `-1`. When `deallocuvm` returns 0 the size stays what it was. -/
def growproc (c : Cfg) (n : Int) (x : Ctx) : K (Bool × Ctx) :=
  if 0 < n then do
    let (sz, x) ← allocuvm c .own x.proc.sz (addInt x.proc.sz n) x
    pure (if sz = 0 then (false, x) else (true, x.setProc { x.proc with sz := sz }))
  else if n < 0 then do
    let x := x.setProc { x.proc with
      numberOfAllocatedPages := x.proc.numberOfAllocatedPages + (n + PGSIZE - 1) / PGSIZE }
    let (sz, x) ← deallocuvm c .own x.proc.sz (addInt x.proc.sz n) true x
    pure (if sz = 0 then (false, x) else (true, x.setProc { x.proc with sz := sz }))
  else pure (true, x)

/-! ## `exec` -/

/-- A program header: `readOk` when `readi` delivers it whole, `load` for `ELF_PROG_LOAD`, `bytes`
what the file has at `ph.off`. -/
structure Segment where
  readOk : Bool
  load : Bool
  vaddr : UInt32
  memsz : UInt32
  filesz : UInt32
  bytes : List UInt8

/-- `elfOk` when the header was read whole and has the magic number. -/
structure Image where
  elfOk : Bool
  segs : List Segment

/-- exec.c:11, the clearing: the ages stay. -/
def initPagesData (p : Proc) : Proc :=
  { p with
    pages := p.pages.map fun pg => { age := pg.age }
    RAMQueue := List.replicate MAX_PSYC_PAGES none
    offsetQueue := List.replicate MAX_PSYC_PAGES none
    fileOffset := 0
    numberOfPagedOut := 0
    numberOfPageFaults := 0
    totalNumberOfPagedOut := 0
    numberOfAllocatedPages := 0 }

/-- exec.c:51; `b` is the process as it was, the ages are not restored. -/
def restoreFromBackup (b p : Proc) : Proc :=
  { p with
    pages := List.zipWith (fun pg now => { pg with age := now.age }) b.pages p.pages
    RAMQueue := b.RAMQueue
    offsetQueue := b.offsetQueue
    fileOffset := b.fileOffset
    numberOfPagedOut := b.numberOfPagedOut
    numberOfPageFaults := b.numberOfPageFaults
    totalNumberOfPagedOut := b.totalNumberOfPagedOut
    numberOfAllocatedPages := b.numberOfAllocatedPages }

/-- The loop over the program headers (exec.c:117); `none` is `goto bad`. -/
def loadSegments (c : Cfg) : List Segment → Nat → Ctx → K (Option Nat × Ctx)
  | [], sz, x => pure (some sz, x)
  | ph :: phs, sz, x =>
    if !ph.readOk then pure (none, x)
    else if !ph.load then loadSegments c phs sz x
    else if ph.memsz < ph.filesz then pure (none, x)
    else if ph.vaddr + ph.memsz < ph.vaddr then pure (none, x)
    else do
      let (sz, x) ← allocuvm c .other sz (ph.vaddr + ph.memsz).toNat x
      if sz = 0 then pure (none, x)
      else if ph.vaddr.toNat % PGSIZE ≠ 0 then pure (none, x)
      else do
        let x ← loaduvm c ph.vaddr.toNat (ph.bytes.take ph.filesz.toNat) x
        if ph.bytes.length < ph.filesz.toNat then pure (none, x) else loadSegments c phs sz x

/-- A word as it lies in memory. -/
def wordBytes (w : Nat) : List UInt8 := (List.range 4).map fun j => UInt8.ofNat (w / 256 ^ j)

/-- `sp - n` in `uint` arithmetic. -/
def subUInt (sp n : Nat) : Nat := (sp % UINT + UINT - n % UINT) % UINT

/-- The loop over `argv` (exec.c:152); the strings' addresses so far are in `ptrs`. -/
def pushArgs (c : Cfg) : List (List UInt8) → Nat → List Nat → Ctx → K (Option (Nat × List Nat) × Ctx)
  | [], sp, ptrs, x => pure (some (sp, ptrs), x)
  | arg :: args, sp, ptrs, x =>
    if MAXARG ≤ ptrs.length then pure (none, x) else do
    let sp := subUInt sp (arg.length + 1) / 4 * 4
    let (ok, x) ← copyout c sp (arg ++ [0]) x
    if ok then pushArgs c args sp (ptrs ++ [sp]) x else pure (none, x)

/-- `ustack` -/
def ustack (sp : Nat) (ptrs : List Nat) : List Nat :=
  0xffffffff :: ptrs.length :: subUInt sp ((ptrs.length + 1) * 4) :: ptrs ++ [0]

/-- The stack of the new image (exec.c:142-172); `none` is `goto bad`. -/
def execStack (c : Cfg) (argv : List (List UInt8)) (sz : Nat) (x : Ctx) : K (Option Nat × Ctx) := do
  let sz := pgUp sz * PGSIZE
  let (sz, x) ← allocuvm c .other sz (sz + 2 * PGSIZE) x
  if sz = 0 then pure (none, x) else do
  let x ← clearpteu c (sz - 2 * PGSIZE) x
  match ← pushArgs c argv sz [] x with
  | (none, x) => pure (none, x)
  | (some (sp, ptrs), x) => do
    let (ok, x) ← copyout c (subUInt sp ((3 + ptrs.length + 1) * 4)) ((ustack sp ptrs).flatMap wordBytes) x
    pure (if ok then some sz else none, x)

/-- `createSwapFile`: an empty file. -/
def createSwapFile (p : Proc) : Proc := { p with swapFile := some ⟨0, fun _ => 0⟩ }

/-- The transactions of `removeSwapFile` (fs.c:699), one of them `fileclose`'s. -/
def removeSwapFileOps (p : Proc) : List Event :=
  if p.swapFile.isSome then [.beginOp, .endOp, .beginOp, .endOp] else []

/-- exec.c:178-198. -/
def execCommit (c : Cfg) (sz : Nat) (x : Ctx) : K Ctx :=
  let old := x.proc.pgdir
  let x := (x.setProc { x.proc with pgdir := x.other, sz := sz }).setTbl .other old
  freevm c (if x.tracked c then
      (x.setProc (createSwapFile x.proc)).emit (removeSwapFileOps x.proc ++ [.beginOp, .endOp])
    else x)

/-- `bad:` (exec.c:204), where `ip` may still be locked; `b` is the process before the call. -/
def execBad (c : Cfg) (b : Proc) (pgdir ip : Bool) (x : Ctx) : K Ctx := do
  let x := if c.paging then x.setProc (restoreFromBackup b x.proc) else x
  let x ← (if pgdir then freevm c x else pure x)
  pure (if ip then x.emit [.endOp] else x)

/-- exec.c:107-172 once the header is read; `b` is the process before the call. -/
def execImage (c : Cfg) (b : Proc) (img : Image) (argv : List (List UInt8)) (x : Ctx) : K (Bool × Ctx) := do
  let (ok, x) ← setupkvm c x
  if !ok then do
    let x ← execBad c b false true x
    pure (false, x)
  else do
  match ← loadSegments c img.segs 0 x with
  | (none, x) => do
    let x ← execBad c b true true x
    pure (false, x)
  | (some sz, x) => do
    match ← execStack c argv sz (x.emit [.endOp]) with
    | (none, x) => do
      let x ← execBad c b true false x
      pure (false, x)
    | (some sz, x) => do
      let x ← execCommit c sz x
      pure (true, x)

/-- exec.c:76; `none` when `namei` finds no file, the result `false` is `-1`. -/
def exec (c : Cfg) (file : Option Image) (argv : List (List UInt8)) (x : Ctx) : K (Bool × Ctx) :=
  let b := x.proc
  let x := x.emit [.beginOp]
  match file with
  | none => pure (false, x.emit [.endOp])
  | some img =>
    let x := if c.paging then x.setProc (initPagesData x.proc) else x
    if img.elfOk then execImage c b img argv x
    else do
      let x ← execBad c b false true x
      pure (false, x)

/-! ## Processes -/

def Machine.ctx (m : Machine) (p : Proc) : Ctx := ⟨m.kmem, m.data, p, .empty, []⟩

def Machine.setProc (m : Machine) (i : Nat) (p : Proc) : Machine := { m with proc := m.proc.set i p }

/-- What a call of process `i` has done to the machine. -/
def Machine.put (m : Machine) (i : Nat) (x : Ctx) : Machine :=
  { m with kmem := x.kmem, data := x.data, proc := m.proc.set i x.proc }

/-- The fields `allocproc` (proc.c:76) sets in slot `q`. -/
def allocproc (c : Cfg) (pid kstack : Nat) (q : Proc) : Proc :=
  { q with
    state := .EMBRYO
    pid := pid
    kstack := some kstack
    fileOffset := 0
    numberOfPagedOut := 0
    numberOfPageFaults := 0
    totalNumberOfPagedOut := 0
    numberOfAllocatedPages := 0
    pages := List.replicate MAX_TOTAL_PAGES { age := c.freshAge }
    RAMQueue := List.replicate MAX_PSYC_PAGES none
    offsetQueue := List.replicate MAX_PSYC_PAGES none }

/-- The loop of `fork` over the swap file (proc.c:250), `n` pages from page `i` on, through the
one buffer `newPage`. -/
def copySwapLoop (src : SwapFile) : Nat → Nat → PageData → SwapFile → List Event →
    PageData × SwapFile × List Event
  | 0, _, buffer, dst, es => (buffer, dst, es)
  | n + 1, i, buffer, dst, es =>
    let buffer := readFromSwapFile src (some (i * PGSIZE)) buffer
    let (dst, es') := writeToSwapFile buffer (i * PGSIZE) dst
    copySwapLoop src n (i + 1) buffer dst (es ++ es')

/-- What `fork` copies of the parent's bookkeeping (proc.c:236-248, 255-258). -/
def copyBook (p np : Proc) : Proc :=
  { createSwapFile np with
    fileOffset := p.fileOffset
    numberOfPagedOut := p.numberOfPagedOut
    numberOfAllocatedPages := p.numberOfAllocatedPages
    numberOfPageFaults := 0
    totalNumberOfPagedOut := 0
    pages := p.pages
    RAMQueue := p.RAMQueue
    offsetQueue := p.offsetQueue }

/-- The copy of the swap file through `newPage` (proc.c:249-254). -/
def copySwapPages (f : Nat) (np : Proc) (x : Ctx) : K (Proc × Ctx) :=
  if x.proc.numberOfPagedOut = 0 then pure (np, x) else
  match x.proc.swapFile with
  | none => x.halt (.wild "swapFile")
  | some src =>
    let (buffer, dst, es) := copySwapLoop src x.proc.numberOfPagedOut 0 (x.data f) ⟨0, fun _ => 0⟩ []
    pure ({ np with swapFile := some dst }, (x.setData (Function.update x.data f buffer)).emit es)

/-- `fork` in a build with a policy for a child with `pid > DEF_PROCS` (proc.c:234-259); without
memory for `newPage` it ends in `kfree(0)`. -/
def copySwapFile (c : Cfg) (np : Proc) (x : Ctx) : K (Proc × Ctx) :=
  let x := x.emit [.beginOp, .endOp]
  match kalloc x.kmem with
  | (none, _) => x.halt (.panic "kfree")
  | (some newPage, k) => do
    let (np, x) ← copySwapPages (V2P newPage / PGSIZE) (copyBook x.proc np) (x.setKmem k)
    let k ← x.lift (kfree c newPage x.kmem)
    pure (np, x.setKmem k)

/-- `fork` once the child's slot `j` is found (proc.c:213-265), `np` as `allocproc` leaves it. -/
def forkInto (c : Cfg) (i j kstack : Nat) (np : Proc) (m : Machine) (x : Ctx) :
    K (Option Nat × List Event × Machine) := do
  let (ok, x) ← copyuvm c x.proc.sz x
  if ok then do
    let np := { np with pgdir := x.other, sz := x.proc.sz, parent := some i }
    let (np, x) ← (if c.paging && decide (DEF_PROCS < np.pid) then copySwapFile c np x else pure (np, x))
    pure (some j, x.log, (m.put i x).setProc j { np with state := .RUNNABLE })
  else do
    let k ← x.lift (kfree c kstack x.kmem)
    pure (none, x.log, (m.put i (x.setKmem k)).setProc j { np with kstack := none, state := .UNUSED })

/-- proc.c:207 for process `i`, which is `p`: the child's slot, `none` for `-1`, and the calls'
record. -/
def fork (c : Cfg) (i : Nat) (p : Proc) (m : Machine) : K (Option Nat × List Event × Machine) :=
  let j := m.proc.findIdx (·.state == .UNUSED)
  match m.proc[j]? with
  | none => pure (none, [], m)
  | some q =>
    match kalloc m.kmem with
    | (none, _) => pure (none, [], { m with nextpid := m.nextpid + 1 }.setProc j { q with pid := m.nextpid })
    | (some kstack, k) =>
      forkInto c i j kstack (allocproc c m.nextpid kstack q) { m with nextpid := m.nextpid + 1 }
        ((m.ctx p).setKmem k)

/-- The transactions of `exit` (proc.c:294-302) once the open files are closed. -/
def exitOps (c : Cfg) (p : Proc) : List Event :=
  [.beginOp, .endOp] ++ if c.paging then removeSwapFileOps p else []

/-- proc.c:278 for process `i`, which is `p`; slot 0 is `initproc`. -/
def exit (c : Cfg) (i : Nat) (p : Proc) (m : Machine) : K (List Event × Machine) :=
  if i = 0 then .error (.panic "init exiting", []) else
  let proc := m.proc.map fun q => if q.parent = some i then { q with parent := some 0 } else q
  let p := { p with
    parent := if p.parent = some i then some 0 else p.parent
    state := .ZOMBIE
    swapFile := if c.paging then none else p.swapFile }
  pure (exitOps c p, { m with proc := proc.set i p })

/-- A child's slot once `wait` has freed its memory (proc.c:355-362). -/
def Proc.reaped (q : Proc) : Proc :=
  { q with kstack := none, pgdir := .empty, pid := 0, parent := none, killed := false, state := .UNUSED }

/-- proc.c:340 for process `i`, which is `p`: the slot freed, `none` where it goes on waiting or
returns `-1`. -/
def wait (c : Cfg) (i : Nat) (p : Proc) (m : Machine) : K (Option Nat × List Event × Machine) :=
  let j := m.proc.findIdx fun q => q.parent == some i && q.state == .ZOMBIE
  match m.proc[j]? with
  | none => pure (none, [], m)
  | some q => do
    let x := (m.ctx p).setTbl .other q.pgdir
    let k ← x.lift (match q.kstack with
      | none => .error (.panic "kfree")
      | some kstack => kfree c kstack x.kmem)
    let x ← freevm c (x.setKmem k)
    let m := m.put i x
    pure (some j, x.log, m.setProc j q.reaped)

/-! ## The machine -/

/-- What a process or the processor can do next. `access` is the processor setting `PTE_A` in a
present entry; `resume` is the second half of a page fault. -/
inductive Op
  | load (i va : Nat)
  | store (i va : Nat) (b : UInt8)
  | access (i v : Nat)
  | resume (i : Nat)
  | sbrk (i : Nat) (n : Int)
  | fork (i : Nat)
  | exit (i : Nat)
  | wait (i : Nat)
  | exec (i : Nat) (file : Option Image) (argv : List (List UInt8))
  | tick (i : Nat)

def Op.proc : Op → Nat
  | .load i _ | .store i _ _ | .access i _ | .resume i | .sbrk i _ | .fork i | .exit i | .wait i
  | .exec i _ _ | .tick i => i

/-- What programs can tell of a step: the bytes loaded and stored, and the calls that change
memory, `j` a child's slot. -/
inductive Obs
  | load (i va : Nat) (b : UInt8)
  | store (i va : Nat) (b : UInt8)
  | sbrk (i : Nat) (n : Int)
  | fork (i j : Nat)
  | exec (i : Nat) (img : Image) (argv : List (List UInt8))
  | wait (j : Nat)

/-- The byte at `va`. -/
def byteAt (t : Pgdir) (data : Nat → PageData) (va : Nat) : UInt8 :=
  data (t.pte (va / PGSIZE)).addr ⟨va % PGSIZE, pgoff_lt va⟩

/-- The end of `trap`, unless the process is still in the middle of a fault: a process killed exits
before it returns to its program. -/
def trapRet (c : Cfg) (m : Machine) (i : Nat) (x : Ctx) : K (List Obs × List Event × Machine) :=
  let m := m.put i x
  if x.proc.killed && x.proc.fault.isNone then
    match exit c i x.proc m with
    | .error (h, es) => .error (h, x.log ++ es)
    | .ok (es, m) => pure ([], x.log ++ es, m)
  else pure ([], x.log, m)

/-- The scheduler's hook after a process has run (proc.c:437-441). -/
def tick (c : Cfg) (p : Proc) : Except Halt Proc :=
  match c.sel with
  | .NFUA | .LAPA => agingPages c p
  | .AQ => advanceQueue c p
  | .NONE | .SCFIFO => .ok p

/-- One step of process `i`, which is `p` and is neither waiting nor in the middle of a fault
unless the step is `resume`: what programs can tell, the record and the machine after it. -/
def stepProc (c : Cfg) (m : Machine) (p : Proc) : Op → K (List Obs × List Event × Machine)
  | .load i va =>
    if permits p.pgdir va false then pure ([.load i va (byteAt p.pgdir m.data va)], [], m)
    else do trapRet c m i (← trapPgflt c va false (m.ctx p))
  | .store i va b =>
    if permits p.pgdir va true then
      pure ([.store i va b], [], { m with data := setByte m.data (p.pgdir.pte (va / PGSIZE)).addr va b })
    else do trapRet c m i (← trapPgflt c va true (m.ctx p))
  | .access i v =>
    let e := p.pgdir.pte v
    if e.P then
      pure ([], [], m.setProc i { p with pgdir := p.pgdir.setPte v { e with A := true } })
    else pure ([], [], m)
  | .resume i => match p.fault with
    | none => pure ([], [], m)
    | some flt => do trapRet c m i (← finishPageFault c flt (m.ctx p))
  | .sbrk i n => do
    let (ok, x) ← growproc c n (m.ctx p)
    pure (if ok || n < 0 then [.sbrk i n] else [], x.log, m.put i x)
  | .fork i => do
    let (j, es, m) ← fork c i p m
    pure ((j.map (Obs.fork i)).toList, es, m)
  | .exit i => do
    let (es, m) ← exit c i p m
    pure ([], es, m)
  | .wait i => do
    let (j, es, m) ← wait c i p m
    pure ((j.map Obs.wait).toList, es, m)
  | .exec i file argv => do
    let (ok, x) ← exec c file argv (m.ctx p)
    pure (if ok then (file.map fun img => Obs.exec i img argv).toList else [], x.log, m.put i x)
  | .tick i => do
    let p ← (m.ctx p).lift (tick c p)
    pure ([], [], m.setProc i p)

/-- Whether a process can take the step; the scheduler's hook also runs after `exit`. -/
def Op.enabled (op : Op) (p : Proc) : Bool :=
  match op with
  | .resume _ => p.state == .RUNNABLE && p.fault.isSome
  | .tick _ => (p.state == .RUNNABLE || p.state == .ZOMBIE) && p.fault.isNone
  | _ => p.state == .RUNNABLE && p.fault.isNone

/-- A step a process cannot take changes nothing. -/
def step (c : Cfg) (m : Machine) (op : Op) : K (List Obs × List Event × Machine) :=
  match m.proc[op.proc]? with
  | none => pure ([], [], m)
  | some p => if op.enabled p then stepProc c m p op else pure ([], [], m)

/-- A slot of `ptable` before any process: `bss`. -/
def Proc.unused : Proc :=
  { pid := 0, state := .UNUSED, parent := none, killed := false, sz := 0, pgdir := .empty
    kstack := none, swapFile := none, pages := List.replicate MAX_TOTAL_PAGES {}
    fileOffset := 0, numberOfAllocatedPages := 0, numberOfPagedOut := 0, numberOfPageFaults := 0
    totalNumberOfPagedOut := 0, RAMQueue := List.replicate MAX_PSYC_PAGES (some 0)
    offsetQueue := List.replicate MAX_PSYC_PAGES (some 0), fault := none }

/-- `userinit` (proc.c:141) on a free list: `init` is the initcode. -/
def boot (c : Cfg) (k : Kmem) (data : Nat → PageData) (init : List UInt8) : K Machine :=
  match kalloc k with
  | (none, _) => .error (.wild "kstack", [])
  | (some kstack, k) => do
    let p := allocproc c 1 kstack .unused
    let (ok, x) ← setupkvm c ⟨k, data, p, .empty, []⟩
    if !ok then x.halt (.panic "userinit: out of memory?") else
    if PGSIZE ≤ init.length then x.halt (.panic "inituvm: more than a page") else do
    match ← allocPage .other 0 x with
    | (.done, x) => do
      let x ← loaduvm c 0 init x
      let p := { x.proc with pgdir := x.other, sz := PGSIZE, state := .RUNNABLE }
      pure ⟨x.kmem, x.data, p :: List.replicate (NPROC - 1) .unused, 2⟩
    | (_, x) => x.halt (.wild "inituvm")

end Xv6
