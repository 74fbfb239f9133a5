import CCppProjects.Xv6.Defs
/-
# Queues and victims (proc.c:623-811, vm.c:448-467)

`RAMQueue` and `offsetQueue` are arrays of `MAX_PSYC_PAGES` ints. A scan for the first `-1`
(`insert`, `insertOffsetQueue`) tests `RAMQueue[i] != -1` before it tests the bound, so on a full
array it reads the element past the end: `wild`. The victim functions index `pages[]` by queue
entries unchecked; at `-1` (or past the array) that too is `wild`.
-/
namespace Xv6

/-- `a[i]` for an index that may be `-1` or too large. -/
def Proc.page (p : Proc) : Option Nat → Except Halt Page
  | none => .error (.wild "pages")
  | some i => match p.pages[i]? with
    | none => .error (.wild "pages")
    | some pg => .ok pg

/-- `walkpgdir(pgdir, va, 0)` at virtual page `v`; the kernel's own entries come from `kmap`
(vm.c:105): present, not for the user, writeable except the kernel text. -/
def kernelPte (c : Cfg) (v : Nat) : Pte :=
  { addr := if v < DEVSPACE / PGSIZE then v - KERNBASE / PGSIZE else v
    P := true, W := v < KERNLINK / PGSIZE || c.data ≤ v, U := false }

def walkpgdir (c : Cfg) (t : Pgdir) (v : Nat) : Option Pte :=
  match t.pde (v / NPTENTRIES) with
  | none => none
  | some _ => some (if v < USERPAGES then t.pte v else kernelPte c v)

/-! ## The array operations -/

/-- The loop of `updateQueue` (proc.c:625): `a[index] = a[index + 1]` up to the last but one,
`n` steps. -/
def shiftLoop : Nat → Nat → List (Option Nat) → List (Option Nat)
  | 0, _, a => a
  | n + 1, i, a => shiftLoop n (i + 1) (a.set i (a.getD (i + 1) none))

/-- proc.c:623. -/
def updateQueue (i : Nat) (a : List (Option Nat)) : List (Option Nat) :=
  (shiftLoop (MAX_PSYC_PAGES - 1 - i) i a).set (MAX_PSYC_PAGES - 1) none

/-- The scan of `insert` and `insertOffsetQueue` (proc.c:737, 796): the first `-1`. -/
def firstFree (a : List (Option Nat)) : Nat := a.findIdx (· == none)

/-- proc.c:734. -/
def insert (i : Nat) (p : Proc) : Except Halt Proc :=
  if firstFree p.RAMQueue < MAX_PSYC_PAGES then
    .ok { p with RAMQueue := p.RAMQueue.set (firstFree p.RAMQueue) (some i) }
  else .error (.wild "RAMQueue")

/-- proc.c:793. -/
def insertOffsetQueue (off : Option Nat) (p : Proc) : Except Halt Proc :=
  if firstFree p.offsetQueue < MAX_PSYC_PAGES then
    .ok { p with offsetQueue := p.offsetQueue.set (firstFree p.offsetQueue) off }
  else .error (.wild "offsetQueue")

/-- proc.c:777. -/
def updateOffsetQueue (p : Proc) : Proc := { p with offsetQueue := updateQueue 0 p.offsetQueue }

/-- proc.c:785. -/
def removeOffsetQueue (p : Proc) : Option Nat × Proc :=
  match p.offsetQueue.getD 0 none with
  | some off => (some off, updateOffsetQueue p)
  | none => (none, p)

/-- proc.c:803. -/
def getFreeFileOffset (p : Proc) : Nat × Proc :=
  match removeOffsetQueue p with
  | (some off, p) => (off, p)
  | (none, p) => (p.fileOffset, { p with fileOffset := (p.fileOffset + PGSIZE) % UINT })

/-! ## Choosing a victim -/

/-- The scan of `removeSCFIFO` (proc.c:641): the entries of `RAMQueue` in order, each accessed page
loses its `PTE_A` and goes to `temp`; the first page not accessed stops the scan, and is returned
with the entries after it. -/
def scfifoScan (c : Cfg) (p : Proc) : List (Option Nat) → Pgdir → List (Option Nat) →
    Except Halt (Pgdir × List (Option Nat) × Option (Option Nat × List (Option Nat)))
  | [], t, temp => .ok (t, temp, none)
  | q :: qs, t, temp => do
    let pg ← p.page q
    match walkpgdir c t (pg.vAddress / PGSIZE) with
    | none => .error .nullPte
    | some e =>
      if e.A then scfifoScan c p qs (t.setPte (pg.vAddress / PGSIZE) { e with A := false }) (temp ++ [q])
      else .ok (t, temp, some (q, qs))

/-- proc.c:632. After a page not accessed is found the entries behind it move to the front and the
accessed ones follow; when every page was accessed the head goes. -/
def removeSCFIFO (c : Cfg) (p : Proc) : Except Halt (Option Nat × Proc) := do
  let (t, temp, found) ← scfifoScan c p p.RAMQueue p.pgdir []
  match found with
  | some (q, rest) =>
    let front := rest.takeWhile (· != none)
    let back := (temp ++ List.replicate (MAX_PSYC_PAGES - temp.length) none).take (MAX_PSYC_PAGES - front.length)
    .ok (q, { p with pgdir := t, RAMQueue := front ++ back })
  | none => match p.RAMQueue.getD 0 none with
    | none => .error (.panic "removeSCFIFO")
    | some i => .ok (some i, { p with pgdir := t, RAMQueue := updateQueue 0 p.RAMQueue })

/-- The scan of `removeNFUA` (proc.c:686): the index of the smallest age so far, over the rest. -/
def nfuaScan (p : Proc) : Nat → Nat → Nat → Except Halt Nat
  | 0, _, m => .ok m
  | n + 1, i, m => do
    let a ← p.page (p.RAMQueue.getD i none)
    let b ← p.page (p.RAMQueue.getD m none)
    nfuaScan p n (i + 1) (if a.age < b.age then i else m)

/-- proc.c:682. -/
def removeNFUA (p : Proc) : Except Halt (Option Nat × Proc) := do
  let m ← nfuaScan p (MAX_PSYC_PAGES - 1) 1 0
  .ok (p.RAMQueue.getD m none, { p with RAMQueue := updateQueue m p.RAMQueue })

/-- A `uint` read as an `int`. -/
def toInt32 (a : Nat) : Int := if a < 2 ^ 31 then a else (a : Int) - UINT

/-- The bits of an age (proc.c:705). -/
def bitCount (a : Nat) : Nat := ((List.range 32).filter fun j => a.testBit j).length

/-- The scan of `removeLAPA` (proc.c:702): `m`, `age` and `count` are `min_i`, `min_age` and
`min_count`. -/
def lapaScan (p : Proc) : Nat → Nat → Option Nat → Int → Nat → Except Halt (Option Nat)
  | 0, _, m, _, _ => .ok m
  | n + 1, i, m, age, count => do
    let a ← p.page (p.RAMQueue.getD i none)
    if bitCount a.age < count then lapaScan p n (i + 1) (some i) (toInt32 a.age) (bitCount a.age)
    else if bitCount a.age = count ∧ toInt32 a.age < age then
      lapaScan p n (i + 1) (some i) (toInt32 a.age) count
    else lapaScan p n (i + 1) m age count

/-- proc.c:696. -/
def removeLAPA (p : Proc) : Except Halt (Option Nat × Proc) := do
  match ← lapaScan p MAX_PSYC_PAGES 0 none (toInt32 0xFFFFFFFF) 33 with
  | none => .error (.panic "removeLAPA")
  | some m => .ok (p.RAMQueue.getD m none, { p with RAMQueue := updateQueue m p.RAMQueue })

/-- proc.c:727. -/
def removeAQ (p : Proc) : Except Halt (Option Nat × Proc) :=
  .ok (p.RAMQueue.getD 0 none, { p with RAMQueue := updateQueue 0 p.RAMQueue })

/-- The routine `selectPage` (vm.c:449) calls in this build. -/
def removeVictim (c : Cfg) (p : Proc) : Except Halt (Option Nat × Proc) :=
  match c.sel with
  | .NONE => .ok (some 0, p)
  | .SCFIFO => removeSCFIFO c p
  | .NFUA => removeNFUA p
  | .LAPA => removeLAPA p
  | .AQ => removeAQ p

/-! ## The scheduler's hooks (proc.c:744-775) -/

/-- The age a slot starts with (`allocproc`, `deallocatePage`). -/
def Cfg.freshAge (c : Cfg) : Nat := if c.sel = .LAPA then 0xFFFFFFFF else 0

/-- The loop of `agingPages` over the slots from `i` on, `n` of them. -/
def agingLoop (c : Cfg) : Nat → Nat → Proc → Except Halt Proc
  | 0, _, p => .ok p
  | n + 1, i, p =>
    let pg := p.pages.getD i default
    if pg.isAllocated then
      match walkpgdir c p.pgdir (pg.vAddress / PGSIZE) with
      | none => .error .nullPte
      | some e =>
        let age := pg.age / 2
        let p := { p with
          pages := p.pages.set i { pg with age := if e.A then age ||| 0x80000000 else age }
          pgdir := if e.A then p.pgdir.setPte (pg.vAddress / PGSIZE) { e with A := false } else p.pgdir }
        agingLoop c n (i + 1) p
    else agingLoop c n (i + 1) p

/-- proc.c:744. -/
def agingPages (c : Cfg) (p : Proc) : Except Halt Proc := agingLoop c MAX_TOTAL_PAGES 0 p

/-- `RAMQueue[i]` -/
def Proc.ramAt (p : Proc) (i : Int) : Except Halt (Option Nat) :=
  if 0 ≤ i ∧ i < MAX_PSYC_PAGES then .ok (p.RAMQueue.getD i.toNat none) else .error (.wild "RAMQueue")

/-- One round of the loop of `advanceQueue` (proc.c:764): the pages at `i` and `i - 1` change places
when the one nearer the head was accessed and the other was not. -/
def advanceBody (c : Cfg) (i : Int) (p : Proc) : Except Halt Proc := do
  let cur ← p.ramAt i
  if cur = none then .ok p else
    let prev ← p.ramAt (i - 1)
    let pgCur ← p.page cur
    let pgPre ← p.page prev
    match walkpgdir c p.pgdir (pgCur.vAddress / PGSIZE), walkpgdir c p.pgdir (pgPre.vAddress / PGSIZE) with
    | some eCur, some ePre =>
      if ePre.A && !eCur.A then
        .ok { p with RAMQueue := (p.RAMQueue.set i.toNat prev).set (i - 1).toNat cur }
      else .ok p
    | _, _ => .error .nullPte

/-- The loop of `advanceQueue` (proc.c:763): it goes on while `i < 0`. -/
def advanceLoop (c : Cfg) : Nat → Int → Proc → Except Halt Proc
  | 0, _, p => .ok p
  | n + 1, i, p => if i < 0 then do
      let p ← advanceBody c i p
      advanceLoop c n (i - 1) p
    else .ok p

/-- proc.c:760: `i` starts at the last index. -/
def advanceQueue (c : Cfg) (p : Proc) : Except Halt Proc :=
  advanceLoop c MAX_PSYC_PAGES (MAX_PSYC_PAGES - 1) p

end Xv6
