import Mathlib.Algebra.Ring.Int.Defs
import Mathlib.Algebra.Ring.Nat
import Mathlib.Logic.Function.Basic
/-
# The paging kernel's data (`c/os-master`)

| here | there |
| --- | --- |
| `PGSIZE` … `DEF_PROCS` | `param.h`, `memlayout.h`, `mmu.h`, `proc.h` |
| `Selection`            | the `SELECTION` the kernel is built with (Makefile:74), `NONE` for no replacement policy |
| `Pte`                  | a page table entry: `PTE_ADDR` as a frame number and the flag bits of mmu.h:135-147 |
| `Pgdir`                | a page directory with its user page tables |
| `Page`, `Proc`         | `struct page` (proc.h:39), `struct proc` (proc.h:49) |
| `Kmem`                 | `kmem` (kalloc.c:20), the `struct run` chain as the list of its frames |
| `Machine`              | `kmem`, physical memory, `ptable` and `nextpid` |

A frame is a physical page number `pa >> PGSHIFT`; a virtual page number is `va / PGSIZE`.
`-1` in `RAMQueue`, `offsetQueue` and `file_offset` is `none`. Page table pages are frames taken
from `kalloc`, their contents are the functions `pde` and `pte`. Of `struct proc` only what
the memory system calls read is kept: no trap frame, open files, working directory or name.
-/
namespace Xv6

def PGSIZE : Nat := 4096
def NPDENTRIES : Nat := 1024
def NPTENTRIES : Nat := 1024
def KERNBASE : Nat := 0x80000000
def KERNLINK : Nat := 0x80100000
def PHYSTOP : Nat := 0xE000000
def DEVSPACE : Nat := 0xFE000000
def NPROC : Nat := 64
def MAXARG : Nat := 32
def MAX_PSYC_PAGES : Nat := 16
def MAX_TOTAL_PAGES : Nat := 32
def DEF_PROCS : Nat := 2
/-- `MAXFILE * BSIZE` (fs.h): the largest file. -/
def MAXFILEBYTES : Nat := (12 + 128) * 512
/-- Virtual pages below `KERNBASE`. -/
def USERPAGES : Nat := 0x80000
/-- `uint` is 32 bits wide. -/
def UINT : Nat := 2 ^ 32

/-- memlayout.h:27-28, on 32-bit addresses. -/
def V2P (a : Nat) : Nat := (a + UINT - KERNBASE) % UINT
def P2V (a : Nat) : Nat := (a + KERNBASE) % UINT

/-- `PGROUNDUP(sz) / PGSIZE`: the first page not below `sz`. -/
def pgUp (sz : Nat) : Nat := (sz + PGSIZE - 1) / PGSIZE

theorem pgoff_lt (va : Nat) : va % PGSIZE < PGSIZE := Nat.mod_lt va (by decide)

/-- `sz + n` in `uint` arithmetic. -/
def addInt (sz : Nat) (n : Int) : Nat := ((sz + n) % UINT).toNat

inductive Selection
  | NONE | SCFIFO | NFUA | LAPA | AQ
  deriving DecidableEq, Repr

/-- The build: the policy, `V2P(end)` and the page where the kernel's writable data starts. -/
structure Cfg where
  sel : Selection
  kend : Nat
  data : Nat
  hkend : 0 < kend ∧ kend < PHYSTOP

/-- `#if (defined(SCFIFO) || defined(NFUA) || defined(LAPA) || defined(AQ))` -/
def Cfg.paging (c : Cfg) : Bool := c.sel != .NONE

/-- Why the kernel does not get to the end of a call. `wild` is an access outside the array or
object named, `nullPte` a `*pte` with `pte == 0`, `hang` a kernel access that faults for ever. -/
inductive Halt
  | panic (msg : String)
  | wild (what : String)
  | nullPte
  | hang
  deriving DecidableEq, Repr

structure Pte where
  addr : Nat := 0
  P : Bool := false
  W : Bool := false
  U : Bool := false
  A : Bool := false
  PG : Bool := false
  C : Bool := false
  deriving DecidableEq, Repr, Inhabited

/-- `page` is the directory's own frame, `pde` the page table page of each present directory
entry, `pte` the user entries by virtual page number. -/
structure Pgdir where
  page : Option Nat
  pde : Nat → Option Nat
  pte : Nat → Pte

def Pgdir.empty : Pgdir := ⟨none, fun _ => none, fun _ => {}⟩

instance : Inhabited Pgdir := ⟨.empty⟩

/-- `*pte = e` at virtual page `v`. -/
def Pgdir.setPte (t : Pgdir) (v : Nat) (e : Pte) : Pgdir := { t with pte := Function.update t.pte v e }

/-- `struct page` -/
structure Page where
  vAddress : Nat := 0
  fileOffset : Option Nat := none
  isInRAM : Bool := false
  isAllocated : Bool := false
  age : Nat := 0
  deriving DecidableEq, Repr, Inhabited

abbrev PageData := Fin PGSIZE → UInt8

def zeroPage : PageData := fun _ => 0

/-- The inode behind `p->swapFile`. -/
structure SwapFile where
  size : Nat
  byte : Nat → UInt8

inductive ProcState
  | UNUSED | EMBRYO | SLEEPING | RUNNABLE | RUNNING | ZOMBIE
  deriving DecidableEq, Repr

/-- What `handle_page_fault` holds in its locals once it has called `get_ref_count`:
`va`, `pa` and `amount_of_refs_to_page`. -/
structure Fault where
  va : Nat
  pa : Nat
  amount : Nat
  deriving DecidableEq, Repr

/-- `struct proc`. `parent` is an index into `ptable`; `fault` is a page fault the process's
kernel thread is in the middle of. -/
structure Proc where
  pid : Nat
  state : ProcState
  parent : Option Nat
  killed : Bool
  sz : Nat
  pgdir : Pgdir
  kstack : Option Nat
  swapFile : Option SwapFile
  pages : List Page
  fileOffset : Nat
  numberOfAllocatedPages : Int
  numberOfPagedOut : Nat
  numberOfPageFaults : Int
  totalNumberOfPagedOut : Int
  RAMQueue : List (Option Nat)
  offsetQueue : List (Option Nat)
  fault : Option Fault

structure Kmem where
  freelist : List Nat
  amountOfFreePages : Nat
  pageRefsNum : Nat → Nat

/-- The table a call works on: `curproc->pgdir` or another one. -/
inductive Tbl
  | own | other
  deriving DecidableEq, Repr

/-- What a run leaves on record for the statements about it; the code reads none of it.
`swapCall p`: `swapToFile` entered, `p` the calling process. `swapOut n e`: it gives up the
frame of entry `e`, whose count is `n`. `swapIn e d d'`: `get_page` has read `d` for the page of
entry `e`, whose frame holds `d'`. `share n`: `copyuvm` raises a count from `n`. `cowCopy`:
`handle_page_fault` copies. `growFailed w n`: `allocuvm` on table `w` takes its error exit after
`n` new pages. `beginOp`, `endOp`: the log transactions. -/
inductive Event
  | swapCall (p : Proc)
  | swapOut (refs : Nat) (e : Pte)
  | swapIn (e : Pte) (slot page : PageData)
  | share (refs : Nat)
  | cowCopy
  | growFailed (w : Tbl) (added : Nat)
  | beginOp
  | endOp

/-- What a call of one process works on: `proc` is `*myproc()`, `other` the page table under
construction or demolition besides its own. -/
structure Ctx where
  kmem : Kmem
  data : Nat → PageData
  proc : Proc
  other : Pgdir
  log : List Event

/-- A kernel computation: a halt comes with the events up to it. -/
abbrev K (α : Type) := Except (Halt × List Event) α

def Ctx.halt {α : Type} (x : Ctx) (h : Halt) : K α := .error (h, x.log)

def Ctx.lift {α : Type} (x : Ctx) : Except Halt α → K α
  | .ok a => .ok a
  | .error h => .error (h, x.log)

def Ctx.emit (x : Ctx) (es : List Event) : Ctx := { x with log := x.log ++ es }

def Ctx.setKmem (x : Ctx) (k : Kmem) : Ctx := { x with kmem := k }

def Ctx.setData (x : Ctx) (data : Nat → PageData) : Ctx := { x with data := data }

def Ctx.setProc (x : Ctx) (p : Proc) : Ctx := { x with proc := p }

def Ctx.tbl (x : Ctx) : Tbl → Pgdir
  | .own => x.proc.pgdir
  | .other => x.other

def Ctx.setTbl (x : Ctx) : Tbl → Pgdir → Ctx
  | .own, t => { x with proc := { x.proc with pgdir := t } }
  | .other, t => { x with other := t }

structure Machine where
  kmem : Kmem
  data : Nat → PageData
  proc : List Proc
  nextpid : Nat

end Xv6
