import CCppProjects.Lib.Links
import CCppProjects.Xv6.Log
/-
# The buffer cache (bio.c, log.c:66-233)

| here | there |
| --- | --- |
| `Buf`, `Bcache`                                   | `struct buf`, `bcache`; the node `none` is `&bcache.head` |
| `binit`                                           | bio.c:38 |
| `bget`, `acquire`                                 | `bget` (bio.c:64) up to `acquiresleep`, and the rest of `bread` (bio.c:97) |
| `bwrite`, `logWrite`                              | bio.c:110, log.c:213 |
| `unlock`, `unref`                                 | `brelse` (bio.c:121) up to `acquire(&bcache.lock)`, and the rest |
| `writeLog`, `writeHead`, `installTrans`, `commit` | log.c:178, :99, :67, :193 |

Each step is what one process does under `bcache.lock` or between two sleeps; `iderw` is one transfer.
`bwrite` and `unlock` ask that the process has the sleep lock; `holdingsleep`, which bio.c:112 and :123 call,
sees only that `lk->locked` is set, so that a process which gives back another's lock goes unnoticed there and
is no step here. A panic and a sleep that does not end are no steps. `commit` is one: `begin_op` lets no
transaction start until it is over. `Store` says what each block holds, wherever it is kept.
-/
namespace Xv6.Bio

open Log Links

/-- param.h:12 -/
def NBUF : Nat := MAXOPBLOCKS * 3

abbrev Ix := Fin NBUF

/-- A node of the list; `none` is `bcache.head`. -/
abbrev Node := Option Ix

/-- `struct buf`; `lock` is the process that holds the sleep lock, `valid` and `dirty` the flags. -/
structure Buf where
  valid : Bool := false
  dirty : Bool := false
  dev : Nat := 0
  blockno : Nat := 0
  lock : Option Nat := none
  refcnt : Nat := 0
  data : Block := fun _ => 0

/-- Device and block number. -/
def Buf.block (x : Buf) : Nat × Nat := (x.dev, x.blockno)

/-- A process in `acquiresleep`, with what it asked `bread` for. -/
structure Wait where
  pid : Nat
  b : Ix
  dev : Nat
  blockno : Nat

/-- `rels`: processes in `brelse`, between the two locks. -/
structure Bcache where
  buf : Ix → Buf
  next : Node → Node
  prev : Node → Node
  disk : Nat × Nat → Block
  lh : List Nat
  waits : List Wait
  rels : List (Nat × Ix)

/-- `log.start`, `log.size` and `log.dev`. -/
structure LogDev extends Layout where
  dev : Nat

variable (L : LogDev)

def Bcache.set (s : Bcache) (b : Ix) (x : Buf) : Bcache := { s with buf := Function.update s.buf b x }

/-! ## bio.c -/

/-- bio.c:134-138: behind the head. -/
def push (b : Ix) (s : Bcache) : Bcache :=
  let s :=
    { s with next := Function.update s.next (some b) (s.next none), prev := Function.update s.prev (some b) none }
  let s := { s with prev := Function.update s.prev (s.next none) (some b) }
  { s with next := Function.update s.next none (some b) }

/-- bio.c:132-133: out of the list. -/
def unlink (b : Ix) (s : Bcache) : Bcache :=
  let s := { s with prev := Function.update s.prev (s.next (some b)) (s.prev (some b)) }
  { s with next := Function.update s.next (s.prev (some b)) (s.next (some b)) }

/-- `bss` and bio.c:46-54, with these blocks on the disks. -/
def binit (disk : Nat × Nat → Block) : Bcache :=
  (List.finRange NBUF).foldl (fun s b => push b s)
    { buf := fun _ => {}, next := fun _ => none, prev := fun _ => none, disk := disk, lh := [], waits := [], rels := [] }

/-- ide.c:137; `none` is the panic. -/
def iderw (b : Ix) (s : Bcache) : Option Bcache :=
  let x := s.buf b
  if x.dirty then
    some ({ s with disk := Function.update s.disk x.block x.data }.set b { x with dirty := false, valid := true })
  else if x.valid then none
  else some (s.set b { x with data := s.disk x.block, valid := true })

/-- Is the block cached (bio.c:71)? -/
def cached (dev blockno : Nat) (s : Bcache) : Option Ix :=
  (scan s.next none (fun n => n.any fun b => (s.buf b).dev == dev && (s.buf b).blockno == blockno) NBUF
    (s.next none)).join

/-- A buffer to recycle (bio.c:83). -/
def unused (s : Bcache) : Option Ix :=
  (scan s.prev none (fun n => n.any fun b => (s.buf b).refcnt == 0 && !(s.buf b).dirty) NBUF (s.prev none)).join

/-- bio.c:64 up to `acquiresleep`. -/
def bget (p dev blockno : Nat) (s : Bcache) : Option Bcache :=
  match cached dev blockno s with
  | some b => some ({ s with waits := ⟨p, b, dev, blockno⟩ :: s.waits }.set b
      { s.buf b with refcnt := (s.buf b).refcnt + 1 })
  | none => match unused s with
    | some b => some ({ s with waits := ⟨p, b, dev, blockno⟩ :: s.waits }.set b
        { s.buf b with dev := dev, blockno := blockno, valid := false, dirty := false, refcnt := 1 })
    | none => none

/-- `acquiresleep` comes back, and the rest of `bread`. -/
def acquire (p : Nat) (s : Bcache) : Option (Ix × Bcache) :=
  match s.waits.find? (·.pid == p) with
  | none => none
  | some w =>
    if (s.buf w.b).lock.isSome then none else
    let s := { s with waits := s.waits.eraseP (·.pid == p) }.set w.b { s.buf w.b with lock := some p }
    if (s.buf w.b).valid then some (w.b, s) else (iderw w.b s).map fun s => (w.b, s)

/-- `memmove(b->data, ...)` by the process that has locked `b`. -/
def modify (p : Nat) (b : Ix) (d : Block) (s : Bcache) : Option Bcache :=
  if (s.buf b).lock = some p then some (s.set b { s.buf b with data := d }) else none

/-- bio.c:110 -/
def bwrite (p : Nat) (b : Ix) (s : Bcache) : Option Bcache :=
  if (s.buf b).lock = some p then iderw b (s.set b { s.buf b with dirty := true }) else none

/-- bio.c:121-126 -/
def unlock (p : Nat) (b : Ix) (s : Bcache) : Option Bcache :=
  if (s.buf b).lock = some p then some ({ s with rels := (p, b) :: s.rels }.set b
    { s.buf b with lock := none }) else none

/-- bio.c:128-141 -/
def unref (p : Nat) (s : Bcache) : Option Bcache :=
  match s.rels.find? (·.1 == p) with
  | none => none
  | some r =>
    let s := { s with rels := s.rels.eraseP (·.1 == p) }.set r.2 { s.buf r.2 with refcnt := (s.buf r.2).refcnt - 1 }
    some (if (s.buf r.2).refcnt = 0 then push r.2 (unlink r.2 s) else s)

def bread (p dev blockno : Nat) (s : Bcache) : Option (Ix × Bcache) := (bget p dev blockno s).bind (acquire p)

def brelse (p : Nat) (b : Ix) (s : Bcache) : Option Bcache := (unlock p b s).bind (unref p)

/-! ## log.c -/

/-- log.c:213, called with `b` locked; a process in a transaction, whose number `begin_op` keeps. -/
def logWrite (p : Nat) (b : Ix) (s : Bcache) : Option Bcache :=
  if (s.buf b).lock = some p ∧ s.lh.length < LOGSIZE ∧ s.lh.length < L.size - 1 then
    some ({ s with lh := if (s.buf b).blockno ∈ s.lh then s.lh else s.lh ++ [(s.buf b).blockno] }.set b
      { s.buf b with dirty := true })
  else none

/-- The loop of `write_log` from `tail` on; `dst` is its `to`. -/
def writeLog (p : Nat) : List Nat → Nat → Bcache → Option Bcache
  | [], _, s => some s
  | blockno :: lh, tail, s => do
    let (dst, s) ← bread p L.dev (L.start + tail + 1) s
    let (src, s) ← bread p L.dev blockno s
    let s ← modify p dst (s.buf src).data s
    let s ← bwrite p dst s
    let s ← brelse p src s
    let s ← brelse p dst s
    writeLog p lh (tail + 1) s

/-- log.c:99 -/
def writeHead (p : Nat) (s : Bcache) : Option Bcache := do
  let (b, s) ← bread p L.dev L.start s
  let s ← modify p b (headBlock s.lh (s.buf b).data) s
  let s ← bwrite p b s
  brelse p b s

/-- The loop of `install_trans` from `tail` on. -/
def installTrans (p : Nat) : List Nat → Nat → Bcache → Option Bcache
  | [], _, s => some s
  | blockno :: lh, tail, s => do
    let (lbuf, s) ← bread p L.dev (L.start + tail + 1) s
    let (dbuf, s) ← bread p L.dev blockno s
    let s ← modify p dbuf (s.buf lbuf).data s
    let s ← bwrite p dbuf s
    let s ← brelse p lbuf s
    let s ← brelse p dbuf s
    installTrans p lh (tail + 1) s

/-- log.c:193 -/
def commit (p : Nat) (s : Bcache) : Option Bcache :=
  if 0 < s.lh.length then do
    let s ← writeLog L p s.lh 0 s
    let s ← writeHead L p s
    let s ← installTrans L p s.lh 0 s
    writeHead L p { s with lh := [] }
  else some s

/-! ## Runs -/

inductive Act
  | bget (dev blockno : Nat)
  | acquire
  | modify (b : Ix) (d : Block)
  | logWrite (b : Ix)
  | bwrite (b : Ix)
  | unlock (b : Ix)
  | unref
  | commit

/-- A process in the middle of `bread` or `brelse`. -/
def Bcache.busy (s : Bcache) (p : Nat) : Bool := s.waits.any (·.pid == p) || s.rels.any (·.1 == p)

def step (p : Nat) (a : Act) (s : Bcache) : Option Bcache :=
  match a with
  | .acquire => (acquire p s).map Prod.snd
  | .unref => unref p s
  | .bget dev blockno => if s.busy p then none else bget p dev blockno s
  | .modify b d => if s.busy p then none else modify p b d s
  | .logWrite b => if s.busy p then none else logWrite L p b s
  | .bwrite b => if s.busy p then none else bwrite p b s
  | .unlock b => if s.busy p then none else unlock p b s
  | .commit => if s.busy p then none else commit L p s

/-- The most recent contents of each block. -/
abbrev Store := Nat × Nat → Block

/-- What `commit` of `lh` leaves in the log's own blocks: the blocks listed, and a header with `n` 0. No
other block changes. -/
def Store.commit (lh : List Nat) (t : Store) : Store := fun k =>
  if lh = [] ∨ k.1 ≠ L.dev then t k
  else if k.2 = L.start then headBlock [] (headBlock lh (t k))
  else if L.start < k.2 ∧ k.2 ≤ L.start + lh.length then t (L.dev, lh.getD (k.2 - L.start - 1) 0)
  else t k

/-- What a step does to the blocks' contents. -/
def Act.tell (s : Bcache) (t : Store) : Act → Store
  | .modify b d => Function.update t (s.buf b).block d
  | .commit => t.commit L s.lh
  | _ => t

/-- One step of process `l.1`. -/
def next (x : Bcache × Store) (l : Nat × Act) : Option (Bcache × Store) :=
  (step L l.1 l.2 x.1).map fun s => (s, l.2.tell L x.1 x.2)

def Trans (x : Bcache × Store) (l : Nat × Act) (y : Bcache × Store) : Prop := next L x l = some y

end Xv6.Bio
