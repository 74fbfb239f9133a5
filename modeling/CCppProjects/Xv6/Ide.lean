import CCppProjects.Lib.Queue
import CCppProjects.Lib.Run
import CCppProjects.Xv6.Bio
/-
# The disk driver (ide.c, memide.c)

A step is what is done under one hold of `idelock`: a process in `iderw` up to its next `sleep` or its return,
or the interrupt handler. Between them the drive executes the command it was given, and the processes that
hold a buffer's sleep lock, or recycle one nobody has locked, change it.

| here | there |
| --- | --- |
| `Drive`, `Act.disk` | the drive behind the ports 0x1f0 to 0x1f7, with one command at a time |
| `sector`            | what `idestart` writes to 0x1f3 to 0x1f6 (ide.c:90-93) |
| `idestart`, `ideintr`, `iderw` | ide.c:74, :104, :138 |
| `memRw`             | `iderw` of memide.c (memide.c:39) behind its checks |

A panic and a wait for a busy drive are no steps. `iderw` asks that its caller has the buffer's sleep lock;
`holdingsleep` (ide.c:142) sees only that somebody has it. A drive that reports an error has put something
else, or nothing, into the sector it wrote; the handler looks at the error bits for reads only.
-/
namespace Xv6.Ide

open Log Bio Lts

def FSSIZE : Nat := 1000

/-- Device number and the 28 bits of sector number. One sector is one block. -/
abbrev Sector := Nat × Nat

abbrev Content := Sector → Block

def sector (x : Buf) : Sector := (x.dev % 2, x.blockno % 2 ^ 28)

inductive Cmd
  | read (k : Sector)
  | write (k : Sector) (data : Block)

/-- `done reply` with the interrupt raised: `none` with an error bit set, else what `insl` would deliver. -/
inductive Drive
  | idle
  | busy (c : Cmd)
  | done (reply : Option Block)

structure State where
  buf : Ix → Buf
  qnext : Ix → Option Ix
  idequeue : Option Ix
  havedisk1 : Bool
  drive : Drive
  content : Content
  /-- The processes in `iderw`, with the buffer and whether they sleep. -/
  call : Nat → Option (Ix × Bool)

namespace State

variable (s : State)

def set (b : Ix) (x : Buf) : State := { s with buf := Function.update s.buf b x }

def setCall (p : Nat) (c : Option (Ix × Bool)) : State := { s with call := Function.update s.call p c }

/-- `wakeup(b)` -/
def wakeup (b : Ix) : State := { s with call := fun p => (s.call p).map fun c => if c.1 = b then (b, false) else c }

end State

/-- The command for `b` (ide.c:94-99). -/
def cmd (x : Buf) : Cmd := if x.dirty then .write (sector x) x.data else .read (sector x)

/-- ide.c:74 -/
def idestart (b : Ix) (s : State) : Option State :=
  if FSSIZE ≤ (s.buf b).blockno then none
  else match s.drive with
    | .idle => some { s with drive := .busy (cmd (s.buf b)) }
    | _ => none

/-- ide.c:127 -/
def startNext (s : State) : Option State :=
  match s.idequeue with
  | none => some s
  | some b => idestart b s

/-- ide.c:104. The drive does not interrupt before it is done. -/
def ideintr (s : State) : Option State :=
  match s.idequeue with
  | none => some s
  | some b => match s.drive with
    | .done reply =>
      let x := s.buf b
      let x := if x.dirty then x else { x with data := reply.getD x.data }
      startNext
      (({ s with idequeue := s.qnext b, drive := .idle }.set b { x with valid := true, dirty := false }).wakeup b)
    | _ => none

/-- The loop at the end of `iderw` (ide.c:162); `true` when the call returns. -/
def await (p : Nat) (b : Ix) (s : State) : State × Bool :=
  if (s.buf b).valid && !(s.buf b).dirty then (s.setCall p none, true) else (s.setCall p (some (b, true)), false)

/-- ide.c:151-155: behind the last of the queue. -/
def enqueue (b : Ix) (s : State) : Option State :=
  let s := { s with qnext := Function.update s.qnext b none }
  match Queue.lastLink s.qnext NBUF none s.idequeue with
  | none => none
  | some none => some { s with idequeue := some b }
  | some (some c) => some { s with qnext := Function.update s.qnext c (some b) }

/-- ide.c:138 -/
def iderw (p : Nat) (b : Ix) (s : State) : Option (State × Bool) :=
  if (s.buf b).lock ≠ some p then none
  else if (s.buf b).valid && !(s.buf b).dirty then none
  else if (s.buf b).dev ≠ 0 && !s.havedisk1 then none
  else (enqueue b s).bind fun s => (if s.idequeue = some b then idestart b s else some s).map (await p b)

inductive Act
  | lock (p : Nat) (b : Ix)
  | unlock (p : Nat) (b : Ix)
  | edit (p : Nat) (b : Ix) (x : Buf)
  | iderw (p : Nat) (b : Ix)
  | run (p : Nat)
  | kill (p : Nat)
  | disk (fault : Option (Option Block))
  | intr

/-- A call of `iderw`, or its return, with the buffer as it is then. -/
structure Req where
  pid : Nat
  b : Ix
  x : Buf

/-- What a step shows: a call made, a command executed, a call returned. -/
structure Seen where
  called : List Req
  faults : List (Option (Option Block))
  returned : List Req

def Seen.none : Seen := ⟨[], [], []⟩

/-- The drive executes a command; with `fault` it reports an error, and a write has left that block, if any. -/
def Cmd.exec (d : Content) (fault : Option (Option Block)) : Cmd → Content × Option Block
  | .read k => (d, if fault.isSome then none else some (d k))
  | .write k data => match fault with
    | none => (Function.update d k data, some data)
    | some junk => (Function.update d k (junk.getD (d k)), none)

/-- Of a process in `iderw` only `run` is a step, and of a buffer others have locked none. -/
def next (s : State) : Act → Option (State × Seen)
  | .lock p b =>
    if s.call p = none ∧ (s.buf b).lock = none then some (s.set b { s.buf b with lock := some p }, .none) else none
  | .unlock p b =>
    if s.call p = none ∧ (s.buf b).lock = some p then some (s.set b { s.buf b with lock := none }, .none) else none
  | .edit p b x =>
    if s.call p = none ∧ (s.buf b).lock ∈ [none, some p] then some (s.set b { x with lock := (s.buf b).lock }, .none)
    else none
  | .iderw p b =>
    if s.call p = none then (iderw p b s).map fun r => (r.1, ⟨[⟨p, b, s.buf b⟩], [], []⟩) else none
  | .run p =>
    match s.call p with
    | some (b, false) => some ((await p b s).1, ⟨[], [], if (await p b s).2 then [⟨p, b, s.buf b⟩] else []⟩)
    | _ => none
  | .kill p => some (s.setCall p ((s.call p).map fun c => (c.1, false)), .none)
  | .disk fault =>
    match s.drive with
    | .busy c => some ({ s with content := (c.exec s.content fault).1, drive := .done (c.exec s.content fault).2 },
        ⟨[], [fault], []⟩)
    | _ => none
  | .intr => (ideintr s).map fun t => (t, .none)

def Step (s : State) (l : Act × Seen) (t : State) : Prop := next s l.1 = some (t, l.2)

/-- After `ideinit` and `binit`, with these blocks on the disks. -/
def init (havedisk1 : Bool) (content : Content) : State where
  buf := fun _ => {}
  qnext := fun _ => none
  idequeue := none
  havedisk1 := havedisk1
  drive := .idle
  content := content
  call := fun _ => none

/-! ## One transfer at a time -/

/-- memide.c:39, behind its checks. -/
def memRw (d : Content) (x : Buf) : Content × Buf :=
  if x.dirty then (Function.update d (sector x) x.data, { x with valid := true, dirty := false })
  else (d, { x with data := d (sector x), valid := true })

/-- The same on a drive that may fail. A read that fails leaves the buffer's old bytes and marks them valid. -/
def rw (d : Content) (fault : Option (Option Block)) (x : Buf) : Content × Buf :=
  if x.dirty then (((cmd x).exec d fault).1, { x with valid := true, dirty := false })
  else (d, { x with data := ((cmd x).exec d fault).2.getD x.data, valid := true, dirty := false })

/-- Without an error it is what memide.c does. -/
theorem rw_none (d : Content) (x : Buf) : rw d none x = memRw d x := by
  unfold rw memRw cmd
  cases hd : x.dirty with
  | true => rfl
  | false =>
    obtain ⟨_, _, _, _, _, _, _⟩ := x
    cases hd
    rfl

/-- What bio.c takes `iderw` for, with the devices and blocks there are. -/
theorem bio_iderw {s s' : Bcache} {b : Ix} {d : Content} (hsec : sector (s.buf b) = (s.buf b).block) (hd : s.disk = d)
    (h : Bio.iderw b s = some s') : s'.disk = (rw d none (s.buf b)).1 ∧ s'.buf b = (rw d none (s.buf b)).2 := by
  subst hd
  rw [rw_none]
  unfold Bio.iderw at h
  unfold memRw
  rw [hsec]
  dsimp only at h
  split at h
  · rename_i hdirty
    cases h
    rw [if_pos hdirty]
    exact ⟨rfl, by simp [Bcache.set]⟩
  · rename_i hdirty
    split at h
    · cases h
    · cases h
      rw [if_neg hdirty]
      exact ⟨rfl, by simp [Bcache.set]⟩

/-- The disk after these requests. -/
def after (d : Content) (done : List (Req × Option (Option Block))) : Content :=
  done.foldl (fun d r => (rw d r.2 r.1.x).1) d

/-- The buffers they leave. -/
def results (d : Content) : List (Req × Option (Option Block)) → List Req
  | [] => []
  | r :: rs => { r.1 with x := (rw d r.2 r.1.x).2 } :: results (rw d r.2 r.1.x).1 rs

theorem after_concat (d : Content) (done : List (Req × Option (Option Block))) (r : Req × Option (Option Block)) :
    after d (done ++ [r]) = (rw (after d done) r.2 r.1.x).1 := by
  simp [after]

theorem results_concat (d : Content) (done : List (Req × Option (Option Block))) (r : Req × Option (Option Block)) :
    results d (done ++ [r]) = results d done ++ [{ r.1 with x := (rw (after d done) r.2 r.1.x).2 }] := by
  induction done generalizing d with
  | nil => rfl
  | cons q done ih => simp [results, ih, after]

end Xv6.Ide
