import CCppProjects.Lib.Run
import CCppProjects.Xv6.Defs
import Mathlib.Data.Fintype.Basic
/-
# The process table (proc.c)

A step is what one CPU does between taking `ptable.lock` and releasing it, or between two such sections of
`fork`, which holds no lock when `kalloc` or `copyuvm` fails and when it sets `parent`.

| here | there |
| --- | --- |
| `Slot` | `struct proc *` into `ptable.proc` |
| `Phase` | where in `fork` or `wait` a process stands |
| `first` | `for(p = ptable.proc; p < &ptable.proc[NPROC]; p++)` up to the first hit |
| `allocproc`, `fork`, `exit`, `wait`, `kill` | proc.c:76, :212, :293, :340, :561 |

Fewer than 2^31 processes are created, so `nextpid` is never negative. `exit` of `init` panics. What `fork`
copies and allocates and the number of CPUs are left out.
-/
namespace Xv6.Ptable

open Lts

instance : NeZero NPROC := ⟨by decide⟩

abbrev Slot := Fin NPROC

/-- proc.h:37 -/
inductive ProcState
  | UNUSED | EMBRYO | SLEEPING | RUNNABLE | RUNNING | ZOMBIE
  deriving DecidableEq, Repr

/-- The channels of `sleep`: `wait` sleeps on the process itself. -/
inductive Chan
  | proc (p : Slot)
  | other (a : Nat)
  deriving DecidableEq, Repr

/-- `kalloc np`: `allocproc` has found `np`. `copyuvm np`: `np` has a kernel stack. `made np`: `np` is a copy. -/
inductive Phase
  | user
  | kalloc (np : Slot)
  | copyuvm (np : Slot)
  | made (np : Slot)
  | wait
  deriving DecidableEq, Repr

structure Proc where
  state : ProcState
  pid : Int
  parent : Option Slot
  killed : Bool
  chan : Option Chan
  phase : Phase

/-- `hit`: the processes `kill` has been called on, `waited`: the children `wait` has returned. -/
structure State where
  proc : Slot → Proc
  nextpid : Int
  hit : List Int
  waited : List Int

def initproc : Slot := 0

def State.set (s : State) (i : Slot) (p : Proc) : State := { s with proc := Function.update s.proc i p }

def State.setPhase (s : State) (i : Slot) (ph : Phase) : State := s.set i { s.proc i with phase := ph }

/-- The first slot of the table that passes a test. -/
def first (s : State) (test : Proc → Bool) : Option Slot := (List.finRange NPROC).find? fun i => test (s.proc i)

/-- proc.c:76-98 -/
def allocproc (s : State) : Option Slot × State :=
  match first s fun p => p.state = .UNUSED with
  | none => (none, s)
  | some np =>
    (some np, { s.set np { s.proc np with state := .EMBRYO, pid := s.nextpid } with nextpid := s.nextpid + 1 })

/-- `p->state = UNUSED` when an allocation fails (proc.c:102, :227). -/
def unalloc (np : Slot) (s : State) : State := s.set np { s.proc np with state := .UNUSED }

/-- proc.c:550 -/
def wakeup1 (chan : Option Chan) (s : State) : State :=
  { s with proc := fun i =>
    if (s.proc i).state = .SLEEPING ∧ (s.proc i).chan = chan then { s.proc i with state := .RUNNABLE } else s.proc i }

/-- The loop of `exit`: children of `i` pass to `init`. -/
def abandon (i : Slot) (s : State) (j : Slot) : State :=
  if (s.proc j).parent = some i then
    let s := s.set j { s.proc j with parent := some initproc }
    if (s.proc j).state = .ZOMBIE then wakeup1 (some (.proc initproc)) s else s
  else s

/-- proc.c:319-340, after the files are closed. -/
def exit (i : Slot) (s : State) : State :=
  let s := wakeup1 ((s.proc i).parent.map .proc) s
  let s := (List.finRange NPROC).foldl (abandon i) s
  s.set i { s.proc i with state := .ZOMBIE }

inductive Wait
  | returns (r : Int)
  | sleeps
  deriving DecidableEq

/-- One round of the loop of `wait`. -/
def wait (i : Slot) (s : State) : Wait × State :=
  match first s fun p => p.parent = some i ∧ p.state = .ZOMBIE with
  | some j => (.returns (s.proc j).pid,
      (s.set j { s.proc j with pid := 0, parent := none, killed := false, state := .UNUSED }).setPhase i .user)
  | none =>
    if first s (fun p => p.parent = some i) = none ∨ (s.proc i).killed then (.returns (-1), s.setPhase i .user)
    else (.sleeps, s.set i { s.proc i with chan := some (.proc i), state := .SLEEPING, phase := .wait })

/-- proc.c:561 -/
def kill (pid : Int) (s : State) : Int × State :=
  match first s fun p => p.pid = pid with
  | none => (-1, s)
  | some i => (0, s.set i { s.proc i with
      killed := true, state := if (s.proc i).state = .SLEEPING then .RUNNABLE else (s.proc i).state })

/-- The steps of process `i`, the calls of `kill`, of `wakeup` and the choice of the scheduler; `ok` says whether
the allocation succeeds, `fault` is `killed = 1` in a trap. -/
inductive Op
  | fork (i : Slot)
  | kalloc (i : Slot) (ok : Bool)
  | copyuvm (i : Slot) (ok : Bool)
  | runnable (i : Slot)
  | exit (i : Slot)
  | wait (i : Slot)
  | kill (pid : Int)
  | sleep (i : Slot) (a : Nat)
  | wakeup (a : Nat)
  | yield (i : Slot)
  | sched (i : Slot)
  | fault (i : Slot)

def step (s : State) : Op → Option State
  | .fork i =>
    if (s.proc i).state = .RUNNING ∧ (s.proc i).phase = .user then
      match allocproc s with
      | (none, s) => some s
      | (some np, s) => some (s.setPhase i (.kalloc np))
    else none
  | .kalloc i ok =>
    match (s.proc i).phase with
    | .kalloc np =>
      if (s.proc i).state = .RUNNING then
        some (if ok then s.setPhase i (.copyuvm np) else (unalloc np s).setPhase i .user)
      else none
    | _ => none
  | .copyuvm i ok =>
    match (s.proc i).phase with
    | .copyuvm np =>
      if (s.proc i).state = .RUNNING then
        some (if ok then (s.set np { s.proc np with parent := some i }).setPhase i (.made np)
          else (unalloc np s).setPhase i .user)
      else none
    | _ => none
  | .runnable i =>
    match (s.proc i).phase with
    | .made np =>
      if (s.proc i).state = .RUNNING then some ((s.set np { s.proc np with state := .RUNNABLE }).setPhase i .user)
      else none
    | _ => none
  | .exit i =>
    if (s.proc i).state = .RUNNING ∧ (s.proc i).phase = .user ∧ i ≠ initproc then some (exit i s) else none
  | .wait i =>
    if (s.proc i).state = .RUNNING ∧ ((s.proc i).phase = .user ∨ (s.proc i).phase = .wait) then
      match wait i s with
      | (.returns r, s) => some (if r = -1 then s else { s with waited := r :: s.waited })
      | (.sleeps, s) => some s
    else none
  | .kill pid =>
    let hit := if (first s fun p => p.state ≠ .UNUSED ∧ p.pid = pid).isSome then pid :: s.hit else s.hit
    some { (kill pid s).2 with hit := hit }
  | .sleep i a =>
    if (s.proc i).state = .RUNNING ∧ (s.proc i).phase ≠ .wait then
      some (s.set i { s.proc i with state := .SLEEPING, chan := some (.other a) })
    else none
  | .wakeup a => some (wakeup1 (some (.other a)) s)
  | .yield i =>
    if (s.proc i).state = .RUNNING ∧ (s.proc i).phase ≠ .wait then some (s.set i { s.proc i with state := .RUNNABLE })
    else none
  | .sched i =>
    -- `sleep` tidies up `chan` before it gives back the lock
    if (s.proc i).state = .RUNNABLE then some (s.set i { s.proc i with state := .RUNNING, chan := none }) else none
  | .fault i =>
    if (s.proc i).state = .RUNNING ∧ (s.proc i).phase = .user then some (s.set i { s.proc i with killed := true })
    else none

def Trans (s : State) (op : Op) (s' : State) : Prop := step s op = some s'

/-- After `userinit`. -/
def State.init : State where
  proc i := if i = initproc then ⟨.RUNNABLE, 1, none, false, none, .user⟩ else ⟨.UNUSED, 0, none, false, none, .user⟩
  nextpid := 2
  hit := []
  waited := []

end Xv6.Ptable
