import CCppProjects.Lib.Owes
import CCppProjects.Lib.Run
import CCppProjects.Xv6.Ptable
/-
# Sleep locks (sleeplock.c), on spin locks (spinlock.c) and `sleep` and `wakeup` (proc.c)

A step is one instruction of the process that a CPU runs, or a step of that CPU's `scheduler`; any number of
CPUs run any number of processes. A kernel function is the list of its instructions, and a process has the
ones it has still to run.

| here | there |
| --- | --- |
| `Spin`                                     | `ptable.lock` and `lk->lk`; the CPU in `lk->cpu`, or none while `locked` is 0 |
| `Sleeplock`                                | `struct sleeplock` |
| `acquire`, `release`, `pushcli`, `popcli`  | spinlock.c:25, :47, :101, :113 |
| `acquiresleep`, `releasesleep`, `holdingsleep` | sleeplock.c:23, :35, :45 |
| `sleep`, `wakeup`, `kill`, `yield`, `sched` | proc.c:500, :551, :562, :468, :448 |
| `enter`, `dispatch`, `leave`               | the loop of `scheduler` (proc.c:399), which looks at the processes in any order |

`acquire` waits with interrupts as they were. A timer interrupt comes wherever they are on (trap.c:128). A
process calls `releasesleep` only on a lock that it has (`mine`).
-/
namespace Xv6.Sleep

open Locks
open Ptable (ProcState)
open Function (update update_self update_of_ne)

inductive Spin
  | ptable
  | lk (l : Nat)
  deriving DecidableEq

structure Sleeplock where
  locked : Bool
  pid : Nat

inductive Instr
  | acquire (k : Spin)
  | release (k : Spin)
  -- while (lk->locked) sleep(lk, &lk->lk)
  | test (l : Nat)
  | lock (l : Nat)
  | unlock (l : Nat)
  -- r = lk->locked
  | read (l : Nat)
  -- p->chan = chan; p->state = SLEEPING
  | sleeping (l : Nat)
  | runnable
  | sched
  -- the rest of sched, after swtch
  | restore
  | tidy
  | wakeup1 (l : Nat)
  | kill (q : Nat)
  | iret
  deriving DecidableEq

/-! ## The functions -/

def sleep (l : Nat) : List Instr :=
  [.acquire .ptable, .release (.lk l), .sleeping l, .sched, .restore, .tidy, .release .ptable, .acquire (.lk l)]

def wakeup (l : Nat) : List Instr := [.acquire .ptable, .wakeup1 l, .release .ptable]

def acquiresleep (l : Nat) : List Instr := [.acquire (.lk l), .test l, .lock l, .release (.lk l)]

def releasesleep (l : Nat) : List Instr := [.acquire (.lk l), .unlock l] ++ wakeup l ++ [.release (.lk l)]

def holdingsleep (l : Nat) : List Instr := [.acquire (.lk l), .read l, .release (.lk l)]

def kill (q : Nat) : List Instr := [.acquire .ptable, .kill q, .release .ptable]

/-- Called from `trap`. -/
def yield : List Instr := [.acquire .ptable, .runnable, .sched, .restore, .release .ptable, .iret]

/-- Where `allocproc` lets a new process begin. -/
def forkret : List Instr := [.release .ptable]

inductive Call
  | acquiresleep (l : Nat)
  | releasesleep (l : Nat)
  | holdingsleep (l : Nat)
  | kill (q : Nat)

def Call.code : Call → List Instr
  | .acquiresleep l => Sleep.acquiresleep l
  | .releasesleep l => Sleep.releasesleep l
  | .holdingsleep l => Sleep.holdingsleep l
  | .kill q => Sleep.kill q

/-! ## The state -/

/-- `intena` is the local variable of `sched`, `r` that of `holdingsleep`, which returns it; `mine` are the
sleep locks between the two calls. -/
structure Proc where
  state : ProcState
  chan : Option Nat
  killed : Bool
  intena : Bool
  r : Bool
  code : List Instr
  mine : Nat → Bool

/-- `fl` is FL_IF; `loop` says that the scheduler is between `acquire` and `release`. -/
structure Cpu where
  proc : Option Nat
  ncli : Int
  intena : Bool
  fl : Bool
  loop : Bool

structure State where
  spin : Spin → Option Nat
  slk : Nat → Sleeplock
  proc : Nat → Proc
  cpu : Nat → Cpu

/-- A CPU spins or has nothing of the kind to do, or panics. -/
inductive Stop
  | waits
  | panic (text : String)

def State.setProc (s : State) (p : Nat) (x : Proc) : State := { s with proc := update s.proc p x }
def State.setCpu (s : State) (c : Nat) (x : Cpu) : State := { s with cpu := update s.cpu c x }
def State.setSlk (s : State) (l : Nat) (x : Sleeplock) : State := { s with slk := update s.slk l x }
def State.setSpin (s : State) (k : Spin) (o : Option Nat) : State := { s with spin := update s.spin k o }

section

variable {s : State} {p q c : Nat} {x : Proc} {y : Cpu} {l : Nat} {z : Sleeplock} {k : Spin} {o : Option Nat}

@[simp] theorem setProc_self : (s.setProc p x).proc p = x := update_self ..
@[simp] theorem setProc_ne (h : q ≠ p) : (s.setProc p x).proc q = s.proc q := update_of_ne h ..
@[simp] theorem setProc_cpu : (s.setProc p x).cpu = s.cpu := rfl
@[simp] theorem setProc_slk : (s.setProc p x).slk = s.slk := rfl
@[simp] theorem setProc_spin : (s.setProc p x).spin = s.spin := rfl

@[simp] theorem setCpu_self : (s.setCpu c y).cpu c = y := update_self ..
@[simp] theorem setCpu_ne (h : q ≠ c) : (s.setCpu c y).cpu q = s.cpu q := update_of_ne h ..
theorem setCpu_eta : s.setCpu c (s.cpu c) = s := by simp [State.setCpu]
@[simp] theorem setCpu_proc : (s.setCpu c y).proc = s.proc := rfl
@[simp] theorem setCpu_slk : (s.setCpu c y).slk = s.slk := rfl
@[simp] theorem setCpu_spin : (s.setCpu c y).spin = s.spin := rfl

@[simp] theorem setSlk_proc : (s.setSlk l z).proc = s.proc := rfl
@[simp] theorem setSlk_cpu : (s.setSlk l z).cpu = s.cpu := rfl
@[simp] theorem setSlk_spin : (s.setSlk l z).spin = s.spin := rfl

@[simp] theorem setSpin_proc : (s.setSpin k o).proc = s.proc := rfl
@[simp] theorem setSpin_cpu : (s.setSpin k o).cpu = s.cpu := rfl
@[simp] theorem setSpin_slk : (s.setSpin k o).slk = s.slk := rfl

end

/-! ## Spin locks -/

def pushcli (x : Cpu) : Cpu :=
  { x with fl := false, intena := if x.ncli = 0 then x.fl else x.intena, ncli := x.ncli + 1 }

def popcli (x : Cpu) : Except Stop Cpu :=
  if x.fl then .error (.panic "popcli - interruptible")
  else if x.ncli - 1 < 0 then .error (.panic "popcli")
  else .ok { x with ncli := x.ncli - 1, fl := x.ncli - 1 = 0 && x.intena }

def acquire (c : Nat) (k : Spin) (s : State) : Except Stop State :=
  if s.spin k = some c then .error (.panic "acquire")
  else if s.spin k ≠ none then .error .waits
  else .ok ((s.setCpu c (pushcli (s.cpu c))).setSpin k (some c))

def release (c : Nat) (k : Spin) (s : State) : Except Stop State :=
  if s.spin k ≠ some c then .error (.panic "release")
  else (popcli (s.cpu c)).map fun x => (s.setCpu c x).setSpin k none

/-! ## Steps -/

/-- `p->state = RUNNABLE` in `wakeup1` and `kill`. -/
def Proc.wake (x : Proc) : Proc := if x.state = .SLEEPING then { x with state := .RUNNABLE } else x

/-- Process `p` on CPU `c` runs `i`, with `is` still to come. -/
def exec (c p : Nat) (i : Instr) (is : List Instr) (s : State) : Except Stop State :=
  let x := s.proc p
  let next := s.setProc p { x with code := is }
  match i with
  | .acquire k => acquire c k next
  | .release k => release c k next
  | .test l => .ok (if (s.slk l).locked then s.setProc p { x with code := sleep l ++ .test l :: is } else next)
  | .lock l => .ok ((s.setProc p { x with code := is, mine := update x.mine l true }).setSlk l ⟨true, p⟩)
  | .unlock l => .ok ((s.setProc p { x with code := is, mine := update x.mine l false }).setSlk l ⟨false, 0⟩)
  | .read l => .ok (s.setProc p { x with code := is, r := (s.slk l).locked })
  | .sleeping l => .ok (s.setProc p { x with code := is, chan := some l, state := .SLEEPING })
  | .runnable => .ok (s.setProc p { x with code := is, state := .RUNNABLE })
  | .sched =>
    if s.spin .ptable ≠ some c then .error (.panic "sched ptable.lock")
    else if (s.cpu c).ncli ≠ 1 then .error (.panic "sched locks")
    else if x.state = .RUNNING then .error (.panic "sched running")
    else if (s.cpu c).fl then .error (.panic "sched interruptible")
    else .ok ((s.setProc p { x with code := is, intena := (s.cpu c).intena }).setCpu c { s.cpu c with proc := none })
  | .restore => .ok (next.setCpu c { s.cpu c with intena := x.intena })
  | .tidy => .ok (s.setProc p { x with code := is, chan := none })
  | .wakeup1 l =>
    .ok { next with proc := fun q => if (next.proc q).chan = some l then (next.proc q).wake else next.proc q }
  | .kill q =>
    .ok (if (s.proc q).state = .UNUSED then next else next.setProc q { (next.proc q).wake with killed := true })
  | .iret => .ok (next.setCpu c { s.cpu c with fl := true })

inductive Event
  | instr (c : Nat)
  | call (c : Nat) (f : Call)
  | timer (c : Nat)
  | enter (c : Nat)
  | dispatch (c p : Nat)
  | leave (c : Nat)

/-- A call that the process may make. -/
def Call.allowed (x : Proc) : Call → Bool
  | .releasesleep l => x.mine l
  | _ => true

def step (s : State) : Event → Except Stop State
  | .instr c =>
    match (s.cpu c).proc with
    | none => .error .waits
    | some p =>
      match (s.proc p).code with
      | [] => .error .waits
      | i :: is => exec c p i is s
  | .call c f =>
    match (s.cpu c).proc with
    | none => .error .waits
    | some p =>
      if (s.proc p).code = [] ∧ f.allowed (s.proc p) then
        .ok (s.setProc p { s.proc p with code := f.code })
      else .error .waits
  | .timer c =>
    match (s.cpu c).proc with
    | none => .error .waits
    | some p =>
      if (s.cpu c).fl ∧ (s.proc p).state = .RUNNING then
        .ok ((s.setProc p { s.proc p with code := yield ++ (s.proc p).code }).setCpu c { s.cpu c with fl := false })
      else .error .waits
  | .enter c =>
    if (s.cpu c).proc = none ∧ (s.cpu c).loop = false then
      (acquire c .ptable (s.setCpu c { s.cpu c with fl := true })).map fun s => s.setCpu c { s.cpu c with loop := true }
    else .error .waits
  | .dispatch c p =>
    if (s.cpu c).proc = none ∧ (s.cpu c).loop ∧ (s.proc p).state = .RUNNABLE then
      .ok ((s.setProc p { s.proc p with state := .RUNNING }).setCpu c { s.cpu c with proc := some p })
    else .error .waits
  | .leave c =>
    if (s.cpu c).proc = none ∧ (s.cpu c).loop then
      (release c .ptable s).map fun s => s.setCpu c { s.cpu c with loop := false }
    else .error .waits

def Trans (s : State) (e : Event) (t : State) : Prop := step s e = .ok t

/-- The processes in `procs` are new, and no CPU is in its scheduler yet. -/
def State.init (procs : Nat → Bool) : State where
  spin _ := none
  slk _ := ⟨false, 0⟩
  proc p :=
    { state := if procs p then .RUNNABLE else .UNUSED, chan := none, killed := false, intena := false, r := false,
      code := forkret, mine := fun _ => false }
  cpu _ := { proc := none, ncli := 0, intena := false, fl := false, loop := false }

end Xv6.Sleep
