import CCppProjects.Lib.Ring
import CCppProjects.Lib.Run
/-
# Pipes (pipe.c)

A step is what one process does on the pipe while it holds `p->lock`: from `acquire`, or from waking up in
`sleep`, to the next `sleep` or to the return.

| here | there |
|---|---|
| `Pipe`, `PIPESIZE` | `struct pipe` (pipe.c:11-20), a char as a byte |
| `Call` | where a process stands in `piperead` or `pipewrite` |
| `copyIn`, `copyOut` | the `for` loops (pipe.c:83, :113) |
| `Sys` | the pipe, the processes on it and their `killed` |
| `Seen` | what a step stored in the pipe, copied to a reader's `addr` and returned |
-/
namespace Xv6

open Lts

def PIPESIZE : Nat := 512

instance : NeZero PIPESIZE := ⟨by decide⟩

/-- `nread` and `nwrite` are `uint`s that only grow and wrap. -/
structure Pipe where
  data : Fin PIPESIZE → UInt8
  nread : UInt32
  nwrite : UInt32
  readopen : Bool
  writeopen : Bool

namespace Pipe

/-- The index `n % PIPESIZE`. -/
def slot (n : UInt32) : Fin PIPESIZE := Fin.ofNat PIPESIZE n.toNat

variable (p : Pipe)

/-- The test pipe-full of pipe.c:84. -/
def full : Bool := p.nwrite == p.nread + UInt32.ofNat PIPESIZE

/-- The test of pipe.c:106 and :114. -/
def empty : Bool := p.nread == p.nwrite

/-- `p->data[p->nwrite++ % PIPESIZE] = b`. -/
def push (b : UInt8) : Pipe :=
  { p with data := Function.update p.data (slot p.nwrite) b, nwrite := p.nwrite + 1 }

/-- `p->data[p->nread++ % PIPESIZE]`. -/
def pop : UInt8 × Pipe := (p.data (slot p.nread), { p with nread := p.nread + 1 })

/-- `nwrite - nread`, modulo 2^32. -/
def count : Nat := (p.nwrite - p.nread).toNat

/-- The bytes stored but not yet read, as they lie in `data`. -/
def held : List UInt8 := Ring.held p.data p.nread.toNat p.count

/-- The channels a process on the pipe sleeps on: `&p->nread`, `&p->nwrite`. -/
inductive Chan
  | nread | nwrite
  deriving DecidableEq, Repr

/-- A call in progress; `asleep` until a `wakeup` on its channel or a `kill`. -/
inductive Call
  | idle
  | write (addr : Nat → UInt8) (n : Int) (i : Nat) (asleep : Bool)
  | read (n : Int) (asleep : Bool)

def Call.wake (c : Chan) : Call → Call
  | .write addr n i asleep => .write addr n i (asleep && c != .nwrite)
  | .read n asleep => .read n (asleep && c != .nread)
  | .idle => .idle

structure Sys where
  pipe : Pipe
  calls : Nat → Call
  killed : Nat → Bool

/-- What a step shows: the bytes stored, the bytes copied out and the value returned. -/
structure Seen where
  stored : List UInt8
  returned : List UInt8
  ret : Option Int
  deriving DecidableEq, Repr

def Seen.none : Seen := ⟨[], [], .none⟩

/-- How the loop of `pipewrite` ends: done, at a full pipe without reader (or killed), or asleep at byte `i`. -/
inductive Stop
  | done | broken | sleep (i : Nat)
  deriving DecidableEq, Repr

/-- The loop of `pipewrite` with `k` bytes to go, at byte `i` (pipe.c:83-93); also the bytes it stores. -/
def copyIn (addr : Nat → UInt8) (killed : Bool) : Nat → Nat → Pipe → Pipe × List UInt8 × Stop
  | 0, _, p => (p, [], .done)
  | k + 1, i, p =>
    if p.full then
      (p, [], if !p.readopen || killed then .broken else .sleep i)
    else
      let r := copyIn addr killed k (i + 1) (p.push (addr i))
      (r.1, addr i :: r.2.1, r.2.2)

/-- The loop of `piperead` for at most `k` bytes (pipe.c:113-117). -/
def copyOut : Nat → Pipe → Pipe × List UInt8
  | 0, p => (p, [])
  | k + 1, p =>
    if p.empty then (p, [])
    else
      let r := copyOut k p.pop.2
      (r.1, p.pop.1 :: r.2)

namespace Sys

variable (s : Sys)

def setCall (pid : Nat) (c : Call) : Sys := { s with calls := Function.update s.calls pid c }

/-- `wakeup(chan)`. -/
def wakeup (c : Chan) : Sys := { s with calls := fun pid => (s.calls pid).wake c }

/-- `pipewrite` from byte `i` on, with the lock held. -/
def pipewrite (pid : Nat) (addr : Nat → UInt8) (n : Int) (i : Nat) : Sys × Seen :=
  let r := copyIn addr (s.killed pid) (n.toNat - i) i s.pipe
  let s := { s with pipe := r.1 }
  match r.2.2 with
  | .done => ((s.setCall pid .idle).wakeup .nread, ⟨r.2.1, [], some n⟩)
  | .broken => (s.setCall pid .idle, ⟨r.2.1, [], some (-1)⟩)
  | .sleep i => ((s.wakeup .nread).setCall pid (.write addr n i true), ⟨r.2.1, [], none⟩)

/-- `piperead` at its waiting loop, with the lock held. -/
def piperead (pid : Nat) (n : Int) : Sys × Seen :=
  if s.pipe.empty && s.pipe.writeopen then
    if s.killed pid then (s.setCall pid .idle, ⟨[], [], some (-1)⟩)
    else (s.setCall pid (.read n true), .none)
  else
    let r := copyOut n.toNat s.pipe
    let s := { s with pipe := r.1 }
    ((s.setCall pid .idle).wakeup .nwrite, ⟨[], r.2, some r.2.length⟩)

/-- `pipeclose`, while the pipe is still allocated. -/
def pipeclose (writable : Bool) : Sys :=
  if writable then { s with pipe := { s.pipe with writeopen := false } }.wakeup .nread
  else { s with pipe := { s.pipe with readopen := false } }.wakeup .nwrite

/-- `kill`: the process is marked and wakes from any sleep. -/
def kill (pid : Nat) : Sys :=
  let wake : Call → Call := fun c => (c.wake .nread).wake .nwrite
  { s with killed := Function.update s.killed pid true, calls := Function.update s.calls pid (wake (s.calls pid)) }

end Sys

inductive Act
  | write (pid : Nat) (addr : Nat → UInt8) (n : Int)
  | read (pid : Nat) (n : Int)
  | run (pid : Nat)
  | close (writable : Bool)
  | kill (pid : Nat)

/-- One lock-protected step. A process runs on only when it is not asleep. -/
def next (s : Sys) : Act → Option (Sys × Seen)
  | .write pid addr n =>
    match s.calls pid with
    | .idle => some (s.setCall pid (.write addr n 0 false), .none)
    | _ => none
  | .read pid n =>
    match s.calls pid with
    | .idle => some (s.setCall pid (.read n false), .none)
    | _ => none
  | .run pid =>
    match s.calls pid with
    | .write addr n i false => some (s.pipewrite pid addr n i)
    | .read n false => some (s.piperead pid n)
    | _ => none
  | .close writable => some (s.pipeclose writable, .none)
  | .kill pid => some (s.kill pid, .none)

/-- A step with what it shows. -/
def Step (s : Sys) (l : Act × Seen) (t : Sys) : Prop := next s l.1 = some (t, l.2)

/-- After `pipealloc`, whatever `kalloc` left in `data`. -/
def init (data : Fin PIPESIZE → UInt8) : Sys where
  pipe := { data, nread := 0, nwrite := 0, readopen := true, writeopen := true }
  calls := fun _ => .idle
  killed := fun _ => false

def stored (ls : List (Act × Seen)) : List UInt8 := ls.flatMap fun l => l.2.stored

def returned (ls : List (Act × Seen)) : List UInt8 := ls.flatMap fun l => l.2.returned

/-- The step begins a call of the process. -/
def Act.starts (pid : Nat) : Act → Bool
  | .write p _ _ | .read p _ => p == pid
  | _ => false

/-- The step is one of the process in its call. -/
def Act.runs (pid : Nat) : Act → Bool
  | .run p => p == pid
  | _ => false

/-- What the steps of one process stored, copied out and returned. -/
def sent (pid : Nat) (ls : List (Act × Seen)) : List UInt8 := stored (ls.filter fun l => l.1.runs pid)

def got (pid : Nat) (ls : List (Act × Seen)) : List UInt8 := returned (ls.filter fun l => l.1.runs pid)

def rets (pid : Nat) (ls : List (Act × Seen)) : List Int := (ls.filter fun l => l.1.runs pid).filterMap fun l => l.2.ret

/-- The call, awake or not. -/
def Call.roused : Call → Call
  | .write addr n i _ => .write addr n i false
  | .read n _ => .read n false
  | .idle => .idle

/-- A call of `pipewrite` with the steps `bs` behind it: it has stored its first `m` bytes in order, all of
them when it returns `n`, and goes on with the next one unless it has returned. -/
structure Written (pid : Nat) (addr : Nat → UInt8) (n : Int) (m : Nat) (bs : List (Act × Seen)) (c : Call) : Prop where
  le : m ≤ n.toNat
  sent : sent pid bs = (List.range m).map addr
  underway : rets pid bs = [] → c.roused = .write addr n m false
  ended : ∀ v ∈ rets pid bs, v = n ∧ m = n.toNat ∨ v = -1 ∧ m < n.toNat

/-- A call of `piperead` with the steps `bs` behind it: it has got nothing until it returns, and then what it says. -/
structure Read (pid : Nat) (n : Int) (bs : List (Act × Seen)) (c : Call) : Prop where
  sent : sent pid bs = []
  underway : rets pid bs = [] → got pid bs = [] ∧ c.roused = .read n false
  ended : ∀ v ∈ rets pid bs, v = -1 ∧ got pid bs = [] ∨ v = (got pid bs).length ∧ (got pid bs).length ≤ n.toNat

/-- Whose bytes went in and where they came out. -/
structure Calls (ls : List (Act × Seen)) (t : Sys) : Prop where
  only : ∀ l ∈ ls, (∀ pid, l.1.runs pid = false) → l.2 = .none
  before : ∀ pid, (∀ l ∈ ls, l.1.starts pid = false) → sent pid ls = [] ∧ got pid ls = [] ∧ rets pid ls = []
  write : ∀ pid addr n as seen bs, ls = as ++ (.write pid addr n, seen) :: bs → (∀ l ∈ bs, l.1.starts pid = false) →
    ∃ m, Written pid addr n m bs (t.calls pid)
  read : ∀ pid n as seen bs, ls = as ++ (.read pid n, seen) :: bs → (∀ l ∈ bs, l.1.starts pid = false) →
    Read pid n bs (t.calls pid)

/-! ## One byte -/

variable {p : Pipe}

theorem full_iff : p.full = true ↔ p.count = PIPESIZE := by
  unfold full count
  rw [beq_iff_eq]
  constructor
  · intro h
    have hsub : p.nwrite - p.nread = UInt32.ofNat PIPESIZE := by grind
    rw [hsub]
    rfl
  · intro h
    have hsub : p.nwrite - p.nread = UInt32.ofNat PIPESIZE := UInt32.toNat_inj.1 h
    grind

theorem empty_iff : p.empty = true ↔ p.count = 0 := by
  unfold empty count
  rw [beq_iff_eq]
  constructor
  · intro h
    rw [h]
    simp
  · intro h
    have hsub : p.nwrite - p.nread = 0 := UInt32.toNat_inj.1 h
    grind

/-- 2^32 is a multiple of PIPESIZE: a wrap of either counter moves no slot. -/
theorem slot_nwrite (p : Pipe) : slot p.nwrite = Fin.ofNat PIPESIZE (p.nread.toNat + p.count) := by
  have hr := p.nread.toNat_lt
  have hw := p.nwrite.toNat_lt
  ext
  simp only [slot, Fin.ofNat, count, UInt32.toNat_sub, PIPESIZE]
  omega

theorem count_push (b : UInt8) (h : p.count < PIPESIZE) : (p.push b).count = p.count + 1 := by
  have hsub : p.nwrite + 1 - p.nread = (p.nwrite - p.nread) + 1 := by grind
  unfold push count at *
  rw [hsub, UInt32.toNat_add]
  simp only [PIPESIZE] at h
  change ((p.nwrite - p.nread).toNat + 1) % 2 ^ 32 = _
  omega

theorem count_pop (h : p.count ≠ 0) : p.pop.2.count + 1 = p.count := by
  have hsub : p.nwrite - (p.nread + 1) = (p.nwrite - p.nread) - 1 := by grind
  have hlt := (p.nwrite - p.nread).toNat_lt
  unfold pop count at *
  rw [hsub, UInt32.toNat_sub]
  change (2 ^ 32 - 1 + (p.nwrite - p.nread).toNat) % 2 ^ 32 + 1 = _
  omega

/-- A byte stored in a pipe that is not full goes behind the bytes held. -/
theorem held_push (b : UInt8) (h : p.count < PIPESIZE) : (p.push b).held = p.held ++ [b] := by
  unfold held
  rw [count_push b h, show (p.push b).data = Function.update p.data (slot p.nwrite) b from rfl, slot_nwrite]
  exact Ring.held_push p.data b h

/-- A byte taken from a pipe that is not empty is the first of the bytes held. -/
theorem held_pop (h : p.count ≠ 0) : p.held = p.pop.1 :: p.pop.2.held := by
  unfold held
  rw [← count_pop h, Ring.held_succ]
  congr 1
  apply Ring.held_congr
  change (p.nread.toNat + 1) % PIPESIZE = (p.nread + 1).toNat % PIPESIZE
  rw [UInt32.toNat_add]
  simp only [PIPESIZE]
  change _ = (p.nread.toNat + 1) % 2 ^ 32 % 512
  omega

theorem held_length (p : Pipe) : p.held.length = p.count := Ring.held_length ..

/-! ## The loops -/

/-- The loop of `pipewrite` adds what it stores to the end. -/
theorem copyIn_spec (addr : Nat → UInt8) (killed : Bool) : ∀ (k i : Nat) (p : Pipe), p.count ≤ PIPESIZE →
    (copyIn addr killed k i p).1.count ≤ PIPESIZE ∧
      (copyIn addr killed k i p).1.held = p.held ++ (copyIn addr killed k i p).2.1
  | 0, i, p, hp => ⟨hp, by simp [copyIn]⟩
  | k + 1, i, p, hp => by
    by_cases hf : p.full = true
    · rw [copyIn, if_pos hf]
      exact ⟨hp, by simp⟩
    · have hlt : p.count < PIPESIZE := by
        have := mt Pipe.full_iff.2 hf
        omega
      obtain ⟨hb, hh⟩ := copyIn_spec addr killed k (i + 1) (p.push (addr i)) (by rw [Pipe.count_push _ hlt]; omega)
      rw [copyIn, if_neg hf]
      refine ⟨hb, ?_⟩
      rw [hh, Pipe.held_push _ hlt, List.append_assoc]
      rfl

/-- It stores the caller's bytes from `i` on: all of them when it is done, those before `j` when it sleeps at `j`. -/
theorem copyIn_stored (addr : Nat → UInt8) (killed : Bool) : ∀ (k i : Nat) (p : Pipe),
    ∃ m ≤ k, (copyIn addr killed k i p).2.1 = (List.range' i m).map addr ∧
      ((copyIn addr killed k i p).2.2 = .done ∧ m = k ∨ (copyIn addr killed k i p).2.2 = .broken ∧ m < k ∨
        (copyIn addr killed k i p).2.2 = .sleep (i + m))
  | 0, i, p => ⟨0, le_rfl, by simp [copyIn], .inl ⟨rfl, rfl⟩⟩
  | k + 1, i, p => by
    by_cases hf : p.full = true
    · rw [copyIn, if_pos hf]
      refine ⟨0, by omega, by simp, .inr ?_⟩
      split
      · exact .inl ⟨rfl, by omega⟩
      · exact .inr rfl
    · obtain ⟨m, hm, hs, hstop⟩ := copyIn_stored addr killed k (i + 1) (p.push (addr i))
      rw [copyIn, if_neg hf]
      refine ⟨m + 1, by omega, ?_, ?_⟩
      · rw [List.range'_succ, List.map_cons, ← hs]
      · rcases hstop with ⟨hd, rfl⟩ | ⟨hb, hlt⟩ | hj
        · exact .inl ⟨hd, rfl⟩
        · exact .inr (.inl ⟨hb, by omega⟩)
        · exact .inr (.inr (hj.trans (by rw [Nat.add_right_comm, Nat.add_assoc])))

/-- The loop of `piperead` takes what it copies out from the front. -/
theorem copyOut_spec : ∀ (k : Nat) (p : Pipe), p.count ≤ PIPESIZE →
    (copyOut k p).1.count ≤ PIPESIZE ∧ p.held = (copyOut k p).2 ++ (copyOut k p).1.held
  | 0, p, hp => ⟨hp, rfl⟩
  | k + 1, p, hp => by
    by_cases he : p.empty = true
    · rw [copyOut, if_pos he]
      exact ⟨hp, rfl⟩
    · have hne : p.count ≠ 0 := mt Pipe.empty_iff.2 he
      have hpop := Pipe.count_pop hne
      obtain ⟨hb, hh⟩ := copyOut_spec k p.pop.2 (by omega)
      rw [copyOut, if_neg he]
      refine ⟨hb, ?_⟩
      rw [Pipe.held_pop hne, hh]
      rfl

theorem copyOut_length : ∀ (k : Nat) (p : Pipe), (copyOut k p).2.length ≤ k
  | 0, _ => Nat.le_refl 0
  | k + 1, p => by
    unfold copyOut
    split
    · exact Nat.zero_le _
    · exact Nat.succ_le_succ (copyOut_length k p.pop.2)

/-! ## Steps and runs -/

theorem pipewrite_spec {s : Sys} (pid : Nat) (addr : Nat → UInt8) (n : Int) (i : Nat) (hs : s.pipe.count ≤ PIPESIZE) :
    (s.pipewrite pid addr n i).1.pipe.count ≤ PIPESIZE ∧
      s.pipe.held ++ (s.pipewrite pid addr n i).2.stored =
        (s.pipewrite pid addr n i).2.returned ++ (s.pipewrite pid addr n i).1.pipe.held := by
  obtain ⟨hb, hh⟩ := copyIn_spec addr (s.killed pid) (n.toNat - i) i s.pipe hs
  unfold Sys.pipewrite
  generalize copyIn addr (s.killed pid) (n.toNat - i) i s.pipe = r at hb hh
  obtain ⟨p, bs, stop⟩ := r
  cases stop <;> exact ⟨hb, hh.symm⟩

theorem piperead_spec {s : Sys} (pid : Nat) (n : Int) (hs : s.pipe.count ≤ PIPESIZE) :
    (s.piperead pid n).1.pipe.count ≤ PIPESIZE ∧
      s.pipe.held ++ (s.piperead pid n).2.stored = (s.piperead pid n).2.returned ++ (s.piperead pid n).1.pipe.held := by
  obtain ⟨hb, hh⟩ := copyOut_spec n.toNat s.pipe hs
  unfold Sys.piperead
  split
  · split <;> exact ⟨hs, List.append_nil _⟩
  · exact ⟨hb, (List.append_nil _).trans hh⟩

/-- **One step**: what was held and what is stored now is what is returned now and what is held then. -/
theorem step_held {s t : Sys} {l : Act × Seen} (hs : s.pipe.count ≤ PIPESIZE) (h : Step s l t) :
    t.pipe.count ≤ PIPESIZE ∧ s.pipe.held ++ l.2.stored = l.2.returned ++ t.pipe.held := by
  obtain ⟨a, seen⟩ := l
  unfold Step at h
  cases a with
  | write pid addr n =>
    simp only [next] at h
    split at h
    · cases h
      exact ⟨hs, List.append_nil _⟩
    · cases h
  | read pid n =>
    simp only [next] at h
    split at h
    · cases h
      exact ⟨hs, List.append_nil _⟩
    · cases h
  | run pid =>
    simp only [next] at h
    split at h
    · rename_i addr n i _
      have hspec := pipewrite_spec pid addr n i hs
      rwa [Option.some.inj h] at hspec
    · rename_i n _
      have hspec := piperead_spec pid n hs
      rwa [Option.some.inj h] at hspec
    · cases h
  | close writable =>
    cases h
    cases writable <;> exact ⟨hs, List.append_nil _⟩
  | kill pid =>
    cases h
    exact ⟨hs, List.append_nil _⟩

theorem run_held {s t : Sys} {ls : List (Act × Seen)} (h : Run Step s ls t) (hs : s.pipe.count ≤ PIPESIZE) :
    t.pipe.count ≤ PIPESIZE ∧ s.pipe.held ++ stored ls = returned ls ++ t.pipe.held := by
  induction h with
  | nil => exact ⟨hs, List.append_nil _⟩
  | @cons s u t l ls hstep _ ih =>
    obtain ⟨hu, h1⟩ := step_held hs hstep
    obtain ⟨ht, h2⟩ := ih hu
    refine ⟨ht, ?_⟩
    calc s.pipe.held ++ (l.2.stored ++ stored ls)
        = l.2.returned ++ (u.pipe.held ++ stored ls) := by rw [← List.append_assoc, h1, List.append_assoc]
      _ = (l.2.returned ++ returned ls) ++ t.pipe.held := by rw [h2, List.append_assoc]

/-! ## One process -/

theorem roused_wake (c : Call) (ch : Chan) : (c.wake ch).roused = c.roused := by cases c <;> rfl

theorem eq_of_roused_write {c : Call} {addr : Nat → UInt8} {n : Int} {i : Nat} (h : c.roused = .write addr n i false) :
    ∃ asleep, c = .write addr n i asleep := by
  cases c <;> cases h
  exact ⟨_, rfl⟩

theorem eq_of_roused_read {c : Call} {n : Int} (h : c.roused = .read n false) : ∃ asleep, c = .read n asleep := by
  cases c <;> cases h
  exact ⟨_, rfl⟩

theorem eq_of_roused_idle {c : Call} (h : c.roused = .idle) : c = .idle := by
  cases c <;> cases h
  rfl

theorem pipewrite_other {s : Sys} {pid p : Nat} (addr : Nat → UInt8) (n : Int) (i : Nat) (h : pid ≠ p) :
    (((s.pipewrite p addr n i).1).calls pid).roused = (s.calls pid).roused := by
  unfold Sys.pipewrite
  dsimp only
  split <;> simp [Sys.setCall, Sys.wakeup, Function.update_of_ne h, roused_wake]

theorem piperead_other {s : Sys} {pid p : Nat} (n : Int) (h : pid ≠ p) :
    (((s.piperead p n).1).calls pid).roused = (s.calls pid).roused := by
  unfold Sys.piperead
  dsimp only
  split
  · split <;> simp [Sys.setCall, Function.update_of_ne h]
  · simp [Sys.setCall, Sys.wakeup, Function.update_of_ne h, roused_wake]

/-- A step of others leaves a process where it is in its call. -/
theorem step_other {s t : Sys} {l : Act × Seen} {pid : Nat} (h : Step s l t) (hnew : l.1.starts pid = false)
    (hrun : l.1.runs pid = false) : (t.calls pid).roused = (s.calls pid).roused := by
  obtain ⟨a, seen⟩ := l
  unfold Step at h
  cases a with
  | write p addr n =>
    have hne : pid ≠ p := fun he => by simp [Act.starts, he] at hnew
    simp only [next] at h
    split at h
    · cases h
      simp [Sys.setCall, Function.update_of_ne hne]
    · cases h
  | read p n =>
    have hne : pid ≠ p := fun he => by simp [Act.starts, he] at hnew
    simp only [next] at h
    split at h
    · cases h
      simp [Sys.setCall, Function.update_of_ne hne]
    · cases h
  | run p =>
    have hne : pid ≠ p := fun he => by simp [Act.runs, he] at hrun
    simp only [next] at h
    split at h
    · have hspec := pipewrite_other (s := s) (p := p) ‹_› ‹_› ‹_› hne
      rwa [Option.some.inj h] at hspec
    · have hspec := piperead_other (s := s) (p := p) ‹_› hne
      rwa [Option.some.inj h] at hspec
    · cases h
  | close writable =>
    cases h
    cases writable <;> exact roused_wake _ _
  | kill p =>
    cases h
    by_cases hp : pid = p
    · subst hp
      simp [Sys.kill, roused_wake]
    · simp [Sys.kill, Function.update_of_ne hp]

/-- Only a step of a process in its call shows anything. -/
theorem step_only {s t : Sys} {l : Act × Seen} (h : Step s l t) (hrun : ∀ pid, l.1.runs pid = false) : l.2 = .none := by
  obtain ⟨a, seen⟩ := l
  unfold Step at h
  cases a with
  | write p addr n =>
    simp only [next] at h
    split at h <;> cases h
    rfl
  | read p n =>
    simp only [next] at h
    split at h <;> cases h
    rfl
  | run p => exact absurd (hrun p) (by simp [Act.runs])
  | close writable =>
    cases h
    rfl
  | kill p =>
    cases h
    rfl

section Filtered

variable {pid : Nat} {l : Act × Seen}

theorem cons_of_not (ls : List (Act × Seen)) (h : l.1.runs pid = false) :
    sent pid (l :: ls) = sent pid ls ∧ got pid (l :: ls) = got pid ls ∧ rets pid (l :: ls) = rets pid ls := by
  simp [sent, got, rets, h]

theorem cons_of_runs (ls : List (Act × Seen)) (h : l.1.runs pid = true) :
    sent pid (l :: ls) = l.2.stored ++ sent pid ls ∧ got pid (l :: ls) = l.2.returned ++ got pid ls ∧
      rets pid (l :: ls) = l.2.ret.toList ++ rets pid ls := by
  refine ⟨by simp [sent, stored, h], by simp [got, returned, h], ?_⟩
  cases hr : l.2.ret <;> simp [rets, h, hr]

theorem act_of_runs (h : l.1.runs pid = true) : l.1 = .run pid := by
  obtain ⟨a, seen⟩ := l
  cases a <;> simp_all [Act.runs]

end Filtered

/-- A process in no call does nothing. -/
theorem run_idle {s t : Sys} {pid : Nat} {bs : List (Act × Seen)} (h : Run Step s bs t)
    (hnew : ∀ l ∈ bs, l.1.starts pid = false) (hc : s.calls pid = .idle) :
    t.calls pid = .idle ∧ sent pid bs = [] ∧ got pid bs = [] ∧ rets pid bs = [] := by
  induction h with
  | nil => exact ⟨hc, rfl, rfl, rfl⟩
  | @cons s u t l bs hstep _ ih =>
    cases hrun : l.1.runs pid with
    | false =>
      obtain ⟨h1, h2, h3⟩ := cons_of_not bs hrun
      rw [h1, h2, h3]
      refine ih (fun l hl => hnew l (List.mem_cons_of_mem _ hl)) (eq_of_roused_idle ?_)
      rw [step_other hstep (hnew l List.mem_cons_self) hrun, hc]
      rfl
    | true =>
      have hact := act_of_runs hrun
      obtain ⟨a, seen⟩ := l
      obtain rfl : a = .run pid := hact
      simp [Step, next, hc] at hstep

/-- One step of `pipewrite`, from byte `i` on. -/
theorem pipewrite_call {s : Sys} (pid : Nat) (addr : Nat → UInt8) (n : Int) {i : Nat} (hi : i ≤ n.toNat) :
    ∃ m, i ≤ m ∧ m ≤ n.toNat ∧ (s.pipewrite pid addr n i).2.stored = (List.range' i (m - i)).map addr ∧
      (((s.pipewrite pid addr n i).2.ret = none ∧ (s.pipewrite pid addr n i).1.calls pid = .write addr n m true) ∨
        (s.pipewrite pid addr n i).1.calls pid = .idle ∧
          ∃ v, (s.pipewrite pid addr n i).2.ret = some v ∧ (v = n ∧ m = n.toNat ∨ v = -1 ∧ m < n.toNat)) := by
  obtain ⟨m, hm, hstored, hstop⟩ := copyIn_stored addr (s.killed pid) (n.toNat - i) i s.pipe
  unfold Sys.pipewrite
  generalize copyIn addr (s.killed pid) (n.toNat - i) i s.pipe = r at hstored hstop
  obtain ⟨p, bytes, stop⟩ := r
  refine ⟨i + m, by omega, by omega, ?_, ?_⟩
  · rw [Nat.add_sub_cancel_left, ← hstored]
    cases stop <;> rfl
  · rcases hstop with ⟨rfl, hmk⟩ | ⟨rfl, hlt⟩ | rfl
    · exact .inr ⟨by simp [Sys.setCall, Sys.wakeup, Call.wake], n, rfl, .inl ⟨rfl, by omega⟩⟩
    · exact .inr ⟨by simp [Sys.setCall], -1, rfl, .inr ⟨rfl, by omega⟩⟩
    · exact .inl ⟨rfl, by simp [Sys.setCall]⟩

/-- What a write stores from byte `i` on. -/
theorem run_write {s t : Sys} {pid : Nat} {bs : List (Act × Seen)} {addr : Nat → UInt8} {n : Int} (h : Run Step s bs t)
    (hnew : ∀ l ∈ bs, l.1.starts pid = false) : ∀ {i : Nat}, i ≤ n.toNat →
    (s.calls pid).roused = .write addr n i false →
    ∃ m, i ≤ m ∧ m ≤ n.toNat ∧ sent pid bs = (List.range' i (m - i)).map addr ∧
      (rets pid bs = [] → (t.calls pid).roused = .write addr n m false) ∧
      ∀ v ∈ rets pid bs, v = n ∧ m = n.toNat ∨ v = -1 ∧ m < n.toNat := by
  induction h with
  | nil => exact fun {i} hi hc => ⟨i, Nat.le_refl i, hi, by simp [sent, stored], fun _ => hc, by simp [rets]⟩
  | @cons s u t l bs hstep hrest ih =>
    intro i hi hc
    have hnew' : ∀ l ∈ bs, l.1.starts pid = false := fun l hl => hnew l (List.mem_cons_of_mem _ hl)
    cases hrun : l.1.runs pid with
    | false =>
      obtain ⟨h1, -, h3⟩ := cons_of_not bs hrun
      rw [h1, h3]
      exact ih hnew' hi (by rw [step_other hstep (hnew l List.mem_cons_self) hrun, hc])
    | true =>
      have hact := act_of_runs hrun
      obtain ⟨h1, -, h3⟩ := cons_of_runs bs hrun
      rw [h1, h3]
      obtain ⟨a, seen⟩ := l
      obtain rfl : a = .run pid := hact
      obtain ⟨asleep, hcall⟩ := eq_of_roused_write hc
      simp only [Step, next, hcall] at hstep
      cases asleep with
      | true => cases hstep
      | false =>
        obtain ⟨m, him, hmn, hstored, hend⟩ := pipewrite_call (s := s) pid addr n hi
        rw [Option.some.inj hstep] at hstored hend
        rcases hend with ⟨hret, hcall'⟩ | ⟨hcall', v, hret, hv⟩
        · obtain ⟨k, hmk, hkn, hsent, hund, hended⟩ := ih hnew' hmn (by rw [hcall']; rfl)
          refine ⟨k, by omega, hkn, ?_, ?_, ?_⟩
          · rw [hstored, hsent, ← List.map_append]
            congr 1
            rw [show k - i = (m - i) + (k - m) by omega, ← List.range'_append_1]
            congr 2
            omega
          · rw [hret]
            exact hund
          · rw [hret]
            exact hended
        · obtain ⟨-, hsent, -, hrets⟩ := run_idle hrest hnew' hcall'
          refine ⟨m, him, hmn, by rw [hstored, hsent, List.append_nil], ?_, ?_⟩
          · rw [hret]
            exact nofun
          · rw [hret, hrets]
            exact fun w hw => (List.mem_singleton.1 hw) ▸ hv

/-- One step of `piperead`. -/
theorem piperead_call {s : Sys} (pid : Nat) (n : Int) : (s.piperead pid n).2.stored = [] ∧
    ((s.piperead pid n).2.ret = none ∧ (s.piperead pid n).2.returned = [] ∧
    (s.piperead pid n).1.calls pid = .read n true ∨
      (s.piperead pid n).1.calls pid = .idle ∧ ∃ v, (s.piperead pid n).2.ret = some v ∧
        (v = -1 ∧ (s.piperead pid n).2.returned = [] ∨
          v = (s.piperead pid n).2.returned.length ∧ (s.piperead pid n).2.returned.length ≤ n.toNat)) := by
  unfold Sys.piperead
  split
  · split
    · exact ⟨rfl, .inr ⟨by simp [Sys.setCall], -1, rfl, .inl ⟨rfl, rfl⟩⟩⟩
    · exact ⟨rfl, .inl ⟨rfl, rfl, by simp [Sys.setCall]⟩⟩
  · refine ⟨rfl, .inr ⟨by simp [Sys.setCall, Sys.wakeup, Call.wake], _, rfl, .inr ⟨rfl, copyOut_length _ _⟩⟩⟩

theorem run_read {s t : Sys} {pid : Nat} {bs : List (Act × Seen)} {n : Int} (h : Run Step s bs t)
    (hnew : ∀ l ∈ bs, l.1.starts pid = false) (hc : (s.calls pid).roused = .read n false) :
    Read pid n bs (t.calls pid) := by
  induction h with
  | nil => exact ⟨rfl, fun _ => ⟨rfl, hc⟩, by simp [rets]⟩
  | @cons s u t l bs hstep hrest ih =>
    have hnew' : ∀ l ∈ bs, l.1.starts pid = false := fun l hl => hnew l (List.mem_cons_of_mem _ hl)
    cases hrun : l.1.runs pid with
    | false =>
      obtain ⟨h1, h2, h3⟩ := cons_of_not bs hrun
      obtain ⟨i1, i2, i3⟩ := ih hnew' (by rw [step_other hstep (hnew l List.mem_cons_self) hrun, hc])
      exact ⟨by rw [h1, i1], by rwa [h2, h3], by rwa [h2, h3]⟩
    | true =>
      have hact := act_of_runs hrun
      obtain ⟨h1, h2, h3⟩ := cons_of_runs bs hrun
      obtain ⟨a, seen⟩ := l
      obtain rfl : a = .run pid := hact
      obtain ⟨asleep, hcall⟩ := eq_of_roused_read hc
      simp only [Step, next, hcall] at hstep
      cases asleep with
      | true => cases hstep
      | false =>
        obtain ⟨hstored, hend⟩ := piperead_call (s := s) pid n
        rw [Option.some.inj hstep] at hstored hend
        rcases hend with ⟨hret, hnone, hcall'⟩ | ⟨hcall', v, hret, hv⟩
        · obtain ⟨i1, i2, i3⟩ := ih hnew' (by rw [hcall']; rfl)
          refine ⟨by rw [h1, hstored, i1]; rfl, ?_, ?_⟩
          · rw [h2, h3, hret, hnone]
            exact i2
          · rw [h2, h3, hret, hnone]
            exact i3
        · obtain ⟨-, hsent, hgot, hrets⟩ := run_idle hrest hnew' hcall'
          refine ⟨by rw [h1, hstored, hsent]; rfl, ?_, ?_⟩
          · rw [h3, hret]
            exact nofun
          · rw [h2, h3, hret, hgot, hrets, List.append_nil, List.append_nil]
            exact fun w hw => (List.mem_singleton.1 hw) ▸ hv

/-- Every call of every process in a run that begins with none. -/
theorem run_calls {s t : Sys} {ls : List (Act × Seen)} (h : Run Step s ls t)
    (hs : ∀ pid, s.calls pid = .idle) : Calls ls t := by
  constructor
  · intro l hl
    obtain ⟨as, bs, rfl⟩ := List.append_of_mem hl
    obtain ⟨u, v, -, huv, -⟩ := h.split
    exact step_only huv
  · exact fun pid hnew => (run_idle h hnew (hs pid)).2
  · rintro pid addr n as seen bs rfl hnew
    obtain ⟨u, v, -, huv, hv⟩ := h.split
    have hcall : (v.calls pid).roused = .write addr n 0 false := by
      simp only [Step, next] at huv
      split at huv <;> cases huv
      simp [Sys.setCall, Call.roused]
    obtain ⟨m, -, hmn, hsent, hund, hended⟩ := run_write hv hnew (Nat.zero_le n.toNat) hcall
    exact ⟨m, hmn, by rw [hsent, List.range_eq_range', Nat.sub_zero], hund, hended⟩
  · rintro pid n as seen bs rfl hnew
    obtain ⟨u, v, -, huv, hv⟩ := h.split
    refine run_read hv hnew ?_
    simp only [Step, next] at huv
    split at huv <;> cases huv
    simp [Sys.setCall, Call.roused]

/-- **A pipe is a FIFO.** After any steps of any readers and writers: every write has stored its bytes in
order up to where it stands or has returned, every read got what it returned, the bytes returned are the first
of the bytes stored, those held are the rest, and the counters are that many apart. -/
theorem pipe_fifo {data : Fin PIPESIZE → UInt8} {ls : List (Act × Seen)} {t : Sys} (h : Run Step (init data) ls t) :
    Calls ls t ∧ returned ls <+: stored ls ∧ stored ls = returned ls ++ t.pipe.held ∧
      t.pipe.held.length = (t.pipe.nwrite - t.pipe.nread).toNat ∧ (t.pipe.nwrite - t.pipe.nread).toNat ≤ PIPESIZE := by
  have hinit : (init data).pipe.count = 0 := by simp [count, init]
  obtain ⟨hb, hh⟩ := run_held h (by rw [hinit]; exact Nat.zero_le _)
  have hnil : (init data).pipe.held = [] := List.length_eq_zero_iff.1 (by rw [held_length, hinit])
  rw [hnil, List.nil_append] at hh
  exact ⟨run_calls h fun _ => rfl, ⟨t.pipe.held, hh.symm⟩, hh, t.pipe.held_length, hb⟩

/-- Process 2 finds the pipe empty and sleeps. Process 1 writes a byte more than fits and sleeps, as process 3 does
behind it; process 2 reads two bytes, and both go on. -/
def pipeful : List (Act × Seen) :=
  let addr : Nat → UInt8 := fun i => UInt8.ofNat (7 + i)
  [(.read 2 2, .none), (.run 2, .none), (.write 1 addr 513, .none), (.run 1, ⟨(List.range 512).map addr, [], none⟩),
    (.write 3 (fun _ => 1) 1, .none), (.run 3, .none), (.run 2, ⟨[], [7, 8], some 2⟩),
    (.run 1, ⟨[addr 512], [], some 513⟩), (.run 3, ⟨[1], [], some 1⟩)]

set_option maxRecDepth 20000 in
theorem pipeful_run : ∃ t, Run Step (init fun _ => 0) pipeful t :=
  ⟨_, .cons rfl (.cons rfl (.cons rfl (.cons rfl (.cons rfl (.cons rfl (.cons rfl (.cons rfl (.cons rfl (.nil _)))))))))⟩

theorem pipe_fifo_pipeful : ∃ t, Run Step (init fun _ => 0) pipeful t ∧ Calls pipeful t ∧
    returned pipeful <+: stored pipeful ∧
    stored pipeful = returned pipeful ++ t.pipe.held ∧ t.pipe.held.length = (t.pipe.nwrite - t.pipe.nread).toNat ∧
    (t.pipe.nwrite - t.pipe.nread).toNat ≤ PIPESIZE := by
  obtain ⟨t, ht⟩ := pipeful_run
  exact ⟨t, ht, pipe_fifo ht⟩

end Pipe

end Xv6
