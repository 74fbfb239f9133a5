import CCppProjects.Lib.Chain
import CCppProjects.Lib.Sat
/-
# The process list of the shell (lab6/task4/myshell.c:111-185)

| here | there |
|---|---|
| `CmdLine` | the fields of `cmdLine` that are read (LineParser.h); a cell owns its strings |
| `Process` | `struct process` (`:21-26`); a `pid` is what `fork` gave the parent or the child |
| `Outcome`, `waitpid` | the answers of `waitpid(pid, &status, WNOHANG)`, which writes `status` when it reports a child |
| `updateProcessList` | `:111-131` |
| `printProcessList` | `:141-185` |

`waitpid` puts the wait status where the shell keeps its own. A stopped, a continued and a missing child are then
translated; of a child that has exited or was killed the wait status stays, which is never `TERMINATED`
(`wait_ended`). So the list is truthful exactly when no such child is met (`processList_truthful_iff`).
-/
namespace Shell

open Heap

/-! ## The data -/

inductive Fault
  | freed    -- an object that is not live, or a null pointer
  | endless  -- a list that never ends
  deriving DecidableEq

structure CmdLine where
  arguments : List (List Char)
  next : Ptr
  deriving DecidableEq

structure Process where
  cmd : Ptr
  pid : Nat
  status : Int
  next : Ptr
  deriving DecidableEq

structure State where
  nodes : Cells Process
  cmds : Cells CmdLine
  mylist : Ptr
  calls : Nat  -- how often `waitpid` was called
  out : List Char
  deriving DecidableEq

def TERMINATED : Int := -1
def RUNNING : Int := 1
def SUSPENDED : Int := 0

/-- A signal that kills: seven bits, other than 0 and 0x7f. -/
abbrev Signal := { sig : Nat // 0 < sig ∧ sig < 0x7f }

inductive Outcome
  | unchanged
  | exited (code : UInt8)
  | killed (sig : Signal) (core : Bool)
  | stopped (sig : UInt8)
  | continued
  | noChild
  deriving DecidableEq

/-! ## waitpid -/

/-- The wait status of a child that is reported. -/
def Outcome.wstatus : Outcome → Option Int
  | .unchanged | .noChild => none
  | .exited code => some (code.toNat * 256)
  | .killed sig core => some (sig.1 + if core then 0x80 else 0)
  | .stopped sig => some (sig.toNat * 256 + 0x7f)
  | .continued => some 0xffff

/-- What `waitpid` returns, and the `status` behind the pointer afterwards. -/
def waitpid (pid : Nat) (o : Outcome) (status : Int) : Int × Int :=
  match o.wstatus with
  | some w => (pid, w)
  | none => (if o = .noChild then -1 else 0, status)

def WIFSTOPPED (status : Int) : Bool := status % 256 = 0x7f

def WIFCONTINUED (status : Int) : Bool := status = 0xffff

/-! ## The list -/

def read {α : Type} (h : Cells α) : Ptr → Except Fault α
  | none => .error .freed
  | some a => match live h a with
    | some v => .ok v
    | none => .error .freed

/-- LineParser.c:165-180. -/
def freeCmdLines : Nat → Cells CmdLine → Ptr → Except Fault (Cells CmdLine)
  | _, cmds, none => .ok cmds
  | 0, _, some _ => .error .endless
  | depth + 1, cmds, some a => do
    let pCmdLine ← read cmds (some a)
    let cmds ← freeCmdLines depth cmds pCmdLine.next
    let _ ← read cmds (some a)
    .ok (free cmds a)

/-- `:116-127`. -/
def translate (i status : Int) : Int :=
  if i = -1 then TERMINATED
  else if WIFSTOPPED status then SUSPENDED
  else if WIFCONTINUED status then RUNNING
  else status

/-- The loop of `updateProcessList` from `p` on. -/
def updateFrom (answer : Nat → Outcome) : Nat → State → Ptr → Except Fault State
  | _, s, none => .ok s
  | 0, _, some _ => .error .endless
  | rounds + 1, s, some a => do
    let p ← read s.nodes (some a)
    let (i, status) := waitpid p.pid (answer s.calls) p.status
    let nodes := put s.nodes a { p with status := translate i status }
    updateFrom answer rounds { s with nodes := nodes, calls := s.calls + 1 } p.next

def updateProcessList (answer : Nat → Outcome) (s : State) : Except Fault State :=
  updateFrom answer s.nodes.length s s.mylist

/-- `:148-156`. -/
def statusLine (status : Int) : List Char :=
  (if status = RUNNING then "RUNNING\n".toList else []) ++
    (if status = SUSPENDED then "SUSPENDED\n".toList else []) ++
    if status = TERMINATED then "TERMINATED\n".toList else []

def line (pid : Nat) (name : List Char) (status : Int) : List Char :=
  Nat.toDigits 10 pid ++ " \t ".toList ++ name ++ " \t\t".toList ++ statusLine status

/-- `freeCmdLines(tmp->cmd); free(tmp);`. -/
def release (s : State) (a : Nat) : Except Fault State := do
  let tmp ← read s.nodes (some a)
  let cmds ← freeCmdLines s.cmds.length s.cmds tmp.cmd
  .ok { s with cmds := cmds, nodes := free s.nodes a }

/-- The loop of `printProcessList`, at `p` with `prev` before it. -/
def printFrom : Nat → State → Ptr → Ptr → Except Fault State
  | _, s, none, _ => .ok s
  | 0, _, some _, _ => .error .endless
  | rounds + 1, s, some a, prev => do
    let p ← read s.nodes (some a)
    let cmd ← read s.cmds p.cmd
    let s ← match cmd.arguments[0]? with
      | some name => .ok { s with out := s.out ++ line p.pid name p.status }
      | none => .error .freed
    match prev with
    | none =>
      if p.status = TERMINATED then do
        let s ← release { s with mylist := p.next } a
        printFrom rounds s p.next none
      else printFrom rounds s p.next (some a)
    | some b =>
      if p.status = TERMINATED then do
        let q ← read s.nodes (some b)
        let s ← release { s with nodes := put s.nodes b { q with next := p.next } } a
        printFrom rounds s p.next (some b)
      else printFrom rounds s p.next (some a)

def header : List Char := "PID \t Command\t STATUS\n".toList

def printProcessList (answer : Nat → Outcome) (s : State) : Except Fault State := do
  let s ← updateProcessList answer s
  printFrom s.nodes.length { s with out := s.out ++ header } s.mylist none

/-! ## The list as a list -/

/-- A process with the commands it owns, each with the address of its cell. -/
structure Entry where
  node : Nat
  pid : Nat
  status : Int
  cmds : List (Nat × List (List Char))

namespace Entry

def cmd (e : Entry) : Ptr := e.cmds.head?.map Prod.fst

/-- `cmd->arguments[0]`. -/
def name (e : Entry) : Option (List Char) := e.cmds.head?.bind fun c => c.2[0]?

def line (e : Entry) : List Char := Shell.line e.pid (e.name.getD []) e.status

def cell (e : Entry) (r : Ptr) : Process := ⟨e.cmd, e.pid, e.status, r⟩

def withStatus (e : Entry) (status : Int) : Entry := { e with status := status }

@[simp] theorem withStatus_node (e : Entry) (t : Int) : (e.withStatus t).node = e.node := rfl
@[simp] theorem withStatus_cmds (e : Entry) (t : Int) : (e.withStatus t).cmds = e.cmds := rfl
@[simp] theorem withStatus_cmd (e : Entry) (t : Int) : (e.withStatus t).cmd = e.cmd := rfl
@[simp] theorem withStatus_name (e : Entry) (t : Int) : (e.withStatus t).name = e.name := rfl
@[simp] theorem withStatus_status (e : Entry) (t : Int) : (e.withStatus t).status = t := rfl

end Entry

/-- A list of processes from `p` to `q`. -/
abbrev Procs (nodes : Cells Process) (p : Ptr) (es : List Entry) (q : Ptr) : Prop :=
  Seg Entry.cell Entry.node nodes p es q

/-- A chain of commands. -/
abbrev Cmds (cmds : Cells CmdLine) (p : Ptr) (cs : List (Nat × List (List Char))) : Prop :=
  Seg (fun (c : Nat × List (List Char)) r => CmdLine.mk c.2 r) Prod.fst cmds p cs none

/-- Every process owns its commands, and the first has a name. -/
structure Owns (cmds : Cells CmdLine) (es : List Entry) : Prop where
  chain : ∀ e ∈ es, Cmds cmds e.cmd e.cmds
  named : ∀ e ∈ es, e.name.isSome
  apart : es.Pairwise fun e f => ∀ c ∈ e.cmds, ∀ d ∈ f.cmds, c.1 ≠ d.1

/-- The list of `s` is `es`. -/
structure Holds (s : State) (es : List Entry) : Prop where
  list : Procs s.nodes s.mylist es none
  owns : Owns s.cmds es

theorem cell_next (e f : Entry) (r t : Ptr) (h : e.cell r = f.cell t) : r = t := by
  simp only [Entry.cell, Process.mk.injEq] at h
  exact h.2.2.2

theorem cmdLine_next (c d : Nat × List (List Char)) (r t : Ptr) (h : CmdLine.mk c.2 r = CmdLine.mk d.2 t) : r = t := by
  simp only [CmdLine.mk.injEq] at h
  exact h.2

/-! ## What the list should say -/

/-- The child has exited or was killed. -/
def Outcome.ended : Outcome → Bool
  | .exited _ | .killed _ _ => true
  | _ => false

/-- The process is no longer there. -/
def Outcome.gone (o : Outcome) : Bool := o.ended || o = .noChild

structure Truthful (o : Outcome) (before after : Int) : Prop where
  known : after = RUNNING ∨ after = SUSPENDED ∨ after = TERMINATED
  gone : after = TERMINATED ↔ o.gone ∨ o = .unchanged ∧ before = TERMINATED
  kept : o = .unchanged → after = before

/-- `updateProcessList` leaves the entries with new statuses, all of them truthful; `printProcessList` prints each of
these once and leaves those that are not terminated. -/
def ListTruthful (answer : Nat → Outcome) (s : State) (es : List Entry) : Prop :=
  ∃ after : List Int, after.length = es.length ∧
    (∃ s', updateProcessList answer s = .ok s' ∧ Holds s' (es.zipWith Entry.withStatus after)) ∧
    (∀ i e t, es[i]? = some e → after[i]? = some t → Truthful (answer (s.calls + i)) e.status t) ∧
    ∃ s', printProcessList answer s = .ok s' ∧
      s'.out = s.out ++ header ++ (es.zipWith Entry.withStatus after).flatMap Entry.line ∧
      Holds s' ((es.zipWith Entry.withStatus after).filter fun e => e.status ≠ TERMINATED)

/-! ## Statuses -/

/-- The status of an entry after its `waitpid`. -/
def newStatus (o : Outcome) (status : Int) : Int :=
  match o with
  | .unchanged => translate 0 status
  | .noChild => TERMINATED
  | .stopped _ => SUSPENDED
  | .continued => RUNNING
  | .exited code => code.toNat * 256
  | .killed sig core => sig.1 + if core then 0x80 else 0

theorem wait_ended {o : Outcome} {w : Int} (ho : o.ended) (hw : o.wstatus = some w) :
    0 ≤ w ∧ w % 256 ≠ 0x7f ∧ w ≠ 0xffff := by
  cases o with
  | exited code =>
    simp only [Outcome.wstatus, Option.some.injEq] at hw
    omega
  | killed sig core =>
    simp only [Outcome.wstatus, Option.some.injEq] at hw
    have hlo := sig.2.1
    have hhi := sig.2.2
    cases core <;> simp only [Bool.false_eq_true, if_false, if_true] at hw <;> omega
  | unchanged | stopped | continued | noChild => simp [Outcome.ended] at ho

theorem translate_waitpid (pid : Nat) (o : Outcome) (status : Int) :
    translate (waitpid pid o status).1 (waitpid pid o status).2 = newStatus o status := by
  have hpid : (pid : Int) ≠ -1 := by omega
  cases o with
  | unchanged => simp [waitpid, Outcome.wstatus, newStatus]
  | noChild => simp [waitpid, Outcome.wstatus, newStatus, translate]
  | stopped sig =>
    have hw : ((sig.toNat : Int) * 256 + 0x7f) % 256 = 0x7f := by omega
    simp [waitpid, Outcome.wstatus, newStatus, translate, hpid, WIFSTOPPED, hw]
  | continued => simp [waitpid, Outcome.wstatus, newStatus, translate, hpid, WIFSTOPPED, WIFCONTINUED]
  | exited code =>
    obtain ⟨-, hstop, hcont⟩ := wait_ended (o := .exited code) rfl rfl
    simp only [waitpid, Outcome.wstatus, newStatus, translate, hpid, WIFSTOPPED, WIFCONTINUED, hstop, hcont]
    simp
  | killed sig core =>
    obtain ⟨-, hstop, hcont⟩ := wait_ended (o := .killed sig core) rfl rfl
    simp only [waitpid, Outcome.wstatus, newStatus, translate, hpid, WIFSTOPPED, WIFCONTINUED, hstop, hcont]
    simp

theorem translate_known {status : Int} (h : status = RUNNING ∨ status = SUSPENDED ∨ status = TERMINATED) :
    translate 0 status = status := by
  rcases h with rfl | rfl | rfl <;> decide

theorem newStatus_truthful {o : Outcome} {status : Int}
    (h : status = RUNNING ∨ status = SUSPENDED ∨ status = TERMINATED) :
    Truthful o status (newStatus o status) ↔ o.ended = false := by
  constructor
  · intro ht
    by_contra ho
    rw [Bool.not_eq_false] at ho
    have hT := ht.gone.2 (.inl (by simp [Outcome.gone, ho]))
    -- a wait status is never -1
    cases o with
    | exited code =>
      simp only [newStatus, TERMINATED] at hT
      omega
    | killed sig core =>
      simp only [newStatus, TERMINATED] at hT
      split at hT <;> omega
    | unchanged | stopped | continued | noChild => simp [Outcome.ended] at ho
  · intro ho
    cases o with
    | unchanged =>
      have hkept := translate_known h
      refine ⟨?_, ?_, fun _ => hkept⟩
      · rw [newStatus, hkept]
        exact h
      · simp [newStatus, hkept, Outcome.gone, Outcome.ended]
    | noChild => exact ⟨.inr (.inr rfl), by simp [newStatus, Outcome.gone], by simp⟩
    | stopped sig =>
      exact ⟨.inr (.inl rfl), by simp [newStatus, Outcome.gone, Outcome.ended, SUSPENDED, TERMINATED], by simp⟩
    | continued =>
      exact ⟨.inl rfl, by simp [newStatus, Outcome.gone, Outcome.ended, RUNNING, TERMINATED], by simp⟩
    | exited | killed => simp [Outcome.ended] at ho

/-! ## updateProcessList -/

theorem read_some {α : Type} {h : Cells α} {a : Nat} {v : α} (ha : live h a = some v) : read h (some a) = .ok v := by
  simp [read, ha]

/-- The statuses that the calls from the `n`-th on leave. -/
def statuses (answer : Nat → Outcome) : Nat → List Entry → List Int
  | _, [] => []
  | n, e :: es => newStatus (answer n) e.status :: statuses answer (n + 1) es

def marked (answer : Nat → Outcome) (n : Nat) (es : List Entry) : List Entry :=
  es.zipWith Entry.withStatus (statuses answer n es)

variable {answer : Nat → Outcome} {s : State} {es kept rest : List Entry} {e : Entry}

@[simp] theorem statuses_length (n : Nat) : (statuses answer n es).length = es.length := by
  induction es generalizing n with
  | nil => rfl
  | cons e es ih => simp [statuses, ih]

theorem statuses_get (n i : Nat) (he : es[i]? = some e) :
    (statuses answer n es)[i]? = some (newStatus (answer (n + i)) e.status) := by
  induction es generalizing n i with
  | nil => simp at he
  | cons f es ih =>
    cases i with
    | zero =>
      simp only [List.getElem?_cons_zero, Option.some.injEq] at he
      simp [statuses, he]
    | succ i =>
      rw [List.getElem?_cons_succ] at he
      rw [statuses, List.getElem?_cons_succ, ih (n + 1) i he]
      congr 3
      omega

theorem marked_cons (n : Nat) : marked answer n (e :: es) =
    e.withStatus (newStatus (answer n) e.status) :: marked answer (n + 1) es := rfl

@[simp] theorem marked_nodes (n : Nat) : (marked answer n es).map Entry.node = es.map Entry.node := by
  induction es generalizing n with
  | nil => rfl
  | cons e es ih => simp [marked_cons, ih]

theorem updateFrom_spec (answer : Nat → Outcome) : ∀ {es : List Entry} {rounds : Nat}
    {s : State} {p : Ptr}, Procs s.nodes p es none →
    es.length ≤ rounds → ∃ nodes,
      updateFrom answer rounds s p = .ok { s with nodes := nodes, calls := s.calls + es.length } ∧
      Procs nodes p (marked answer s.calls es) none ∧ nodes.length = s.nodes.length ∧
      ∀ a, a ∉ es.map Entry.node → live nodes a = live s.nodes a
  | [], rounds, s, p, hs, _ => by
    rw [show p = none from hs]
    refine ⟨s.nodes, ?_, rfl, rfl, fun _ _ => rfl⟩
    cases rounds <;> simp [updateFrom]
  | e :: es, 0, s, p, _, hn => by simp at hn
  | e :: es, rounds + 1, s, p, hs, hn => by
    have hnodup := hs.nodup cell_next
    obtain ⟨rfl, r, hr, hs⟩ := hs
    rw [List.map_cons, List.nodup_cons] at hnodup
    let v := (e.withStatus (newStatus (answer s.calls) e.status)).cell r
    have hput : Procs (put s.nodes e.node v) r es none := hs.congr fun f hf =>
      live_put_ne fun heq => hnodup.1 (heq ▸ List.mem_map_of_mem hf)
    obtain ⟨nodes, hrun, hes, hlen, hframe⟩ :=
      updateFrom_spec answer (s := { s with nodes := put s.nodes e.node v, calls := s.calls + 1 }) hput
        (Nat.le_of_succ_le_succ hn)
    refine ⟨nodes, ?_, ⟨rfl, r, ?_, hes⟩, by simp [hlen, put], fun a ha => ?_⟩
    · rw [updateFrom, read_some hr, ok_bind]
      have ht := translate_waitpid e.pid (answer s.calls) e.status
      simp only [Entry.cell] at ht ⊢
      rw [ht]
      simp only [v, Entry.cell, Entry.withStatus] at hrun
      rw [List.length_cons, Nat.add_comm es.length 1, ← Nat.add_assoc]
      exact hrun
    · rw [Entry.withStatus_node, hframe e.node hnodup.1]
      exact live_put_self hr
    · rw [List.map_cons, List.mem_cons, not_or] at ha
      rw [hframe a ha.2]
      exact live_put_ne ha.1

theorem Owns.marked (ho : Owns s.cmds es) (n : Nat) : Owns s.cmds (marked answer n es) := by
  have hcmds : (Shell.marked answer n es).map Entry.cmds = es.map Entry.cmds := by
    induction es generalizing n with
    | nil => rfl
    | cons e es ih =>
      refine congrArg (e.cmds :: ·) (ih ?_ (n + 1))
      exact ⟨fun f hf => ho.chain f (List.mem_cons_of_mem _ hf), fun f hf => ho.named f (List.mem_cons_of_mem _ hf),
        (List.pairwise_cons.1 ho.apart).2⟩
  have hmem : ∀ e ∈ Shell.marked answer n es, ∃ f ∈ es, f.cmds = e.cmds := fun e he => by
    have := List.mem_map_of_mem (f := Entry.cmds) he
    rw [hcmds] at this
    exact List.mem_map.1 this
  refine ⟨fun e he => ?_, fun e he => ?_, ?_⟩
  · obtain ⟨f, hf, hfe⟩ := hmem e he
    have := ho.chain f hf
    rwa [Entry.cmd, hfe] at this
  · obtain ⟨f, hf, hfe⟩ := hmem e he
    have := ho.named f hf
    rwa [Entry.name, hfe] at this
  · have := ho.apart
    rw [← List.pairwise_map (f := Entry.cmds) (R := fun cs ds => ∀ c ∈ cs, ∀ d ∈ ds, c.1 ≠ d.1)] at this ⊢
    rwa [hcmds]

theorem updateProcessList_spec (answer : Nat → Outcome) (hs : Holds s es) : ∃ s', updateProcessList answer s = .ok s' ∧
    Holds s' (marked answer s.calls es) ∧ s'.out = s.out := by
  obtain ⟨nodes, hrun, hes, -, -⟩ := updateFrom_spec answer hs.list (hs.list.length_le cell_next)
  exact ⟨_, hrun, ⟨hes, hs.owns.marked _⟩, rfl⟩

/-! ## printProcessList -/

theorem freeCmdLines_spec : ∀ {cs : List (Nat × List (List Char))} {depth : Nat} {cmds : Cells CmdLine} {p : Ptr},
    Cmds cmds p cs → cs.length ≤ depth → ∃ cmds', freeCmdLines depth cmds p = .ok cmds' ∧
      ∀ a, a ∉ cs.map Prod.fst → live cmds' a = live cmds a
  | [], depth, cmds, p, hs, _ => by
    rw [show p = none from hs]
    refine ⟨cmds, ?_, fun _ _ => rfl⟩
    cases depth <;> simp [freeCmdLines]
  | c :: cs, 0, cmds, p, _, hn => by simp at hn
  | c :: cs, depth + 1, cmds, p, hs, hn => by
    have hnodup := hs.nodup cmdLine_next
    obtain ⟨rfl, r, hr, hs⟩ := hs
    rw [List.map_cons, List.nodup_cons] at hnodup
    obtain ⟨cmds', hrun, hframe⟩ := freeCmdLines_spec hs (Nat.le_of_succ_le_succ hn)
    have hr' : live cmds' c.1 = some ⟨c.2, r⟩ := (hframe c.1 hnodup.1).trans hr
    refine ⟨free cmds' c.1, ?_, fun a ha => ?_⟩
    · rw [freeCmdLines, read_some hr, ok_bind, hrun, ok_bind, read_some hr', ok_bind]
    · rw [List.map_cons, List.mem_cons, not_or] at ha
      rw [live_free_ne ha.1, hframe a ha.2]

theorem release_spec {r : Ptr} (hr : live s.nodes e.node = some (e.cell r)) (hc : Cmds s.cmds e.cmd e.cmds) :
    ∃ cmds, release s e.node = .ok { s with cmds := cmds, nodes := free s.nodes e.node } ∧
      ∀ a, a ∉ e.cmds.map Prod.fst → live cmds a = live s.cmds a := by
  obtain ⟨cmds, hrun, hframe⟩ := freeCmdLines_spec hc (hc.length_le cmdLine_next)
  refine ⟨cmds, ?_, hframe⟩
  rw [release, read_some hr, ok_bind, Entry.cell, hrun, ok_bind]

/-- The commands of one process are gone, those of the others stay. -/
theorem Owns.drop {cmds cmds' : Cells CmdLine} (ho : Owns cmds (kept ++ e :: rest))
    (hframe : ∀ a, a ∉ e.cmds.map Prod.fst → live cmds' a = live cmds a) : Owns cmds' (kept ++ rest) := by
  have hsub : (kept ++ rest).Sublist (kept ++ e :: rest) := (List.sublist_cons_self e rest).append_left kept
  obtain ⟨-, hrest, hkept⟩ := List.pairwise_append.1 ho.apart
  refine ⟨fun f hf => ?_, fun f hf => ho.named f (hsub.subset hf), ho.apart.sublist hsub⟩
  refine (ho.chain f (hsub.subset hf)).congr fun c hc => hframe c.1 fun hmem => ?_
  obtain ⟨d, hd, hdc⟩ := List.mem_map.1 hmem
  rcases List.mem_append.1 hf with hf | hf
  · exact hkept f hf e (by simp) c hc d hd hdc.symm
  · exact (List.pairwise_cons.1 hrest).1 f hf d hd c hc hdc

/-- `p->cmd->arguments[0]`. -/
theorem Owns.name {cmds : Cells CmdLine} (ho : Owns cmds es) (he : e ∈ es) :
    ∃ cmd, read cmds e.cmd = .ok cmd ∧ cmd.arguments[0]? = some (e.name.getD []) := by
  have hc := ho.chain e he
  have hn := ho.named e he
  rw [Entry.name] at hn ⊢
  cases hcs : e.cmds with
  | nil => simp [hcs] at hn
  | cons c cs =>
    rw [hcs] at hc hn
    obtain ⟨hcmd, r, hr, -⟩ := hc
    rw [hcmd]
    refine ⟨⟨c.2, r⟩, read_some hr, ?_⟩
    rw [List.head?_cons, Option.bind_some] at hn ⊢
    obtain ⟨n, hn⟩ := Option.isSome_iff_exists.1 hn
    rw [hn, Option.getD_some]

theorem printFrom_spec : ∀ (rest kept : List Entry) (rounds : Nat) (s : State),
    Procs s.nodes s.mylist (kept ++ rest) none → Owns s.cmds (kept ++ rest) → rest.length ≤ rounds →
    ∃ s', printFrom rounds s (rest.head?.map Entry.node) (kept.getLast?.map Entry.node) = .ok s' ∧
      s'.out = s.out ++ rest.flatMap Entry.line ∧ Holds s' (kept ++ rest.filter fun e => e.status ≠ TERMINATED)
  | [], kept, rounds, s, hs, ho, _ => by
    refine ⟨s, ?_, by simp, by simpa using hs, by simpa using ho⟩
    cases rounds <;> simp [printFrom]
  | e :: rest, kept, 0, s, _, _, hn => by simp at hn
  | e :: rest, kept, rounds + 1, s, hs, ho, hn => by
    have hn := Nat.le_of_succ_le_succ hn
    have hnodup := hs.nodup cell_next
    have hmem : e ∈ kept ++ e :: rest := by simp
    obtain ⟨p, hkept, hp, r, hr, hrest⟩ := Seg.append_iff.1 hs
    have hhead : r = rest.head?.map Entry.node := hrest.head
    obtain ⟨cmd, hcmd, hname⟩ := ho.name hmem
    have hne : ∀ f ∈ kept ++ rest, f.node ≠ e.node := fun f hf heq => by
      have hperm : (kept ++ e :: rest).Perm (e :: (kept ++ rest)) := List.perm_middle
      have := (hperm.map Entry.node).nodup hnodup
      rw [List.map_cons, List.nodup_cons] at this
      exact this.1 (heq ▸ List.mem_map_of_mem hf)
    -- the text of this round
    let s₁ := { s with out := s.out ++ e.line }
    have hround : printFrom (rounds + 1) s (some e.node) (kept.getLast?.map Entry.node) =
        (match kept.getLast?.map Entry.node with
        | none =>
          if e.status = TERMINATED then do
            let s ← release { s₁ with mylist := r } e.node
            printFrom rounds s r none
          else printFrom rounds s₁ r (some e.node)
        | some b =>
          if e.status = TERMINATED then do
            let q ← read s₁.nodes (some b)
            let s ← release { s₁ with nodes := put s₁.nodes b { q with next := r } } e.node
            printFrom rounds s r (some b)
          else printFrom rounds s₁ r (some e.node)) := by
      rw [printFrom, read_some hr, ok_bind]
      simp only [Entry.cell]
      rw [hcmd, ok_bind, hname]
      rfl
    rw [List.head?_cons, Option.map_some, hround]
    by_cases ht : e.status = TERMINATED
    · -- it goes: the head pointer or the last one kept now leads past it
      have hcmds := ho.chain e hmem
      have hfilter :
          (e :: rest).filter (fun e => e.status ≠ TERMINATED) = rest.filter fun e => e.status ≠ TERMINATED :=
        List.filter_cons_of_neg (by simp [ht])
      rw [hfilter]
      rcases List.eq_nil_or_concat kept with rfl | ⟨k, b, rfl⟩
      · obtain ⟨cmds, hrel, hframe⟩ := release_spec (s := { s₁ with mylist := r }) hr hcmds
        have hlist : Procs (free s.nodes e.node) r rest none :=
          hrest.congr fun f hf => live_free_ne (hne f (by simp [hf]))
        have hdrop : Owns cmds ([] ++ rest) := ho.drop hframe
        obtain ⟨s', hrun, hout, hholds⟩ := printFrom_spec rest [] rounds
          { s₁ with mylist := r, cmds := cmds, nodes := free s.nodes e.node } hlist hdrop hn
        refine ⟨s', ?_, ?_, hholds⟩
        · rw [List.getLast?_nil, Option.map_none] at hrun ⊢
          rw [← hhead] at hrun
          simp only [ht, if_true]
          rw [hrel, ok_bind]
          exact hrun
        · rw [hout, List.flatMap_cons, List.append_assoc]
      · rw [List.concat_eq_append] at *
        have hs' : Procs s.nodes s.mylist (k ++ b :: e :: rest) none := by simpa using hs
        have hb : b ∈ k ++ [b] ++ e :: rest := by simp
        obtain ⟨t, hbcell⟩ := hs.mem hb
        have hbe : e.node ≠ b.node := (hne b (by simp)).symm
        have hlist := hs'.bypass (by simpa using hnodup) hr cell_next
        have hr' : live (put s.nodes b.node (b.cell r)) e.node = some (e.cell r) := (live_put_ne hbe).trans hr
        obtain ⟨cmds, hrel, hframe⟩ :=
          release_spec (s := { s₁ with nodes := put s.nodes b.node (b.cell r) }) hr' hcmds
        have hlist' : Procs (free (put s.nodes b.node (b.cell r)) e.node) s.mylist (k ++ [b] ++ rest) none := by
          rw [List.append_assoc, List.singleton_append]
          exact hlist.congr fun f hf => live_free_ne (hne f (by simpa using hf))
        obtain ⟨s', hrun, hout, hholds⟩ := printFrom_spec rest (k ++ [b]) rounds
          { s₁ with cmds := cmds, nodes := free (put s.nodes b.node (b.cell r)) e.node } hlist' (ho.drop hframe) hn
        refine ⟨s', ?_, ?_, hholds⟩
        · rw [List.getLast?_append, List.getLast?_singleton, Option.some_or, Option.map_some] at hrun ⊢
          rw [← hhead] at hrun
          simp only [ht, if_true]
          rw [read_some hbcell, ok_bind]
          simp only [Entry.cell] at hrel hrun ⊢
          rw [hrel, ok_bind]
          exact hrun
        · rw [hout, List.flatMap_cons, List.append_assoc]
    · -- it stays, and becomes the last one kept
      have hkeep : kept ++ e :: rest = (kept ++ [e]) ++ rest := by simp
      obtain ⟨s', hrun, hout, hholds⟩ := printFrom_spec rest (kept ++ [e]) rounds s₁
        (hkeep ▸ hs) (hkeep ▸ ho) hn
      refine ⟨s', ?_, ?_, ?_⟩
      · rw [List.getLast?_append, List.getLast?_singleton, Option.some_or, Option.map_some, ← hhead] at hrun
        cases hk : kept.getLast?.map Entry.node <;> simp only [ht, if_false] <;> exact hrun
      · rw [hout, List.flatMap_cons, List.append_assoc]
      · rw [List.filter_cons_of_pos (by simp [ht])]
        simpa using hholds

theorem printProcessList_spec (answer : Nat → Outcome) (hs : Holds s es) : ∃ s', printProcessList answer s = .ok s' ∧
    s'.out = s.out ++ header ++ (marked answer s.calls es).flatMap Entry.line ∧
    Holds s' ((marked answer s.calls es).filter fun e => e.status ≠ TERMINATED) := by
  obtain ⟨s₁, hrun₁, hholds₁, hout₁⟩ := updateProcessList_spec answer hs
  obtain ⟨s₂, hrun₂, hout₂, hholds₂⟩ := printFrom_spec (marked answer s.calls es) [] s₁.nodes.length
    { s₁ with out := s₁.out ++ header } hholds₁.list hholds₁.owns (hholds₁.list.length_le cell_next)
  refine ⟨s₂, ?_, by rw [hout₂, hout₁], hholds₂⟩
  rw [← hholds₁.list.head] at hrun₂
  rw [printProcessList, hrun₁, ok_bind]
  exact hrun₂

/-! ## The result -/

/-- Where the heap holds the list with these statuses, they are the ones that were left. -/
theorem after_unique {after : List Int} (hlen : after.length = es.length) {s' : State}
    (hs : Holds s' (es.zipWith Entry.withStatus after)) (hm : Holds s' (marked answer s.calls es)) :
    after = statuses answer s.calls es := by
  refine List.ext_getElem (by simp [hlen]) fun i hi hi' => ?_
  have hlt : i < es.length := by omega
  have hz : es[i].withStatus after[i] ∈ es.zipWith Entry.withStatus after :=
    List.mem_iff_getElem.2 ⟨i, by simp [hlt, hlen], by simp⟩
  have hz' : es[i].withStatus (statuses answer s.calls es)[i] ∈ marked answer s.calls es :=
    List.mem_iff_getElem.2 ⟨i, by simp [marked, hlt], by simp [marked]⟩
  obtain ⟨r, hr⟩ := hs.list.mem hz
  obtain ⟨t, ht⟩ := hm.list.mem hz'
  simp only [Entry.withStatus_node] at hr ht
  rw [hr] at ht
  simpa [Entry.cell] using congrArg (fun v => v.map Process.status) ht

/-- After `updateProcessList` and `printProcessList` the list is what it should be exactly when no entry's `waitpid`
reports a child that has exited or was killed. -/
theorem processList_truthful_iff (answer : Nat → Outcome) (s : State) (es : List Entry) (hs : Holds s es)
    (hstatus : ∀ e ∈ es, e.status = RUNNING ∨ e.status = SUSPENDED ∨ e.status = TERMINATED) :
    ListTruthful answer s es ↔ ∀ i < es.length, (answer (s.calls + i)).ended = false := by
  constructor
  · rintro ⟨after, hlen, ⟨s', hrun, hholds⟩, htruth, -⟩ i hi
    obtain ⟨s₁, hrun₁, hholds₁, -⟩ := updateProcessList_spec answer hs
    obtain rfl := Except.ok.inj (hrun.symm.trans hrun₁)
    obtain rfl := after_unique hlen hholds hholds₁
    have hget : es[i]? = some es[i] := List.getElem?_eq_getElem hi
    have := htruth i es[i] _ hget (statuses_get s.calls i hget)
    exact (newStatus_truthful (hstatus _ (List.getElem_mem hi))).1 this
  · intro hok
    obtain ⟨s₁, hrun₁, hholds₁, -⟩ := updateProcessList_spec answer hs
    obtain ⟨s₂, hrun₂, hout₂, hholds₂⟩ := printProcessList_spec answer hs
    refine ⟨statuses answer s.calls es, by simp, ⟨s₁, hrun₁, hholds₁⟩, fun i e t he ht => ?_, s₂, hrun₂, hout₂, hholds₂⟩
    obtain rfl := Option.some.inj ((statuses_get s.calls i he).symm.trans ht)
    obtain ⟨hi, rfl⟩ := List.getElem?_eq_some_iff.1 he
    exact (newStatus_truthful (hstatus _ (List.getElem_mem hi))).2 (hok i hi)

/-- One process, and a command that is still in the list. -/
def sleeping : State := ⟨[some ⟨some 0, 7, RUNNING, none⟩], [some ⟨["sleep".toList], none⟩], some 0, 0, []⟩

def sleepingEntries : List Entry := [⟨0, 7, RUNNING, [(0, ["sleep".toList])]⟩]

/-- A process that has exited with 0 is shown as suspended, and stays. -/
theorem exited_suspended : Holds sleeping sleepingEntries ∧ (∀ e ∈ sleepingEntries, e.status = RUNNING) ∧
    ¬ ListTruthful (fun _ => .exited 0) sleeping sleepingEntries := by
  have hs : Holds sleeping sleepingEntries :=
    ⟨⟨rfl, none, rfl, rfl⟩, fun e he => by
      rw [List.mem_singleton.1 he]
      exact ⟨rfl, none, rfl, rfl⟩, fun e he => by
      rw [List.mem_singleton.1 he]
      rfl, List.pairwise_singleton ..⟩
  refine ⟨hs, by simp [sleepingEntries], ?_⟩
  rintro ⟨after, hlen, ⟨s', hrun, hholds⟩, htruth, -⟩
  obtain ⟨s₁, hrun₁, hholds₁, -⟩ := updateProcessList_spec (fun _ => .exited 0) hs
  obtain rfl := Except.ok.inj (hrun.symm.trans hrun₁)
  obtain rfl := after_unique hlen hholds hholds₁
  have hgone := (htruth 0 _ _ rfl rfl).gone.2 (.inl rfl)
  exact absurd hgone (by decide)

example : (printProcessList (fun _ => .exited 0) sleeping).map State.out =
    .ok "PID \t Command\t STATUS\n7 \t sleep \t\tSUSPENDED\n".toList := by
  decide +kernel

/-- Three processes; the commands lie elsewhere than the processes. -/
def three : State :=
  ⟨[some ⟨some 0, 7, RUNNING, some 1⟩, some ⟨some 2, 8, RUNNING, some 2⟩, some ⟨some 1, 9, RUNNING, none⟩],
    [some ⟨["ls".toList], none⟩, some ⟨["cat".toList], none⟩, some ⟨["sleep".toList], none⟩], some 0, 0, []⟩

def threeEntries : List Entry :=
  [⟨0, 7, RUNNING, [(0, ["ls".toList])]⟩, ⟨1, 8, RUNNING, [(2, ["sleep".toList])]⟩,
    ⟨2, 9, RUNNING, [(1, ["cat".toList])]⟩]

/-- The second is no longer a child, the third is stopped. -/
theorem three_truthful :
    ListTruthful (fun i => if i = 1 then .noChild else if i = 2 then .stopped 20 else .unchanged)
    three threeEntries := by
  have hlist : Procs three.nodes three.mylist threeEntries none :=
    ⟨rfl, some 1, rfl, rfl, some 2, rfl, rfl, none, rfl, rfl⟩
  have howns : Owns three.cmds threeEntries := by
    refine ⟨?_, by simp [threeEntries, Entry.name], by simp [threeEntries]⟩
    rw [threeEntries, List.forall_mem_cons, List.forall_mem_cons, List.forall_mem_cons]
    exact ⟨⟨rfl, none, rfl, rfl⟩, ⟨rfl, none, rfl, rfl⟩, ⟨rfl, none, rfl, rfl⟩, by simp⟩
  exact (processList_truthful_iff _ three threeEntries ⟨hlist, howns⟩ (by simp [threeEntries])).2 (by decide)

end Shell
