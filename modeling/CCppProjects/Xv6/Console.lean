import CCppProjects.Lib.Ring
import CCppProjects.Lib.Run
/-
# Console input (console.c)

A step is what is done under one hold of `cons.lock`: an interrupt with all the keys `getc` has, or what a process
does in `consoleread` from `acquire`, or from waking up in `sleep`, to the next `sleep` or to the return.

| here | there |
|---|---|
| `Input`, `INPUT_BUF` | `input` (console.c:182-187), a char as a byte |
| `Echo` | a call of `consputc` from `consoleintr` |
| `killLine`, `key` | the loop of `C('U')`, one round of the loop of `consoleintr` (console.c:197-227) |
| `readLoop` | the loop of `consoleread` (console.c:244-266) up to the next `sleep` |
| `Call.read n dst asleep` | a call in progress: `target`, and what it has stored at the old `dst` |

What is on the terminal of the keys typed is what the readers got, then what they can get, then the line that is still
being edited (`Told`). Only `input.e` moves back, and never behind `input.w`.
-/
namespace Xv6

open Lts

namespace Console

def INPUT_BUF : Nat := 128

instance : NeZero INPUT_BUF := ⟨by decide⟩

/-- `C(x)`. -/
def ctrl (x : Char) : UInt8 := UInt8.ofNat (x.toNat - '@'.toNat)

def newline : UInt8 := 10

def eof : UInt8 := ctrl 'D'

inductive Echo
  | put (c : UInt8)
  | back
  deriving DecidableEq, Repr

/-- The counters only wrap; `buf` is indexed modulo `INPUT_BUF`. -/
structure Input where
  buf : Fin INPUT_BUF → UInt8
  r : UInt32
  w : UInt32
  e : UInt32

namespace Input

/-- The index `n % INPUT_BUF`. -/
def slot (n : UInt32) : Fin INPUT_BUF := Fin.ofNat INPUT_BUF n.toNat

variable (i : Input)

/-- `input.buf[input.e++ % INPUT_BUF] = c`. -/
def store (c : UInt8) : Input := { i with buf := Function.update i.buf (slot i.e) c, e := i.e + 1 }

/-- `input.e--`. -/
def erase : Input := { i with e := i.e - 1 }

/-- `input.w = input.e`. -/
def commit : Input := { i with w := i.e }

/-- `input.r++`. -/
def take : Input := { i with r := i.r + 1 }

/-- `input.r--`. -/
def untake : Input := { i with r := i.r - 1 }

/-- What is stored and not yet read, as it lies in `buf`. -/
def held : List UInt8 := Ring.held i.buf i.r.toNat (i.e - i.r).toNat

/-- The part behind `input.w` is still edited, the part before it is for the readers. -/
def ready : List UInt8 := i.held.take (i.w - i.r).toNat

def line : List UInt8 := i.held.drop (i.w - i.r).toNat

end Input

/-- The loop of `C('U')`; `k` rounds are enough when `k = input.e - input.w`. -/
def killLine : Nat → Input → Input × List Echo
  | 0, i => (i, [])
  | k + 1, i =>
    if i.e ≠ i.w ∧ i.buf (Input.slot (i.e - 1)) ≠ newline then
      let r := killLine k i.erase
      (r.1, .back :: r.2)
    else (i, [])

/-- One round of the loop of `consoleintr`: the buffer, what is echoed, and whether it calls `wakeup(&input.r)`. -/
def key (i : Input) (c : UInt8) : Input × List Echo × Bool :=
  if c = ctrl 'P' then (i, [], false)
  else if c = ctrl 'U' then
    let r := killLine (i.e - i.w).toNat i
    (r.1, r.2, false)
  else if c = ctrl 'H' ∨ c = 127 then
    if i.e ≠ i.w then (i.erase, [.back], false) else (i, [], false)
  else if c ≠ 0 ∧ i.e - i.r < UInt32.ofNat INPUT_BUF then
    let c := if c = 13 then newline else c
    let i := i.store c
    if c = newline ∨ c = eof ∨ i.e = i.r + UInt32.ofNat INPUT_BUF then (i.commit, [.put c], true)
    else (i, [.put c], false)
  else (i, [], false)

/-- How the loop of `consoleread` ends: with `break` or `n == 0`, or at an empty buffer. -/
inductive Stop
  | done | empty
  deriving DecidableEq, Repr

/-- The loop of `consoleread` with `n` bytes to go; also the bytes it stores at `dst`. -/
def readLoop (target : Nat) : Nat → Input → Input × List UInt8 × Stop
  | 0, i => (i, [], .done)
  | n + 1, i =>
    if i.r = i.w then (i, [], .empty)
    else
      let c := i.buf (Input.slot i.r)
      if c = eof then (if n + 1 < target then i.take.untake else i.take, [], .done)
      else if c = newline then (i.take, [c], .done)
      else
        let r := readLoop target n i.take
        (r.1, c :: r.2.1, r.2.2)

/-- `asleep` until a `wakeup(&input.r)` or a `kill`. -/
inductive Call
  | idle
  | read (n : Int) (dst : List UInt8) (asleep : Bool)

def Call.wake : Call → Call
  | .read n dst _ => .read n dst false
  | .idle => .idle

structure Sys where
  input : Input
  calls : Nat → Call
  killed : Nat → Bool

/-- What a step shows: the echo, the bytes it stored at a reader's `dst`, and, at a return, the value with all that
the call has stored there. -/
structure Seen where
  echoed : List Echo
  copied : List UInt8
  ret : Option (Int × List UInt8)
  deriving DecidableEq, Repr

def Seen.none : Seen := ⟨[], [], .none⟩

namespace Sys

variable (s : Sys)

def setCall (pid : Nat) (c : Call) : Sys := { s with calls := Function.update s.calls pid c }

def wakeup : Sys := { s with calls := fun pid => (s.calls pid).wake }

def key (c : UInt8) : Sys × List Echo :=
  let k := Console.key s.input c
  let t := { s with input := k.1 }
  (if k.2.2 then t.wakeup else t, k.2.1)

/-- `consoleintr`, with the keys `getc` returns before it returns a negative value. -/
def consoleintr (s : Sys) : List UInt8 → Sys × List Echo
  | [] => (s, [])
  | c :: cs =>
    let k := s.key c
    let r := consoleintr k.1 cs
    (r.1, k.2 ++ r.2)

/-- `consoleread` at its outer loop, with the lock held and `dst` stored. -/
def consoleread (pid : Nat) (n : Int) (dst : List UInt8) : Sys × Seen :=
  let r := readLoop n.toNat (n.toNat - dst.length) s.input
  let t := { s with input := r.1 }
  match r.2.2 with
  | .done => (t.setCall pid .idle, ⟨[], r.2.1, some ((dst ++ r.2.1).length, dst ++ r.2.1)⟩)
  | .empty =>
    if s.killed pid then (t.setCall pid .idle, ⟨[], r.2.1, some (-1, dst ++ r.2.1)⟩)
    else (t.setCall pid (.read n (dst ++ r.2.1) true), ⟨[], r.2.1, none⟩)

/-- `kill`: the process is marked and wakes from any sleep. -/
def kill (pid : Nat) : Sys :=
  { s with killed := Function.update s.killed pid true, calls := Function.update s.calls pid (s.calls pid).wake }

end Sys

inductive Act
  | intr (keys : List UInt8)
  | read (pid : Nat) (n : Int)
  | run (pid : Nat)
  | kill (pid : Nat)

/-- One lock-protected step. A process runs on only when it is not asleep. -/
def next (s : Sys) : Act → Option (Sys × Seen)
  | .intr keys => some ((s.consoleintr keys).1, ⟨(s.consoleintr keys).2, [], none⟩)
  | .read pid n =>
    match s.calls pid with
    | .idle => some (s.setCall pid (.read n [] false), .none)
    | _ => none
  | .run pid =>
    match s.calls pid with
    | .read n dst false => some (s.consoleread pid n dst)
    | _ => none
  | .kill pid => some (s.kill pid, .none)

/-- A step with what it shows. -/
def Step (s : Sys) (l : Act × Seen) (t : Sys) : Prop := next s l.1 = some (t, l.2)

/-- At boot. -/
def init : Sys where
  input := { buf := fun _ => 0, r := 0, w := 0, e := 0 }
  calls := fun _ => .idle
  killed := fun _ => false

def echoed (ls : List (Act × Seen)) : List Echo := ls.flatMap fun l => l.2.echoed

def copied (ls : List (Act × Seen)) : List UInt8 := ls.flatMap fun l => l.2.copied

/-- What `consputc` leaves on the terminal: `BACKSPACE` goes over the last character. -/
def Echo.show (s : List UInt8) : Echo → List UInt8
  | .put c => s ++ [c]
  | .back => s.dropLast

def shown (s : List UInt8) (es : List Echo) : List UInt8 := es.foldl Echo.show s

/-- Without the ends of file. -/
def text (s : List UInt8) : List UInt8 := s.filter (· != eof)

/-! ## The counters -/

namespace Input

variable {i : Input}

/-- `r`, `w` and `e` in this order, and at most `INPUT_BUF` apart. -/
structure Ordered (i : Input) : Prop where
  ready_le : (i.w - i.r).toNat ≤ (i.e - i.r).toNat
  small : (i.e - i.r).toNat ≤ INPUT_BUF

theorem toNat_succ {x : UInt32} (h : x.toNat ≤ INPUT_BUF) : (x + 1).toNat = x.toNat + 1 := by
  rw [UInt32.toNat_add]
  simp only [INPUT_BUF] at h
  change (x.toNat + 1) % 2 ^ 32 = _
  omega

theorem toNat_pred {x : UInt32} (h : x.toNat ≠ 0) : (x - 1).toNat + 1 = x.toNat := by
  have hlt := x.toNat_lt
  rw [UInt32.toNat_sub]
  change (2 ^ 32 - 1 + x.toNat) % 2 ^ 32 + 1 = _
  omega

theorem held_length (i : Input) : i.held.length = (i.e - i.r).toNat := Ring.held_length ..

theorem held_eq (i : Input) : i.held = i.ready ++ i.line := (List.take_append_drop ..).symm

theorem Ordered.ready_length (h : i.Ordered) : i.ready.length = (i.w - i.r).toNat := by
  rw [ready, List.length_take, held_length]
  exact Nat.min_eq_left h.ready_le

theorem Ordered.line_length (h : i.Ordered) : i.line.length = (i.e - i.w).toNat := by
  have hle := h.ready_le
  have hsub : i.e - i.w = (i.e - i.r) - (i.w - i.r) := by grind
  rw [line, List.length_drop, held_length, hsub, UInt32.toNat_sub_of_le _ _ (UInt32.le_iff_toNat_le.2 hle)]

theorem Ordered.ready_eq_nil (h : i.Ordered) : i.ready = [] ↔ i.r = i.w := by
  rw [← List.length_eq_zero_iff, h.ready_length]
  constructor
  · intro h0
    have hsub : i.w - i.r = 0 := UInt32.toNat_inj.1 h0
    grind
  · intro hr
    rw [hr]
    simp

theorem Ordered.line_eq_nil (h : i.Ordered) : i.line = [] ↔ i.e = i.w := by
  rw [← List.length_eq_zero_iff, h.line_length]
  constructor
  · intro h0
    have hsub : i.e - i.w = 0 := UInt32.toNat_inj.1 h0
    grind
  · intro hr
    rw [hr]
    simp

/-- 2^32 is a multiple of INPUT_BUF: a wrap of a counter moves no slot. -/
theorem slot_add (r x : UInt32) : slot (r + x) = Fin.ofNat INPUT_BUF (r.toNat + x.toNat) := by
  ext
  simp only [slot, Fin.ofNat, UInt32.toNat_add, INPUT_BUF]
  omega

theorem slot_e (i : Input) : slot i.e = Fin.ofNat INPUT_BUF (i.r.toNat + (i.e - i.r).toNat) := by
  rw [← slot_add]
  congr 1
  grind

/-! ## What the counters hold -/

theorem held_store (c : UInt8) (h : (i.e - i.r).toNat < INPUT_BUF) : (i.store c).held = i.held ++ [c] := by
  have hsub : i.e + 1 - i.r = (i.e - i.r) + 1 := by grind
  have hlen : ((i.store c).e - (i.store c).r).toNat = (i.e - i.r).toNat + 1 := by
    rw [← toNat_succ h.le, ← hsub]
    rfl
  unfold held
  rw [hlen, show (i.store c).buf = Function.update i.buf (slot i.e) c from rfl, slot_e]
  exact Ring.held_push i.buf c h

theorem Ordered.store (h : i.Ordered) (c : UInt8) (hlt : (i.e - i.r).toNat < INPUT_BUF) :
    (i.store c).Ordered ∧ (i.store c).ready = i.ready ∧ (i.store c).line = i.line ++ [c] := by
  have hheld := held_store c hlt
  have hlen : ((i.store c).e - (i.store c).r).toNat = (i.e - i.r).toNat + 1 := by
    rw [← held_length, ← held_length, hheld, List.length_append, List.length_singleton]
  have hle : (i.w - i.r).toNat ≤ i.held.length := by
    rw [held_length]
    exact h.ready_le
  refine ⟨⟨?_, ?_⟩, ?_, ?_⟩
  · rw [hlen]
    exact h.ready_le.trans (Nat.le_succ _)
  · rw [hlen]
    exact hlt
  · change (i.store c).held.take (i.w - i.r).toNat = i.held.take (i.w - i.r).toNat
    rw [hheld, List.take_append_of_le_length hle]
  · change (i.store c).held.drop (i.w - i.r).toNat = i.held.drop (i.w - i.r).toNat ++ [c]
    rw [hheld, List.drop_append_of_le_length hle]

theorem Ordered.commit (h : i.Ordered) :
    i.commit.Ordered ∧ i.commit.ready = i.ready ++ i.line ∧ i.commit.line = [] := by
  have hlen : i.commit.held.length = (i.e - i.r).toNat := held_length i
  refine ⟨⟨le_rfl, h.small⟩, ?_, ?_⟩
  · rw [← held_eq]
    change i.commit.held.take (i.e - i.r).toNat = i.held
    rw [← hlen, List.take_length]
    rfl
  · change i.commit.held.drop (i.e - i.r).toNat = []
    rw [← hlen, List.drop_length]

theorem Ordered.erase (h : i.Ordered) (hne : i.e ≠ i.w) :
    i.erase.Ordered ∧ i.erase.ready = i.ready ∧ i.erase.line = i.line.dropLast := by
  have hline : i.line ≠ [] := mt h.line_eq_nil.1 hne
  have hpos : 0 < i.line.length := List.length_pos_iff.2 hline
  have hlt : (i.w - i.r).toNat < (i.e - i.r).toNat := by
    have hl : i.line.length = i.held.length - (i.w - i.r).toNat := List.length_drop ..
    rw [held_length] at hl
    omega
  have hsub : i.e - 1 - i.r = (i.e - i.r) - 1 := by grind
  have hlen : (i.erase.e - i.erase.r).toNat + 1 = (i.e - i.r).toNat := by
    change (i.e - 1 - i.r).toNat + 1 = _
    rw [hsub]
    exact toNat_pred (by omega)
  have hheld : i.erase.held = i.held.dropLast := by
    unfold held
    rw [← hlen, Ring.held_last, List.dropLast_concat]
    rfl
  refine ⟨⟨?_, ?_⟩, ?_, ?_⟩
  · change (i.w - i.r).toNat ≤ _
    omega
  · have := h.small
    omega
  · change i.erase.held.take (i.w - i.r).toNat = i.held.take (i.w - i.r).toNat
    rw [hheld, List.dropLast_eq_take, List.take_take, held_length, Nat.min_eq_left (by omega)]
  · change i.erase.held.drop (i.w - i.r).toNat = i.line.dropLast
    rw [hheld, held_eq, List.dropLast_append_of_ne_nil hline, ← h.ready_length, List.drop_left]

/-- The character before `input.e` is the last of a line that is not empty. -/
theorem Ordered.last_mem (h : i.Ordered) (hne : i.e ≠ i.w) : i.buf (slot (i.e - 1)) ∈ i.line := by
  have hline : i.line ≠ [] := mt h.line_eq_nil.1 hne
  have hpos : (i.e - i.r).toNat ≠ 0 := by
    rw [← held_length, held_eq, List.length_append]
    have := List.length_pos_iff.2 hline
    omega
  have hsub : i.e - 1 = i.r + (i.e - i.r - 1) := by grind
  have hheld : i.held = Ring.held i.buf i.r.toNat (i.e - i.r - 1).toNat ++ [i.buf (slot (i.e - 1))] := by
    rw [held, ← toNat_pred hpos, Ring.held_last, hsub, slot_add]
  have hlast : i.line.getLast? = some (i.buf (slot (i.e - 1))) := by
    rw [← List.getLast?_append_of_ne_nil i.ready hline, ← held_eq, hheld]
    exact List.getLast?_concat ..
  exact List.mem_of_getLast? hlast

theorem Ordered.take (h : i.Ordered) (hne : i.r ≠ i.w) :
    i.take.Ordered ∧ i.ready = i.buf (slot i.r) :: i.take.ready ∧ i.take.line = i.line := by
  have hpos : (i.w - i.r).toNat ≠ 0 := by
    rw [← h.ready_length]
    exact mt List.length_eq_zero_iff.1 (mt h.ready_eq_nil.1 hne)
  have hw : (i.take.w - i.take.r).toNat + 1 = (i.w - i.r).toNat := by
    have hsub : i.w - (i.r + 1) = (i.w - i.r) - 1 := by grind
    change (i.w - (i.r + 1)).toNat + 1 = _
    rw [hsub]
    exact toNat_pred hpos
  have he : (i.take.e - i.take.r).toNat + 1 = (i.e - i.r).toNat := by
    have hsub : i.e - (i.r + 1) = (i.e - i.r) - 1 := by grind
    have hle := h.ready_le
    change (i.e - (i.r + 1)).toNat + 1 = _
    rw [hsub]
    exact toNat_pred (by omega)
  have hheld : i.held = i.buf (slot i.r) :: i.take.held := by
    unfold held
    rw [← he, Ring.held_succ]
    congr 1
    apply Ring.held_congr
    change (i.r.toNat + 1) % INPUT_BUF = (i.r + 1).toNat % INPUT_BUF
    rw [UInt32.toNat_add]
    simp only [INPUT_BUF]
    change _ = (i.r.toNat + 1) % 2 ^ 32 % 128
    omega
  have hle := h.ready_le
  have hsmall := h.small
  refine ⟨⟨by omega, by omega⟩, ?_, ?_⟩
  · rw [Input.ready, hheld, ← hw, List.take_succ_cons]
    rfl
  · rw [Input.line, Input.line, hheld, ← hw, List.drop_succ_cons]

theorem untake_take (i : Input) : i.take.untake = i := by
  unfold take untake
  cases i
  simp

end Input

end Console

end Xv6
