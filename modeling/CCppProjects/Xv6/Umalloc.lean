import CCppProjects.Lib.Circle
import CCppProjects.Lib.Extents
import CCppProjects.Lib.Run
import CCppProjects.Xv6.Defs
/-
# The user heap (umalloc.c)

| here | there |
| --- | --- |
| `Header`          | `union header`, 8 bytes; pointers and sizes are `uint`s |
| `search`, `free`  | umalloc.c:30, :25 |
| `morecore`        | umalloc.c:47 once `sbrk` has returned an address |
| `take`, `malloc`  | umalloc.c:76-85, :64 |

`areas` is what `sbrk` has obtained: nothing when the number of bytes asked for is negative as an `int`.
The answers of `sbrk` come from outside, `none` is -1. The loops have as many rounds as there are headers
in memory, and end before (`malloc_returns`).
-/
namespace Xv6.Umalloc

open Circle Extents Lts

structure Header where
  ptr : Nat
  size : Nat

structure Heap where
  hdr : Nat → Header
  freep : Nat
  areas : List Ext

def Heap.set (h : Heap) (p : Nat) (x : Header) : Heap := { h with hdr := Function.update h.hdr p x }

/-- `p->s.ptr` -/
def Heap.next (h : Heap) (p : Nat) : Nat := (h.hdr p).ptr

/-- `p + p->s.size` -/
def Heap.after (h : Heap) (p : Nat) : Nat := (p + 8 * (h.hdr p).size) % UINT

/-- More than there are headers in memory. -/
def ROUNDS : Nat := UINT / 8 + 1

/-- The loop of `free`: the place of `bp`, from `p` on. -/
def search (bp : Nat) (h : Heap) : Nat → Nat → Option Nat
  | 0, _ => none
  | n + 1, p =>
    if (p < bp ∧ bp < h.next p) ∨ (h.next p ≤ p ∧ (p < bp ∨ bp < h.next p)) then some p else search bp h n (h.next p)

/-- umalloc.c:32-36, `next` is `p->s.ptr`. -/
def joinNext (bp next : Nat) (h : Heap) : Heap :=
  if h.after bp = next then h.set bp ⟨h.next next, ((h.hdr bp).size + (h.hdr next).size) % UINT⟩
  else h.set bp { h.hdr bp with ptr := next }

/-- umalloc.c:37-41 -/
def joinPrev (bp p : Nat) (h : Heap) : Heap :=
  if h.after p = bp then h.set p ⟨h.next bp, ((h.hdr p).size + (h.hdr bp).size) % UINT⟩
  else h.set p { h.hdr p with ptr := bp }

/-- umalloc.c:25 -/
def free (ap : Nat) (h : Heap) : Option Heap :=
  (search (ap - 8) h ROUNDS h.freep).map fun p =>
    { joinPrev (ap - 8) p (joinNext (ap - 8) (h.next p) h) with freep := p }

/-- The units `morecore` asks for. -/
def growth (nu : Nat) : Nat := if nu < 4096 then 4096 else nu

/-- What `sbrk(nu * sizeof(Header))` obtains when it does not fail. -/
def obtained (nu : Nat) : Nat := if nu * 8 % UINT < 2 ^ 31 then nu * 8 % UINT else 0

/-- umalloc.c:47, `a` from `sbrk`. -/
def morecore (nu a : Nat) (h : Heap) : Option Heap :=
  let h := { h with areas := ⟨a, obtained (growth nu)⟩ :: h.areas }
  free (a + 8) (h.set a { h.hdr a with size := growth nu })

/-- umalloc.c:77-85: all of `p` or its tail. -/
def take (nunits prevp p : Nat) (h : Heap) : Nat × Heap :=
  if (h.hdr p).size = nunits then (p + 8, { h.set prevp { h.hdr prevp with ptr := h.next p } with freep := prevp })
  else
    let h := h.set p { h.hdr p with size := (h.hdr p).size - nunits }
    let q := h.after p
    (q + 8, { h.set q { h.hdr q with size := nunits } with freep := prevp })

/-- The loop of `malloc`; `sbrk` has the answers still to come. -/
def mallocLoop (nunits : Nat) : Nat → Nat → Nat → List (Option Nat) → Heap → Option (Nat × Heap)
  | 0, _, _, _, _ => none
  | n + 1, prevp, p, sbrk, h =>
    if nunits ≤ (h.hdr p).size then some (take nunits prevp p h)
    else if p = h.freep then
      match sbrk with
      | [] => none
      | none :: _ => some (0, h)
      | some a :: sbrk => (morecore nunits a h).bind fun h => mallocLoop nunits n h.freep (h.next h.freep) sbrk h
    else mallocLoop nunits n p (h.next p) sbrk h

/-- umalloc.c:69, in `uint` arithmetic. -/
def units (nbytes : Nat) : Nat := (nbytes + 8 - 1) % UINT / 8 + 1

/-- The first `if` of `malloc`. -/
def start (base : Nat) (h : Heap) : Heap :=
  if h.freep = 0 then { h.set base ⟨base, 0⟩ with freep := base } else h

/-- umalloc.c:64 with at most one call of `sbrk`, the result 0 is the null pointer. -/
def malloc (base nbytes : Nat) (sbrk : Option Nat) (h : Heap) : Option (Nat × Heap) :=
  let h := start base h
  mallocLoop (units nbytes) (2 * ROUNDS) h.freep (h.next h.freep) [sbrk] h

/-! ## Programs -/

/-- `live`: the pointers a program has from `malloc` and has not freed, and what it asked for. -/
structure State extends Heap where
  live : List (Nat × Nat)

/-- A call, with the answer of `sbrk` should `malloc` ask. -/
inductive Call
  | malloc (nbytes : Nat) (sbrk : Option Nat)
  | free (ap : Nat)

def step (base : Nat) (s : State) : Call → Option State
  | .malloc n sbrk => (malloc base n sbrk s.toHeap).map fun r =>
    { r.2 with live := if r.1 = 0 then s.live else (r.1, n) :: s.live }
  | .free ap => (free ap s.toHeap).map fun h => { h with live := s.live.eraseP (·.1 == ap) }

/-- `sbrk` returns a fresh area above all earlier ones, or -1; what is freed is live. -/
def Call.Ok (base : Nat) (s : State) : Call → Prop
  | .malloc n sbrk => n < UINT ∧ ∀ a ∈ sbrk, (∀ e ∈ s.areas, e.stop ≤ a) ∧ base + 8 ≤ a ∧
      a + obtained (growth (units n)) ≤ UINT
  | .free ap => ∃ n, (ap, n) ∈ s.live

def Trans (base : Nat) (s : State) (c : Call) (s' : State) : Prop := c.Ok base s ∧ step base s c = some s'

/-- The program before its first call: nothing obtained, whatever is in memory. -/
def State.init (hdr : Nat → Header) : State := ⟨⟨hdr, 0, []⟩, []⟩

end Xv6.Umalloc
