import CCppProjects.Xv6.Syscall
/-
# The reference machine

What programs are promised: a process has pages of bytes of its own and a size. `fork` copies every
page at once; nothing is shared, counted or swapped, and no call fails half way. The machine
answers to what programs can tell of a step (`Obs`), so a run of the kernel is right when the
reference machine can take the same observations in the same order.

| here | there |
| --- | --- |
| `refSbrk` | `growproc` (proc.c:184) |
| `refSegments`, `refStrings`, `refStack` | the image `exec` builds (exec.c:117, :152, :142-172) |
-/
namespace Xv6

/-- What a program sees: a page of bytes for each page present. -/
abbrev Mem := Nat → Option PageData

/-- One page less. -/
def Mem.clear (v : Nat) (m : Mem) : Mem := Function.update m v none

/-- The pages from `v` to `oldsz` go. -/
def Mem.cut (v oldsz : Nat) (m : Mem) : Mem := fun u => if v ≤ u ∧ u * PGSIZE < oldsz then none else m u

/-- The pages from `v` to `newsz` come, all zeros. -/
def Mem.grow (v newsz : Nat) (m : Mem) : Mem := fun u => if v ≤ u ∧ u * PGSIZE < newsz then some zeroPage else m u

/-- The pages below `sz`. -/
def Mem.below (sz : Nat) (m : Mem) : Mem := fun u => if u * PGSIZE < sz then m u else none

/-- The byte at `va` becomes `b`, if the page is there. -/
def Mem.set (va : Nat) (b : UInt8) (m : Mem) : Mem :=
  Function.update m (va / PGSIZE)
    ((m (va / PGSIZE)).map fun page => Function.update page ⟨va % PGSIZE, pgoff_lt va⟩ b)

/-- Bytes one after another from `va` on. -/
def Mem.write : Nat → List UInt8 → Mem → Mem
  | _, [], m => m
  | va, b :: bs, m => Mem.write (va + 1) bs (m.set va b)

/-- Nothing is there. -/
def Mem.none : Mem := fun _ => Option.none

structure RefProc where
  mem : Mem
  sz : Nat

/-- The processes by their slot in `ptable`. -/
abbrev Ref := Nat → RefProc

/-- A shrink to nothing takes the pages and leaves the size. -/
def refSbrk (n : Int) (p : RefProc) : RefProc :=
  let newsz := addInt p.sz n
  if 0 < n then ⟨p.mem.grow (pgUp p.sz) newsz, max p.sz newsz⟩
  else if n < 0 then ⟨p.mem.cut (pgUp newsz) p.sz, if min p.sz newsz = 0 then p.sz else min p.sz newsz⟩
  else p

def refSegments : List Segment → RefProc → RefProc
  | [], p => p
  | ph :: phs, p =>
    if !ph.load then refSegments phs p else
    let newsz := (ph.vaddr + ph.memsz).toNat
    refSegments phs
      ⟨(p.mem.grow (pgUp p.sz) newsz).write ph.vaddr.toNat (ph.bytes.take ph.filesz.toNat), max p.sz newsz⟩

/-- The strings of `argv` below `sp`; their addresses so far are in `ptrs`. -/
def refStrings : List (List UInt8) → Nat → List Nat → Mem → Nat × List Nat × Mem
  | [], sp, ptrs, m => (sp, ptrs, m)
  | arg :: args, sp, ptrs, m =>
    let sp := subUInt sp (arg.length + 1) / 4 * 4
    refStrings args sp (ptrs ++ [sp]) (m.write sp (arg ++ [0]))

/-- The stack of two pages above an image of `sz` bytes. -/
def refStack (argv : List (List UInt8)) (sz : Nat) (m : Mem) : Mem :=
  let top := pgUp sz * PGSIZE + 2 * PGSIZE
  let s := refStrings argv top [] (m.grow (pgUp (pgUp sz * PGSIZE)) top)
  s.2.2.write (subUInt s.1 ((3 + s.2.1.length + 1) * 4)) ((ustack s.1 s.2.1).flatMap wordBytes)

def refExec (img : Image) (argv : List (List UInt8)) : RefProc :=
  let p := refSegments img.segs ⟨Mem.none, 0⟩
  ⟨refStack argv p.sz p.mem, pgUp p.sz * PGSIZE + 2 * PGSIZE⟩

/-- The byte at `va`. -/
def Mem.byte (m : Mem) (va : Nat) : Option UInt8 :=
  (m (va / PGSIZE)).map fun page => page ⟨va % PGSIZE, pgoff_lt va⟩

/-- `none` when the machine would have shown something else. -/
def refStep (r : Ref) : Obs → Option Ref
  | .load i va b => if (r i).mem.byte va = some b then some r else none
  | .store i va b =>
    if ((r i).mem (va / PGSIZE)).isSome then
      some (Function.update r i { r i with mem := (r i).mem.set va b })
    else none
  | .sbrk i n => some (Function.update r i (refSbrk n (r i)))
  | .fork i j => some (Function.update r j (r i))
  | .exec i img argv => some (Function.update r i (refExec img argv))
  | .wait j => some (Function.update r j { r j with mem := Mem.none })

end Xv6
