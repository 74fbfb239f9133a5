import CCppProjects.Lib.Run
import CCppProjects.Lib.Sat
import Mathlib.Algebra.Ring.Nat
import Mathlib.Logic.Function.Basic
/-
# Inodes on disk (fs.c)

| here | there |
|---|---|
| `Fs.bitmap b` | bit `b % BPB` of bitmap block `BBLOCK(b, sb)` |
| `Fs.dinodes i` | `struct dinode` number `i` of the inode blocks |
| `Fs.blocks b` | the bytes of data block `b`, as the buffer cache has them |
| `Fs.icache i` | the slot of `icache.inode[]` that holds inode `i`; `ref = 0` where none does |
| `Panic` | the message of the `panic` that stops the kernel |

A buffer that is modified is given to `log_write` in the same function, so the cache and the disk are one here.
`off`, `n` and block numbers are `uint`: sums are taken mod 2^32 where the code compares them.
-/
namespace Fs

open Function (update)

def BSIZE : Nat := 512
def NDIRECT : Nat := 12
def NINDIRECT : Nat := BSIZE / 4
def MAXFILE : Nat := NDIRECT + NINDIRECT
def BPB : Nat := BSIZE * 8
def NINODE : Nat := 50

/-- The range of `uint`. -/
def UINT : Nat := 2 ^ 32

/-- What the code reads of `struct superblock`. -/
structure Superblock where
  size : Nat
  ninodes : Nat
  bmapstart : Nat
  size_lt : size < UINT

/-- The first data block (mkfs.c:20-22, 79). -/
def Superblock.data (sb : Superblock) : Nat := sb.bmapstart + (sb.size / BPB + 1)

inductive Panic
  | outOfBlocks
  | freeingFree
  | bmapRange
  | noInodes
  | igetNoInodes
  | noType
  deriving DecidableEq, Repr

/-- stat.h, and 0 for a free inode. -/
inductive Ty
  | free
  | dir
  | file
  | dev
  deriving DecidableEq, Repr

abbrev Block := Nat → UInt8

def zero : Block := fun _ => 0

/-- `((uint*)bp->data)[j]`. -/
def word (a : Block) (j : Nat) : Nat :=
  (a (4 * j)).toNat + 256 * (a (4 * j + 1)).toNat + 65536 * (a (4 * j + 2)).toNat + 16777216 * (a (4 * j + 3)).toNat

def setWord (a : Block) (j v : Nat) : Block := fun k =>
  if k / 4 = j then UInt8.ofNat (v / 256 ^ (k % 4)) else a k

/-- `memmove` of `bytes` to `data + at`. -/
def patch (a : Block) (start : Nat) (bytes : List UInt8) : Block := fun k =>
  if start ≤ k then (bytes[k - start]?).getD (a k) else a k

/-- The fields of an inode that live on disk. -/
structure Inode where
  type : Ty
  nlink : Int
  size : Nat
  addrs : Nat → Nat

def Inode.setAddr (ip : Inode) (k a : Nat) : Inode := { ip with addrs := update ip.addrs k a }

structure Entry where
  ref : Nat
  valid : Bool
  ip : Inode

end Fs

structure Fs where
  bitmap : Nat → Bool
  blocks : Nat → Fs.Block
  dinodes : Nat → Fs.Inode
  icache : Nat → Fs.Entry

namespace Fs

open Function (update)

variable (sb : Superblock)

/-! ## Blocks -/

/-- Block `b` marked in use and zeroed. -/
def mark (s : Fs) (b : Nat) : Fs := { s with bitmap := update s.bitmap b true, blocks := update s.blocks b zero }

/-- The scan of the bitmap, `b + bi` from 0 to `sb.size` (fs.c:56-77). -/
def balloc (s : Fs) : Except Panic (Nat × Fs) :=
  match (List.range sb.size).find? fun b => !s.bitmap b with
  | some b => .ok (b, s.mark b)
  | none => .error .outOfBlocks

/-- fs.c:80-95. -/
def bfree (s : Fs) (b : Nat) : Except Panic Fs :=
  if s.bitmap b then .ok { s with bitmap := update s.bitmap b false } else .error .freeingFree

def setBlock (s : Fs) (b : Nat) (a : Block) : Fs := { s with blocks := update s.blocks b a }

/-! ## Content -/

/-- fs.c:226-242. -/
def iupdate (s : Fs) (i : Nat) (ip : Inode) : Fs := { s with dinodes := update s.dinodes i ip }

/-- `ip->addrs[k]`, allocated if necessary (fs.c:380-381, 388-389). -/
def addrAt (s : Fs) (ip : Inode) (k : Nat) : Except Panic (Nat × Inode × Fs) :=
  if ip.addrs k = 0 then do
    let (addr, s) ← balloc sb s
    .ok (addr, ip.setAddr k addr, s)
  else .ok (ip.addrs k, ip, s)

/-- `a[bn]` of the indirect block `ptr`, allocated if necessary (fs.c:390-395). -/
def indirectAt (s : Fs) (ptr bn : Nat) : Except Panic (Nat × Fs) :=
  if word (s.blocks ptr) bn = 0 then do
    let (addr, s) ← balloc sb s
    .ok (addr, s.setBlock ptr (setWord (s.blocks ptr) bn addr))
  else .ok (word (s.blocks ptr) bn, s)

/-- fs.c:373-401. -/
def bmap (s : Fs) (ip : Inode) (bn : Nat) : Except Panic (Nat × Inode × Fs) :=
  if bn < NDIRECT then addrAt sb s ip bn
  else if bn - NDIRECT < NINDIRECT then do
    let (ptr, ip, s) ← addrAt sb s ip NDIRECT
    let (addr, s) ← indirectAt sb s ptr (bn - NDIRECT)
    .ok (addr, ip, s)
  else .error .bmapRange

/-- `if(a) bfree(a)`. -/
def bfreeIf (s : Fs) (a : Nat) : Except Panic Fs := if a = 0 then .ok s else bfree s a

/-- The blocks behind the indirect block, then the block itself (fs.c:422-431). -/
def freeIndirect (s : Fs) (ptr : Nat) : Except Panic Fs :=
  if ptr = 0 then .ok s
  else do
    let s ← (List.range NINDIRECT).foldlM (fun t j => bfreeIf t (word (s.blocks ptr) j)) s
    bfree s ptr

/-- fs.c:408-435: no address is left, and the inode is written back. -/
def itrunc (s : Fs) (i : Nat) (ip : Inode) : Except Panic (Inode × Fs) := do
  let s ← (List.range NDIRECT).foldlM (fun t k => bfreeIf t (ip.addrs k)) s
  let s ← freeIndirect s (ip.addrs NDIRECT)
  let ip := { ip with addrs := fun k => if k ≤ NDIRECT then 0 else ip.addrs k, size := 0 }
  .ok (ip, s.iupdate i ip)

/-- The loop of `readi` with `n - tot` bytes to go (fs.c:467-472); every round copies at least one byte. -/
def readLoop : Nat → Fs → Inode → Nat → Nat → Except Panic (List UInt8 × Inode × Fs)
  | 0, s, ip, _, _ => .ok ([], ip, s)
  | fuel + 1, s, ip, off, n =>
    if n = 0 then .ok ([], ip, s)
    else do
      let (b, ip, s) ← bmap sb s ip (off / BSIZE)
      let m := min n (BSIZE - off % BSIZE)
      let bytes := (List.range m).map fun k => s.blocks b (off % BSIZE + k)
      let (rest, ip, s) ← readLoop fuel s ip (off + m) (n - m)
      .ok (bytes ++ rest, ip, s)

/-- fs.c:453-474, for an inode that is not a device; `none` is -1. -/
def readi (s : Fs) (ip : Inode) (off n : Nat) : Except Panic (Option (List UInt8) × Inode × Fs) :=
  if ip.size < off ∨ (off + n) % UINT < off then .ok (none, ip, s)
  else do
    let n := if ip.size < (off + n) % UINT then ip.size - off else n
    let (bytes, ip, s) ← readLoop sb n s ip off n
    .ok (some bytes, ip, s)

/-- The loop of `writei` with the rest of `src` to go, and where it leaves `off` (fs.c:498-504). -/
def writeLoop : Nat → Fs → Inode → Nat → List UInt8 → Except Panic (Nat × Inode × Fs)
  | 0, s, ip, off, _ => .ok (off, ip, s)
  | fuel + 1, s, ip, off, src =>
    if src = [] then .ok (off, ip, s)
    else do
      let (b, ip, s) ← bmap sb s ip (off / BSIZE)
      let m := min src.length (BSIZE - off % BSIZE)
      let s := s.setBlock b (patch (s.blocks b) (off % BSIZE) (src.take m))
      writeLoop fuel s ip (off + m) (src.drop m)

/-- fs.c:506-509. -/
def grow (s : Fs) (i : Nat) (ip : Inode) (n off : Nat) : Inode × Fs :=
  if 0 < n ∧ ip.size < off then ({ ip with size := off }, s.iupdate i { ip with size := off }) else (ip, s)

/-- fs.c:481-511, for an inode that is not a device; `none` is -1. -/
def writei (s : Fs) (i : Nat) (ip : Inode) (off : Nat) (src : List UInt8) : Except Panic (Option Nat × Inode × Fs) :=
  let n := src.length
  if ip.size < off ∨ (off + n) % UINT < off then .ok (none, ip, s)
  else if MAXFILE * BSIZE < (off + n) % UINT then .ok (none, ip, s)
  else do
    let (off, ip, s) ← writeLoop sb n s ip off src
    let (ip, s) := s.grow i ip n off
    .ok (some n, ip, s)

/-! ## Inodes -/

def setEntry (s : Fs) (i : Nat) (e : Entry) : Fs := { s with icache := update s.icache i e }

/-- fs.c:247-282. -/
def iget (s : Fs) (i : Nat) : Except Panic Fs :=
  let e := s.icache i
  if 0 < e.ref then .ok (s.setEntry i { e with ref := e.ref + 1 })
  else if (List.range sb.ninodes).countP (fun j => 0 < (s.icache j).ref) < NINODE then
    .ok (s.setEntry i { e with ref := 1, valid := false })
  else .error .igetNoInodes

/-- fs.c:199-220. -/
def ialloc (s : Fs) (type : Ty) : Except Panic (Nat × Fs) :=
  match (List.range sb.ninodes).find? fun i => 1 ≤ i ∧ (s.dinodes i).type = .free with
  | some i => do
    let s ← iget sb (s.iupdate i { type, nlink := 0, size := 0, addrs := fun _ => 0 }) i
    .ok (i, s)
  | none => .error .noInodes

/-- fs.c:297-322, without the lock. -/
def ilock (s : Fs) (i : Nat) : Except Panic Fs :=
  let e := s.icache i
  if e.valid then .ok s
  else if (s.dinodes i).type = .free then .error .noType
  else .ok (s.setEntry i { e with valid := true, ip := s.dinodes i })

/-- fs.c:332-353, and whether the inode was freed. -/
def iput (s : Fs) (i : Nat) : Except Panic (Bool × Fs) :=
  let e := s.icache i
  if e.valid ∧ e.ip.nlink = 0 ∧ e.ref = 1 then do
    let (ip, s) ← itrunc s i e.ip
    let ip := { ip with type := .free }
    .ok (true, (s.iupdate i ip).setEntry i { ref := e.ref - 1, valid := false, ip })
  else .ok (false, s.setEntry i { e with ref := e.ref - 1 })

/-! ## Runs -/

/-- What a caller does with one inode; `setNlink` is `ip->nlink = n; iupdate(ip)`. -/
inductive Op
  | ialloc (type : Ty)
  | iget (i : Nat)
  | ilock (i : Nat)
  | setNlink (i : Nat) (n : Int)
  | readi (i off n : Nat)
  | writei (i off : Nat) (src : List UInt8)
  | iput (i : Nat)

/-- What it gets. -/
inductive Res
  | inum (i : Nat)
  | done
  | bytes (r : Option (List UInt8))
  | count (r : Option Nat)
  | freed (b : Bool)
  deriving DecidableEq

/-- The inode is referenced and has been locked since. -/
def held (s : Fs) (i : Nat) : Prop := 0 < (s.icache i).ref ∧ (s.icache i).valid = true

instance (s : Fs) (i : Nat) : Decidable (s.held i) := inferInstanceAs (Decidable (_ ∧ _))

/-- What callers keep to: arguments of their types, a type that `create` passes, a reference where one is
given up or locked, a locked inode that is no device where its content is touched. -/
def Op.Ok (s : Fs) : Op → Prop
  | .ialloc type => type ≠ .free
  | .iget i => i < sb.ninodes
  | .ilock i => 0 < (s.icache i).ref ∧ ((s.icache i).valid = false → (s.dinodes i).type ≠ .free)
  | .setNlink i _ => s.held i
  | .readi i off n => s.held i ∧ (s.icache i).ip.type ≠ .dev ∧ off < UINT ∧ n < UINT
  | .writei i off src => s.held i ∧ (s.icache i).ip.type ≠ .dev ∧ off < UINT ∧ src.length < UINT
  | .iput i => 0 < (s.icache i).ref

instance (s : Fs) (o : Op) : Decidable (o.Ok sb s) := by
  cases o <;> unfold Op.Ok <;> infer_instance

/-- The in-memory inode after an operation on it. -/
def store (s : Fs) (i : Nat) (ip : Inode) : Fs := s.setEntry i { s.icache i with ip }

def exec (s : Fs) : Op → Except Panic (Res × Fs)
  | .ialloc type => do
    let (i, s) ← ialloc sb s type
    .ok (.inum i, s)
  | .iget i => do
    let s ← iget sb s i
    .ok (.done, s)
  | .ilock i => do
    let s ← ilock s i
    .ok (.done, s)
  | .setNlink i n =>
    let ip := { (s.icache i).ip with nlink := n }
    .ok (.done, (s.store i ip).iupdate i ip)
  | .readi i off n => do
    let (r, ip, s) ← readi sb s (s.icache i).ip off n
    .ok (.bytes r, s.store i ip)
  | .writei i off src => do
    let (r, ip, s) ← writei sb s i (s.icache i).ip off src
    .ok (.count r, s.store i ip)
  | .iput i => do
    let (b, s) ← iput s i
    .ok (.freed b, s)

def Step (s : Fs) (l : Op × Res) (t : Fs) : Prop := l.1.Ok sb s ∧ exec sb s l.1 = .ok (l.2, t)

end Fs
