import CCppProjects.Fs.Disk
/-
# mkfs.c

| here | there |
|---|---|
| `Img` | the image file as sectors, `len` of them, `freeinode` and `freeblock` |
| `getDinode`, `putDinode` | `((struct dinode*)buf)[k]` as 16 little-endian words |
| `File` | a file of the host: its name and the bytes of each `read` |
| `none` | an `assert` that fails or `exit(1)` |

Files can be opened and read, and `wsect` does not fail. What `mkfs` prints is left out.
-/
namespace Mkfs

open Fs (Block zero word setWord patch BSIZE NDIRECT NINDIRECT MAXFILE BPB)

def FSSIZE : Nat := 1000
def NINODES : Nat := 200
def IPB : Nat := BSIZE / 64
def ROOTINO : Nat := 1
def DIRSIZ : Nat := 14
def T_DIR : Nat := 1
def T_FILE : Nat := 2

def nbitmap : Nat := FSSIZE / (BSIZE * 8) + 1
def ninodeblocks : Nat := NINODES / IPB + 1
def nlog : Nat := 30
def nmeta : Nat := 2 + nlog + ninodeblocks + nbitmap
def inodestart : Nat := 2 + nlog
def bmapstart : Nat := 2 + nlog + ninodeblocks

/-- `struct dinode` -/
structure Dinode where
  type : Nat
  major : Nat
  minor : Nat
  nlink : Nat
  size : Nat
  addrs : Nat → Nat

def Dinode.word (d : Dinode) : Nat → Nat
  | 0 => d.type + 65536 * d.major
  | 1 => d.minor + 65536 * d.nlink
  | 2 => d.size
  | j + 3 => d.addrs j

def putDinode (buf : Block) (k : Nat) (d : Dinode) : Block :=
  (List.range 16).foldl (fun b j => setWord b (16 * k + j) (d.word j)) buf

def getDinode (buf : Block) (k : Nat) : Dinode where
  type := word buf (16 * k) % 65536
  major := word buf (16 * k) / 65536
  minor := word buf (16 * k + 1) % 65536
  nlink := word buf (16 * k + 1) / 65536
  size := word buf (16 * k + 2)
  addrs j := if j ≤ NDIRECT then word buf (16 * k + 3 + j) else 0

structure Img where
  sect : Nat → Block
  len : Nat
  freeinode : Nat
  freeblock : Nat

/-! ## Sectors -/

/-- A write behind the end makes the file longer. -/
def wsect (sec : Nat) (buf : Block) (s : Img) : Img :=
  { s with sect := Function.update s.sect sec buf, len := max s.len (sec + 1) }

/-- A read behind the end is short: `exit(1)`. -/
def rsect (sec : Nat) (s : Img) : Option Block := if sec < s.len then some (s.sect sec) else none

def IBLOCK (inum : Nat) : Nat := inum / IPB + inodestart

def winode (inum : Nat) (d : Dinode) (s : Img) : Option Img :=
  (rsect (IBLOCK inum) s).map fun buf => wsect (IBLOCK inum) (putDinode buf (inum % IPB) d) s

def rinode (inum : Nat) (s : Img) : Option Dinode := (rsect (IBLOCK inum) s).map fun buf => getDinode buf (inum % IPB)

/-! ## Inodes -/

/-- mkfs.c:223 -/
def ialloc (type : Nat) (s : Img) : Option (Nat × Img) :=
  (winode s.freeinode ⟨type, 0, 0, 1, 0, fun _ => 0⟩ { s with freeinode := s.freeinode + 1 }).map
    fun s' => (s.freeinode, s')

def Dinode.setAddr (d : Dinode) (k a : Nat) : Dinode := { d with addrs := Function.update d.addrs k a }

/-- `addrs[k]`, from `freeblock` if it is 0. -/
def addrAt (d : Dinode) (k : Nat) (s : Img) : Nat × Dinode × Img :=
  if d.addrs k = 0 then (s.freeblock, d.setAddr k s.freeblock, { s with freeblock := s.freeblock + 1 })
    else (d.addrs k, d, s)

/-- The block `x` of `iappend` (mkfs.c:273-287). -/
def blockFor (d : Dinode) (fbn : Nat) (s : Img) : Option (Nat × Dinode × Img) :=
  if fbn < NDIRECT then some (addrAt d fbn s)
  else
    let (ptr, d, s) := addrAt d NDIRECT s
    (rsect ptr s).map fun indirect =>
      if word indirect (fbn - NDIRECT) = 0 then
        (s.freeblock, d, wsect ptr (setWord indirect (fbn - NDIRECT) s.freeblock)
          { s with freeblock := s.freeblock + 1 })
      else (word indirect (fbn - NDIRECT), d, s)

/-- The loop of `iappend` with `p` to go; every round writes at least one byte. -/
def iappendLoop : Nat → Dinode → Nat → List UInt8 → Img → Option (Nat × Dinode × Img)
  | 0, d, off, _, s => some (off, d, s)
  | fuel + 1, d, off, p, s =>
    if p = [] then some (off, d, s)
    else if MAXFILE ≤ off / BSIZE then none
    else do
      let (x, d, s) ← blockFor d (off / BSIZE) s
      let n1 := min p.length ((off / BSIZE + 1) * BSIZE - off)
      let buf ← rsect x s
      let s := wsect x (patch buf (off - off / BSIZE * BSIZE) (p.take n1)) s
      iappendLoop fuel d (off + n1) (p.drop n1) s

/-- mkfs.c:256 -/
def iappend (inum : Nat) (p : List UInt8) (s : Img) : Option Img := do
  let d ← rinode inum s
  let (off, d, s) ← iappendLoop p.length d d.size p s
  winode inum { d with size := off } s

/-! ## main -/

/-- A file's name as a string of bytes, and what each `read` into `buf` returns. -/
structure File where
  name : List UInt8
  reads : List (List UInt8)
  short : ∀ r ∈ reads, 0 < r.length ∧ r.length ≤ BSIZE

def File.bytes (f : File) : List UInt8 := f.reads.flatten

/-- `struct dirent`, the name cut off or padded with zeroes by `strncpy`. -/
def dirent (inum : Nat) (name : List UInt8) : List UInt8 :=
  [UInt8.ofNat inum, UInt8.ofNat (inum / 256)] ++ (name.take DIRSIZ ++ List.replicate (DIRSIZ - name.length) 0)

/-- '/' and '_' -/
def SLASH : UInt8 := 47
def UNDERSCORE : UInt8 := 95

/-- `if(argv[i][0] == '_') ++argv[i]` -/
def skip (name : List UInt8) : List UInt8 := if name.head? = some UNDERSCORE then name.tail else name

/-- One round of the loop over `argv`. -/
def addFile (s : Img) (f : File) : Option Img :=
  if SLASH ∈ f.name then none
  else do
    let (inum, s) ← ialloc T_FILE s
    let s ← iappend ROOTINO (dirent inum (skip f.name)) s
    f.reads.foldlM (fun s r => iappend inum r s) s

/-- Bit `i` of the buffer. -/
def setBit (buf : Block) (i : Nat) : Block :=
  Function.update buf (i / 8) (UInt8.ofNat ((buf (i / 8)).toNat ||| 1 <<< (i % 8)))

/-- mkfs.c:237 -/
def balloc (used : Nat) (s : Img) : Option Img :=
  if used < BSIZE * 8 then some (wsect bmapstart ((List.range used).foldl setBit zero) s) else none

/-- The image as `main` has it before it makes the root directory. -/
def blank : Img :=
  let s := (List.range FSSIZE).foldl (fun s i => wsect i zero s) ⟨fun _ => zero, 0, 1, nmeta⟩
  let sb := [FSSIZE, FSSIZE - nmeta, NINODES, nlog, 2, inodestart, bmapstart]
  wsect 1 ((List.range 7).foldl (fun b j => setWord b j (sb.getD j 0)) zero) s

/-- mkfs.c:122-132 -/
def makeRoot (s : Img) : Option Img := do
  let (rootino, s) ← ialloc T_DIR s
  if rootino = ROOTINO then
    let s ← iappend rootino (dirent rootino [46]) s
    iappend rootino (dirent rootino [46, 46]) s
  else none

/-- mkfs.c:160-165 -/
def fixSize (s : Img) : Option Img := do
  let d ← rinode ROOTINO s
  winode ROOTINO { d with size := (d.size / BSIZE + 1) * BSIZE } s

/-- The image when `mkfs` exits with 0. -/
def main (files : List File) : Option Img := do
  let s ← makeRoot blank
  let s ← files.foldlM addFile s
  let s ← fixSize s
  balloc s.freeblock s

/-! ## The kernel's side -/

/-- `stat.h` -/
def tyOf : Nat → Fs.Ty
  | 0 => .free
  | 1 => .dir
  | 2 => .file
  | _ => .dev

/-- The fields `ilock` copies (fs.c:308-313). -/
def Dinode.inode (d : Dinode) : Fs.Inode where
  type := tyOf d.type
  nlink := if d.nlink < 32768 then d.nlink else (d.nlink : Int) - 65536
  size := d.size
  addrs := d.addrs

theorem word_lt (b : Block) (j : Nat) : word b j < Fs.UINT := by
  have h0 := (b (4 * j)).toNat_lt
  have h1 := (b (4 * j + 1)).toNat_lt
  have h2 := (b (4 * j + 2)).toNat_lt
  have h3 := (b (4 * j + 3)).toNat_lt
  rw [word, Fs.UINT]
  omega

/-- `readsb` -/
def superblock (s : Img) : Fs.Superblock where
  size := word (s.sect 1) 0
  ninodes := word (s.sect 1) 2
  bmapstart := word (s.sect 1) 6
  size_lt := word_lt ..

/-- The file system the kernel finds in the image: inodes, data blocks and their bits, nothing cached. -/
def kernel (s : Img) : Fs where
  bitmap b := decide (b < (superblock s).size) &&
    (s.sect ((superblock s).bmapstart + b / BPB) (b % BPB / 8)).toNat.testBit (b % 8)
  blocks b := if b < (superblock s).data then zero else s.sect b
  dinodes i :=
    if i < (superblock s).ninodes then (getDinode (s.sect (i / IPB + word (s.sect 1) 5)) (i % IPB)).inode
    else ⟨.free, 0, 0, fun _ => 0⟩
  icache _ := ⟨0, false, ⟨.free, 0, 0, fun _ => 0⟩⟩

end Mkfs
