import CCppProjects.Fs.Disk
import CCppProjects.Lib.Prog
/-
# Directories, paths and the inode cache (fs.c, file.c, sysfile.c)

One system call of one process, with everything the code does to references, locks and transactions.

| here | there |
|---|---|
| `St.inodes i` | inode `i`; the cached copy is the one on disk (`Consistent.cached`) |
| `Dinode.ents` | a directory's content as its `struct dirent`s; `inum = 0` is a free one |
| `St.icache i` | the slot of `icache.inode[]` that holds inode `i` |
| `St.outstanding`, `St.logged` | `log.outstanding`, and `log.lh.n` as far as pages that go out fill it |
| `St.ftable` | `ftable.file[]`; `ip = none` is FD_NONE |
| `Stop.deadlock` | `acquiresleep` of a lock that the process itself holds |
| `Stop.logSpace` | `begin_op` while the process itself keeps the log from being committed |
| `none` for a path | `argstr` failed |

Blocks do not run out here: a call that needs one when there is none stops in `balloc` and completes nothing. Only
`exec` begins a transaction inside another, for the pages that go out while it loads the program, so only what these
put in the log is counted.
-/
namespace Dirs

open Fs (Ty NINODE MAXFILE BSIZE)
open Function (update)

abbrev Name := List Char
abbrev Path := List Char

def ROOTINO : Nat := 1
def DIRSIZ : Nat := 14
def NOFILE : Nat := 16

/-- What `pid` a process must exceed to have a swap file (proc.h). -/
def DEF_PROCS : Nat := 2

/-- The blocks an operation may log, and those the log holds (param.h). -/
def MAXOPBLOCKS : Nat := 10
def LOGSIZE : Nat := MAXOPBLOCKS * 3

/-- The entries a directory can hold. -/
def MAXENTS : Nat := MAXFILE * BSIZE / 16

structure Dirent where
  inum : Nat
  name : Name
  deriving DecidableEq, Repr

structure Dinode where
  type : Ty
  nlink : Int
  ents : List Dirent

structure Slot where
  ref : Int
  valid : Bool
  locked : Bool

structure File where
  ref : Int
  ip : Option Nat
  deriving DecidableEq, Repr

structure Proc where
  pid : Nat
  cwd : Option Nat
  ofile : List (Option Nat)
  swapFile : Option Nat
  deriving DecidableEq, Repr

structure St where
  inodes : Nat → Dinode
  icache : Nat → Slot
  outstanding : Int
  logged : Nat
  ftable : List File
  procs : List Proc

/-- Why a call does not come back: the message of a `panic`, a lock or log space that is never released, a
null pointer. -/
inductive Stop
  | igetNoInodes
  | ilock
  | noType
  | iunlock
  | notDir
  | noInodes
  | createDots
  | dirlink
  | unlinkNlink
  | fileclose
  | filedup
  | noSlot
  | initExiting
  | nullFile
  | deadlock
  | logSpace
  deriving DecidableEq, Repr

/-- The build: the number of inodes (an `inum` is a `ushort`), and whether there are swap files. -/
structure Config where
  ninodes : Nat
  policy : Bool
  ninodes_le : ninodes ≤ 65536

abbrev M := Prog St Stop

open Prog

variable (c : Config)

/-- `z` as a `short`. -/
def short (z : Int) : Int := (z + 32768) % 65536 - 32768

/-! ## Names -/

/-- `strncmp(s, t, DIRSIZ) == 0`. -/
def namecmp (s t : Name) : Bool := s.take DIRSIZ == t.take DIRSIZ

/-- fs.c:592-619. -/
def skipelem (path : Path) : Option (Name × Path) :=
  let path := path.dropWhile (· == '/')
  if path = [] then none
  else some ((path.takeWhile (· != '/')).take DIRSIZ, (path.dropWhile (· != '/')).dropWhile (· == '/'))

/-- The elements that repeated `skipelem` gives; each takes at least one character. -/
def elemsLoop : Nat → Path → List Name
  | 0, _ => []
  | fuel + 1, path => match skipelem path with
    | some (name, rest) => name :: elemsLoop fuel rest
    | none => []

def elems (path : Path) : List Name := elemsLoop path.length path

/-- The scan of `dirlookup`: the first used entry of that name, with its position. -/
def lookup (ents : List Dirent) (name : Name) : Option (Nat × Nat) :=
  match ents.findIdx? fun de => de.inum != 0 && namecmp name de.name with
  | some off => (ents[off]?).map fun de => (off, de.inum)
  | none => none

/-- Where `dirlink` writes: the first free entry, or behind the last. -/
def freeSlot (ents : List Dirent) : Nat := ents.findIdx fun de => de.inum == 0

/-- `writei` of one entry at position `off`. -/
def putEnt (ents : List Dirent) (off : Nat) (de : Dirent) : List Dirent :=
  if off < ents.length then ents.set off de else ents ++ [de]

/-- fs.c:192-205 of sysfile.c: every entry behind the first two is free. -/
def isdirempty (ents : List Dirent) : Bool := (ents.drop 2).all fun de => de.inum == 0

/-! ## The inode cache -/

def St.setInode (s : St) (i : Nat) (d : Dinode) : St := { s with inodes := update s.inodes i d }
def St.setSlot (s : St) (i : Nat) (e : Slot) : St := { s with icache := update s.icache i e }

/-- Inodes with a reference in the cache. -/
def St.inUse (s : St) : Nat := (List.range c.ninodes).countP fun i => 0 < (s.icache i).ref

/-- fs.c:247-282. -/
def iget (i : Nat) : M Unit := do
  let s ← state
  let e := s.icache i
  if 0 < e.ref then change (·.setSlot i { e with ref := e.ref + 1 })
  else if s.inUse c < NINODE then change (·.setSlot i { e with ref := 1, valid := false })
  else stop .igetNoInodes

/-- fs.c:286-292. -/
def idup (i : Nat) : M Unit := do
  let s ← state
  change (·.setSlot i { s.icache i with ref := (s.icache i).ref + 1 })

/-- fs.c:297-322. -/
def ilock (i : Nat) : M Unit := do
  let s ← state
  let e := s.icache i
  if e.ref < 1 then stop .ilock
  else if e.locked then stop .deadlock
  else if e.valid = false ∧ (s.inodes i).type = .free then stop .noType
  else change (·.setSlot i { e with valid := true, locked := true })

/-- fs.c:325-332. -/
def iunlock (i : Nat) : M Unit := do
  let s ← state
  let e := s.icache i
  if e.locked = false ∨ e.ref < 1 then stop .iunlock
  else change (·.setSlot i { e with locked := false })

/-- fs.c:332-353: the last reference to an inode without links frees it. -/
def iput (i : Nat) : M Unit := do
  let s ← state
  let e := s.icache i
  if e.locked then stop .deadlock
  else if e.valid ∧ (s.inodes i).nlink = 0 ∧ e.ref = 1 then
    change fun s => (s.setInode i { s.inodes i with type := .free, ents := [] }).setSlot i
      { e with valid := false, ref := e.ref - 1 }
  else change (·.setSlot i { e with ref := e.ref - 1 })

def iunlockput (i : Nat) : M Unit := do
  iunlock i
  iput i

/-- log.c:126-142. The log is not being committed when a call begins, and has room once it has been. -/
def beginOp : M Unit := do
  let s ← state
  if LOGSIZE < s.logged + (s.outstanding + 1) * MAXOPBLOCKS then stop .logSpace
  else change fun s => { s with outstanding := s.outstanding + 1 }

/-- log.c:147-177: the last one out commits. -/
def endOp : M Unit := change fun s =>
  { s with outstanding := s.outstanding - 1, logged := if s.outstanding - 1 = 0 then 0 else s.logged }

/-- fs.c:194-220: the first free inode, with one reference. -/
def ialloc (type : Ty) : M Nat := do
  let s ← state
  match (List.range c.ninodes).find? fun i => 1 ≤ i ∧ (s.inodes i).type = .free with
  | some i => do
    change (·.setInode i { type, nlink := 0, ents := [] })
    iget c i
    pure i
  | none => stop .noInodes

/-- `ip->nlink += z; iupdate(ip)`. -/
def addLink (i : Nat) (z : Int) : M Unit :=
  change fun s => s.setInode i { s.inodes i with nlink := short ((s.inodes i).nlink + z) }

/-! ## Directories and paths -/

/-- fs.c:533-556: with a reference to what it finds. -/
def dirlookup (dp : Nat) (name : Name) : M (Option (Nat × Nat)) := do
  let s ← state
  if (s.inodes dp).type ≠ .dir then stop .notDir
  else match lookup (s.inodes dp).ents name with
    | some (off, i) => do
      iget c i
      pure (some (off, i))
    | none => pure none

/-- fs.c:559-589, true for 0. -/
def dirlink (dp : Nat) (name : Name) (inum : Nat) : M Bool := do
  match ← dirlookup c dp name with
  | some (_, i) => do
    iput i
    pure false
  | none => do
    let s ← state
    let d := s.inodes dp
    let off := freeSlot d.ents
    if MAXENTS ≤ off then stop .dirlink
    else do
      change (·.setInode dp { d with ents := putEnt d.ents off { inum, name := name.take DIRSIZ } })
      pure true

/-- The loop of `namex` from `ip` on (fs.c:638-660), with the last element where `parent` is set. -/
def namexLoop (parent : Bool) : List Name → Nat → M (Option (Nat × Name))
  | [], ip =>
    if parent then do
      iput ip
      pure none
    else pure (some (ip, []))
  | name :: rest, ip => do
    ilock ip
    let s ← state
    if (s.inodes ip).type ≠ .dir then do
      iunlockput ip
      pure none
    else if parent ∧ rest = [] then do
      iunlock ip
      pure (some (ip, name))
    else do
      match ← dirlookup c ip name with
      | none => do
        iunlockput ip
        pure none
      | some (_, next) => do
        iunlockput ip
        namexLoop parent rest next

/-- Where a path starts. -/
def start (cwd : Option Nat) (path : Path) : M (Option Nat) :=
  if path.head? = some '/' then do
    iget c ROOTINO
    pure (some ROOTINO)
  else match cwd with
    | some ip => do
      idup ip
      pure (some ip)
    | none => stop .nullFile

/-- fs.c:625-660. -/
def namex (cwd : Option Nat) (path : Path) (parent : Bool) : M (Option (Nat × Name)) := do
  match ← start c cwd path with
  | some ip => namexLoop c parent (elems path) ip
  | none => pure none

/-! ## Calls of sysfile.c and fs.c -/

def St.proc (s : St) (p : Nat) : Proc := (s.procs[p]?).getD { pid := 0, cwd := none, ofile := [], swapFile := none }
def St.setProc (s : St) (p : Nat) (pr : Proc) : St := { s with procs := s.procs.set p pr }
def St.file (s : St) (f : Nat) : File := (s.ftable[f]?).getD { ref := 0, ip := none }
def St.setFile (s : St) (f : Nat) (file : File) : St := { s with ftable := s.ftable.set f file }

/-- file.c:29-45. -/
def filealloc : M (Option Nat) := do
  let s ← state
  match s.ftable.findIdx? fun f => f.ref == 0 with
  | some f => do
    change (·.setFile f { s.file f with ref := 1 })
    pure (some f)
  | none => pure none

/-- file.c:60-83. -/
def fileclose (f : Nat) : M Unit := do
  let s ← state
  let ff := s.file f
  if ff.ref < 1 then stop .fileclose
  else if 0 < ff.ref - 1 then change (·.setFile f { ff with ref := ff.ref - 1 })
  else do
    change (·.setFile f { ref := 0, ip := none })
    match ff.ip with
    | some ip => do
      beginOp
      iput ip
      endOp
    | none => pure ()

/-- sysfile.c:40-53. -/
def fdalloc (p f : Nat) : M (Option Nat) := do
  let s ← state
  match (s.proc p).ofile.findIdx? fun o => o == none with
  | some fd => do
    change (·.setProc p { s.proc p with ofile := (s.proc p).ofile.set fd (some f) })
    pure (some fd)
  | none => pure none

/-- The `.` and `..` of a new directory, and the link that `..` is (sysfile.c:265-271). -/
def makeDots (type : Ty) (dp ip : Nat) : M Unit :=
  if type = .dir then do
    addLink dp 1
    let dot ← dirlink c ip ".".toList ip
    let dotdot ← dirlink c ip "..".toList dp
    if !dot || !dotdot then stop .createDots else pure ()
  else pure ()

/-- The new inode, locked, with one link (sysfile.c:256-263). -/
def makeNode (type : Ty) : M Nat := do
  let ip ← ialloc c type
  ilock ip
  addLink ip 1
  pure ip

/-- A new inode of the given type under `name` in `dp`, which is locked (sysfile.c:256-278). -/
def createIn (dp : Nat) (name : Name) (type : Ty) : M (Option Nat) := do
  let ip ← makeNode c type
  makeDots c type dp ip
  let ok ← dirlink c dp name ip
  if !ok then stop .dirlink
  else do
    iunlockput dp
    pure (some ip)

/-- What is there already (sysfile.c:248-254). -/
def reopen (dp ip : Nat) (type : Ty) : M (Option Nat) := do
  iunlockput dp
  ilock ip
  let s ← state
  if type = .file ∧ (s.inodes ip).type = .file then pure (some ip)
  else do
    iunlockput ip
    pure none

/-- sysfile.c:239-282; what it returns is locked. -/
def create (cwd : Option Nat) (path : Path) (type : Ty) : M (Option Nat) := do
  match ← namex c cwd path true with
  | none => pure none
  | some (dp, name) => do
    ilock dp
    match ← dirlookup c dp name with
    | some (_, ip) => reopen dp ip type
    | none => createIn c dp name type

/-- The new name of `ip` (sysfile.c:142-149). -/
def linkInto (cwd : Option Nat) (new : Path) (ip : Nat) : M Bool := do
  match ← namex c cwd new true with
  | none => pure false
  | some (dp, name) => do
    ilock dp
    let ok ← dirlink c dp name ip
    iunlockput dp
    pure ok

/-- The end of `sys_link`, or its `bad` (sysfile.c:150-164). -/
def linked (ip : Nat) (ok : Bool) : M Bool :=
  if ok then do
    iput ip
    endOp
    pure true
  else do
    ilock ip
    addLink ip (-1)
    iunlockput ip
    endOp
    pure false

/-- sysfile.c:119-165, true for 0. -/
def sysLink (p : Nat) (old new : Option Path) : M Bool :=
  match old, new with
  | some old, some new => do
    let s ← state
    beginOp
    match ← namex c (s.proc p).cwd old false with
    | none => do
      endOp
      pure false
    | some (ip, _) => do
      ilock ip
      let t ← state
      if (t.inodes ip).type = .dir then do
        iunlockput ip
        endOp
        pure false
      else do
        addLink ip 1
        iunlock ip
        let ok ← linkInto c (s.proc p).cwd new ip
        linked ip ok
  | _, _ => pure false

/-- The link that the `..` of a directory was (sysfile.c:222-225). -/
def dropDot (dp : Nat) (type : Ty) : M Unit := if type = .dir then addLink dp (-1) else pure ()

/-- The entry at `off` of `dp` and the link of `ip` go (sysfile.c:219-231). -/
def unlinkAt (dp off ip : Nat) : M Bool := do
  let s ← state
  change fun s => s.setInode dp { s.inodes dp with ents := putEnt (s.inodes dp).ents off { inum := 0, name := [] } }
  dropDot dp (s.inodes ip).type
  iunlockput dp
  addLink ip (-1)
  iunlockput ip
  pure true

/-- With the inode that was found (sysfile.c:210-217). -/
def unlinkFound (dp off ip : Nat) : M Bool := do
  ilock ip
  let s ← state
  if (s.inodes ip).nlink < 1 then stop .unlinkNlink
  else if (s.inodes ip).type = .dir ∧ isdirempty (s.inodes ip).ents = false then do
    iunlockput ip
    iunlockput dp
    pure false
  else unlinkAt dp off ip

/-- The part of `sys_unlink` and `removeSwapFile` within the transaction (sysfile.c:195-236, fs.c:717-760). -/
def unlink (cwd : Option Nat) (path : Path) : M Bool := do
  match ← namex c cwd path true with
  | none => pure false
  | some (dp, name) => do
    ilock dp
    if namecmp name ".".toList || namecmp name "..".toList then do
      iunlockput dp
      pure false
    else do
      match ← dirlookup c dp name with
      | none => do
        iunlockput dp
        pure false
      | some (off, ip) => unlinkFound dp off ip

def sysUnlink (p : Nat) (path : Option Path) : M Bool :=
  match path with
  | some path => do
    let s ← state
    beginOp
    let ok ← unlink c (s.proc p).cwd path
    endOp
    pure ok
  | none => pure false

/-- `omode`: O_CREATE, and whether it is O_RDONLY. -/
structure Mode where
  create : Bool
  rdonly : Bool
  deriving DecidableEq, Repr

/-- The inode that `sys_open` opens, locked (sysfile.c:296-314). -/
def openInode (cwd : Option Nat) (path : Path) (m : Mode) : M (Option Nat) :=
  if m.create then create c cwd path .file
  else do
    match ← namex c cwd path false with
    | none => pure none
    | some (ip, _) => do
      ilock ip
      let s ← state
      if (s.inodes ip).type = .dir ∧ m.rdonly = false then do
        iunlockput ip
        pure none
      else pure (some ip)

/-- sysfile.c:285-334; the result is the file descriptor. -/
def sysOpen (p : Nat) (path : Option Path) (m : Mode) : M (Option Nat) :=
  match path with
  | none => pure none
  | some path => do
    let s ← state
    beginOp
    match ← openInode c (s.proc p).cwd path m with
    | none => do
      endOp
      pure none
    | some ip => do
      match ← filealloc with
      | none => do
        iunlockput ip
        endOp
        pure none
      | some f => do
        match ← fdalloc p f with
        | none => do
          fileclose f
          iunlockput ip
          endOp
          pure none
        | some fd => do
          iunlock ip
          endOp
          change fun s => s.setFile f { s.file f with ip := some ip }
          pure (some fd)

/-- sysfile.c:337-369: `mkdir`, and `mknod` of a device. -/
def sysMake (p : Nat) (path : Option Path) (type : Ty) : M Bool := do
  let s ← state
  beginOp
  match path with
  | none => do
    endOp
    pure false
  | some path => do
    match ← create c (s.proc p).cwd path type with
    | none => do
      endOp
      pure false
    | some ip => do
      iunlockput ip
      endOp
      pure true

def sysMkdir (p : Nat) (path : Option Path) : M Bool := sysMake c p path .dir
def sysMknod (p : Nat) (path : Option Path) : M Bool := sysMake c p path .dev

/-- `iput(curproc->cwd)`. -/
def putCwd (cwd : Option Nat) : M Unit :=
  match cwd with
  | some i => iput i
  | none => stop .nullFile

/-- sysfile.c:372-395. -/
def sysChdir (p : Nat) (path : Option Path) : M Bool := do
  let s ← state
  beginOp
  match path with
  | none => do
    endOp
    pure false
  | some path => do
    match ← namex c (s.proc p).cwd path false with
    | none => do
      endOp
      pure false
    | some (ip, _) => do
      ilock ip
      let t ← state
      if (t.inodes ip).type ≠ .dir then do
        iunlockput ip
        endOp
        pure false
      else do
        iunlock ip
        putCwd (s.proc p).cwd
        endOp
        change fun s => s.setProc p { s.proc p with cwd := some ip }
        pure true

/-- sysfile.c:92-102. -/
def sysClose (p fd : Nat) : M Bool := do
  let s ← state
  match ((s.proc p).ofile[fd]?).join with
  | none => pure false
  | some f => do
    change fun s => s.setProc p { s.proc p with ofile := (s.proc p).ofile.set fd none }
    fileclose f
    pure true

/-! ## Swap files, exec, fork and exit -/

/-- `path` of `createSwapFile` and `removeSwapFile`. -/
def swapPath (pid : Nat) : Path := "/.swap".toList ++ Nat.toDigits 10 pid

/-- fs.c:698-763, with the null check; true for 0. -/
def removeSwapFile (p : Nat) : M Bool := do
  let s ← state
  match (s.proc p).swapFile with
  | none => pure false
  | some f => do
    fileclose f
    beginOp
    let ok ← unlink c (s.proc p).cwd (swapPath (s.proc p).pid)
    endOp
    pure ok

/-- fs.c:768-791: `iunlock(0)` panics where `create` returns 0. -/
def createSwapFile (p : Nat) : M Unit := do
  let s ← state
  beginOp
  match ← create c (s.proc p).cwd (swapPath (s.proc p).pid) .file with
  | none => stop .iunlock
  | some ip => do
    iunlock ip
    match ← filealloc with
    | none => stop .noSlot
    | some f => do
      change fun s => (s.setProc p { s.proc p with swapFile := some f }).setFile f { s.file f with ip := some ip }
      endOp

/-- The blocks that a transaction adds to the log. -/
abbrev Blocks := Fin (MAXOPBLOCKS + 1)

/-- What loading the image comes to: the transactions in which pages go out on the way, three for a page, and whether
each half succeeds. -/
structure Load where
  outs : List Blocks
  loaded : Bool
  stackOuts : List Blocks
  built : Bool
  deriving DecidableEq, Repr

/-- A round of `filewrite` on the swap file (file.c:135-150). -/
def pageOut (p : Nat) (n : Blocks) : M Unit := do
  let s ← state
  match (s.proc p).swapFile.bind fun f => (s.file f).ip with
  | some i => do
    beginOp
    ilock i
    change fun s => { s with logged := s.logged + n }
    iunlock i
    endOp
  | none => stop .nullFile

def pageOuts (p : Nat) : List Blocks → M Unit
  | [] => pure ()
  | n :: ns => do
    pageOut p n
    pageOuts p ns

/-- From the header on (exec.c:98-178), with the program locked and the transaction open. -/
def loadImage (p ip : Nat) (l : Load) : M Bool := do
  pageOuts p l.outs
  iunlockput ip
  endOp
  if !l.loaded then pure false
  else do
    pageOuts p l.stackOuts
    pure l.built

/-- exec.c:79-178, up to the new swap file; true where the new image is in place. -/
def execImage (p : Nat) (path : Path) (l : Load) : M Bool := do
  let s ← state
  beginOp
  match ← namex c (s.proc p).cwd path false with
  | none => do
    endOp
    pure false
  | some (ip, _) => do
    ilock ip
    loadImage p ip l

/-- exec.c:181-187: the result of `removeSwapFile` is not looked at. -/
def newSwapFile (p : Nat) : M Unit := do
  let s ← state
  if c.policy ∧ DEF_PROCS < (s.proc p).pid then do
    let _ ← removeSwapFile c p
    createSwapFile c p
  else pure ()

def sysExec (p : Nat) (path : Option Path) (l : Load) : M Bool :=
  match path with
  | none => pure false
  | some path => do
    let ok ← execImage c p path l
    if ok then do
      newSwapFile c p
      pure true
    else pure false

/-- proc.c:304-310. -/
def closeAll (p : Nat) : List Nat → M Unit
  | [] => pure ()
  | fd :: fds => do
    let _ ← sysClose p fd
    closeAll p fds

/-- proc.c:294-318. -/
def exit (p : Nat) : M Unit := do
  let s ← state
  if p = 0 then stop .initExiting
  else do
    closeAll p (List.range NOFILE)
    beginOp
    putCwd (s.proc p).cwd
    endOp
    change fun s => s.setProc p { s.proc p with cwd := none }
    if c.policy then do
      let _ ← removeSwapFile c p
      pure ()
    else pure ()

/-- `filedup` of each open file (file.c:48-57). -/
def dupAll : List (Option Nat) → M Unit
  | [] => pure ()
  | none :: fs => dupAll fs
  | some f :: fs => do
    let s ← state
    if (s.file f).ref < 1 then stop .filedup
    else do
      change fun s => s.setFile f { s.file f with ref := (s.file f).ref + 1 }
      dupAll fs

/-- proc.c:239-250: the files, the directory and the swap file of the child. -/
def fork (p pid : Nat) : M Unit := do
  let s ← state
  let pr := s.proc p
  dupAll pr.ofile
  match pr.cwd with
  | none => stop .nullFile
  | some i => do
    idup i
    change fun s => { s with procs := s.procs ++ [{ pid, cwd := some i, ofile := pr.ofile, swapFile := none }] }
    if c.policy ∧ DEF_PROCS < pid then createSwapFile c s.procs.length else pure ()

end Dirs
