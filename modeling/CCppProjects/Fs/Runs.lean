import CCppProjects.Fs.Exec
import CCppProjects.Lib.Run
/-
# Runs of the system calls

Any number of processes call in any order, one call after the other; a call that stops takes its process away and ends
the run. From a freshly booted system on, every state is `Settled` and every directory `Tidy` (`Reachable.inv`).

| result | what it says |
|---|---|
| `calls_balance`   | references, locks and transactions after each call, or exactly when not |
| `names_unique`    | what a directory can hold |
-/
namespace Dirs

open Fs (Ty)
open Function (update)
open Prog

def NFILE : Nat := 100

variable (c : Config)

inductive Call
  | sysOpen (p : Nat) (path : Option Path) (m : Mode)
  | sysMkdir (p : Nat) (path : Option Path)
  | sysMknod (p : Nat) (path : Option Path)
  | sysLink (p : Nat) (old new : Option Path)
  | sysUnlink (p : Nat) (path : Option Path)
  | sysChdir (p : Nat) (path : Option Path)
  | sysClose (p fd : Nat)
  | sysExec (p : Nat) (path : Option Path) (l : Load)
  | fork (p pid : Nat)
  | exit (p : Nat)

/-- The state a call leaves, whatever it returns. -/
def Call.run : Call → St → Except Stop St
  | .sysOpen p path m, s => (Dirs.sysOpen c p path m s).map Prod.snd
  | .sysMkdir p path, s => (Dirs.sysMkdir c p path s).map Prod.snd
  | .sysMknod p path, s => (Dirs.sysMknod c p path s).map Prod.snd
  | .sysLink p old new, s => (Dirs.sysLink c p old new s).map Prod.snd
  | .sysUnlink p path, s => (Dirs.sysUnlink c p path s).map Prod.snd
  | .sysChdir p path, s => (Dirs.sysChdir c p path s).map Prod.snd
  | .sysClose p fd, s => (Dirs.sysClose p fd s).map Prod.snd
  | .sysExec p path l, s => (Dirs.sysExec c p path l s).map Prod.snd
  | .fork p pid, s => (Dirs.fork c p pid s).map Prod.snd
  | .exit p, s => (Dirs.exit c p s).map Prod.snd

def Step (s : St) (l : Call) (t : St) : Prop := l.run c s = .ok t

/-- What `userinit` and `iinit` leave on a disk with that tree. -/
def booted (T : Tree) : St where
  inodes := T
  icache i := { ref := if i = ROOTINO then 1 else 0, valid := false, locked := false }
  outstanding := 0
  logged := 0
  ftable := List.replicate NFILE { ref := 0, ip := none }
  procs := [{ pid := 1, cwd := some ROOTINO, ofile := List.replicate NOFILE none, swapFile := none }]

/-- A disk that can be booted from: nothing is allocated without a link, and directories are tidy. -/
structure Clean (T : Tree) : Prop where
  linked : ∀ i, (T i).type ≠ .free → (T i).nlink ≠ 0
  tidy : Tidy T

/-- Calls one after the other. -/
def runAll (ls : List Call) (s : St) : Except Stop St := ls.foldlM (fun s l => l.run c s) s

def Reachable (s : St) : Prop := ∃ T ls, Clean T ∧ Lts.Run (Step c) (booted T) ls s

section

variable {c} {s t u : St} {i f fd p q pid : Nat} {T U : Tree}

/-! ## close, fork and exit -/

theorem proc_setProc_cwd {pr : Proc} (h : pr.cwd = (s.proc p).cwd) (q : Nat) :
    ((s.setProc p pr).proc q).cwd = (s.proc q).cwd := by
  by_cases hq : q = p
  · subst hq
    cases hs : s.procs[q]? with
    | none =>
      have : s.procs.set q pr = s.procs := List.set_eq_of_length_le (List.getElem?_eq_none_iff.1 hs)
      simp only [St.proc, St.setProc, this]
    | some old =>
      have hlt := (List.getElem?_eq_some_iff.1 hs).1
      rw [← h, St.proc, St.setProc, List.getElem?_set_self hlt]
      rfl
  · simp only [St.proc, St.setProc, List.getElem?_set_ne (Ne.symm hq)]

theorem sysClose_spec (hs : Settled s) : Sat (sysClose p fd s) Plain fun r => Settled r.2 ∧ Ends s r.2 (!r.1) ∧
    (∀ q, (r.2.proc q).cwd = (s.proc q).cwd) ∧ Puts s.inodes r.2.inodes := by
  unfold sysClose
  rw [state_bind_run]
  cases hf : ((s.proc p).ofile[fd]?).join with
  | none =>
    obtain ⟨h1, h2⟩ := hs.ends hs.sound ((Eff.refl s).congr (fun _ => rfl) rfl rfl) true
    exact .ok ⟨h1, h2, fun _ => rfl, .refl⟩
  | some f =>
    have hcwd : ∀ q, ((s.setProc p { s.proc p with ofile := (s.proc p).ofile.set fd none }).proc q).cwd =
      (s.proc q).cwd := proc_setProc_cwd rfl
    have hholds : ∀ i, (s.setProc p { s.proc p with ofile := (s.proc p).ofile.set fd none }).holds i =
      s.holds i := holds_setProc rfl
    have hsame : Same s (s.setProc p { s.proc p with ofile := (s.proc p).ofile.set fd none }) := .setProc ..
    have hidle : Idle (s.setProc p { s.proc p with ofile := (s.proc p).ofile.set fd none }) := hs.idle
    dsimp only
    rw [bind_run, change_run, ok_bind]
    dsimp only
    generalize s.setProc p { s.proc p with ofile := (s.proc p).ofile.set fd none } = t at hcwd hholds hsame hidle ⊢
    have hmt : Moved s t 0 s.locks 0 := hsame.moved fun i => by rw [hholds, Pi.zero_apply, Int.sub_self]
    have hst := hs.of_moved (hsame.sound hs.sound) hidle hmt
    refine sat_bind (fileclose_spec hst) ?_
    rintro ⟨⟩ u - ⟨hsu, hmu, hproc, hputs⟩
    change Settled u at hsu
    change Moved t u 0 t.locks 0 at hmu
    change u.procs = t.procs at hproc
    change Puts t.inodes u.inodes at hputs
    rw [hsame.inodes] at hputs
    refine .ok ⟨hsu, ⟨(hmt.trans hmu).congr (fun j => by simp) hmt.locks rfl, fun h => by cases h⟩, fun q => ?_, hputs⟩
    rw [← hcwd q, St.proc, St.proc, hproc]

/-- `t` is settled as `s` was, with the same current directories. -/
structure Kept (s t : St) : Prop where
  settled : Settled t
  cwd : ∀ q, (t.proc q).cwd = (s.proc q).cwd
  puts : Puts s.inodes t.inodes

theorem Kept.trans (h : Kept s t) (h' : Kept t u) : Kept s u :=
  ⟨h'.settled, fun q => (h'.cwd q).trans (h.cwd q), h.puts.trans h'.puts⟩

theorem closeAll_spec (hs : Settled s) (fds : List Nat) : Sat (closeAll p fds s) Plain fun r => Kept s r.2 := by
  induction fds generalizing s with
  | nil => exact .ok ⟨hs, fun _ => rfl, .refl⟩
  | cons fd fds ih =>
    refine sat_bind (sysClose_spec hs) ?_
    rintro b t - ⟨hst, -, hcwd, hputs⟩
    exact (ih hst).mono (fun _ h => h) fun r h => .trans ⟨hst, hcwd, hputs⟩ h

/-- The tree once a process is gone. -/
inductive Exited (c : Config) (s : St) (p : Nat) : Tree → Prop
  | puts (U : Tree) (h : Puts s.inodes U) : Exited c s p U
  | removed (u t : St) (b : Bool) (hs : Settled u) (h : Puts s.inodes u.inodes) (hr : Removed c u p b t) :
      Exited c s p t.inodes

theorem exit_spec (hs : Settled s) (htidy : Tidy s.inodes) : Sat (exit c p s) Plain fun r => Settled r.2 ∧
    Exited c s p r.2.inodes := by
  unfold exit
  rw [state_bind_run]
  by_cases hp : p = 0
  · rw [if_pos hp]
    exact .error (by decide)
  rw [if_neg hp]
  refine sat_bind (closeAll_spec hs _) ?_
  rintro ⟨⟩ t - ⟨hst, hcwd, hputs⟩
  change Settled t at hst
  change Puts s.inodes t.inodes at hputs
  obtain ⟨b, hbegin, hsb, heb, hib⟩ := beginOp_run hst.sound hst.closed
  rw [bind_ok_run hbegin]
  cases hi : (s.proc p).cwd with
  | none => exact .error (by decide)
  | some i =>
    have hti : (t.proc p).cwd = some i := (hcwd p).trans hi
    have hpos : 0 < b.ref i := by
      rw [heb.ref, Pi.zero_apply, Int.add_zero]
      exact hst.cwd_pos hti
    obtain ⟨u, hput, hsu, heu, hputu⟩ := iput_run hsb hpos (by rw [heb.locks, hst.unlocked])
    obtain ⟨v, hend, hsv, hev, hiv⟩ := endOp_run hsu
    rw [bind_ok_run (m := putCwd (some i)) hput, bind_ok_run hend, bind_run, change_run, ok_bind]
    dsimp only
    have hprocs : v.procs = t.procs := by rw [hev.procs, heu.procs, heb.procs]
    have hslot : v.procs[p]? = some (t.proc p) := by rw [hprocs, proc_of_cwd hti]
    have hset : Same v (v.setProc p { v.proc p with cwd := none }) := .setProc ..
    have hgive : Moved v (v.setProc p { v.proc p with cwd := none }) (one i) v.locks 0 := hset.moved fun j => by
      have h1 := Proc.holds_toNat hti j
      rw [holds_setCwd hslot]
      simp only [Proc.holds, Option.none_beq_some, Bool.toNat_false] at h1 ⊢
      omega
    have htv : Moved t v (-one i) t.locks 0 := ((heb.moved.trans heu.moved).trans hev.moved).congr (fun j => by simp)
      (by rw [heu.locks, heb.locks]) rfl
    have hall : Moved t (v.setProc p { v.proc p with cwd := none }) 0 t.locks 0 :=
      (htv.trans hgive).congr (fun j => by simp) htv.locks rfl
    have hidle : Idle v := hev.idle (heu.idle (heb.idle hst.idle))
    have hw := hst.of_moved (hset.sound hsv) (fun f hf => hidle f hf) hall
    have hputs' : Puts s.inodes (v.setProc p { v.proc p with cwd := none }).inodes := by
      have := hputu.tree.puts
      rw [hib, ← hiv] at this
      exact hputs.trans this
    generalize v.setProc p { v.proc p with cwd := none } = w at hw hputs' ⊢
    by_cases hc : c.policy = true
    · rw [if_pos hc]
      refine sat_bind (removeSwapFile_spec hw (htidy.puts hputs')) ?_
      rintro r x - ⟨hsx, -, -, hr⟩
      exact .ok ⟨hsx, .removed w x r hw hputs' hr⟩
    · rw [if_neg hc]
      exact .ok ⟨hw, .puts _ hputs'⟩

theorem dupAll_spec (hs : Settled s) (fs : List (Option Nat)) : Sat (dupAll fs s) Plain fun r =>
    Settled r.2 ∧ r.2.procs = s.procs ∧ r.2.inodes = s.inodes := by
  induction fs generalizing s with
  | nil => exact .ok ⟨hs, rfl, rfl⟩
  | cons o fs ih =>
    cases o with
    | none => exact ih hs
    | some f =>
      unfold dupAll
      rw [state_bind_run]
      by_cases hlt : (s.file f).ref < 1
      · rw [if_pos hlt]
        exact .error (by decide)
      rw [if_neg hlt, bind_run, change_run, ok_bind]
      dsimp only
      have hslot := file_of_ref (s := s) (f := f) (by omega)
      have hsame : Same s (s.setFile f { s.file f with ref := (s.file f).ref + 1 }) := .setFile ..
      have hmoved : Moved s (s.setFile f { s.file f with ref := (s.file f).ref + 1 }) 0 s.locks 0 :=
        hsame.moved fun i => by
        have h1 : decide (0 < (s.file f).ref) = true := decide_eq_true (by omega)
        have h2 : decide (0 < (s.file f).ref + 1) = true := decide_eq_true (by omega)
        rw [holds_setFile hslot]
        simp only [File.holds, h1, h2, Pi.zero_apply]
        omega
      have hidle : Idle (s.setFile f { s.file f with ref := (s.file f).ref + 1 }) := hs.idle.setFile fun h => by
        simp only at h
        omega
      exact ih (hs.of_moved (hsame.sound hs.sound) hidle hmoved)

/-- The tree once a process has forked. -/
inductive Forked (c : Config) (s : St) (pid : Nat) : Tree → Prop
  | same : Forked c s pid s.inodes
  | swap (u : St) (i : Nat) (U : Tree) (h : u.inodes = s.inodes)
      (hm : Made c u (some i) (swapPath pid) .file U) : Forked c s pid U

theorem fork_spec (hs : Settled s) : Sat (fork c p pid s) (fun _ => True) fun r => Settled r.2 ∧
    Forked c s pid r.2.inodes := by
  unfold fork
  simp only [state_bind_run]
  refine sat_bind ((dupAll_spec hs _).mono (fun _ _ => trivial) fun _ h => h) ?_
  rintro ⟨⟩ t - ⟨hst, hprocs, hti⟩
  change Settled t at hst
  change t.procs = s.procs at hprocs
  change t.inodes = s.inodes at hti
  cases hi : (s.proc p).cwd with
  | none => exact .error trivial
  | some i =>
    dsimp only
    have hpos : 0 < t.ref i := hst.cwd_pos (p := p) (by rw [St.proc, hprocs]; exact hi)
    obtain ⟨hsu, heu⟩ := addRef_spec hst.sound (.inl hpos)
    rw [bind_ok_run idup_run, bind_run, change_run, ok_bind]
    dsimp only
    let child : Proc := { pid, cwd := some i, ofile := (s.proc p).ofile, swapFile := none }
    let v : St := { t.addRef i with procs := (t.addRef i).procs ++ [child] }
    have hv : Settled v := by
      have hsame : Same (t.addRef i) v := ⟨rfl, rfl, rfl, rfl⟩
      have hgive : Moved (t.addRef i) v (-one i) (t.addRef i).locks 0 := hsame.moved fun j => by
        have h1 := Proc.holds_toNat (show child.cwd = some i from rfl) j
        have h2 : v.holds j = (t.addRef i).holds j + (child.holds j).toNat := by
          simp only [St.holds, v, List.countP_append, List.countP_singleton]
          cases child.holds j <;> simp [Int.add_assoc]
        rw [h2, Pi.neg_apply]
        omega
      have hall : Moved t v 0 t.locks 0 := (heu.moved.trans hgive).congr (fun j => by simp) heu.locks rfl
      exact hst.of_moved (hsame.sound hsu) (heu.idle hst.idle) hall
    have hchild : v.proc s.procs.length = child := by
      have hlen : (t.addRef i).procs = s.procs := hprocs
      simp [St.proc, v, hlen]
    change Sat ((if c.policy = true ∧ DEF_PROCS < pid then createSwapFile c s.procs.length else pure () : M Unit) v) _ _
    by_cases hc : c.policy = true ∧ DEF_PROCS < pid
    · rw [if_pos hc]
      by_cases hb : Blocked c v (v.proc s.procs.length).cwd (swapPath (v.proc s.procs.length).pid)
      · rw [createSwapFile_blocked hv hb]
        exact .error trivial
      · refine (createSwapFile_spec hv hb).mono (fun _ _ => trivial) ?_
        rintro r ⟨hsr, -, hmade⟩
        rw [hchild] at hmade
        exact ⟨hsr, .swap v i _ hti hmade⟩
    · rw [if_neg hc]
      refine .ok ⟨hv, ?_⟩
      change Forked c s pid t.inodes
      rw [hti]
      exact .same

/-! ## Tidy trees -/

theorem Made.tidy {cwd : Option Nat} {path : Path} {type : Ty} (h : Made c s cwd path type U)
    (ht : Tidy s.inodes) : Tidy U := by
  cases h with
  | same _ hp => exact ht.puts hp
  | new dp i name _ hw hc hp => exact (ht.created hc.ne hc.unused).puts hp

theorem Unlinked.tidy {cwd : Option Nat} {path : Path} {b : Bool} (h : Unlinked c s cwd path b U)
    (ht : Tidy s.inodes) : Tidy U := by
  cases h with
  | stays _ => exact ht
  | gone dp off i name _ hw hc hp => exact (ht.unlinked hc.off_le).puts hp

theorem Linked.tidy {cwd : Option Nat} {old new : Path} {b : Bool} (h : Linked c s cwd old new b U)
    (ht : Tidy s.inodes) : Tidy U := by
  cases h with
  | refused => exact ht
  | undone i _ _ hp => exact ht.link.link.puts hp
  | made i dp nm name _ _ _ hc hp => exact (ht.linked hc).puts hp

theorem Removed.tidy {b : Bool} (h : Removed c s p b t) (hs : Settled s) (ht : Tidy s.inodes) : Tidy t.inodes := by
  cases h with
  | none _ => exact ht
  | closed f u _ _ hf hrun hun _ => exact hun.tidy (closed_spec (p := p) hs ht hrun).2.1

theorem Renewed.tidy (h : Renewed c s p U) (hs : Settled s) (ht : Tidy s.inodes) : Tidy U := by
  cases h with
  | same => exact ht
  | new b u _ hr hm => exact hm.tidy (hr.tidy hs ht)

theorem Exited.tidy (h : Exited c s p U) (ht : Tidy s.inodes) : Tidy U := by
  cases h with
  | puts _ hp => exact ht.puts hp
  | removed u t b hu hp hr => exact hr.tidy hu (ht.puts hp)

theorem Forked.tidy (h : Forked c s pid U) (ht : Tidy s.inodes) : Tidy U := by
  cases h with
  | same => exact ht
  | swap u i _ hu hm => exact hm.tidy (hu ▸ ht)

theorem MadeBy.tidy {path : Option Path} {type : Ty} (h : MadeBy c s p path type U) (ht : Tidy s.inodes) : Tidy U := by
  cases path with
  | none =>
    rw [show U = s.inodes from h]
    exact ht
  | some path => exact Made.tidy h ht

theorem OpenBy.tidy {path : Option Path} {m : Mode} (h : OpenBy c s p path m U) (ht : Tidy s.inodes) : Tidy U := by
  cases path with
  | none =>
    rw [show U = s.inodes from h]
    exact ht
  | some path =>
    cases hm : m.create with
    | true => exact (h.1 hm).tidy ht
    | false => exact ht.puts (h.2 hm)

theorem LinkedBy.tidy {old new : Option Path} {b : Bool} (h : LinkedBy c s p old new b U)
    (ht : Tidy s.inodes) : Tidy U := by
  cases old with
  | none =>
    rw [show U = s.inodes from h]
    exact ht
  | some old =>
    cases new with
    | none =>
      rw [show U = s.inodes from h]
      exact ht
    | some new => exact Linked.tidy h ht

theorem UnlinkedBy.tidy {path : Option Path} {b : Bool} (h : UnlinkedBy c s p path b U)
    (ht : Tidy s.inodes) : Tidy U := by
  cases path with
  | none =>
    rw [show U = s.inodes from h]
    exact ht
  | some path => exact Unlinked.tidy h ht

/-! ## Runs -/

structure Inv (s : St) : Prop where
  settled : Settled s
  tidy : Tidy s.inodes

theorem Inv.booted (h : Clean T) : Inv (booted T) := by
  have hholds : ∀ i, (Dirs.booted T).holds i = if i = ROOTINO then 1 else 0 := by
    intro i
    have hfile : File.holds i { ref := 0, ip := none } = false := by simp [File.holds]
    simp only [St.holds, Dirs.booted, List.countP_replicate, hfile, List.countP_singleton, Proc.holds]
    by_cases hi : i = ROOTINO
    · simp [hi]
    · simp [hi, Ne.symm hi]
  have hsound : Sound (Dirs.booted T) := by
    refine ⟨fun i => ?_, fun i _ hv => absurd hv Bool.false_ne_true, fun i ht hn => absurd hn (h.linked i ht),
      fun i hl => absurd hl Bool.false_ne_true, fun _ => rfl⟩
    simp only [St.ref, Dirs.booted]
    split <;> decide
  refine ⟨⟨hsound, fun _ => rfl, rfl, fun i => ?_, fun f hf _ => ?_⟩, h.tidy⟩
  · rw [St.loose, hholds]
    exact Int.sub_self _
  · rw [List.eq_of_mem_replicate hf]

theorem runAll_run : ∀ {ls : List Call} {s : St}, runAll c ls s = .ok t → Lts.Run (Step c) s ls t
  | [], s, h => by
    obtain rfl : s = t := by injection h
    exact .nil s
  | l :: ls, s, h => by
    rw [runAll, List.foldlM_cons] at h
    obtain ⟨u, h1, h2⟩ := bind_ok h
    exact .cons h1 (runAll_run h2)

/-- A call's contract, read at the state it leaves. -/
theorem of_map {α : Type} {m : Except Stop (α × St)} {E : Stop → Prop} {Q : α × St → Prop}
    (h : Sat m E Q) (ht : m.map Prod.snd = .ok t) :
    ∃ a, Q (a, t) := by
  cases hm : m with
  | error e =>
    rw [hm] at ht
    cases ht
  | ok r =>
    rw [hm] at ht
    obtain rfl : r.2 = t := by injection ht
    exact ⟨r.1, h.of_ok hm⟩

/-- A `link` that comes back did not wait. -/
theorem sysLink_waits {old new : Option Path} (hs : Settled s) (h : Step c s (.sysLink p old new) t) :
    ∀ o n, old = some o → new = some n → ¬ LinkWaits c s (s.proc p).cwd o n := by
  rintro o n rfl rfl hw
  simp only [Step, Call.run, sysLink_deadlock hs hw] at h
  cases h

theorem Inv.step (hs : Inv s) {l : Call} (h : Step c s l t) : Inv t := by
  obtain ⟨hs, htidy⟩ := hs
  cases l with
  | sysOpen p path m =>
    obtain ⟨r, h1, -, h2⟩ := of_map (sysOpen_spec hs) h
    exact ⟨h1, h2.tidy htidy⟩
  | sysMkdir p path =>
    obtain ⟨r, h1, -, h2⟩ := of_map (sysMake_spec (by decide) hs) h
    exact ⟨h1, h2.tidy htidy⟩
  | sysMknod p path =>
    obtain ⟨r, h1, -, h2⟩ := of_map (sysMake_spec (by decide) hs) h
    exact ⟨h1, h2.tidy htidy⟩
  | sysLink p old new =>
    obtain ⟨b, h1, -, h2⟩ := of_map (sysLink_ends hs (sysLink_waits hs h)) h
    exact ⟨h1, h2.tidy htidy⟩
  | sysUnlink p path =>
    obtain ⟨r, h1, -, h2⟩ := of_map (sysUnlink_spec hs htidy) h
    exact ⟨h1, h2.tidy htidy⟩
  | sysChdir p path =>
    obtain ⟨r, h1, -, h2⟩ := of_map (sysChdir_spec hs) h
    exact ⟨h1, htidy.puts h2⟩
  | sysClose p fd =>
    obtain ⟨r, h1, -, -, h2⟩ := of_map (sysClose_spec hs) h
    exact ⟨h1, htidy.puts h2⟩
  | sysExec p path l =>
    cases path with
    | none =>
      obtain rfl : s = t := by injection h
      exact ⟨hs, htidy⟩
    | some path =>
      by_cases hf : ExecFine c s p path l
      · obtain ⟨r, h1, -, u, hu, hiu, h2⟩ := of_map (sysExec_spec hs htidy hf) h
        exact ⟨h1, h2.tidy hu (hiu ▸ htidy)⟩
      · obtain ⟨e, he, -⟩ := sysExec_stuck hs htidy hf
        simp only [Step, Call.run, he] at h
        cases h
  | fork p pid =>
    obtain ⟨r, h1, h2⟩ := of_map (fork_spec hs) h
    exact ⟨h1, h2.tidy htidy⟩
  | exit p =>
    obtain ⟨r, h1, h2⟩ := of_map (exit_spec hs htidy) h
    exact ⟨h1, h2.tidy htidy⟩

theorem Reachable.inv (h : Reachable c s) : Inv s := by
  obtain ⟨T, ls, hT, hrun⟩ := h
  exact hrun.inv (fun _ _ _ hi hstep => hi.step hstep) (.booted hT)

/-! ## What the calls do to references, locks and transactions -/

/-- Between calls every reference has a holder, no inode is locked and no transaction is open; and so each call of a
process leaves them, or exactly when it does not. -/
structure Balance (c : Config) (s : St) (p : Nat) : Prop where
  refs : ∀ i, s.ref i = s.holds i
  locks : ∀ i, s.locks i = false
  outstanding : s.outstanding = 0
  sysOpen : ∀ path m, Sat (sysOpen c p path m s) Plain fun r => Ends s r.2 r.1.isNone
  sysMake : ∀ path type, type ≠ .free → Sat (sysMake c p path type s) Plain fun r => Ends s r.2 !r.1
  sysUnlink : ∀ path, Sat (sysUnlink c p path s) Plain fun r => Ends s r.2 !r.1
  sysChdir : ∀ path, Sat (sysChdir c p path s) Plain fun r => Ends s r.2 !r.1
  sysClose : ∀ fd, Sat (sysClose p fd s) Plain fun r => Ends s r.2 !r.1
  sysLink : ∀ old new, Sat (sysLink c p old new s) Plain (fun r => Ends s r.2 !r.1) ↔
    ∀ o n, old = some o → new = some n → ¬ LinkWaits c s (s.proc p).cwd o n
  sysExec : ∀ path l, Sat (sysExec c p (some path) l s) Plain (fun r => Ends s r.2 !r.1) ↔ ExecFine c s p path l
  createSwapFile : Sat (createSwapFile c p s) Plain (fun r => Ends s r.2 false) ↔
    ¬ Blocked c s (s.proc p).cwd (swapPath (s.proc p).pid)
  removeSwapFile : Sat (removeSwapFile c p s) Plain (fun r => Ends s r.2 !r.1) ↔ ¬ LosesFile c s p

/-- **Every path of every call**, from any state of any run. -/
theorem calls_balance (h : Reachable c s) (p : Nat) : Balance c s p := by
  obtain ⟨hs, htidy⟩ := h.inv
  constructor
  · exact fun i => Int.sub_eq_zero.1 (hs.held i)
  · exact hs.unlocked
  · exact hs.closed
  · exact fun path m => (sysOpen_spec hs).mono (fun _ h => h) fun _ h => h.2.1
  · exact fun path type htype => (sysMake_spec htype hs).mono (fun _ h => h) fun _ h => h.2.1
  · exact fun path => (sysUnlink_spec hs htidy).mono (fun _ h => h) fun _ h => h.2.1
  · exact fun path => (sysChdir_spec hs).mono (fun _ h => h) fun _ h => h.2.1
  · exact fun fd => (sysClose_spec hs).mono (fun _ h => h) fun _ h => h.2.1
  · exact fun old new => sysLink_iff hs
  · exact fun path l => sysExec_iff hs htidy
  · exact createSwapFile_iff hs
  · exact removeSwapFile_iff hs htidy

/-- A disk with nothing but the root directory. -/
def rootTree : Tree := fun i =>
  if i = ROOTINO then
    { type := .dir, nlink := 1, ents := [{ inum := ROOTINO, name := ".".toList },
      { inum := ROOTINO, name := "..".toList }] }
  else { type := .free, nlink := 0, ents := [] }

theorem clean_rootTree : Clean rootTree := by
  constructor
  · intro i ht
    by_cases hi : i = ROOTINO
    · simp [rootTree, hi]
    · simp [rootTree, hi] at ht
  · intro d
    by_cases hd : d = ROOTINO
    · subst hd
      have hents : (rootTree ROOTINO).ents = [{ inum := ROOTINO, name := ".".toList },
        { inum := ROOTINO, name := "..".toList }] := rfl
      have hcmp : namecmp ['.'] ['.', '.'] = false ∧ namecmp ['.', '.'] ['.'] = false := by decide
      rw [hents]
      constructor
      · intro k l a b ha hb _ _ hc
        rcases k with _ | _ | k <;> rcases l with _ | _ | l <;> simp at ha hb ⊢
        · rw [← ha, ← hb] at hc
          simp [hcmp] at hc
        · rw [← ha, ← hb] at hc
          simp [hcmp] at hc
      · intro a ha _ _
        rcases List.mem_pair.1 ha with rfl | rfl <;> decide
    · have hents : (rootTree d).ents = [] := by simp [rootTree, hd]
      rw [hents]
      exact .nil d

/-- A build with swap files and room for two hundred inodes, as `mkfs` makes them. -/
def swapping : Config := ⟨200, true, by decide⟩

/-- A directory and a file in it; a child, with a swap file, gives the file another name, takes the first away and
runs it, its image a page too large. -/
def exCalls : List Call :=
  [.sysMkdir 0 (some "/d".toList), .sysOpen 0 (some "/d/f".toList) ⟨true, false⟩, .fork 0 3,
    .sysChdir 1 (some "/d".toList),
    .sysLink 1 (some "f".toList) (some "g".toList), .sysUnlink 1 (some "/d/f".toList),
    .sysExec 1 (some "g".toList) ⟨[5, 3, 2], true, [5, 3, 2], true⟩, .sysClose 0 0]

/-- The directory is the child's, the file is open there, and has its second name only. -/
def exSettled (s : St) : Bool :=
  s.ref 2 == 1 && s.ref 3 == 1 && (s.inodes 2).ents[2]? == some { inum := 0, name := [] } &&
    (s.inodes 2).ents[3]? == some { inum := 3, name := "g".toList }

theorem exCalls_run : ∃ s, Lts.Run (Step swapping) (booted rootTree) exCalls s ∧ exSettled s = true := by
  have hx : (runAll swapping exCalls (booted rootTree)).toOption.any exSettled = true := by decide +kernel
  cases hrun : runAll swapping exCalls (booted rootTree) with
  | error e =>
    rw [hrun] at hx
    cases hx
  | ok s =>
    rw [hrun] at hx
    exact ⟨s, runAll_run hrun, hx⟩

theorem calls_balance_child : ∃ s, Lts.Run (Step swapping) (booted rootTree) exCalls s ∧
    exSettled s = true ∧ Balance swapping s 1 := by
  obtain ⟨s, hrun, hs⟩ := exCalls_run
  exact ⟨s, hrun, hs, calls_balance ⟨rootTree, exCalls, clean_rootTree, hrun⟩ 1⟩

/-- **Every entry is found under its own name**, and only the dots lead back to the directory. -/
theorem names_unique (h : Reachable c s) (d k : Nat) (e : Dirent) (he : (s.inodes d).ents[k]? = some e)
    (hn : e.inum ≠ 0) :
    lookup (s.inodes d).ents e.name = some (k, e.inum) ∧ (e.inum = d → dots e.name = true) := by
  have hneat := h.inv.tidy d
  refine ⟨?_, fun hd => hneat.own e (List.mem_of_getElem? he) hd hn⟩
  cases hl : lookup (s.inodes d).ents e.name with
  | none =>
    have := lookup_none.1 hl e (List.mem_of_getElem? he) hn
    rw [namecmp, beq_self_eq_true] at this
    cases this
  | some r =>
    obtain ⟨off, i⟩ := r
    obtain ⟨e', he', hi, hn', hc⟩ := lookup_some hl
    obtain rfl := hneat.unique he he' hn (by rw [hi]; exact hn') hc
    obtain rfl : e = e' := Option.some.inj (he.symm.trans he')
    rw [hi]

theorem names_unique_child : ∃ s, Lts.Run (Step swapping) (booted rootTree) exCalls s ∧
    lookup (s.inodes 2).ents "g".toList = some (3, 3) := by
  obtain ⟨s, hrun, hs⟩ := exCalls_run
  simp only [exSettled, Bool.and_eq_true, beq_iff_eq] at hs
  exact ⟨s, hrun, (names_unique (c := swapping) ⟨rootTree, exCalls, clean_rootTree, hrun⟩ 2 3 _ hs.2 (by decide)).1⟩

end

end Dirs
