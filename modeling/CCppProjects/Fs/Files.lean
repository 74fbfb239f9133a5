import CCppProjects.Fs.Balance
/-
# Who holds the references

`St.holds s i` counts what refers to inode `i` between calls: open files, swap files among them, and current
directories. What the cache counts beyond that belongs to a call that is under way (`St.loose`).

| contract | call |
|---|---|
| `filealloc_spec`, `fdalloc_spec`, `fileclose_spec` | file.c:27-80, sysfile.c:41-53 |
| `sysOpen_spec`, `sysMake_spec`, `sysChdir_spec`    | sysfile.c:287-395 |
| `sysLink_iff`, `sysUnlink_spec`                    | sysfile.c:119-239 |

Each says as well what becomes of the tree (`MadeBy`, `LinkedBy`, `UnlinkedBy`, `Puts`).
-/
namespace Dirs

open Fs (Ty NINODE)
open Function (update)
open Prog

variable (c : Config)

/-! ## Holders -/

def File.holds (i : Nat) (f : File) : Bool := decide (0 < f.ref) && f.ip == some i
def Proc.holds (i : Nat) (p : Proc) : Bool := p.cwd == some i

/-- The references to inode `i` of open files, swap files and current directories. -/
def St.holds (s : St) (i : Nat) : Int := (s.ftable.countP (File.holds i) : Int) + (s.procs.countP (Proc.holds i) : Int)

/-- The references that nobody holds. -/
def St.loose (s : St) (i : Nat) : Int := s.ref i - s.holds i

/-- From `s` to `t`: `d` more references that nobody holds, locks as in `l`, `n` transactions more. -/
structure Moved (s t : St) (d : Nat → Int) (l : Nat → Bool) (n : Int) : Prop where
  loose : ∀ i, t.loose i = s.loose i + d i
  locks : t.locks = l
  outstanding : t.outstanding = s.outstanding + n

/-- A slot of `ftable` that is free refers to nothing. -/
def Idle (s : St) : Prop := ∀ f ∈ s.ftable, f.ref = 0 → f.ip = none

/-- No call is under way: no inode is locked, no transaction open, and no reference without a holder. -/
structure Settled (s : St) : Prop where
  sound : Sound s
  unlocked : ∀ i, s.locks i = false
  closed : s.outstanding = 0
  held : ∀ i, s.loose i = 0
  idle : Idle s

/-- How a call should leave the references, the locks and the transactions. -/
structure Ends (s t : St) (failed : Bool) : Prop where
  moved : Moved s t 0 s.locks 0
  failed : failed = true → ∀ i, t.ref i = s.ref i

section

variable {c} {s t u : St} {i j f k p : Nat} {d d' : Nat → Int} {l l' : Nat → Bool} {n n' : Int}
    {cwd : Option Nat} {path : Path}

theorem Moved.trans (h : Moved s t d l n) (h' : Moved t u d' l' n') : Moved s u (d + d') l' (n + n') :=
  ⟨fun i => by rw [h'.loose, h.loose, Pi.add_apply, Int.add_assoc],
    h'.locks, by rw [h'.outstanding, h.outstanding, Int.add_assoc]⟩

theorem Moved.congr (h : Moved s t d l n) (hd : ∀ i, d i = d' i) (hl : l = l') (hn : n = n') : Moved s t d' l' n' := by
  obtain rfl : d = d' := funext hd
  rw [← hl, ← hn]
  exact h

theorem Eff.holds (h : Eff s t d l n) (i : Nat) : t.holds i = s.holds i := by
  rw [St.holds, St.holds, h.ftable, h.procs]

theorem Eff.moved (h : Eff s t d l n) : Moved s t d l n := by
  refine ⟨fun i => ?_, h.locks, h.outstanding⟩
  rw [St.loose, St.loose, h.holds, h.ref]
  omega

theorem Eff.idle (h : Eff s t d l n) (hs : Idle s) : Idle t := by
  rw [Idle, h.ftable]
  exact hs

theorem Settled.of_moved (hs : Settled s) (ht : Sound t) (hi : Idle t) (hm : Moved s t 0 s.locks 0) : Settled t := by
  refine ⟨ht, fun i => by rw [hm.locks, hs.unlocked], ?_, fun i => ?_, hi⟩
  · rw [hm.outstanding, hs.closed, Int.add_zero]
  · rw [hm.loose, Pi.zero_apply, Int.add_zero]
    exact hs.held i

theorem Settled.committed (hs : Settled s) : s.logged = 0 := hs.sound.committed (Int.le_of_eq hs.closed)

/-- The effect of a whole call on a settled state. -/
theorem Settled.ends (hs : Settled s) (ht : Sound t) (he : Eff s t 0 s.locks 0) (b : Bool) :
    Settled t ∧ Ends s t b := by
  refine ⟨hs.of_moved ht (he.idle hs.idle) he.moved, he.moved, fun _ i => ?_⟩
  rw [he.ref, Pi.zero_apply, Int.add_zero]

/-- What somebody holds has a reference. -/
theorem Settled.ref_pos (hs : Settled s) (h : 0 < s.holds i) : 0 < s.ref i := by
  have := hs.held i
  rw [St.loose] at this
  omega

theorem St.proc_eq {pr : Proc} (h : s.procs[p]? = some pr) : s.proc p = pr := by
  rw [St.proc, h]
  rfl

theorem proc_of_cwd (h : (s.proc p).cwd = some i) : s.procs[p]? = some (s.proc p) := by
  cases hp : s.procs[p]? with
  | none =>
    rw [St.proc, hp] at h
    cases h
  | some pr => rw [St.proc_eq hp]

theorem holds_of_cwd (h : (s.proc p).cwd = some i) : 0 < s.holds i := by
  have hmem := List.mem_of_getElem? (proc_of_cwd h)
  have : 0 < s.procs.countP (Proc.holds i) := List.countP_pos_iff.2 ⟨_, hmem, by rw [Proc.holds, h]; simp⟩
  rw [St.holds]
  omega

theorem Settled.cwd_pos (hs : Settled s) (h : (s.proc p).cwd = some i) : 0 < s.ref i := hs.ref_pos (holds_of_cwd h)

theorem St.file_eq {ff : File} (h : s.ftable[f]? = some ff) : s.file f = ff := by
  rw [St.file, h]
  rfl

theorem file_of_ref (h : 0 < (s.file f).ref) : s.ftable[f]? = some (s.file f) := by
  cases hf : s.ftable[f]? with
  | none =>
    rw [St.file, hf] at h
    cases h
  | some ff => rw [St.file_eq hf]

theorem holds_of_file {ff : File} (h : s.ftable[f]? = some ff) (hr : 0 < ff.ref) (hi : ff.ip = some i) :
    0 < s.holds i := by
  have : 0 < s.ftable.countP (File.holds i) :=
    List.countP_pos_iff.2 ⟨_, List.mem_of_getElem? h, by rw [File.holds, hi]; simpa using hr⟩
  rw [St.holds]
  omega

/-! ## States that paths cannot tell apart -/

/-- The same references and the same tree. -/
structure Like (s t : St) : Prop where
  ref : ∀ i, t.ref i = s.ref i
  inodes : t.inodes = s.inodes

theorem Eff.like (h : Eff s t 0 l n) (hi : t.inodes = s.inodes) : Like s t :=
  ⟨fun i => by rw [h.ref, Pi.zero_apply, Int.add_zero], hi⟩

theorem Like.walkFrom {parent : Bool} (h : Like s t) : walkFrom c t cwd path parent = walkFrom c s cwd path parent :=
  walkFrom_congr h.ref (fun j => by rw [h.inodes]) fun j => by rw [h.inodes]

theorem Like.full_addRef (h : Like s t) : (t.addRef j).full c i ↔ (s.addRef j).full c i :=
  full_congr fun k => by rw [addRef_ref, addRef_ref, h.ref]

theorem Like.made {type : Ty} {U : Tree} (h : Like s t) (hm : Made c t cwd path type U) : Made c s cwd path type U := by
  cases hm with
  | same _ hp => exact .same _ (h.inodes ▸ hp)
  | new dp i name _ hw hc hp => exact .new dp i name _ (by rw [← h.walkFrom, hw]) (h.inodes ▸ hc) (h.inodes ▸ hp)

theorem Like.stays (h : Like s t) : Stays c t cwd path ↔ Stays c s cwd path := by
  simp only [Stays, h.walkFrom, h.inodes, h.full_addRef]

theorem Like.unlinked {b : Bool} {U : Tree} (h : Like s t) (hu : Unlinked c t cwd path b U) :
    Unlinked c s cwd path b U := by
  cases hu with
  | stays hst =>
    rw [h.inodes]
    exact .stays (h.stays.1 hst)
  | gone dp off i name _ hw hc hp =>
    exact .gone dp off i name _ (by rw [← h.walkFrom, hw]) (h.inodes ▸ hc) (h.inodes ▸ hp)

/-! ## One slot of a table -/

theorem countP_set_int {α : Type} (P : α → Bool) : ∀ (xs : List α) (k : Nat) (a b : α), xs[k]? = some b →
    ((xs.set k a).countP P : Int) = xs.countP P - (P b).toNat + (P a).toNat
  | [], k, a, b, h => by simp at h
  | x :: xs, 0, a, b, h => by
    obtain rfl : x = b := by simpa using h
    rw [List.set_cons_zero, List.countP_cons, List.countP_cons]
    cases P x <;> cases P a <;> simp
  | x :: xs, k + 1, a, b, h => by
    have ih := countP_set_int P xs k a b (by simpa using h)
    rw [List.set_cons_succ, List.countP_cons, List.countP_cons]
    push_cast
    omega

theorem holds_setFile {old : File} (h : s.ftable[f]? = some old) (new : File) (i : Nat) :
    (s.setFile f new).holds i = s.holds i - (old.holds i).toNat + (new.holds i).toNat := by
  have := countP_set_int (File.holds i) s.ftable f new old h
  rw [St.holds, St.holds]
  simp only [St.setFile]
  omega

/-- A process keeps its current directory. -/
theorem holds_setProc {pr : Proc} (h : pr.cwd = (s.proc p).cwd) (i : Nat) : (s.setProc p pr).holds i = s.holds i := by
  cases hp : s.procs[p]? with
  | none =>
    have : s.procs.set p pr = s.procs := List.set_eq_of_length_le (List.getElem?_eq_none_iff.1 hp)
    simp only [St.holds, St.setProc, this]
  | some old =>
    have := countP_set_int (Proc.holds i) s.procs p pr old hp
    rw [St.proc_eq hp] at h
    have hsame : pr.holds i = old.holds i := by rw [Proc.holds, Proc.holds, h]
    rw [hsame] at this
    simp only [St.holds, St.setProc]
    omega

/-- Only tables change, and who holds what. -/
theorem Moved.of_holds (hc : t.icache = s.icache) (ho : t.outstanding = s.outstanding)
    (hd : ∀ i, d i = s.holds i - t.holds i) :
    Moved s t d s.locks 0 := by
  refine ⟨fun i => ?_, funext fun j => by simp only [St.locks, hc], by rw [ho, Int.add_zero]⟩
  have : t.ref i = s.ref i := by rw [St.ref, St.ref, hc]
  rw [St.loose, St.loose, this, hd]
  omega

theorem Idle.setFile {ff : File} (h : Idle s) (hf : ff.ref = 0 → ff.ip = none) : Idle (s.setFile f ff) := by
  intro g hg
  rcases List.mem_or_eq_of_mem_set hg with hg | rfl
  · exact h g hg
  · exact hf

/-! ## The file table -/

/-- The same cache, disk and log. -/
structure Same (s t : St) : Prop where
  icache : t.icache = s.icache
  inodes : t.inodes = s.inodes
  outstanding : t.outstanding = s.outstanding
  logged : t.logged = s.logged

theorem Same.setFile (s : St) (f : Nat) (ff : File) : Same s (s.setFile f ff) := ⟨rfl, rfl, rfl, rfl⟩

theorem Same.setProc (s : St) (p : Nat) (pr : Proc) : Same s (s.setProc p pr) := ⟨rfl, rfl, rfl, rfl⟩

theorem Same.trans (h : Same s t) (h' : Same t u) : Same s u :=
  ⟨h'.icache.trans h.icache, h'.inodes.trans h.inodes, h'.outstanding.trans h.outstanding, h'.logged.trans h.logged⟩

theorem Same.sound (h : Same s t) (hs : Sound s) : Sound t := by
  refine hs.congr h.icache h.inodes ?_
  rw [h.outstanding, h.logged]
  exact hs.committed

theorem Same.ref (h : Same s t) (i : Nat) : t.ref i = s.ref i := by rw [St.ref, St.ref, h.icache]

theorem Same.moved (h : Same s t) (hd : ∀ i, d i = s.holds i - t.holds i) : Moved s t d s.locks 0 :=
  .of_holds h.icache h.outstanding hd

/-- Slot `f` has just been taken. -/
structure Taken (s t : St) (f : Nat) : Prop where
  same : Same s t
  idle : Idle t
  procs : t.procs = s.procs
  slot : t.ftable[f]? = some { ref := 1, ip := none }
  holds : ∀ i, t.holds i = s.holds i

theorem filealloc_spec (hi : Idle s) : filealloc s = .ok (none, s) ∨
    ∃ f t, filealloc s = .ok (some f, t) ∧ Taken s t f := by
  simp only [filealloc, state_bind_run]
  cases hf : s.ftable.findIdx? fun f => f.ref == 0 with
  | none => exact .inl rfl
  | some f =>
    obtain ⟨hlt, hzero, -⟩ := List.findIdx?_eq_some_iff_getElem.1 hf
    have hslot : s.ftable[f]? = some s.ftable[f] := List.getElem?_eq_getElem hlt
    have hfree : (s.ftable[f]).ref = 0 := by simpa using hzero
    have hip : (s.ftable[f]).ip = none := hi _ (List.getElem_mem hlt) hfree
    have hnew : { s.file f with ref := 1 } = ({ ref := 1, ip := none } : File) := by simp only [St.file_eq hslot, hip]
    refine .inr ⟨f, _, rfl, ?_⟩
    rw [hnew]
    refine ⟨.setFile .., hi.setFile (by simp), rfl, ?_, fun i => ?_⟩
    · exact List.getElem?_set_self hlt
    · rw [holds_setFile hslot]
      simp [File.holds, hip]

/-- The descriptor goes to the process, nothing else changes. -/
theorem fdalloc_spec (p f : Nat) (s : St) : fdalloc p f s = .ok (none, s) ∨
    ∃ fd pr, fdalloc p f s = .ok (some fd, s.setProc p pr) ∧ pr.cwd = (s.proc p).cwd := by
  simp only [fdalloc, state_bind_run]
  cases hf : (s.proc p).ofile.findIdx? fun o => o == none with
  | none => exact .inl rfl
  | some fd => exact .inr ⟨fd, _, rfl, rfl⟩

/-- A file is given up; its inode is, if this was the last to have it. -/
theorem fileclose_spec (hs : Settled s) : Sat (fileclose f s) Plain fun r =>
    Settled r.2 ∧ Moved s r.2 0 s.locks 0 ∧ r.2.procs = s.procs ∧ Puts s.inodes r.2.inodes := by
  unfold fileclose
  rw [state_bind_run]
  by_cases hlt : (s.file f).ref < 1
  · rw [if_pos hlt]
    exact .error (by decide)
  rw [if_neg hlt]
  have hslot := file_of_ref (s := s) (f := f) (by omega)
  by_cases hmore : 0 < (s.file f).ref - 1
  · rw [if_pos hmore, change_run]
    have hmoved : Moved s (s.setFile f { s.file f with ref := (s.file f).ref - 1 }) 0 s.locks 0 :=
      (Same.setFile ..).moved fun i => by
      have h1 : decide (0 < (s.file f).ref) = true := decide_eq_true (by omega)
      have h2 : decide (0 < (s.file f).ref - 1) = true := decide_eq_true hmore
      rw [holds_setFile hslot]
      simp only [File.holds, h1, h2, Pi.zero_apply]
      omega
    refine .ok ⟨hs.of_moved ((Same.setFile ..).sound hs.sound) (hs.idle.setFile fun h => ?_) hmoved, hmoved, rfl, .refl⟩
    change (s.file f).ref - 1 = 0 at h
    omega
  rw [if_neg hmore, bind_run, change_run, ok_bind]
  have hone : decide (0 < (s.file f).ref) = true := decide_eq_true (by omega)
  have hsame : Same s (s.setFile f { ref := 0, ip := none }) := .setFile ..
  have hidle : Idle (s.setFile f { ref := 0, ip := none }) := hs.idle.setFile fun _ => rfl
  have hprocs : (s.setFile f { ref := 0, ip := none }).procs = s.procs := rfl
  have hholds := holds_setFile hslot { ref := 0, ip := none }
  generalize s.setFile f { ref := 0, ip := none } = t at hsame hidle hprocs hholds ⊢
  have hst := hsame.sound hs.sound
  cases hip : (s.file f).ip with
  | none =>
    have hmoved : Moved s t 0 s.locks 0 := hsame.moved fun i => by
      rw [hholds, File.holds, File.holds, hip]
      simp
    refine .ok ⟨hs.of_moved hst hidle hmoved, hmoved, hprocs, ?_⟩
    change Puts s.inodes t.inodes
    rw [hsame.inodes]
    exact .refl
  | some ip =>
    obtain ⟨u, hbegin, hsu, heu, hiu⟩ := beginOp_run hst (hsame.outstanding.trans hs.closed)
    have hpos : 0 < u.ref ip := by
      have h1 := hs.held ip
      have h2 := holds_of_file hslot (by omega) hip
      rw [heu.ref, hsame.ref, Pi.zero_apply]
      rw [St.loose] at h1
      omega
    have htl : t.locks = s.locks := funext fun j => by simp only [St.locks, hsame.icache]
    obtain ⟨v, hput, hsv, hev, hputv⟩ := iput_run hsu hpos (by rw [heu.locks, htl, hs.unlocked])
    obtain ⟨w, hend, hsw, hew, hiw⟩ := endOp_run hsv
    have htree : Puts s.inodes w.inodes := by
      have := hputv.tree.puts
      rw [hiu, hsame.inodes] at this
      rw [hiw]
      exact this
    dsimp only
    rw [bind_ok_run hbegin, bind_ok_run hput, hend]
    have hgive : Moved s t (one ip) s.locks 0 := hsame.moved fun i => by
      rw [hholds, File.holds, File.holds, hip, hone]
      by_cases h : i = ip
      · subst h
        simp [one]
      · have hne : (some ip == some i) = false := by simpa using Ne.symm h
        rw [hne]
        simp [one, h]
    have hmoved : Moved s w 0 s.locks 0 := (((hgive.trans heu.moved).trans hev.moved).trans hew.moved).congr
      (fun j => by simp) (by rw [hev.locks, heu.locks, htl]) rfl
    exact .ok ⟨hs.of_moved hsw (hew.idle (hev.idle (heu.idle hidle))) hmoved, hmoved,
      by rw [hew.procs, hev.procs, heu.procs, hprocs], htree⟩

theorem Taken.holds_set (h : Taken s t f) (hslot : u.ftable[f]? = t.ftable[f]?) (ff : File) (i : Nat) :
    (u.setFile f ff).holds i = u.holds i + (ff.holds i).toNat := by
  rw [holds_setFile (hslot.trans h.slot)]
  simp [File.holds]

/-- A slot without an inode is given back. -/
theorem fileclose_taken (h : u.ftable[f]? = some { ref := 1, ip := none }) :
    fileclose f u = .ok (⟨⟩, u.setFile f { ref := 0, ip := none }) := by
  unfold fileclose
  rw [state_bind_run, St.file_eq h, if_neg (by decide), if_neg (by decide), bind_run, change_run, ok_bind]
  rfl

/-! ## What the calls do to the tree -/

def MadeBy (c : Config) (s : St) (p : Nat) (path : Option Path) (type : Ty) (U : Tree) : Prop :=
  match path with
  | some path => Made c s (s.proc p).cwd path type U
  | none => U = s.inodes

/-- `open` makes a file only where it is asked to. -/
def OpenBy (c : Config) (s : St) (p : Nat) (path : Option Path) (m : Mode) (U : Tree) : Prop :=
  match path with
  | some path => (m.create = true → Made c s (s.proc p).cwd path .file U) ∧ (m.create = false → Puts s.inodes U)
  | none => U = s.inodes

/-! ## Calls on one path -/

/-- **open** -/
theorem sysOpen_spec {m : Mode} {path : Option Path} (hs : Settled s) : Sat (sysOpen c p path m s) Plain fun r =>
    Settled r.2 ∧ Ends s r.2 r.1.isNone ∧ OpenBy c s p path m r.2.inodes := by
  unfold sysOpen
  cases path with
  | none =>
    obtain ⟨h1, h2⟩ := hs.ends hs.sound ((Eff.refl s).congr (fun _ => rfl) rfl rfl) true
    exact .ok ⟨h1, h2, rfl⟩
  | some path =>
    simp only [state_bind_run]
    obtain ⟨b, hbegin, hsb, heb, hib⟩ := beginOp_run hs.sound hs.closed
    have hbref : ∀ j, b.ref j = s.ref j := fun j => by rw [heb.ref, Pi.zero_apply, Int.add_zero]
    rw [bind_ok_run hbegin]
    refine sat_bind (openInode_spec hsb (fun i => by rw [heb.locks, hs.unlocked])
      fun i h => by rw [hbref]; exact hs.cwd_pos h) ?_
    rintro r t - ⟨⟨hst, hmade, het⟩, hsame⟩
    change Sound t at hst
    change Eff b t (r.elim 0 one) (r.elim b.locks fun i => update b.locks i true) 0 at het
    have htree : ∀ V, Puts t.inodes V → OpenBy c s p (some path) m V := fun V hV =>
      ⟨fun _ => (heb.like hib).made (hmade.puts hV), fun hm => by rw [← hib, ← hsame hm]; exact hV⟩
    cases r with
    | none =>
      obtain ⟨u, hend, hsu, heu, hiu⟩ := endOp_run hst
      dsimp only
      rw [bind_ok_run hend]
      obtain ⟨h1, h2⟩ :=
        hs.ends hsu (((heb.trans het).trans heu).congr (fun j => by simp) (het.locks.trans heb.locks) rfl) true
      exact .ok ⟨h1, h2, htree _ (by rw [hiu]; exact .refl)⟩
    | some ip =>
      have hbt : Eff s t (one ip) (update s.locks ip true) 1 := (heb.trans het).congr (fun j => by simp)
        (by rw [heb.locks]; rfl) rfl
      have hlt : t.locks ip = true := by rw [hbt.locks, Function.update_self]
      have hidle := hbt.idle hs.idle
      have hback : update t.locks ip false = s.locks := by
        rw [hbt.locks, Function.update_idem]
        exact (Function.update_eq_self_iff ..).2 (hs.unlocked ip).symm
      dsimp only
      rcases filealloc_spec hidle with hfull | ⟨f, u, hfile, hu⟩
      · obtain ⟨v, hput, hsv, hev, hputv⟩ := iunlockput_run hst hlt
        obtain ⟨w, hend, hsw, hew, hiw⟩ := endOp_run hsv
        rw [bind_ok_run hfull]
        dsimp only
        rw [bind_ok_run hput, bind_ok_run hend]
        obtain ⟨h1, h2⟩ :=
          hs.ends hsw (((hbt.trans hev).trans hew).congr (fun j => by simp) (hev.locks.trans hback) rfl) true
        exact .ok ⟨h1, h2, htree _ (by rw [hiw]; exact hputv.tree.puts)⟩
      rw [bind_ok_run hfile]
      dsimp only
      have hsu := hu.same.sound hst
      have hul : u.locks = t.locks := funext fun j => by simp only [St.locks, hu.same.icache]
      have htu : Moved t u 0 t.locks 0 := hu.same.moved fun i => by rw [hu.holds, Pi.zero_apply, Int.sub_self]
      rcases fdalloc_spec p f u with hfd | ⟨fd, pr, hfd, hcwd⟩
      · have hsame : Same u (u.setFile f { ref := 0, ip := none }) := .setFile ..
        have hclose : Moved u _ 0 u.locks 0 := hsame.moved fun i => by
          rw [hu.holds_set rfl]
          simp [File.holds]
        have hcl : (u.setFile f { ref := 0, ip := none }).locks ip = true := by rw [hclose.locks, hul, hlt]
        obtain ⟨v, hput, hsv, hev, hputv⟩ := iunlockput_run (hsame.sound hsu) hcl
        obtain ⟨w, hend, hsw, hew, hiw⟩ := endOp_run hsv
        rw [bind_ok_run hfd]
        dsimp only
        rw [bind_ok_run (fileclose_taken hu.slot), bind_ok_run hput, bind_ok_run hend]
        have hall : Moved s w 0 s.locks 0 :=
          ((((hbt.moved.trans htu).trans hclose).trans hev.moved).trans hew.moved).congr
          (fun j => by simp) (by rw [hev.locks, hclose.locks, hul, hback]) rfl
        have hidlew : Idle w := hew.idle (hev.idle (hu.idle.setFile fun _ => rfl))
        have hputs := hputv.tree.puts
        rw [hsame.inodes, hu.same.inodes, ← hiw] at hputs
        refine .ok ⟨hs.of_moved hsw hidlew hall, ⟨hall, fun _ i => ?_⟩, htree _ hputs⟩
        rw [hew.ref, hev.ref, hsame.ref, hu.same.ref, hbt.ref]
        simp
      · have hsame : Same u (u.setProc p pr) := .setProc ..
        have hgive : Moved u (u.setProc p pr) 0 u.locks 0 := hsame.moved fun i => by
          rw [holds_setProc hcwd, Pi.zero_apply, Int.sub_self]
        obtain ⟨v, hunlock, hsv, hev, hiv⟩ := iunlock_run (hsame.sound hsu) (i := ip) (by rw [hgive.locks, hul, hlt])
        obtain ⟨w, hend, hsw, hew, hiw⟩ := endOp_run hsv
        rw [bind_ok_run hfd]
        dsimp only
        rw [bind_ok_run hunlock, bind_ok_run hend, bind_run, change_run, ok_bind]
        have hslot : w.ftable[f]? = u.ftable[f]? := by rw [hew.ftable, hev.ftable]; rfl
        have hset : Same w (w.setFile f { w.file f with ip := some ip }) := .setFile ..
        have hfile' : { w.file f with ip := some ip } = ({ ref := 1, ip := some ip } : File) := by
          simp only [St.file_eq (hslot.trans hu.slot)]
        have hhold : Moved w (w.setFile f { w.file f with ip := some ip }) (-one ip) w.locks 0 := hset.moved fun i => by
          rw [hu.holds_set hslot, hfile', File.holds]
          by_cases h : i = ip
          · subst h
            simp [one]
          · have hne : (some ip == some i) = false := by simpa using Ne.symm h
            simp [one, h, hne]
        have hall : Moved s _ 0 s.locks 0 :=
          (((((hbt.moved.trans htu).trans hgive).trans hev.moved).trans hew.moved).trans hhold).congr
          (fun j => by simp) (by rw [hew.locks, hev.locks, hgive.locks, hul, hback]) rfl
        have hidlew : Idle w := hew.idle (hev.idle hu.idle)
        have hwi : (w.setFile f { w.file f with ip := some ip }).inodes = t.inodes := by
          rw [hset.inodes, hiw, hiv, hsame.inodes, hu.same.inodes]
        refine .ok ⟨hs.of_moved (hset.sound hsw) (hidlew.setFile fun h => ?_) hall, ⟨hall, fun h => by cases h⟩,
          htree _ (by rw [hwi]; exact .refl)⟩
        rw [hfile'] at h
        cases h

/-- **mkdir** and **mknod** -/
theorem sysMake_spec {path : Option Path} {type : Ty} (htype : type ≠ .free) (hs : Settled s) :
    Sat (sysMake c p path type s) Plain fun r => Settled r.2 ∧ Ends s r.2 !r.1 ∧ MadeBy c s p path type r.2.inodes := by
  unfold sysMake
  simp only [state_bind_run]
  obtain ⟨b, hbegin, hsb, heb, hib⟩ := beginOp_run hs.sound hs.closed
  have hbref : ∀ j, b.ref j = s.ref j := fun j => by rw [heb.ref, Pi.zero_apply, Int.add_zero]
  rw [bind_ok_run hbegin]
  cases path with
  | none =>
    obtain ⟨u, hend, hsu, heu, hiu⟩ := endOp_run hsb
    dsimp only
    rw [bind_ok_run hend]
    obtain ⟨h1, h2⟩ := hs.ends hsu ((heb.trans heu).congr (fun j => by simp) heb.locks rfl) true
    exact .ok ⟨h1, h2, hiu.trans hib⟩
  | some path =>
    dsimp only
    refine sat_bind (Opened.spec hsb (fun i => by rw [heb.locks, hs.unlocked])
      (fun i h => by rw [hbref]; exact hs.cwd_pos h) htype) ?_
    rintro r t - ⟨hst, hmade, het⟩
    change Sound t at hst
    change Eff b t (r.elim 0 one) (r.elim b.locks fun i => update b.locks i true) 0 at het
    have htree : ∀ V, Puts t.inodes V → MadeBy c s p (some path) type V :=
      fun V hV => (heb.like hib).made (hmade.puts hV)
    cases r with
    | none =>
      obtain ⟨u, hend, hsu, heu, hiu⟩ := endOp_run hst
      dsimp only
      rw [bind_ok_run hend]
      obtain ⟨h1, h2⟩ :=
        hs.ends hsu (((heb.trans het).trans heu).congr (fun j => by simp) (het.locks.trans heb.locks) rfl) true
      exact .ok ⟨h1, h2, htree _ (by rw [hiu]; exact .refl)⟩
    | some ip =>
      have hlt : t.locks ip = true := by rw [het.locks]; exact Function.update_self ..
      obtain ⟨u, hput, hsu, heu, hputu⟩ := iunlockput_run hst hlt
      obtain ⟨v, hend, hsv, hev, hiv⟩ := endOp_run hsu
      dsimp only
      rw [bind_ok_run hput, bind_ok_run hend]
      have hlocks : update t.locks ip false = s.locks := by
        rw [het.locks, Option.elim, Function.update_idem, heb.locks]
        exact (Function.update_eq_self_iff ..).2 (hs.unlocked ip).symm
      obtain ⟨h1, h2⟩ := hs.ends hsv ((((heb.trans het).trans heu).trans hev).congr (fun j => by simp)
        (heu.locks.trans hlocks) rfl) false
      exact .ok ⟨h1, h2, htree _ (by rw [hiv]; exact hputu.tree.puts)⟩

/-- The current directory of a process is another one. -/
theorem holds_setCwd {old : Proc} (h : s.procs[p]? = some old) (pr : Proc) (i : Nat) :
    (s.setProc p pr).holds i = s.holds i - (old.holds i).toNat + (pr.holds i).toNat := by
  have := countP_set_int (Proc.holds i) s.procs p pr old h
  simp only [St.holds, St.setProc]
  omega

theorem Proc.holds_toNat {pr : Proc} {ip : Nat} (h : pr.cwd = some ip) (i : Nat) :
    ((pr.holds i).toNat : Int) = one ip i := by
  rw [Proc.holds, h]
  by_cases hi : i = ip
  · subst hi
    simp [one]
  · have hne : (some ip == some i) = false := by simpa using Ne.symm hi
    simp [one, hi, hne]

/-- **chdir** -/
theorem sysChdir_spec {path : Option Path} (hs : Settled s) :
    Sat (sysChdir c p path s) Plain fun r => Settled r.2 ∧ Ends s r.2 !r.1 ∧ Puts s.inodes r.2.inodes := by
  unfold sysChdir
  simp only [state_bind_run]
  obtain ⟨b, hbegin, hsb, heb, hib⟩ := beginOp_run hs.sound hs.closed
  have hbref : ∀ j, b.ref j = s.ref j := fun j => by rw [heb.ref, Pi.zero_apply, Int.add_zero]
  rw [bind_ok_run hbegin]
  cases path with
  | none =>
    obtain ⟨u, hend, hsu, heu, hiu⟩ := endOp_run hsb
    dsimp only
    rw [bind_ok_run hend]
    obtain ⟨h1, h2⟩ := hs.ends hsu ((heb.trans heu).congr (fun j => by simp) heb.locks rfl) true
    exact .ok ⟨h1, h2, by rw [hiu, hib]; exact .refl⟩
  | some path =>
    dsimp only
    refine sat_bind
      ((namex_spec hsb (fun i => by rw [heb.locks, hs.unlocked])
      fun i h => by rw [hbref]; exact hs.cwd_pos h).mono
      (fun _ h => h.1) fun _ h => h) ?_
    rintro r t - ⟨-, hst, het, hit⟩
    change t.inodes = b.inodes at hit
    change Sound t at hst
    change Eff b t (gain r) b.locks 0 at het
    have hbt : Eff s t (gain r) s.locks 1 := (heb.trans het).congr (fun j => by simp) heb.locks rfl
    cases r with
    | none =>
      obtain ⟨u, hend, hsu, heu, hiu⟩ := endOp_run hst
      dsimp only
      rw [bind_ok_run hend]
      obtain ⟨h1, h2⟩ := hs.ends hsu ((hbt.trans heu).congr (fun j => by simp [gain]) hbt.locks rfl) true
      exact .ok ⟨h1, h2, by rw [hiu, hit, hib]; exact .refl⟩
    | some r =>
      obtain ⟨ip, name⟩ := r
      dsimp only
      refine sat_bind ((ilock_spec hst (by rw [hbt.locks, hs.unlocked])).mono (fun _ h => h.1) fun _ h => h) ?_
      rintro ⟨⟩ u - ⟨-, -, hsu, heu, hiu⟩
      change Sound u at hsu
      change u.inodes = t.inodes at hiu
      change Eff t u 0 (update t.locks ip true) 0 at heu
      have hul : u.locks ip = true := by rw [heu.locks, Function.update_self]
      have hback : update u.locks ip false = s.locks := by
        rw [heu.locks, Function.update_idem, hbt.locks]
        exact (Function.update_eq_self_iff ..).2 (hs.unlocked ip).symm
      have hsu' : Eff s u (one ip) u.locks 1 := (hbt.trans heu).congr (fun j => by simp [gain]) heu.locks.symm rfl
      rw [state_bind_run]
      by_cases hdir : (u.inodes ip).type ≠ .dir
      · obtain ⟨v, hput, hsv, hev, hputv⟩ := iunlockput_run hsu hul
        obtain ⟨w, hend, hsw, hew, hiw⟩ := endOp_run hsv
        have hputs := hputv.tree.puts
        rw [hiu, hit, hib, ← hiw] at hputs
        rw [if_pos hdir, bind_ok_run hput, bind_ok_run hend]
        obtain ⟨h1, h2⟩ :=
          hs.ends hsw (((hsu'.trans hev).trans hew).congr (fun j => by simp) (hev.locks.trans hback) rfl) true
        exact .ok ⟨h1, h2, hputs⟩
      rw [if_neg hdir]
      obtain ⟨v, hunlock, hsv, hev, hiv⟩ := iunlock_run hsu hul
      have hsv' : Eff s v (one ip) s.locks 1 := (hsu'.trans hev).congr (fun j => by simp) hback rfl
      rw [bind_ok_run hunlock]
      cases hcwd : (s.proc p).cwd with
      | none => exact .error (by decide)
      | some i =>
        have hpos : 0 < v.ref i := by
          have := hs.cwd_pos hcwd
          have := one_nonneg ip i
          rw [hsv'.ref]
          omega
        obtain ⟨w, hput, hsw, hew, hputw⟩ := iput_run hsv hpos (by rw [hsv'.locks, hs.unlocked])
        obtain ⟨x, hend, hsx, hex, hix⟩ := endOp_run hsw
        have hputs := hputw.tree.puts
        rw [hiv, hiu, hit, hib, ← hix] at hputs
        rw [bind_ok_run (m := putCwd (some i)) hput, bind_ok_run hend, bind_run, change_run, ok_bind]
        have hprocs : x.procs = s.procs := by rw [hex.procs, hew.procs, hsv'.procs]
        have hslot : x.procs[p]? = some (s.proc p) := by rw [hprocs, proc_of_cwd hcwd]
        have hpx : x.proc p = s.proc p := St.proc_eq hslot
        have hset : Same x (x.setProc p { x.proc p with cwd := some ip }) := .setProc ..
        have hswap : Moved x (x.setProc p { x.proc p with cwd := some ip }) (one i - one ip) x.locks 0 :=
          hset.moved fun j => by
          have h1 := Proc.holds_toNat hcwd j
          have h2 := Proc.holds_toNat (show ({ x.proc p with cwd := some ip } : Proc).cwd = some ip from rfl) j
          rw [holds_setCwd hslot, Pi.sub_apply]
          omega
        have hall : Moved s _ 0 s.locks 0 := (((hsv'.moved.trans hew.moved).trans hex.moved).trans hswap).congr
          (fun j => by simp only [Pi.add_apply, Pi.neg_apply, Pi.zero_apply, Pi.sub_apply]; omega)
          (by rw [hex.locks, hew.locks, hsv'.locks]) rfl
        refine .ok ⟨hs.of_moved (hset.sound hsx) ?_ hall, ⟨hall, fun h => by cases h⟩, hputs⟩
        exact hex.idle (hew.idle (hsv'.idle hs.idle))

end

/-! ## Calls on two inodes -/

/-- The transaction of `sys_unlink` and `removeSwapFile`. -/
def unlinkOp (cwd : Option Nat) (path : Path) : M Bool := do
  beginOp
  let ok ← unlink c cwd path
  endOp
  pure ok

/-- The new name for a file is one that the directory has for itself (sysfile.c:146). -/
def LinkWaits (s : St) (cwd : Option Nat) (old new : Path) : Prop :=
  ∃ i name, walkFrom c s cwd old false = some (some (i, name)) ∧ (s.inodes i).type ≠ .free ∧ (s.inodes i).type ≠ .dir ∧
    Selfward c (s.addRef i) cwd new

section

variable {c} {s t : St} {i p : Nat} {cwd : Option Nat} {path : Path}

/-- A run of `namex` that is known. -/
theorem namex_run {parent : Bool} {r : Option (Nat × Name)} (hs : Sound s) (hl : ∀ i, s.locks i = false)
    (hcwd : ∀ i, cwd = some i → 0 < s.ref i) (hw : walkFrom c s cwd path parent = some r) :
    ∃ t, namex c cwd path parent s = .ok (r, t) ∧ Sound t ∧ Eff s t (gain r) s.locks 0 ∧ t.inodes = s.inodes := by
  have hnamex : Sat (namex c cwd path parent s) _ _ := namex_spec hs hl hcwd
  cases hrun : namex c cwd path parent s with
  | error e =>
    have := (hnamex.of_error hrun).2
    rw [hw] at this
    cases this
  | ok q =>
    obtain ⟨q, t⟩ := q
    obtain ⟨hq, hst, het, hit⟩ := hnamex.of_ok hrun
    obtain rfl : r = q := by rw [hw] at hq; exact Option.some.inj hq
    exact ⟨t, rfl, hst, het, hit⟩

theorem ilock_run (hs : Sound s) (hl : s.locks i = false) (hpos : 0 < s.ref i) (ht : (s.inodes i).type ≠ .free) :
    ∃ t, ilock i s = .ok (⟨⟩, t) ∧ Sound t ∧ Eff s t 0 (update s.locks i true) 0 ∧ t.inodes = s.inodes := by
  have hlock := ilock_spec hs hl
  cases hrun : ilock i s with
  | error e =>
    rcases (hlock.of_error hrun).2 with h | h
    · omega
    · exact absurd h ht
  | ok r =>
    obtain ⟨⟨⟩, t⟩ := r
    obtain ⟨-, -, hst, het, hit⟩ := hlock.of_ok hrun
    exact ⟨t, rfl, hst, het, hit⟩

theorem sysLink_deadlock {old new : Path} (hs : Settled s) (h : LinkWaits c s (s.proc p).cwd old new) :
    sysLink c p (some old) (some new) s = .error .deadlock := by
  obtain ⟨i, name, hw, hfree, hdir, hself⟩ := h
  obtain ⟨b, hbegin, hsb, heb, hib⟩ := beginOp_run hs.sound hs.closed
  have hbref : ∀ j, b.ref j = s.ref j := fun j => by rw [heb.ref, Pi.zero_apply, Int.add_zero]
  have hwb : walkFrom c b (s.proc p).cwd old false = some (some (i, name)) := by
    rw [walkFrom_congr hbref (fun j => by rw [hib]) fun j => by rw [hib], hw]
  obtain ⟨t, hnamex, hst, het, hit⟩ := namex_run hsb (fun j => by rw [heb.locks, hs.unlocked])
    (fun j h => by rw [hbref]; exact hs.cwd_pos h) hwb
  have hbt : Eff s t (one i) s.locks 1 := (heb.trans het).congr (fun j => by simp [gain]) heb.locks rfl
  have hti : t.inodes = s.inodes := hit.trans hib
  have hpos : 0 < t.ref i := by
    have := hs.sound.nonneg i
    rw [hbt.ref, one_self]
    omega
  obtain ⟨u, hlock, hsu, heu, hiu⟩ := ilock_run hst (by rw [hbt.locks, hs.unlocked]) hpos (by rw [hti]; exact hfree)
  have hul : u.locks i = true := by rw [heu.locks, Function.update_self]
  obtain ⟨v, hadd, hsv, hev, hiv⟩ := addLink_run (z := 1) hsu hul
  obtain ⟨w, hunlock, hsw, hew, hiw⟩ := iunlock_run hsv (by rw [hev.locks, hul])
  have hall : Eff s w (one i) s.locks 1 := (((hbt.trans heu).trans hev).trans hew).congr (fun j => by simp) (by
    rw [hev.locks, heu.locks, Function.update_idem, hbt.locks]
    exact (Function.update_eq_self_iff ..).2 (hs.unlocked i).symm) rfl
  have hwi : w.inodes = Tree.link s.inodes i 1 := by rw [hiw, hiv, hiu, hti]
  have hwself : Selfward c w (s.proc p).cwd new := (selfward_congr (fun j => by rw [hall.ref, addRef_ref])
    (fun j => by rw [hwi, Tree.link_type]; rfl) fun j => by rw [hwi, Tree.link_ents]; rfl).2 hself
  have hnodir : ¬ (u.inodes i).type = .dir := by rw [hiu, hti]; exact hdir
  simp only [sysLink, state_bind_run]
  rw [bind_ok_run hbegin, bind_ok_run hnamex]
  dsimp only
  rw [bind_ok_run hlock, state_bind_run, if_neg hnodir, bind_ok_run hadd, bind_ok_run hunlock]
  refine bind_error_run (linkInto_deadlock hsw (fun j => by rw [hall.locks, hs.unlocked]) (fun j h => ?_) hwself)
  have := hs.cwd_pos h
  have := one_nonneg i j
  rw [hall.ref]
  omega

/-- A name that cannot be taken away. -/
theorem unlink_stays (hs : Sound s) (hl : ∀ i, s.locks i = false) (hcwd : ∀ i, cwd = some i → 0 < s.ref i)
    (htidy : Tidy s.inodes)
    (h : Stays c s cwd path) : ∃ t, unlink c cwd path s = .ok (false, t) := by
  rcases h with hw | ⟨dp, name, hw, h⟩
  · obtain ⟨t, hnamex, -⟩ := namex_run hs hl hcwd hw
    exact ⟨t, by rw [unlink, bind_ok_run hnamex]; rfl⟩
  obtain ⟨t, hnamex, hst, het, hit⟩ := namex_run hs hl hcwd hw
  have hdir := walkFrom_parent_dir hw
  have hpos : 0 < t.ref dp := by
    have := hs.nonneg dp
    rw [het.ref, gain, one_self]
    omega
  obtain ⟨u, hlock, hsu, heu, hiu⟩ := ilock_run hst (by rw [het.locks, hl]) hpos (by rw [hit, hdir]; decide)
  have hui : u.inodes = s.inodes := hiu.trans hit
  have hudir : (u.inodes dp).type = .dir := by rw [hui, hdir]
  have hul : u.locks dp = true := by rw [heu.locks, Function.update_self]
  have huref : ∀ j, u.ref j = (s.addRef dp).ref j :=
    fun j => by rw [heu.ref, het.ref, addRef_ref, gain, Pi.zero_apply, Int.add_zero]
  rw [unlink, bind_ok_run hnamex]
  dsimp only
  rw [bind_ok_run hlock]
  by_cases hdots : (namecmp name ".".toList || namecmp name "..".toList) = true
  · obtain ⟨v, hput, -⟩ := iunlockput_run hsu hul
    exact ⟨v, by rw [if_pos hdots, bind_ok_run hput]; rfl⟩
  rw [if_neg hdots]
  have hfound : Sat (dirlookup c dp name u) _ _ := dirlookup_spec name hsu hudir
  rcases h with h | h | ⟨off, i, h, hroom, hi, hlink, hempty⟩
  · exact absurd h hdots
  · cases hrun : dirlookup c dp name u with
    | error e =>
      obtain ⟨-, off, j, hj, -⟩ := hfound.of_error hrun
      rw [hui, h] at hj
      cases hj
    | ok r =>
      obtain ⟨r, v⟩ := r
      obtain ⟨hr, hsv, -, hev, -⟩ := hfound.of_ok hrun
      obtain rfl : r = none := by rw [hui, h] at hr; exact hr
      obtain ⟨w, hput, -⟩ := iunlockput_run (i := dp) hsv (by rw [hev.locks, hul])
      exact ⟨w, by rw [bind_ok_run hrun]; dsimp only; rw [bind_ok_run hput]; rfl⟩
  · cases hrun : dirlookup c dp name u with
    | error e =>
      obtain ⟨-, off', j, hj, hfull⟩ := hfound.of_error hrun
      obtain ⟨rfl, rfl⟩ : off = off' ∧ i = j := by rw [hui, h] at hj; simpa using hj
      exact absurd ((full_congr huref).1 hfull) hroom
    | ok r =>
      obtain ⟨r, v⟩ := r
      obtain ⟨hr, hsv, hiv, hev, -⟩ := hfound.of_ok hrun
      obtain rfl : r = some (off, i) := by rw [hui, h] at hr; exact hr
      have hvi : v.inodes = s.inodes := hiv.trans hui
      have hvl : v.locks = update s.locks dp true := by rw [hev.locks, heu.locks, het.locks]
      have hne : i ≠ dp := by
        rintro rfl
        exact hdots ((htidy i).dots h)
      have hvpos : 0 < v.ref i := by
        have := hsu.nonneg i
        rw [hev.ref, gainEnt, one_self]
        omega
      obtain ⟨w, hrunw, hsw, hew, hiw⟩ :=
        ilock_run hsv (by rw [hvl, Function.update_of_ne hne, hl]) hvpos (by rw [hvi, hi]; decide)
      have hwi : w.inodes = s.inodes := hiw.trans hvi
      obtain ⟨x, hrunx, hsx, hex, -⟩ := iunlockput_run hsw (i := i) (by rw [hew.locks, Function.update_self])
      have hxl : x.locks dp = true := by
        rw [hex.locks, Function.update_of_ne hne.symm, hew.locks, Function.update_of_ne hne.symm,
          hvl, Function.update_self]
      obtain ⟨y, hruny, -⟩ := iunlockput_run hsx hxl
      have hlink' : ¬ (w.inodes i).nlink < 1 := by
        rw [hwi]
        omega
      have hfull : (w.inodes i).type = .dir ∧ isdirempty (w.inodes i).ents = false := by
        rw [hwi]
        exact ⟨hi, hempty⟩
      refine ⟨y, ?_⟩
      rw [bind_ok_run hrun]
      dsimp only
      rw [unlinkFound, bind_ok_run hrunw, state_bind_run, if_neg hlink', if_pos hfull,
        bind_ok_run hrunx, bind_ok_run hruny]
      rfl

def LinkedBy (c : Config) (s : St) (p : Nat) (old new : Option Path) (b : Bool) (U : Tree) : Prop :=
  match old, new with
  | some old, some new => Linked c s (s.proc p).cwd old new b U
  | _, _ => U = s.inodes

def UnlinkedBy (c : Config) (s : St) (p : Nat) (path : Option Path) (b : Bool) (U : Tree) : Prop :=
  match path with
  | some path => Unlinked c s (s.proc p).cwd path b U
  | none => U = s.inodes

theorem sysLink_ends {old new : Option Path} (hs : Settled s)
    (h : ∀ o n, old = some o → new = some n → ¬ LinkWaits c s (s.proc p).cwd o n) :
    Sat (sysLink c p old new s) Plain fun r =>
      Settled r.2 ∧ Ends s r.2 (!r.1) ∧ LinkedBy c s p old new r.1 r.2.inodes := by
  have hnone : Sat (.ok (false, s) : Except Stop (Bool × St)) Plain fun r => Settled r.2 ∧
    Ends s r.2 (!r.1) ∧ r.2.inodes = s.inodes := by
    obtain ⟨h1, h2⟩ := hs.ends hs.sound ((Eff.refl s).congr (fun _ => rfl) rfl rfl) true
    exact .ok ⟨h1, h2, rfl⟩
  cases old with
  | none => exact hnone
  | some old =>
    cases new with
    | none => exact hnone
    | some new =>
      refine (sysLink_spec hs.sound hs.closed hs.unlocked (fun i h => hs.cwd_pos h)
        fun i name hw hfree hdir hself => ?_).mono (fun _ h => h) ?_
      · exact h old new rfl rfl ⟨i, name, hw, hfree, hdir, hself⟩
      · rintro r ⟨hst, het, hlink⟩
        obtain ⟨h1, h2⟩ := hs.ends hst het !r.1
        exact ⟨h1, h2, hlink⟩

/-- **link**, exactly when it does not wait for itself. -/
theorem sysLink_iff {old new : Option Path} (hs : Settled s) : Sat (sysLink c p old new s) Plain
    (fun r => Ends s r.2 !r.1) ↔
    ∀ o n, old = some o → new = some n → ¬ LinkWaits c s (s.proc p).cwd o n := by
  constructor
  · rintro h o n rfl rfl hw
    exact absurd (h.of_error (sysLink_deadlock hs hw)) (by decide)
  · exact fun h => (sysLink_ends hs h).mono (fun _ h => h) fun _ h => h.2.1

theorem unlinkOp_spec (hs : Sound s) (h0 : s.outstanding = 0) (hl : ∀ i, s.locks i = false)
    (hcwd : ∀ i, cwd = some i → 0 < s.ref i) (htidy : Tidy s.inodes) :
    Sat (unlinkOp c cwd path s) Plain fun r =>
      Sound r.2 ∧ Eff s r.2 0 s.locks 0 ∧ Unlinked c s cwd path r.1 r.2.inodes := by
  obtain ⟨b, hbegin, hsb, heb, hib⟩ := beginOp_run hs h0
  have hlike := heb.like hib
  rw [unlinkOp, bind_ok_run hbegin]
  refine sat_bind (unlink_spec hsb (fun i => by rw [heb.locks, hl])
    (fun i h => by rw [hlike.ref]; exact hcwd i h) (hib ▸ htidy)) ?_
  rintro ok t - ⟨hst, het, hun⟩
  change Sound t at hst
  change Eff b t 0 b.locks 0 at het
  change Unlinked c b cwd path ok t.inodes at hun
  obtain ⟨u, hend, hsu, heu, hiu⟩ := endOp_run hst
  rw [bind_ok_run hend]
  refine .ok ⟨hsu, ((heb.trans het).trans heu).congr (fun j => by simp) (het.locks.trans heb.locks) rfl, ?_⟩
  change Unlinked c s cwd path ok u.inodes
  rw [hiu]
  exact hlike.unlinked hun

theorem unlinkOp_stays (hs : Sound s) (h0 : s.outstanding = 0) (hl : ∀ i, s.locks i = false)
    (hcwd : ∀ i, cwd = some i → 0 < s.ref i) (htidy : Tidy s.inodes)
    (h : Stays c s cwd path) : ∃ t, unlinkOp c cwd path s = .ok (false, t) := by
  obtain ⟨b, hbegin, hsb, heb, hib⟩ := beginOp_run hs h0
  have hlike := heb.like hib
  obtain ⟨t, ht⟩ := unlink_stays hsb (fun i => by rw [heb.locks, hl])
    (fun i h => by rw [hlike.ref]; exact hcwd i h) (hib ▸ htidy) (hlike.stays.2 h)
  exact ⟨_, by rw [unlinkOp, bind_ok_run hbegin, bind_ok_run ht]; rfl⟩

/-- **unlink** -/
theorem sysUnlink_spec {path : Option Path} (hs : Settled s) (htidy : Tidy s.inodes) :
    Sat (sysUnlink c p path s) Plain fun r =>
    Settled r.2 ∧ Ends s r.2 (!r.1) ∧ UnlinkedBy c s p path r.1 r.2.inodes := by
  cases path with
  | none =>
    obtain ⟨h1, h2⟩ := hs.ends hs.sound ((Eff.refl s).congr (fun _ => rfl) rfl rfl) true
    exact .ok ⟨h1, h2, rfl⟩
  | some path =>
    refine (unlinkOp_spec hs.sound hs.closed hs.unlocked (fun i h => hs.cwd_pos (p := p) h) htidy).mono
      (fun _ h => h) ?_
    rintro r ⟨hst, het, hun⟩
    obtain ⟨h1, h2⟩ := hs.ends hst het !r.1
    exact ⟨h1, h2, hun⟩

end

end Dirs
