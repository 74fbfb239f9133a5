import CCppProjects.Fs.Files
import Mathlib.Data.List.TakeWhile
/-
# Swap files

`removeSwapFile` gives the file up before it looks for the name (fs.c:715-760), so a failure of it still costs the
process its file; `createSwapFile` releases what `create` returns without looking at it (fs.c:776-777).

| contract | it holds exactly when |
|---|---|
| `removeSwapFile_spec` | always; the reference is gone on failure too (`removeSwapFile_fails`) |
| `createSwapFile_iff`  | `create` does not return 0 (`Blocked`) |
-/
namespace Dirs

open Fs (Ty NINODE)
open Function (update)
open Prog

variable (c : Config)

/-- The name in `/`, as `skipelem` stores it. -/
def swapName (pid : Nat) : Name := (".swap".toList ++ Nat.toDigits 10 pid).take DIRSIZ

/-- `create` of a file returns 0: no parent directory, or something else under the name. -/
def Blocked (s : St) (cwd : Option Nat) (path : Path) : Prop :=
  walkFrom c s cwd path true = some none ∨
    ∃ dp name off i, walkFrom c s cwd path true = some (some (dp, name)) ∧
    lookup (s.inodes dp).ents name = some (off, i) ∧
      ¬ (s.addRef dp).full c i ∧ (s.inodes i).type ≠ .free ∧ (s.inodes i).type ≠ .file

/-- What `removeSwapFile` comes to. -/
inductive Removed (c : Config) (s : St) (p : Nat) : Bool → St → Prop
  | none (hf : (s.proc p).swapFile = none) : Removed c s p false s
  | closed (f : Nat) (t u : St) (b : Bool) (hf : (s.proc p).swapFile = some f) (hrun : fileclose f s = .ok (⟨⟩, t))
    (hu : Unlinked c t (s.proc p).cwd (swapPath (s.proc p).pid) b u.inodes)
    (href : ∀ i, u.ref i = t.ref i) : Removed c s p b u

section

variable {c} {s t u : St} {i f p dp off : Nat} {name : Name} {cwd : Option Nat} {path : Path}

theorem Like.blocked (h : Like s t) : Blocked c t cwd path ↔ Blocked c s cwd path := by
  simp only [Blocked, h.walkFrom, h.inodes, h.full_addRef]

/-! ## The name -/

theorem elems_single {nm : List Char} (hne : nm ≠ []) (hno : ∀ ch ∈ nm, ch ≠ '/') :
    elems ('/' :: nm) = [nm.take DIRSIZ] := by
  have hdrop : ('/' :: nm).dropWhile (· == '/') = nm := by
    rw [List.dropWhile_cons, if_pos (by decide)]
    obtain ⟨ch, rest, rfl⟩ := List.exists_cons_of_ne_nil hne
    have : ¬ (ch == '/') = true := by simpa using hno ch (by simp)
    rw [List.dropWhile_cons, if_neg this]
  have htake : nm.takeWhile (· != '/') = nm := List.takeWhile_eq_self_iff.2 fun ch h => by simpa using hno ch h
  have hrest : nm.dropWhile (· != '/') = [] := List.dropWhile_eq_nil_iff.2 fun ch h => by simpa using hno ch h
  have hskip : skipelem ('/' :: nm) = some (nm.take DIRSIZ, []) := by
    simp only [skipelem, hdrop, if_neg hne, htake, hrest, List.dropWhile_nil]
  have hend : ∀ n, elemsLoop n [] = [] := fun n => by cases n <;> rfl
  rw [elems, List.length_cons, elemsLoop, hskip]
  simp only [hend]

theorem elems_swapPath (pid : Nat) : elems (swapPath pid) = [swapName pid] := by
  refine elems_single (by simp : ".swap".toList ++ Nat.toDigits 10 pid ≠ []) fun ch hch => ?_
  rcases List.mem_append.1 hch with h | h
  · rintro rfl
    exact absurd h (by decide)
  · have := Nat.isDigit_of_mem_toDigits (by decide) (by decide) h
    rintro rfl
    exact absurd this (by decide)

/-- The walk to the parent of a swap file ends in `/`. -/
theorem walkFrom_swapPath (pid : Nat) : walkFrom c s cwd (swapPath pid) true =
    if s.full c ROOTINO then none else if (s.inodes ROOTINO).type = .free then none
    else if (s.inodes ROOTINO).type ≠ .dir then some none else some (some (ROOTINO, swapName pid)) := by
  have habs : (swapPath pid).head? = some '/' := rfl
  unfold walkFrom
  rw [if_pos habs, elems_swapPath]
  simp only [walk, and_self, if_true]

/-! ## Giving up a swap file -/

/-- What is known once the file is closed. -/
theorem closed_spec (hs : Settled s) (htidy : Tidy s.inodes) (hrun : fileclose f s = .ok (⟨⟩, t)) :
    Settled t ∧ Tidy t.inodes ∧ Moved s t 0 s.locks 0 ∧ t.procs = s.procs ∧ Puts s.inodes t.inodes ∧
      ∀ i, (s.proc p).cwd = some i → 0 < t.ref i := by
  obtain ⟨hset, hmt, hproc, hputs⟩ := (fileclose_spec hs).of_ok hrun
  refine ⟨hset, htidy.puts hputs, hmt, hproc, hputs, fun i hi => hset.cwd_pos (p := p) ?_⟩
  change t.procs = s.procs at hproc
  rw [St.proc, hproc]
  exact hi

theorem removeSwapFile_spec (hs : Settled s) (htidy : Tidy s.inodes) : Sat (removeSwapFile c p s) Plain fun r =>
    Settled r.2 ∧ Moved s r.2 0 s.locks 0 ∧ r.2.procs = s.procs ∧ Removed c s p r.1 r.2 := by
  unfold removeSwapFile
  rw [state_bind_run]
  cases hf : (s.proc p).swapFile with
  | none => exact .ok ⟨hs, ((Eff.refl s).congr (fun _ => rfl) rfl rfl).moved, rfl, .none hf⟩
  | some f =>
    refine sat_bind (fileclose_spec hs) ?_
    rintro ⟨⟩ t hrun -
    obtain ⟨hset, htidyt, hmt, hproc, -, hcwd⟩ := closed_spec (p := p) hs htidy hrun
    refine (unlinkOp_spec hset.sound hset.closed hset.unlocked hcwd htidyt).mono (fun _ h => h) ?_
    rintro ⟨b, u⟩ ⟨hsu, heu, hun⟩
    exact ⟨hset.of_moved hsu (heu.idle hset.idle) heu.moved, (hmt.trans heu.moved).congr
      (fun j => by simp) hmt.locks rfl,
      heu.procs.trans hproc, .closed f t u b hf hrun hun fun i => by rw [heu.ref, Pi.zero_apply, Int.add_zero]⟩

theorem Unlinked.of_false {U : Tree} (h : Unlinked c s cwd path false U) : U = s.inodes := by
  cases h with
  | stays _ => rfl

theorem Unlinked.stays_of_false {U : Tree} (h : Unlinked c s cwd path false U) : Stays c s cwd path := by
  cases h with
  | stays h => exact h

/-- The file is closed, the name cannot be taken away. -/
theorem removeSwapFile_fails (hs : Settled s) (htidy : Tidy s.inodes) (hf : (s.proc p).swapFile = some f)
    (hrun : fileclose f s = .ok (⟨⟩, t))
    (hstays : Stays c t (s.proc p).cwd (swapPath (s.proc p).pid)) :
    ∃ u, removeSwapFile c p s = .ok (false, u) ∧ Like t u := by
  obtain ⟨hset, htidyt, -, -, -, hcwd⟩ := closed_spec (p := p) hs htidy hrun
  obtain ⟨u, hu⟩ := unlinkOp_stays hset.sound hset.closed hset.unlocked hcwd htidyt hstays
  obtain ⟨-, heu, hun⟩ := (unlinkOp_spec hset.sound hset.closed hset.unlocked hcwd htidyt).of_ok hu
  refine ⟨u, ?_, heu.like hun.of_false⟩
  unfold removeSwapFile
  rw [state_bind_run, hf]
  dsimp only
  rw [bind_ok_run hrun]
  exact hu

/-! ## Making one -/

/-- The process has a new file for its swap file. -/
theorem holds_newFile {pr : Proc} {ff : File} (hcwd : pr.cwd = (s.proc p).cwd)
    (hslot : s.ftable[f]? = some { ref := 1, ip := none })
    (hff : ff = { ref := 1, ip := some i }) (j : Nat) :
    ((s.setProc p pr).setFile f ff).holds j = s.holds j + one i j := by
  rw [holds_setFile (s := s.setProc p pr) hslot, holds_setProc hcwd, hff]
  by_cases h : j = i
  · subst h
    simp [File.holds, one]
  · have hne : (some i == some j) = false := by simpa using Ne.symm h
    simp [File.holds, one, h, hne]

theorem createSwapFile_spec (hs : Settled s) (hfree : ¬ Blocked c s (s.proc p).cwd (swapPath (s.proc p).pid)) :
    Sat (createSwapFile c p s) Plain fun r => Settled r.2 ∧ Moved s r.2 0 s.locks 0 ∧
      Made c s (s.proc p).cwd (swapPath (s.proc p).pid) .file r.2.inodes := by
  unfold createSwapFile
  simp only [state_bind_run]
  obtain ⟨b, hbegin, hsb, heb, hib⟩ := beginOp_run hs.sound hs.closed
  have hlike := heb.like hib
  rw [bind_ok_run hbegin]
  have hbcwd : ∀ i, (s.proc p).cwd = some i → 0 < b.ref i := fun i h => by rw [hlike.ref]; exact hs.cwd_pos h
  have hbl : ∀ i, b.locks i = false := fun i => by rw [heb.locks, hs.unlocked]
  have hfile : Ty.file ≠ .free := by decide
  refine sat_bind (((create_spec hsb hbl hbcwd hfile).and (Opened.spec hsb hbl hbcwd hfile)).mono
    (fun _ h => h.1) fun _ h => h) ?_
  rintro r t - ⟨⟨-, hc⟩, ⟨hst, hmade, het⟩⟩
  change Created c b _ _ _ r t at hc
  change Sound t at hst
  change Eff b t (r.elim 0 one) (r.elim b.locks fun i => update b.locks i true) 0 at het
  cases r with
  | none =>
    -- `create` returns 0 only where the name is taken or has no directory
    refine absurd (hlike.blocked.1 ?_) hfree
    cases hc with
    | noParent _ hw => exact .inl hw
    | taken _ dp name off i hw hlook hroom hi htype =>
      exact .inr ⟨dp, name, off, i, hw, hlook, hroom, hi, fun h => htype ⟨rfl, h⟩⟩
  | some ip =>
    have hbt : Eff s t (one ip) (update s.locks ip true) 1 :=
      (heb.trans het).congr (fun j => by simp) (by rw [heb.locks]; rfl) rfl
    have hlt : t.locks ip = true := by rw [hbt.locks, Function.update_self]
    obtain ⟨u, hunlock, hsu, heu, hiu⟩ := iunlock_run hst hlt
    have hsu' : Eff s u (one ip) s.locks 1 := (hbt.trans heu).congr (fun j => by simp) (by
      rw [hbt.locks, Function.update_idem]
      exact (Function.update_eq_self_iff ..).2 (hs.unlocked ip).symm) rfl
    have hidle : Idle u := hsu'.idle hs.idle
    dsimp only
    rw [bind_ok_run hunlock]
    rcases filealloc_spec hidle with hfull | ⟨f, v, hfile, hv⟩
    · rw [bind_ok_run hfull]
      exact .error (by decide)
    rw [bind_ok_run hfile]
    dsimp only
    rw [bind_run, change_run, ok_bind]
    have hprocs : v.procs = s.procs := hv.procs.trans hsu'.procs
    have hproc : v.proc p = s.proc p := by rw [St.proc, St.proc, hprocs]
    have hslot' : v.file f = { ref := 1, ip := none } := St.file_eq hv.slot
    have hsame : Same v ((v.setProc p { v.proc p with swapFile := some f }).setFile f
      { v.file f with ip := some ip }) :=
      (Same.setProc ..).trans (.setFile ..)
    have hgive : Moved v _ (-one ip) v.locks 0 := hsame.moved fun i => by
      rw [holds_newFile (i := ip) (show ({ v.proc p with swapFile := some f } : Proc).cwd =
        (v.proc p).cwd from rfl) hv.slot (by rw [hslot'])]
      simp only [Pi.neg_apply]
      omega
    have hidle' : Idle ((v.setProc p { v.proc p with swapFile := some f }).setFile f { v.file f with ip := some ip }) :=
      Idle.setFile (s := v.setProc p { v.proc p with swapFile := some f }) hv.idle fun h => by
        rw [hslot'] at h
        cases h
    have hset := hsame.sound (hv.same.sound hsu)
    generalize (v.setProc p { v.proc p with swapFile := some f }).setFile f
      { v.file f with ip := some ip } = w at hsame hgive hidle' hset ⊢
    obtain ⟨x, hend, hsx, hex, hix⟩ := endOp_run hset
    have huv : Moved u v 0 u.locks 0 := hv.same.moved fun i => by rw [hv.holds, Pi.zero_apply, Int.sub_self]
    have hall : Moved s x 0 s.locks 0 := (((hsu'.moved.trans huv).trans hgive).trans hex.moved).congr (fun j => by simp)
      (by rw [hgive.locks, huv.locks, hsu'.locks]) rfl
    rw [hend]
    refine .ok ⟨hs.of_moved hsx (hex.idle hidle') hall, hall, ?_⟩
    change Made c s _ _ _ x.inodes
    rw [hix, hsame.inodes, hv.same.inodes, hiu]
    exact hlike.made hmade

/-- Where `create` returns 0, so does it in a run. -/
theorem create_blocked (hs : Sound s) (hl : ∀ i, s.locks i = false)
    (hcwd : ∀ i, cwd = some i → 0 < s.ref i) (h : Blocked c s cwd path) :
    ∃ t, create c cwd path .file s = .ok (none, t) := by
  rcases h with hw | ⟨dp, name, off, i, hw, hlook, hroom, hfree, hfile⟩
  · obtain ⟨t, hnamex, -⟩ := namex_run hs hl hcwd hw
    exact ⟨t, by rw [create, bind_ok_run hnamex]; rfl⟩
  obtain ⟨t, hnamex, hst, het, hit⟩ := namex_run hs hl hcwd hw
  have hdir := walkFrom_parent_dir hw
  have hpos : 0 < t.ref dp := by
    have := hs.nonneg dp
    rw [het.ref, gain, one_self]
    omega
  obtain ⟨u, hlock, hsu, heu, hiu⟩ := ilock_run hst (by rw [het.locks, hl]) hpos (by rw [hit, hdir]; decide)
  have hui : u.inodes = s.inodes := hiu.trans hit
  have huref : ∀ j, u.ref j = s.ref j + one dp j := fun j => by rw [heu.ref, het.ref, gain, Pi.zero_apply, Int.add_zero]
  have hfound : Sat (dirlookup c dp name u) _ _ := dirlookup_spec name hsu (by rw [hui, hdir])
  rw [create, bind_ok_run hnamex]
  dsimp only
  rw [bind_ok_run hlock]
  cases hrun : dirlookup c dp name u with
  | error e =>
    obtain ⟨-, off', j, hj, hfull⟩ := hfound.of_error hrun
    obtain ⟨rfl, rfl⟩ : off = off' ∧ i = j := by rw [hui, hlook] at hj; simpa using hj
    exact absurd ((full_congr fun k => by rw [huref, addRef_ref]).1 hfull) hroom
  | ok r =>
    obtain ⟨r, v⟩ := r
    obtain ⟨hr, hsv, hiv, hev, -⟩ := hfound.of_ok hrun
    obtain rfl : r = some (off, i) := by rw [hui, hlook] at hr; exact hr
    have hvi : v.inodes = s.inodes := hiv.trans hui
    have hvref : ∀ j, v.ref j = s.ref j + one dp j + one i j := fun j => by rw [hev.ref, huref, gainEnt]
    have hvl : v.locks = update s.locks dp true := by rw [hev.locks, heu.locks, het.locks]
    obtain ⟨w, hrunw, hsw, hew, hput⟩ := iunlockput_run (i := dp) hsv (by rw [hvl, Function.update_self])
    have hwi : w.inodes = s.inodes := by
      cases hput with
      | kept h _ => exact h.trans hvi
      | freed _ h1 h2 h3 =>
        rw [hvi] at h1 h2
        have h0 := (hs.orphans dp h1 h2).1
        have h4 := one_nonneg i dp
        have h5 := hvref dp
        change v.ref dp = 1 at h3
        rw [one_self] at h5
        omega
    have hwl : w.locks i = false := by
      rw [hew.locks, hvl, Function.update_idem]
      by_cases hj : i = dp
      · rw [hj, Function.update_self]
      · rw [Function.update_of_ne hj, hl]
    have hwpos : 0 < w.ref i := by
      have := hs.nonneg i
      rw [hew.ref, hvref, one_self, Pi.neg_apply]
      omega
    obtain ⟨x, hrunx, hsx, hex, hix⟩ := ilock_run hsw hwl hwpos (by rw [hwi]; exact hfree)
    obtain ⟨y, hruny, -⟩ := iunlockput_run (i := i) hsx (by rw [hex.locks, Function.update_self])
    have hno : ¬ (Ty.file = .file ∧ (x.inodes i).type = .file) := by
      rw [hix, hwi]
      exact fun h => hfile h.2
    refine ⟨y, ?_⟩
    rw [bind_ok_run hrun]
    dsimp only
    rw [reopen, bind_ok_run hrunw, bind_ok_run hrunx, state_bind_run, if_neg hno, bind_ok_run hruny]
    rfl

theorem createSwapFile_blocked (hs : Settled s) (h : Blocked c s (s.proc p).cwd (swapPath (s.proc p).pid)) :
    createSwapFile c p s = .error .iunlock := by
  obtain ⟨b, hbegin, hsb, heb, hib⟩ := beginOp_run hs.sound hs.closed
  have hlike := heb.like hib
  obtain ⟨t, ht⟩ := create_blocked hsb (fun i => by rw [heb.locks, hs.unlocked])
    (fun i h => by rw [hlike.ref]; exact hs.cwd_pos (p := p) h)
    (hlike.blocked.2 h)
  unfold createSwapFile
  simp only [state_bind_run]
  rw [bind_ok_run hbegin, bind_ok_run ht]
  rfl

/-- **createSwapFile**, exactly where its name is free or a file's. -/
theorem createSwapFile_iff (hs : Settled s) : Sat (createSwapFile c p s) Plain (fun r => Ends s r.2 false) ↔
    ¬ Blocked c s (s.proc p).cwd (swapPath (s.proc p).pid) := by
  constructor
  · intro h hb
    exact absurd (h.of_error (createSwapFile_blocked hs hb)) (by decide)
  · intro h
    refine (createSwapFile_spec hs h).mono (fun _ h => h) ?_
    rintro r ⟨-, hm, -⟩
    exact ⟨hm, fun h => by cases h⟩

/-- What makes a failed `removeSwapFile` cost a reference. -/
def LosesFile (c : Config) (s : St) (p : Nat) : Prop :=
  ∃ f t, (s.proc p).swapFile = some f ∧ fileclose f s = .ok (⟨⟩, t) ∧
    Stays c t (s.proc p).cwd (swapPath (s.proc p).pid) ∧
    ∃ i, t.ref i ≠ s.ref i

/-- **removeSwapFile** gives nothing up on failure exactly where the file was not the last to have its inode. -/
theorem removeSwapFile_iff (hs : Settled s) (htidy : Tidy s.inodes) : Sat (removeSwapFile c p s) Plain
    (fun r => Ends s r.2 !r.1) ↔
    ¬ LosesFile c s p := by
  constructor
  · rintro h ⟨f, t, hf, hrun, hstays, i, hi⟩
    obtain ⟨u, hu, hlike⟩ := removeSwapFile_fails hs htidy hf hrun hstays
    have := (h.of_ok hu).failed rfl i
    rw [hlike.ref] at this
    exact hi this
  · intro h
    refine (removeSwapFile_spec hs htidy).mono (fun _ h => h) ?_
    rintro ⟨b, u⟩ ⟨-, hm, -, hr⟩
    refine ⟨hm, fun hb i => ?_⟩
    change (!b) = true at hb
    change Removed c s p b u at hr
    obtain rfl : b = false := by simpa using hb
    rcases hr with - | ⟨f, t, _, _, hf, hrun, hun, href⟩
    · rfl
    · by_contra hi
      exact h ⟨f, t, hf, hrun, hun.stays_of_false, i, fun he => hi ((href i).trans he)⟩

end

end Dirs
