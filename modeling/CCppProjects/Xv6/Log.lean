import CCppProjects.Lib.Redo
import CCppProjects.Lib.Run
import Mathlib.Algebra.Ring.Nat
/-
# The log and crashes (log.c)

One step of `tick` is one block write of `commit` or of `recover_from_log`, and a crash may come between
any two. Each write is atomic.

| here | there |
|---|---|
| `Sys.disk` | the blocks of the device |
| `Sys.mem` | buffers that are B_DIRTY: pinned in the cache with data that is not on disk |
| `Sys.lh` | `log.lh`: the block numbers 0..n-1 |
| `Pc` | the function that writes next, with its `tail` |
| `Hist` | what the claim speaks of: the groups whose commit has begun, and how many have returned |
-/
namespace Xv6.Log

open Lts

/-- A block as the 32-bit words in it. -/
abbrev Block := Nat → Nat

abbrev Disk := Nat → Block

/-- param.h:10-11. -/
def MAXOPBLOCKS : Nat := 10
def LOGSIZE : Nat := MAXOPBLOCKS * 3

/-- `log.start` and `log.size`: the header block and `size - 1` data blocks after it. -/
structure Layout where
  start : Nat
  size : Nat
  deriving DecidableEq, Repr

variable (L : Layout)

/-- A block that is not part of the log. -/
def Home (b : Nat) : Prop := b < L.start ∨ L.start + L.size ≤ b

instance (b : Nat) : Decidable (Home L b) := inferInstanceAs (Decidable (_ ∨ _))

/-- What writes next: `write_log` block `tail` or, at its end, the header; `install_trans` block `tail` or, at
its end, the empty header. `boot` is `recover_from_log` before `read_head`. -/
inductive Pc
  | idle
  | writeLog (tail : Nat)
  | install (tail : Nat)
  | boot
  deriving DecidableEq, Repr

structure Sys where
  disk : Disk
  mem : Nat → Option Block
  lh : List Nat
  pc : Pc

/-- A modified block handed to `log_write`. -/
abbrev Group := List (Nat × Block)

/-! ## The functions of log.c -/

/-- `bread`: the pinned buffer or the block on disk. -/
def Sys.bread (s : Sys) (b : Nat) : Block := (s.mem b).getD (s.disk b)

/-- `iderw` of a buffer with this data: the disk has it and the buffer is no longer dirty. -/
def Sys.bwrite (s : Sys) (b : Nat) (v : Block) : Sys :=
  { s with disk := Function.update s.disk b v, mem := Function.update s.mem b none }

/-- `n` of a header as an `int`: no loop runs for a negative one. -/
def headCount (w : Nat) : Nat := if w < 2 ^ 31 then w else 0

/-- `read_head`, log.c:84-95. -/
def readHead (d : Disk) : List Nat := (List.range (headCount (d L.start 0))).map fun i => d L.start (i + 1)

/-- `write_head`'s change of the header block, log.c:102-108: the words behind the list stay. -/
def headBlock (lh : List Nat) (old : Block) : Block := fun w =>
  if w = 0 then lh.length else match lh[w - 1]? with
    | some b => b
    | none => old w

/-- The next block write of `commit` or `recover_from_log` (log.c:68-122, 176-202). -/
def Sys.tick (s : Sys) : Sys :=
  match s.pc with
  | .idle => s
  | .boot => { s with lh := readHead L s.disk, pc := .install 0 }
  | .writeLog tail => match s.lh[tail]? with
    | some b => { s.bwrite (L.start + tail + 1) (s.bread b) with pc := .writeLog (tail + 1) }
    | none => { s.bwrite L.start (headBlock s.lh (s.bread L.start)) with pc := .install 0 }
  | .install tail => match s.lh[tail]? with
    | some b => { s.bwrite b (s.bread (L.start + tail + 1)) with pc := .install (tail + 1) }
    | none => { s.bwrite L.start (headBlock [] (s.bread L.start)) with lh := [], pc := .idle }

/-- `log_write` does not panic with "too big a transaction" (log.c:217). -/
def Sys.fits (s : Sys) : Prop := s.lh.length < LOGSIZE ∧ s.lh.length < L.size - 1

instance (s : Sys) : Decidable (s.fits L) := inferInstanceAs (Decidable (_ ∧ _))

/-- A buffer modified to `v` and given to `log_write`: pinned, and listed once. -/
def Sys.logWrite (s : Sys) (b : Nat) (v : Block) : Sys :=
  { s with mem := Function.update s.mem b (some v), lh := if b ∈ s.lh then s.lh else s.lh ++ [b] }

/-- The entry of `commit`, log.c:194. -/
def Sys.commit (s : Sys) : Sys := if 0 < s.lh.length then { s with pc := .writeLog 0 } else s

/-- Power is lost: memory is gone and the next boot starts in `recover_from_log`. -/
def Sys.crash (s : Sys) : Sys := { disk := s.disk, mem := fun _ => none, lh := [], pc := .boot }

/-! ## Runs with their history -/

/-- What a store of groups should hold. -/
structure Hist where
  /-- The home blocks at the last completed recovery. -/
  base : Disk
  /-- Groups whose commit has begun since, in order. -/
  groups : List Group
  /-- How many of them have returned from `commit`. -/
  returned : Nat
  /-- The group being written. -/
  cur : Group
  /-- Between a crash and the end of `recover_from_log`. -/
  down : Bool

inductive Label
  | log (b : Nat) (v : Block)
  | commit
  | tick
  | crash

/-- One step, or nothing where the program does not do it. -/
def next (x : Sys × Hist) : Label → Option (Sys × Hist)
  | .log b v =>
    if x.1.pc = .idle ∧ x.1.fits L then some (x.1.logWrite b v, { x.2 with cur := x.2.cur ++ [(b, v)] }) else none
  | .commit =>
    if x.1.pc = .idle then
      let groups := x.2.groups ++ [x.2.cur]
      some (x.1.commit, { x.2 with groups, cur := [], returned := if x.1.lh = [] then groups.length else x.2.returned })
    else none
  | .tick =>
    if x.1.pc = .idle then none
    else
      let s := x.1.tick L
      some (s, if s.pc = .idle then
          if x.2.down then { base := s.disk, groups := [], returned := 0, cur := [], down := false }
          else { x.2 with returned := x.2.groups.length }
        else x.2)
  | .crash => some (x.1.crash, { x.2 with cur := [], down := true })

def Step (x : Sys × Hist) (l : Label) (y : Sys × Hist) : Prop := next L x l = some y

/-- `log_write` is given a block outside the log; it does not look. -/
def Label.Home : Label → Prop
  | .log b _ => Log.Home L b
  | _ => True

/-- The machine before its first boot. -/
def image (d base : Disk) : Sys × Hist :=
  ({ disk := d, mem := fun _ => none, lh := [], pc := .boot },
   { base, groups := [], returned := 0, cur := [], down := true })

/-- The groups applied one after the other. -/
def applyGroups (gs : List Group) (d : Disk) : Disk := Redo.apply gs.flatten d

/-- The pairs a header on disk stands for. -/
def pairs (d : Disk) (lh : List Nat) : List (Nat × Block) := lh.zipIdx.map fun (b, i) => (b, d (L.start + i + 1))

/-- What the home blocks hold once the log is read into them. -/
def logical (d : Disk) : Disk := Redo.apply (pairs L d (readHead L d)) d

/-- A header the log could have written: no more blocks than fit, all of them home blocks. -/
structure Valid (lh : List Nat) : Prop where
  length : lh.length ≤ LOGSIZE ∧ lh.length < L.size
  home : ∀ b ∈ lh, Home L b

/-- In runs of such steps crashes are atomic from `base` on: whenever the last write of a recovery is done, the home
blocks hold a prefix of the groups, with every group whose commit had returned. -/
def Atomic (P : Label → Prop) (base d : Disk) : Prop :=
  ∀ ls x, Run (Step L) (image d base) ls x → (∀ l ∈ ls, P l) → x.2.down = true → x.1.pc = .install x.1.lh.length →
    ∃ k, x.2.returned ≤ k ∧ k ≤ x.2.groups.length ∧
      ∀ b, Home L b → (x.1.tick L).disk b = applyGroups (x.2.groups.take k) x.2.base b

/-! ## Blocks and headers -/

section Blocks

variable {L} {d : Disk} {lh : List Nat} {b x : Nat} {v : Block}

theorem not_home_start (h : 0 < L.size) : ¬ Home L L.start := by
  unfold Home
  omega

theorem not_home_log {i : Nat} (h : i + 1 < L.size) : ¬ Home L (L.start + i + 1) := by
  unfold Home
  omega

theorem home_ne (hx : Home L x) (hb : ¬ Home L b) : x ≠ b := fun h => hb (h ▸ hx)

theorem readHead_update (h : b ≠ L.start) : readHead L (Function.update d b v) = readHead L d := by
  simp only [readHead, Function.update_of_ne (Ne.symm h)]

/-- The header that was written is the one that is read. -/
theorem readHead_headBlock {old : Block} (h : lh.length ≤ LOGSIZE) :
    readHead L (Function.update d L.start (headBlock lh old)) = lh := by
  have hcount : headCount (headBlock lh old 0) = lh.length := by
    have : lh.length < 2 ^ 31 := by
      unfold LOGSIZE MAXOPBLOCKS at h
      omega
    simp only [headBlock, headCount, if_true, if_pos this]
  rw [readHead, Function.update_self, hcount]
  apply List.ext_getElem?
  intro i
  by_cases hi : i < lh.length
  · simp [hi, headBlock]
  · simp [hi]

theorem pairs_keys : (pairs L d lh).map Prod.fst = lh := by
  simp [pairs, List.map_map, Function.comp_def]

theorem mem_pairs {w : Nat × Block} : w ∈ pairs L d lh ↔ ∃ i, lh[i]? = some w.1 ∧ w.2 = d (L.start + i + 1) := by
  simp only [pairs, List.mem_map, List.mem_zipIdx_iff_getElem?]
  constructor
  · rintro ⟨⟨c, i⟩, hi, rfl⟩
    exact ⟨i, hi, rfl⟩
  · rintro ⟨i, hi, hv⟩
    exact ⟨(w.1, i), hi, by rw [← hv]⟩

/-- The pairs change only with a data block of the log. -/
theorem pairs_congr {e : Disk} (h : ∀ i, i < lh.length → d (L.start + i + 1) = e (L.start + i + 1)) :
    pairs L d lh = pairs L e lh := by
  refine List.map_congr_left fun ⟨c, i⟩ hi => ?_
  have hlt := (List.getElem?_eq_some_iff.1 (List.mem_zipIdx_iff_getElem?.1 hi)).1
  simp only [h i hlt]

theorem pairs_update (h : lh.length < L.size) (hb : Home L b ∨ b = L.start) :
    pairs L (Function.update d b v) lh = pairs L d lh := by
  refine pairs_congr fun i hi => Function.update_of_ne ?_ ..
  rcases hb with hb | hb
  · exact (home_ne hb (not_home_log (by omega))).symm
  · omega

theorem pairs_split {t : Nat} (ht : lh[t]? = some b) :
    ∃ as bs, pairs L d lh = as ++ (b, d (L.start + t + 1)) :: bs ∧ bs.map Prod.fst = lh.drop (t + 1) := by
  have hlt := (List.getElem?_eq_some_iff.1 ht).1
  have hget : (pairs L d lh)[t]? = some (b, d (L.start + t + 1)) := by
    simp [pairs, List.getElem?_zipIdx, ht]
  have hlt' := (List.getElem?_eq_some_iff.1 hget).1
  refine ⟨(pairs L d lh).take t, (pairs L d lh).drop (t + 1), ?_, ?_⟩
  · conv_lhs => rw [← List.take_append_drop t (pairs L d lh), List.drop_eq_getElem_cons hlt']
    rw [(List.getElem?_eq_some_iff.1 hget).2]
  · rw [List.map_drop, pairs_keys]

theorem logical_of_empty (h : readHead L d = []) : logical L d = d := by
  rw [logical, h]
  rfl

theorem applyGroups_append (gs : List Group) (g : Group) (d : Disk) :
    applyGroups (gs ++ [g]) d = Redo.apply g (applyGroups gs d) := by
  simp [applyGroups, Redo.apply_append]

end Blocks

/-! ## The invariant -/

/-- The cache holds group `g` over the disk. -/
structure Open (s : Sys) (g : Group) : Prop where
  valid : Valid L s.lh
  cached : ∀ b, Home L b → s.bread b = Redo.apply g s.disk b
  listed : ∀ b, b ∈ s.lh ↔ b ∈ g.map Prod.fst
  pinned : ∀ b, b ∉ s.lh → s.mem b = none

/-- The home blocks of `d` hold the first `k` groups. -/
def Holds (d : Disk) (h : Hist) (k : Nat) : Prop := ∀ b, Home L b → d b = applyGroups (h.groups.take k) h.base b

/-- What a recovery from this disk would give: a prefix with every group that has returned. -/
def Durable (d : Disk) (h : Hist) : Prop :=
  ∃ k, h.returned ≤ k ∧ k ≤ h.groups.length ∧ Holds L (logical L d) h k

structure Idle (s : Sys) (h : Hist) : Prop where
  up : h.down = false
  clean : readHead L s.disk = []
  returned : h.returned = h.groups.length
  holds : Holds L s.disk h h.groups.length
  opened : Open L s h.cur

/-- Before the header is written: the last group is in the cache and, up to `tail`, in the log. -/
structure WriteLog (s : Sys) (h : Hist) (tail : Nat) : Prop where
  up : h.down = false
  clean : readHead L s.disk = []
  last : ∃ gs g, h.groups = gs ++ [g] ∧ h.returned = gs.length ∧ Holds L s.disk h gs.length ∧ Open L s g
  le : tail ≤ s.lh.length
  logged : ∀ i b, i < tail → s.lh[i]? = some b → s.disk (L.start + i + 1) = s.bread b
  cur : h.cur = []

/-- The header is written: a home block that has nothing to come holds what it should. -/
structure Install (s : Sys) (h : Hist) (tail : Nat) : Prop where
  head : readHead L s.disk = s.lh
  valid : Valid L s.lh
  durable : Durable L s.disk h
  whole : h.down = false → Holds L (logical L s.disk) h h.groups.length
  installed : ∀ b, Home L b → b ∉ s.lh.drop tail → s.disk b = logical L s.disk b
  pinned : ∀ b, b ∉ s.lh.drop tail → s.mem b = none
  cur : h.cur = []

structure Boot (s : Sys) (h : Hist) : Prop where
  down : h.down = true
  valid : Valid L (readHead L s.disk)
  durable : Durable L s.disk h
  mem : ∀ b, s.mem b = none
  cur : h.cur = []

def Inv (x : Sys × Hist) : Prop :=
  match x.1.pc with
  | .idle => Idle L x.1 x.2
  | .writeLog tail => WriteLog L x.1 x.2 tail
  | .install tail => Install L x.1 x.2 tail
  | .boot => Boot L x.1 x.2

section Steps

variable {L} {s : Sys} {h : Hist} {b x tail : Nat} {v : Block} {g : Group}

theorem valid_nil (hsize : 0 < L.size) : Valid L [] := ⟨⟨by simp, by simpa⟩, by simp⟩

theorem Valid.pos {lh : List Nat} (hv : Valid L lh) : 0 < L.size := by
  have := hv.length
  omega

/-- A write outside the home blocks and the list leaves the open group as it is. -/
theorem Open.bwrite (ho : Open L s g) (hb : ¬ Home L b) : Open L (s.bwrite b v) g := by
  have hlh : b ∉ s.lh := fun hmem => hb (ho.valid.home b hmem)
  refine ⟨ho.valid, fun x hx => ?_, ho.listed, fun x hx => ?_⟩
  · have hne := home_ne hx hb
    have hbread : (s.bwrite b v).bread x = s.bread x := by
      simp only [Sys.bwrite, Sys.bread, Function.update_of_ne hne]
    rw [hbread, ho.cached x hx]
    apply Redo.apply_congr
    right
    exact (Function.update_of_ne hne ..).symm
  · by_cases hxb : x = b
    · subst hxb
      exact Function.update_self ..
    · simp only [Sys.bwrite, Function.update_of_ne hxb]
      exact ho.pinned x hx

theorem Open.logWrite (ho : Open L s g) (hfit : s.fits L) (hb : Home L b) :
    Open L (s.logWrite b v) (g ++ [(b, v)]) := by
  obtain ⟨h1, h2⟩ := hfit
  refine ⟨?_, fun x hx => ?_, fun x => ?_, fun x hx => ?_⟩
  · unfold Sys.logWrite
    dsimp only
    split
    · exact ho.valid
    · refine ⟨?_, ?_⟩
      · simp only [List.length_append, List.length_singleton]
        omega
      · simpa [or_imp, forall_and] using ⟨ho.valid.home, hb⟩
  · by_cases hxb : x = b
    · subst hxb
      simp [Sys.logWrite, Sys.bread, Redo.apply_append]
    · have := ho.cached x hx
      simp only [Sys.bread] at this
      simp [Sys.logWrite, Sys.bread, Redo.apply_append, Function.update_of_ne hxb, this]
  · simp only [Sys.logWrite]
    split
    · next hmem =>
      rw [List.map_append, List.mem_append, ← ho.listed]
      constructor
      · exact .inl
      · rintro (hx | hx)
        · exact hx
        · simp only [List.map_cons, List.map_nil, List.mem_singleton] at hx
          exact hx ▸ hmem
    · rw [List.map_append, List.mem_append, List.mem_append, ← ho.listed]
      rfl
  · have hxb : x ≠ b := by
      rintro rfl
      apply hx
      simp only [Sys.logWrite]
      split
      · assumption
      · simp
    simp only [Sys.logWrite, Function.update_of_ne hxb]
    apply ho.pinned
    intro hmem
    apply hx
    simp only [Sys.logWrite]
    split
    · exact hmem
    · exact List.mem_append_left _ hmem

/-! ### write_log -/

theorem WriteLog.next (hi : WriteLog L s h tail) (hb : s.lh[tail]? = some b) :
    WriteLog L { s.bwrite (L.start + tail + 1) (s.bread b) with pc := .writeLog (tail + 1) } h (tail + 1) := by
  obtain ⟨gs, g, hgs, hret, hholds, hopen⟩ := hi.last
  have hlt := (List.getElem?_eq_some_iff.1 hb).1
  have hlen := hopen.valid.length
  have hlog : ¬ Home L (L.start + tail + 1) := not_home_log (by omega)
  have hopen' := hopen.bwrite (v := s.bread b) hlog
  refine ⟨hi.up, (readHead_update (by omega)).trans hi.clean, ⟨gs, g, hgs, hret, fun x hx => ?_, ?_⟩,
    hlt, fun i c hi' hc => ?_, hi.cur⟩
  · exact (Function.update_of_ne (home_ne hx hlog) ..).trans (hholds x hx)
  · exact ⟨hopen'.valid, hopen'.cached, hopen'.listed, hopen'.pinned⟩
  · have hc' : Home L c := hopen.valid.home c (List.mem_of_getElem? hc)
    have hbread : (s.bwrite (L.start + tail + 1) (s.bread b)).bread c = s.bread c := by
      simp only [Sys.bwrite, Sys.bread, Function.update_of_ne (home_ne hc' hlog)]
    change (Function.update s.disk (L.start + tail + 1) (s.bread b)) (L.start + i + 1) = _
    rw [show Sys.bread { s.bwrite (L.start + tail + 1) (s.bread b) with pc := .writeLog (tail + 1) } c =
      s.bread c from hbread]
    by_cases hit : i = tail
    · subst hit
      rw [Function.update_self]
      have hc : s.lh[i]? = some c := hc
      rw [hb, Option.some.injEq] at hc
      rw [hc]
    · rw [Function.update_of_ne (by omega)]
      exact hi.logged i c (by omega) hc

/-- The header is the commit point: with it on disk, the log holds the last group too. -/
theorem WriteLog.commitPoint (hi : WriteLog L s h tail) (hb : s.lh[tail]? = none) :
    Install L { s.bwrite L.start (headBlock s.lh (s.bread L.start)) with pc := .install 0 } h 0 := by
  obtain ⟨gs, g, hgs, hret, hholds, hopen⟩ := hi.last
  have hlen := hopen.valid.length
  have htail : tail = s.lh.length := by
    have h1 := List.getElem?_eq_none_iff.1 hb
    have h2 := hi.le
    omega
  have hstart : ¬ Home L L.start := not_home_start hopen.valid.pos
  have hhead : readHead L (Function.update s.disk L.start (headBlock s.lh (s.bread L.start))) = s.lh :=
    readHead_headBlock hlen.1
  have hpairs := pairs_update (d := s.disk) (v := headBlock s.lh (s.bread L.start)) hlen.2 (.inr rfl)
  -- what the log says is what the group says
  have hlogical : ∀ x, Home L x →
      logical L (Function.update s.disk L.start (headBlock s.lh (s.bread L.start))) x = Redo.apply g s.disk x := by
    intro x hx
    rw [logical, hhead, hpairs]
    by_cases hmem : x ∈ s.lh
    · rw [← hopen.cached x hx]
      refine Redo.apply_of_all (by rwa [pairs_keys]) fun w hw hwx => ?_
      obtain ⟨i, hi', hv⟩ := mem_pairs.1 hw
      have hilt := (List.getElem?_eq_some_iff.1 hi').1
      rw [hv, hi.logged i w.1 (by omega) hi', hwx]
    · rw [Redo.apply_of_not_mem (by rwa [pairs_keys]), Function.update_of_ne (home_ne hx hstart),
        Redo.apply_of_not_mem fun hg => hmem ((hopen.listed x).2 hg)]
  have hwhole : Holds L (logical L (Function.update s.disk L.start (headBlock s.lh (s.bread L.start))))
    h h.groups.length := by
    intro x hx
    rw [List.take_length, hgs, applyGroups_append]
    refine (hlogical x hx).trans (Redo.apply_congr (.inr ?_))
    rw [hholds x hx, hgs, List.take_left]
  refine ⟨hhead, hopen.valid, ⟨h.groups.length, ?_, Nat.le_refl _, hwhole⟩, fun _ => hwhole, fun x hx hmem => ?_,
    fun x hmem => ?_, hi.cur⟩
  · rw [hret, hgs]
    simp
  · refine (Function.update_of_ne (home_ne hx hstart) ..).trans ((Eq.symm ?_).trans (hlogical x hx).symm)
    exact Redo.apply_of_not_mem fun hg => hmem ((hopen.listed x).2 hg)
  · by_cases hxs : x = L.start
    · subst hxs
      exact Function.update_self ..
    · exact (Function.update_of_ne hxs ..).trans (hopen.pinned x hmem)

/-! ### install_trans -/

/-- Installing a block of the log does not change what the log and the disk say together. -/
theorem Install.logical_eq (hi : Install L s h tail) (hb : s.lh[tail]? = some b) :
    logical L (Function.update s.disk b (s.disk (L.start + tail + 1))) = logical L s.disk := by
  have hhome : Home L b := hi.valid.home b (List.mem_of_getElem? hb)
  have hne : b ≠ L.start := home_ne hhome (not_home_start hi.valid.pos)
  rw [logical, readHead_update hne, hi.head, pairs_update hi.valid.length.2 (.inl hhome), logical, hi.head]
  exact Redo.apply_update (w := (b, s.disk (L.start + tail + 1))) (mem_pairs.2 ⟨tail, hb, rfl⟩)

theorem Install.bread_log (hi : Install L s h tail) (hb : s.lh[tail]? = some b) :
    s.bread (L.start + tail + 1) = s.disk (L.start + tail + 1) := by
  have hlt := (List.getElem?_eq_some_iff.1 hb).1
  have hlen := hi.valid.length
  have hlog : ¬ Home L (L.start + tail + 1) := not_home_log (by omega)
  rw [Sys.bread, hi.pinned _ fun hmem => hlog (hi.valid.home _ (List.mem_of_mem_drop hmem))]
  rfl

theorem Install.next (hi : Install L s h tail) (hb : s.lh[tail]? = some b) :
    Install L { s.bwrite b (s.bread (L.start + tail + 1)) with pc := .install (tail + 1) } h (tail + 1) := by
  have hlogical := hi.logical_eq hb
  have hhome : Home L b := hi.valid.home b (List.mem_of_getElem? hb)
  have hne : b ≠ L.start := home_ne hhome (not_home_start hi.valid.pos)
  have hdrop : s.lh.drop tail = b :: s.lh.drop (tail + 1) := by
    obtain ⟨hlt, hget⟩ := List.getElem?_eq_some_iff.1 hb
    rw [List.drop_eq_getElem_cons hlt, hget]
  rw [hi.bread_log hb]
  refine ⟨(readHead_update hne).trans hi.head, hi.valid, ?_, ?_, fun x hx hmem => ?_, fun x hmem => ?_, hi.cur⟩
  · simp only [Sys.bwrite, Durable, hlogical]
    exact hi.durable
  · simp only [Sys.bwrite, hlogical]
    exact hi.whole
  · simp only [Sys.bwrite, hlogical]
    by_cases hxb : x = b
    · -- this was the last pair that names the block
      subst hxb
      obtain ⟨as, bs, hsplit, hbs⟩ := pairs_split (d := s.disk) hb
      rw [Function.update_self, logical, hi.head, hsplit, Redo.apply_of_last (by rwa [hbs])]
    · rw [Function.update_of_ne hxb]
      refine hi.installed x hx ?_
      rw [hdrop, List.mem_cons, not_or]
      exact ⟨hxb, hmem⟩
  · by_cases hxb : x = b
    · subst hxb
      exact Function.update_self ..
    · refine (Function.update_of_ne hxb ..).trans (hi.pinned x ?_)
      rw [hdrop, List.mem_cons, not_or]
      exact ⟨hxb, hmem⟩

/-- With every block installed the disk holds what the log said, and the log can be erased. -/
theorem Install.erase (hi : Install L s h tail) (hb : s.lh[tail]? = none) :
    readHead L (Function.update s.disk L.start (headBlock [] (s.bread L.start))) = [] ∧
    (∀ x, Home L x → Function.update s.disk L.start (headBlock [] (s.bread L.start)) x =
    logical L s.disk x) ∧ ∀ x, s.mem x = none := by
  have hdrop : s.lh.drop tail = [] := List.drop_eq_nil_of_le (List.getElem?_eq_none_iff.1 hb)
  refine ⟨readHead_headBlock (by simp), fun x hx => ?_, fun x => hi.pinned x (by simp [hdrop])⟩
  rw [Function.update_of_ne (home_ne hx (not_home_start hi.valid.pos))]
  exact hi.installed x hx (by simp [hdrop])

/-! ### Every step -/

theorem Idle.commit (hi : Idle L s h) (hpc : s.pc = .idle) : Inv L (s.commit,
    { h with groups := h.groups ++ [h.cur], cur := [], returned := if s.lh =
    [] then (h.groups ++ [h.cur]).length else h.returned }) := by
  by_cases hnil : s.lh = []
  · have hcur : h.cur = [] := by
      have hmap : h.cur.map Prod.fst = [] := List.eq_nil_iff_forall_not_mem.2 fun x hx => by
        simpa [hnil] using (hi.opened.listed x).2 hx
      simpa using hmap
    simp only [Inv, Sys.commit, hnil, List.length_nil, Nat.lt_irrefl, if_false, if_true, hpc]
    refine ⟨hi.up, hi.clean, rfl, fun x hx => ?_, hcur ▸ hi.opened⟩
    rw [List.take_length, hcur, applyGroups_append, hi.holds x hx, List.take_length]
    rfl
  · simp only [Inv, Sys.commit, List.length_pos_iff.2 hnil, if_true, if_neg hnil]
    refine ⟨hi.up, hi.clean, ⟨h.groups, h.cur, rfl, hi.returned, fun x hx => ?_, ?_⟩,
      Nat.zero_le _, fun i c h0 => absurd h0 (by omega), rfl⟩
    · rw [List.take_left]
      exact (hi.holds x hx).trans (by rw [List.take_length])
    · exact ⟨hi.opened.valid, hi.opened.cached, hi.opened.listed, hi.opened.pinned⟩

/-- Whatever was going on, after a crash the disk has a prefix of the groups to recover. -/
theorem Inv.durable {y : Sys × Hist} (hi : Inv L y) : Valid L (readHead L y.1.disk) ∧ Durable L y.1.disk y.2 := by
  obtain ⟨s, h⟩ := y
  unfold Inv at hi
  split at hi
  · refine ⟨hi.clean ▸ valid_nil hi.opened.valid.pos, h.groups.length, Nat.le_of_eq hi.returned, Nat.le_refl _, ?_⟩
    rw [logical_of_empty hi.clean]
    exact hi.holds
  · obtain ⟨gs, g, hgs, hret, hholds, hopen⟩ := hi.last
    have hlen : h.groups.length = gs.length + 1 := by
      rw [show h.groups = gs ++ [g] from hgs]
      simp
    refine ⟨hi.clean ▸ valid_nil hopen.valid.pos, gs.length, Nat.le_of_eq hret, ?_, ?_⟩
    · change gs.length ≤ h.groups.length
      omega
    rw [logical_of_empty hi.clean]
    exact hholds
  · exact ⟨hi.head ▸ hi.valid, hi.durable⟩
  · exact ⟨hi.valid, hi.durable⟩

theorem step_inv {y z : Sys × Hist} {l : Label} (hi : Inv L y) (hl : l.Home L) (hs : Step L y l z) : Inv L z := by
  have hdur := hi.durable
  obtain ⟨s, h⟩ := y
  cases l with
  | log b v =>
    simp only [Step, next] at hs
    split at hs <;> cases hs
    next hcond =>
    obtain ⟨hpc, hfit⟩ := hcond
    have hpc' : (s.logWrite b v).pc = .idle := hpc
    simp only [Inv, hpc] at hi
    simp only [Inv, hpc']
    exact ⟨hi.up, hi.clean, hi.returned, hi.holds, hi.opened.logWrite hfit hl⟩
  | commit =>
    simp only [Step, next] at hs
    split at hs <;> cases hs
    next hpc =>
    simp only [Inv, hpc] at hi
    exact hi.commit hpc
  | tick =>
    simp only [Step, next] at hs
    cases hpc : s.pc with
    | idle => simp [hpc] at hs
    | writeLog tail =>
      simp only [Inv, hpc] at hi
      cases hb : s.lh[tail]? with
      | some b =>
        have htick : s.tick L = { s.bwrite (L.start + tail + 1) (s.bread b) with pc := .writeLog (tail + 1) } := by
          simp only [Sys.tick, hpc, hb]
        simp only [htick, hpc, reduceCtorEq, if_false, Option.some.injEq] at hs
        subst hs
        exact hi.next hb
      | none =>
        have htick : s.tick L = { s.bwrite L.start (headBlock s.lh (s.bread L.start)) with pc := .install 0 } := by
          simp only [Sys.tick, hpc, hb]
        simp only [htick, hpc, reduceCtorEq, if_false, Option.some.injEq] at hs
        subst hs
        exact hi.commitPoint hb
    | install tail =>
      simp only [Inv, hpc] at hi
      cases hb : s.lh[tail]? with
      | some b =>
        have htick : s.tick L = { s.bwrite b (s.bread (L.start + tail + 1)) with pc := .install (tail + 1) } := by
          simp only [Sys.tick, hpc, hb]
        simp only [htick, hpc, reduceCtorEq, if_false, Option.some.injEq] at hs
        subst hs
        exact hi.next hb
      | none =>
        have htick : s.tick L = { s.bwrite L.start (headBlock [] (s.bread L.start)) with lh := [], pc := .idle } := by
          simp only [Sys.tick, hpc, hb]
        simp only [htick, hpc, reduceCtorEq, if_false, if_true, Option.some.injEq] at hs
        subst hs
        obtain ⟨hclean, hdisk, hmem⟩ := hi.erase hb
        have hopen : Open L { s.bwrite L.start (headBlock [] (s.bread L.start)) with lh := [], pc := .idle } [] := by
          have hnone : ∀ x, (s.bwrite L.start (headBlock [] (s.bread L.start))).mem x = none := fun x => by
            simp only [Sys.bwrite, Function.update_apply, hmem, ite_self]
          refine ⟨valid_nil hi.valid.pos, fun x _ => ?_, by simp, fun x _ => hnone x⟩
          change ((s.bwrite L.start (headBlock [] (s.bread L.start))).mem x).getD _ = _
          rw [hnone]
          rfl
        have hcur : h.cur = [] := hi.cur
        by_cases hdown : h.down = true
        · rw [if_pos hdown]
          exact ⟨rfl, hclean, rfl, fun x _ => rfl, hopen⟩
        · rw [if_neg hdown]
          refine ⟨by simpa using hdown, hclean, rfl, fun x hx => (hdisk x hx).trans
            (hi.whole (by simpa using hdown) x hx), ?_⟩
          rw [hcur]
          exact hopen
    | boot =>
      simp only [Inv, hpc] at hi
      have htick : s.tick L = { s with lh := readHead L s.disk, pc := .install 0 } := by simp only [Sys.tick, hpc]
      simp only [htick, hpc, reduceCtorEq, if_false, Option.some.injEq] at hs
      subst hs
      refine ⟨rfl, hi.valid, hi.durable, fun hdown => ?_, fun x hx hmem => ?_, fun x _ => hi.mem x, hi.cur⟩
      · rw [hi.down] at hdown
        cases hdown
      · exact (Redo.apply_of_not_mem (by rwa [pairs_keys])).symm
  | crash =>
    cases hs
    exact ⟨rfl, hdur.1, hdur.2, fun _ => rfl, rfl⟩

/-- The recovery of a disk image: from what its header and its log say on, crashes are atomic. -/
theorem image_inv {d : Disk} (hv : Valid L (readHead L d)) : Inv L (image d (logical L d)) :=
  ⟨rfl, hv, ⟨0, Nat.le_refl 0, Nat.zero_le _, fun _ _ => rfl⟩, fun _ => rfl, rfl⟩

end Steps

/-- **Crash atomicity.** On a disk image whose header the log could have written, every run that logs home
blocks, with any number of crashes between any two block writes, recovers a prefix of the groups; a group in
the image's own log counts as the first. -/
theorem crash_atomic (d : Disk) (hv : Valid L (readHead L d)) : Atomic L (Label.Home L) (logical L d) d := by
  intro ls x hrun hhome hdown hpc
  have hon := hrun.on (.of_labels (P := fun _ l => l.Home L) fun l hl _ => hhome l hl)
  have hi : Inv L x := hon.inv (I := Inv L) (fun y l z hy hs => step_inv hy hs.1 hs.2) (image_inv hv)
  obtain ⟨s, h⟩ := x
  have hpc : s.pc = .install s.lh.length := hpc
  simp only [Inv, hpc] at hi
  have hb : s.lh[s.lh.length]? = none := by simp
  have htick : s.tick L = { s.bwrite L.start (headBlock [] (s.bread L.start)) with lh := [], pc := .idle } := by
    simp only [Sys.tick, hpc, hb]
  obtain ⟨-, hdisk, -⟩ := hi.erase hb
  obtain ⟨k, h1, h2, h3⟩ := hi.durable
  refine ⟨k, h1, h2, fun b hhome => ?_⟩
  rw [htick]
  exact (hdisk b hhome).trans (h3 b hhome)

/-- The log of mkfs (mkfs.c:79-89). -/
def mkfsLog : Layout := { start := 2, size := LOGSIZE }

/-- An empty log. -/
def freshImage : Disk := fun _ _ => 0

/-- After the boot: block 40 is logged and its commit returns; blocks 40 and 41 are logged, and power is lost
after the header and the first block are written. Then recovery is interrupted once too. -/
def twoGroups : List Label :=
  [.tick, .tick, .log 40 (fun _ => 7), .commit, .tick, .tick, .tick, .tick, .log 40 (fun _ => 8),
    .log 41 (fun _ => 9), .commit,
    .tick, .tick, .tick, .tick, .crash, .tick, .tick, .crash, .tick, .tick, .tick]

theorem crash_atomic_twice : ∃ x, Run (Step mkfsLog) (image freshImage (logical mkfsLog freshImage)) twoGroups x ∧
    x.2.returned = 1 ∧ x.2.groups.map (List.map Prod.fst) = [[40], [40, 41]] ∧
    (x.1.tick mkfsLog).disk 40 0 = 8 ∧ (x.1.tick mkfsLog).disk 41 0 = 9 ∧
    ∃ k, x.2.returned ≤ k ∧ k ≤ x.2.groups.length ∧
      ∀ b, Home mkfsLog b → (x.1.tick mkfsLog).disk b = applyGroups (x.2.groups.take k) x.2.base b := by
  have hv : Valid mkfsLog (readHead mkfsLog freshImage) := ⟨by decide, by decide⟩
  have hhome : ∀ l ∈ twoGroups, l.Home mkfsLog := by
    simp [twoGroups, Label.Home, Home, mkfsLog, LOGSIZE, MAXOPBLOCKS]
  have hrun : (twoGroups.foldlM (next mkfsLog) (image freshImage (logical mkfsLog freshImage))).any (fun x =>
      x.2.returned == 1 && x.2.groups.map (List.map Prod.fst) == [[40], [40, 41]] &&
        (x.1.tick mkfsLog).disk 40 0 == 8 &&
        (x.1.tick mkfsLog).disk 41 0 == 9 && x.2.down && x.1.pc == .install x.1.lh.length) = true := by decide +kernel
  obtain ⟨x, hx, hend⟩ := (Option.any_eq_true _ _).1 hrun
  simp only [Bool.and_eq_true, beq_iff_eq] at hend
  obtain ⟨⟨⟨⟨⟨h1, h2⟩, h3⟩, h4⟩, hdown⟩, hpc⟩ := hend
  have hx : Run (Step mkfsLog) _ twoGroups x := Run.of_foldlM hx
  exact ⟨x, hx, h1, h2, h3, h4, crash_atomic mkfsLog freshImage hv _ _ hx hhome hdown hpc⟩

/-- A header no log wrote: it names the header block itself, and the data block behind it holds a header that
names block 40. -/
def garbledImage : Disk := fun b w =>
  if b = 2 then (if w = 0 then 1 else 2) else if b = 3 then (if w = 0 then 1 else 40) else 0

/-- A group that names block 4, which is the log's second data block. -/
def logsItself : List Label :=
  [.tick, .tick, .log 4 (fun _ => 7), .log 40 (fun _ => 8), .commit, .tick, .tick, .tick, .crash, .tick, .tick, .tick]

/-- From that image an undisturbed recovery leaves block 40 alone, and one that crashes after its first write
overwrites it: there is no base that both recover. And a group that names a block of the log is installed from a log
that it overwrites itself. -/
theorem crash_atomic_not_always : (¬ ∀ L d, ∃ base, Atomic L (Label.Home L) base d) ∧
    ¬ ∀ L d, Valid L (readHead L d) → Atomic L (fun _ => True) (logical L d) d := by
  refine ⟨fun h => ?_, fun h => ?_⟩
  · obtain ⟨base, h⟩ := h mkfsLog garbledImage
    have hstraight : Run (Step mkfsLog) (image garbledImage base) [.tick, .tick] _ :=
      .cons rfl (.cons rfl (.nil _))
    have hcrashed : Run (Step mkfsLog) (image garbledImage base) [.tick, .tick, .crash, .tick, .tick] _ :=
      .cons rfl (.cons rfl (.cons rfl (.cons rfl (.cons rfl (.nil _)))))
    obtain ⟨k, -, hk, h1⟩ := h _ _ hstraight (by simp [Label.Home]) rfl rfl
    obtain ⟨m, -, hm, h2⟩ := h _ _ hcrashed (by simp [Label.Home]) rfl rfl
    obtain rfl : k = 0 := Nat.le_zero.1 hk
    obtain rfl : m = 0 := Nat.le_zero.1 hm
    have h40 : (0 : Nat) = 1 := congrFun ((h1 40 (by decide)).trans (h2 40 (by decide)).symm) 0
    cases h40
  · have hrun : (logsItself.foldlM (next mkfsLog) (image freshImage (logical mkfsLog freshImage))).any (fun x =>
        x.2.groups.length == 1 && (List.range 2).all (fun k => applyGroups (x.2.groups.take k) x.2.base 40 0 != 7) &&
          (x.1.tick mkfsLog).disk 40 0 == 7 && x.2.down && x.1.pc == .install x.1.lh.length) = true := by decide +kernel
    obtain ⟨x, hx, hend⟩ := (Option.any_eq_true _ _).1 hrun
    simp only [Bool.and_eq_true, beq_iff_eq, List.all_eq_true, bne_iff_ne] at hend
    obtain ⟨⟨⟨⟨hone, hgroups⟩, h40⟩, hdown⟩, hpc⟩ := hend
    obtain ⟨k, -, hk, hdisk⟩ :=
      h mkfsLog freshImage ⟨by decide, by decide⟩ _ _ (Run.of_foldlM hx) (fun _ _ => trivial) hdown hpc
    have hat := congrFun (hdisk 40 (by decide)) 0
    rw [h40] at hat
    exact hgroups k (List.mem_range.2 (by omega)) hat.symm

end Xv6.Log
