import CCppProjects.Fs.Dirs
import Mathlib.Algebra.Group.Pi.Basic
import Mathlib.Algebra.Ring.Int.Defs
/-
# Path resolution

`walk` is what `namex` finds, as a function of the state before: `none` where it panics. `namex` does that and
leaves one more reference where it found something, no lock, and the tree as it was.
-/
namespace Dirs

open Fs (Ty NINODE)
open Function (update)
open Prog

variable (c : Config)

abbrev St.ref (s : St) (i : Nat) : Int := (s.icache i).ref
def St.locks (s : St) : Nat → Bool := fun i => (s.icache i).locked

def one (i : Nat) : Nat → Int := fun j => if j = i then 1 else 0

/-- `iget` finds neither the inode nor a free slot. -/
def St.full (s : St) (i : Nat) : Prop := ¬ 0 < s.ref i ∧ ¬ s.inUse c < NINODE

instance (s : St) (i : Nat) : Decidable (s.full c i) := inferInstanceAs (Decidable (_ ∧ _))

def St.addRef (s : St) (i : Nat) : St := s.setSlot i { s.icache i with ref := s.ref i + 1 }

/-- What the cache keeps to between and within calls: an unlinked inode is freed with its last reference. And the log
is empty while no transaction is open. -/
structure Sound (s : St) : Prop where
  nonneg : ∀ i, 0 ≤ s.ref i
  cached : ∀ i, 0 < s.ref i → (s.icache i).valid = true → (s.inodes i).type ≠ .free
  orphans : ∀ i, (s.inodes i).type ≠ .free → (s.inodes i).nlink = 0 → 0 < s.ref i ∧ (s.icache i).valid = true
  held : ∀ i, s.locks i = true → 0 < s.ref i ∧ (s.icache i).valid = true
  committed : s.outstanding ≤ 0 → s.logged = 0

/-- From `s` to `t`: references by `d`, locks as in `l`, `n` transactions more. -/
structure Eff (s t : St) (d : Nat → Int) (l : Nat → Bool) (n : Int) : Prop where
  ref : ∀ i, t.ref i = s.ref i + d i
  locks : t.locks = l
  outstanding : t.outstanding = s.outstanding + n
  ftable : t.ftable = s.ftable
  procs : t.procs = s.procs

/-- Stops other than a lock or log space that is never released, or a lock that was not held. -/
def Plain (e : Stop) : Prop := e ≠ .deadlock ∧ e ≠ .logSpace ∧ e ≠ .iunlock

instance (e : Stop) : Decidable (Plain e) := inferInstanceAs (Decidable (_ ∧ _ ∧ _))

section Prims

variable {c} {s t u : St} {i j : Nat} {d d' : Nat → Int} {l l' : Nat → Bool} {n n' : Int}

theorem Eff.refl (s : St) : Eff s s 0 s.locks 0 :=
  ⟨fun _ => (Int.add_zero _).symm, rfl, (Int.add_zero _).symm, rfl, rfl⟩

theorem Eff.trans (h : Eff s t d l n) (h' : Eff t u d' l' n') : Eff s u (d + d') l' (n + n') :=
  ⟨fun i => by rw [h'.ref, h.ref, Pi.add_apply, Int.add_assoc],
    h'.locks, by rw [h'.outstanding, h.outstanding, Int.add_assoc],
    h'.ftable.trans h.ftable, h'.procs.trans h.procs⟩

theorem Eff.congr (h : Eff s t d l n) (hd : ∀ i, d i = d' i) (hl : l = l') (hn : n = n') : Eff s t d' l' n' := by
  obtain rfl : d = d' := funext hd
  rw [← hl, ← hn]
  exact h

@[simp] theorem setSlot_ref {e : Slot} : (s.setSlot i e).ref j = if j = i then e.ref else s.ref j := by
  by_cases h : j = i <;> simp [St.ref, St.setSlot, h]

@[simp] theorem setSlot_inodes {e : Slot} : (s.setSlot i e).inodes = s.inodes := rfl

@[simp] theorem setInode_icache {d : Dinode} : (s.setInode i d).icache = s.icache := rfl

theorem setSlot_locks {e : Slot} : (s.setSlot i e).locks = update s.locks i e.locked := by
  funext j
  by_cases h : j = i
  · subst h
    simp [St.locks, St.setSlot]
  · simp [St.locks, St.setSlot, Function.update_of_ne h]

theorem setSlot_icache_of_ne {e : Slot} (h : j ≠ i) : (s.setSlot i e).icache j = s.icache j :=
  Function.update_of_ne h ..

@[simp] theorem setSlot_icache_self {e : Slot} : (s.setSlot i e).icache i = e := Function.update_self ..

/-- The effect of a change to one slot. -/
theorem Eff.setSlot {e : Slot} : Eff s (s.setSlot i e) (fun j => if j = i then e.ref - s.ref i else 0)
    (update s.locks i e.locked) 0 := by
  refine ⟨fun j => ?_, setSlot_locks, (Int.add_zero _).symm, rfl, rfl⟩
  rw [setSlot_ref]
  split
  · next h =>
    subst h
    omega
  · omega

theorem Eff.addOne {e : Slot} (he : e.ref = s.ref i + 1) (hl : e.locked = (s.icache i).locked) :
    Eff s (s.setSlot i e) (one i) s.locks 0 := by
  refine Eff.setSlot.congr (fun j => ?_) ?_ rfl
  · simp only [one]
    split <;> omega
  · rw [hl]
    exact Function.update_eq_self i s.locks

/-- A slot changes, with what `Sound` asks of it. -/
theorem Sound.setSlot {e : Slot} (hs : Sound s) (h0 : 0 ≤ e.ref)
    (hc : 0 < e.ref → e.valid = true → (s.inodes i).type ≠ .free)
    (ho : (s.inodes i).type ≠ .free → (s.inodes i).nlink = 0 → 0 < e.ref ∧ e.valid = true)
    (hh : e.locked = true → 0 < e.ref ∧ e.valid = true) : Sound (s.setSlot i e) := by
  constructor
  · intro j
    rw [setSlot_ref]
    split
    · exact h0
    · exact hs.nonneg j
  · intro j
    by_cases hj : j = i
    · subst hj
      simpa [St.ref] using hc
    · rw [St.ref, setSlot_icache_of_ne hj]
      exact hs.cached j
  · intro j
    by_cases hj : j = i
    · subst hj
      simpa [St.ref] using ho
    · rw [St.ref, setSlot_icache_of_ne hj]
      exact hs.orphans j
  · intro j
    by_cases hj : j = i
    · subst hj
      simpa [St.ref, St.locks] using hh
    · rw [St.ref, St.locks, setSlot_icache_of_ne hj]
      exact hs.held j
  · exact hs.committed

theorem full_congr (h : ∀ i, t.ref i = s.ref i) : t.full c i ↔ s.full c i := by
  have hcount : t.inUse c = s.inUse c := by
    apply List.countP_congr
    intro j _
    have := h j
    simp only [St.ref] at this
    simp [this]
  rw [St.full, St.full, h, hcount]

theorem iget_spec (hs : Sound s) : Sat (iget c i s) (fun e => Plain e ∧ s.full c i) fun r =>
    ¬ s.full c i ∧ Sound r.2 ∧ Eff s r.2 (one i) s.locks 0 ∧ r.2.inodes = s.inodes := by
  simp only [iget, state_bind_run]
  by_cases hpos : 0 < s.ref i
  · simp only [St.ref] at hpos
    simp only [hpos, if_true, change_run]
    refine .ok ⟨fun hf => hf.1 hpos, hs.setSlot ?_ ?_ ?_ ?_, Eff.addOne rfl rfl, rfl⟩
    · simp only
      omega
    · exact fun _ => hs.cached i hpos
    · intro ht hn
      exact ⟨by simp only; omega, (hs.orphans i ht hn).2⟩
    · intro hl
      exact ⟨by simp only; omega, (hs.held i hl).2⟩
  · have hzero : s.ref i = 0 := Int.le_antisymm (by omega) (hs.nonneg i)
    have hpos' := hpos
    simp only [St.ref] at hpos
    simp only [hpos, if_false]
    by_cases hroom : s.inUse c < NINODE
    · simp only [hroom, if_true, change_run]
      refine .ok ⟨fun hf => hf.2 hroom, hs.setSlot (by simp) ?_ ?_ ?_, Eff.addOne ?_ rfl, rfl⟩
      · simp
      · exact fun ht hn => absurd (hs.orphans i ht hn).1 hpos'
      · exact fun hl => absurd (hs.held i hl).1 hpos'
      · simp [hzero]
    · simp only [hroom, if_false, stop_run]
      exact .error ⟨by decide, hpos', hroom⟩

theorem idup_run : idup i s = .ok (⟨⟩, s.addRef i) := rfl

theorem addRef_spec (hs : Sound s) (hi : 0 < s.ref i ∨ (s.icache i).valid = false) :
    Sound (s.addRef i) ∧ Eff s (s.addRef i) (one i) s.locks 0 := by
  have h0 := hs.nonneg i
  refine ⟨hs.setSlot ?_ ?_ ?_ ?_, Eff.addOne rfl rfl⟩
  · simp only
    omega
  · intro _ hv
    rcases hi with hi | hi
    · exact hs.cached i hi hv
    · exact absurd hv (by simp [hi])
  · intro ht hn
    exact ⟨by simp only; omega, (hs.orphans i ht hn).2⟩
  · intro hl
    exact ⟨by simp only; omega, (hs.held i hl).2⟩

/-- Locking an inode that is not locked; a free one panics. -/
theorem ilock_spec (hs : Sound s) (hl : s.locks i = false) :
    Sat (ilock i s) (fun e => Plain e ∧ (s.ref i < 1 ∨ (s.inodes i).type = .free)) fun r =>
      0 < s.ref i ∧ (s.inodes i).type ≠ .free ∧ Sound r.2 ∧ Eff s r.2 0 (update s.locks i true) 0 ∧
        r.2.inodes = s.inodes := by
  simp only [ilock, state_bind_run]
  by_cases href : (s.icache i).ref < 1
  · rw [if_pos href]
    exact .error ⟨by decide, .inl href⟩
  have hpos : 0 < s.ref i := by
    simp only [St.ref]
    omega
  have hlocked : (s.icache i).locked = false := hl
  rw [if_neg href, hlocked, if_neg Bool.false_ne_true]
  by_cases hfree : (s.icache i).valid = false ∧ (s.inodes i).type = .free
  · rw [if_pos hfree]
    exact .error ⟨by decide, .inr hfree.2⟩
  have ht : (s.inodes i).type ≠ .free := by
    cases hv : (s.icache i).valid with
    | true => exact hs.cached i hpos hv
    | false => exact fun h => hfree ⟨hv, h⟩
  rw [if_neg hfree, change_run]
  refine .ok ⟨hpos, ht, hs.setSlot (hs.nonneg i) (fun _ _ => ht) (fun _ _ => ⟨hpos, rfl⟩)
    (fun _ => ⟨hpos, rfl⟩), ?_, rfl⟩
  refine Eff.setSlot.congr (fun j => ?_) rfl rfl
  simp [St.ref]

/-- A lock that is held can be released. -/
theorem iunlock_run (hs : Sound s) (hl : s.locks i = true) : ∃ t, iunlock i s = .ok (⟨⟩, t) ∧ Sound t ∧
    Eff s t 0 (update s.locks i false) 0 ∧ t.inodes = s.inodes := by
  obtain ⟨hpos, hv⟩ := hs.held i hl
  have hlocked : (s.icache i).locked = true := hl
  have href : ¬ (s.icache i).ref < 1 := by
    simp only [St.ref] at hpos
    omega
  refine ⟨s.setSlot i { s.icache i with locked := false }, ?_, ?_, ?_, rfl⟩
  · simp [iunlock, hlocked, href]
  · exact hs.setSlot (hs.nonneg i) (hs.cached i) (hs.orphans i) (fun h => by simp at h)
  · refine Eff.setSlot.congr (fun j => ?_) rfl rfl
    simp [St.ref]

/-- The inodes once the last reference to an unlinked one is gone. -/
inductive Put (s : St) (i : Nat) (t : St) : Prop
  | kept (h : t.inodes = s.inodes) (hn : (s.inodes i).type = .free ∨ (s.inodes i).nlink ≠ 0 ∨ 1 < s.ref i)
  | freed (h : t.inodes = update s.inodes i { s.inodes i with type := .free, ents := [] })
      (ht : (s.inodes i).type ≠ .free) (hn : (s.inodes i).nlink = 0) (href : s.ref i = 1)

/-- A reference to an inode that is not locked can be given up. -/
theorem iput_run (hs : Sound s) (hpos : 0 < s.ref i) (hl : s.locks i = false) : ∃ t, iput i s = .ok (⟨⟩, t) ∧ Sound t ∧
    Eff s t (-one i) s.locks 0 ∧ Put s i t := by
  have hlocked : (s.icache i).locked = false := hl
  have heff : ∀ (s' : St) (v : Bool), s'.icache = s.icache → s'.outstanding = s.outstanding →
    s'.ftable = s.ftable → s'.procs = s.procs →
      Eff s (s'.setSlot i { s.icache i with valid := v, ref := (s.icache i).ref - 1 }) (-one i) s.locks 0 := by
    intro s' v hc ho hf hp
    refine ⟨fun j => ?_, ?_, by simp [St.setSlot, ho], hf, hp⟩
    · rw [setSlot_ref]
      simp only [Pi.neg_apply, one, St.ref, hc]
      split
      · next h =>
        subst h
        omega
      · omega
    · rw [setSlot_locks]
      have : s'.locks = s.locks := by
        funext j
        simp only [St.locks, hc]
      rw [this]
      exact Function.update_eq_self i s.locks
  by_cases hfree : (s.icache i).valid = true ∧ (s.inodes i).nlink = 0 ∧ (s.icache i).ref = 1
  · have ht := hs.cached i hpos hfree.1
    let d : Dinode := { s.inodes i with type := .free, ents := [] }
    refine ⟨(s.setInode i d).setSlot i { s.icache i with valid := false, ref := (s.icache i).ref - 1 }, ?_, ?_,
      heff (s.setInode i d) false rfl rfl rfl rfl, .freed rfl ht hfree.2.1 hfree.2.2⟩
    · simp [iput, hlocked, hfree, d]
    · have hd : ∀ j, j ≠ i → (s.setInode i d).inodes j = s.inodes j := fun j hj => Function.update_of_ne hj ..
      constructor
      · intro j
        have := hs.nonneg j
        rw [setSlot_ref]
        split
        · simp only [hfree.2.2]
          decide
        · exact this
      · intro j
        by_cases hj : j = i
        · subst hj
          simp [St.ref]
        · rw [St.ref, setSlot_icache_of_ne hj, setSlot_inodes, hd j hj]
          exact hs.cached j
      · intro j
        by_cases hj : j = i
        · subst hj
          simp [d, St.setInode]
        · rw [St.ref, setSlot_icache_of_ne hj, setSlot_inodes, hd j hj]
          exact hs.orphans j
      · intro j
        by_cases hj : j = i
        · subst hj
          simp [St.locks, hlocked]
        · rw [St.ref, St.locks, setSlot_icache_of_ne hj]
          exact hs.held j
      · exact hs.committed
  · refine ⟨s.setSlot i { s.icache i with ref := (s.icache i).ref - 1 }, ?_, ?_, heff s _ rfl rfl rfl rfl, ?_⟩
    · simp [iput, hlocked, hfree]
    · refine hs.setSlot ?_ ?_ ?_ ?_
      · simp only [St.ref] at hpos
        simp only
        omega
      · exact fun _ => hs.cached i hpos
      · intro ht hn
        have hv := (hs.orphans i ht hn).2
        have : (s.icache i).ref ≠ 1 := fun h => hfree ⟨hv, hn, h⟩
        simp only [St.ref] at hpos
        exact ⟨by simp only; omega, hv⟩
      · intro h
        simp [hlocked] at h
    · refine .kept rfl ?_
      by_cases ht : (s.inodes i).type = .free
      · exact .inl ht
      · by_cases hn : (s.inodes i).nlink = 0
        · have hv := (hs.orphans i ht hn).2
          have : (s.icache i).ref ≠ 1 := fun h => hfree ⟨hv, hn, h⟩
          simp only [St.ref] at hpos ⊢
          exact .inr (.inr (by omega))
        · exact .inr (.inl hn)

theorem iunlockput_run (hs : Sound s) (hl : s.locks i = true) : ∃ t, iunlockput i s = .ok (⟨⟩, t) ∧ Sound t ∧
    Eff s t (-one i) (update s.locks i false) 0 ∧ Put s i t := by
  obtain ⟨u, hu, hsu, heu, hiu⟩ := iunlock_run hs hl
  have hpos : 0 < u.ref i := by
    rw [heu.ref, Pi.zero_apply, Int.add_zero]
    exact (hs.held i hl).1
  have hlu : u.locks i = false := by
    rw [heu.locks, Function.update_self]
  obtain ⟨t, ht, hst, het, hput⟩ := iput_run hsu hpos hlu
  refine ⟨t, ?_, hst, (heu.trans het).congr (fun j => by simp) (by rw [heu.locks]) rfl, ?_⟩
  · rw [iunlockput, bind_ok_run hu, ht]
  · have href : u.ref i = s.ref i := by rw [heu.ref, Pi.zero_apply, Int.add_zero]
    cases hput with
    | kept h hn =>
      rw [hiu, href] at hn
      exact .kept (h.trans hiu) hn
    | freed h h1 h2 h3 =>
      rw [hiu] at h h1 h2
      rw [href] at h3
      exact .freed h h1 h2 h3

end Prims

/-! ## Walks -/

/-- What the loop of `namex` finds from `ip` on, while it holds one inode at a time. -/
def walk (s : St) (parent : Bool) : List Name → Nat → Option (Option (Nat × Name))
  | [], ip => some (if parent then none else some (ip, []))
  | name :: rest, ip =>
    if (s.inodes ip).type = .free then none
    else if (s.inodes ip).type ≠ .dir then some none
    else if parent ∧ rest = [] then some (some (ip, name))
    else match lookup (s.inodes ip).ents name with
      | none => some none
      | some (_, next) => if (s.addRef ip).full c next then none else walk s parent rest next

/-- What `namex` finds. -/
def walkFrom (s : St) (cwd : Option Nat) (path : Path) (parent : Bool) : Option (Option (Nat × Name)) :=
  if path.head? = some '/' then
    if s.full c ROOTINO then none else walk c s parent (elems path) ROOTINO
  else match cwd with
    | some ip => walk c s parent (elems path) ip
    | none => none

/-- The reference that comes with what was found. -/
def gain : Option (Nat × Name) → Nat → Int
  | some (i, _) => one i
  | none => 0

/-- The reference that comes with an entry. -/
def gainEnt : Option (Nat × Nat) → Nat → Int
  | some (_, i) => one i
  | none => 0

section Walks

variable {c} {s t u : St} {i j dp : Nat} {name : Name} {parent : Bool} {cwd : Option Nat} {path : Path}

theorem addRef_ref : (s.addRef i).ref j = s.ref j + one i j := by
  rw [St.addRef, setSlot_ref, one]
  split
  · next h => rw [h]
  · rw [Int.add_zero]

/-- What a `dirlookup` in a directory finds, with a reference. -/
theorem dirlookup_spec (name : Name) (hs : Sound s) (ht : (s.inodes dp).type = .dir) :
    Sat (dirlookup c dp name s) (fun e => Plain e ∧
    ∃ off i, lookup (s.inodes dp).ents name = some (off, i) ∧ s.full c i) fun r =>
      r.1 = lookup (s.inodes dp).ents name ∧ Sound r.2 ∧ r.2.inodes = s.inodes ∧
      Eff s r.2 (gainEnt r.1) s.locks 0 ∧ (∀ off i, r.1 = some (off, i) → ¬ s.full c i) := by
  simp only [dirlookup, state_bind_run, ht, ne_eq, not_true_eq_false, if_false]
  cases hl : lookup (s.inodes dp).ents name with
  | none => exact .ok ⟨rfl, hs, rfl, .refl s, by simp⟩
  | some r =>
    obtain ⟨off, i⟩ := r
    simp only [bind_run]
    refine Sat.bind ((iget_spec hs).mono (fun e he => ⟨he.1, off, i, rfl, he.2⟩) fun _ h => h) ?_
    rintro ⟨⟨⟩, t⟩ - ⟨hfull, hst, heff, hino⟩
    refine .ok ⟨rfl, hst, hino, heff, ?_⟩
    intro off' i' h
    obtain ⟨rfl, rfl⟩ : off = off' ∧ i = i' := by simpa using h
    exact hfull

/-- Giving up one reference more than there were frees nothing. -/
theorem Put.same (h : Put u i t) (hs : Sound s) (hino : u.inodes = s.inodes)
    (href : u.ref i = s.ref i + 1) : t.inodes = s.inodes := by
  cases h with
  | kept h _ => exact h.trans hino
  | freed _ ht hn h1 =>
    rw [hino] at ht hn
    have := (hs.orphans i ht hn).1
    omega

/-- The loop of `namex` does what `walk` says of the state without the reference it holds. -/
theorem namexLoop_spec (hs : Sound s) (hl : ∀ i, s.locks i = false) : ∀ (els : List Name) (ip : Nat) (u : St), Sound u →
    Eff s u (one ip) s.locks 0 → u.inodes = s.inodes →
    Sat (namexLoop c parent els ip u) (fun e => Plain e ∧ walk c s parent els ip = none) fun r =>
      walk c s parent els ip = some r.1 ∧ Sound r.2 ∧ Eff s r.2 (gain r.1) s.locks 0 ∧ r.2.inodes = s.inodes
  | [], ip, u, hu, he, hino => by
    have href : u.ref ip = s.ref ip + 1 := by rw [he.ref, one, if_pos rfl]
    have hpos : 0 < u.ref ip := by
      have := hs.nonneg ip
      omega
    cases parent with
    | false => exact .ok ⟨rfl, hu, he, hino⟩
    | true =>
      obtain ⟨t, hrun, hst, het, hput⟩ := iput_run hu hpos (by rw [he.locks]; exact hl ip)
      simp only [namexLoop, if_true, bind_ok_run hrun, pure_run]
      refine .ok ⟨by simp [walk], hst, (he.trans het).congr (fun j => ?_) he.locks rfl, hput.same hs hino href⟩
      simp [gain]
  | name :: rest, ip, u, hu, he, hino => by
    have href : u.ref ip = s.ref ip + 1 := by rw [he.ref, one, if_pos rfl]
    have hul : u.locks = s.locks := he.locks
    simp only [namexLoop, bind_run, walk]
    refine Sat.bind ((ilock_spec hu (by rw [hul]; exact hl ip)).mono ?_ fun _ h => h) ?_
    · -- the only way to panic here is an entry that names a free inode
      rintro e ⟨hp, h | h⟩
      · have := hs.nonneg ip
        omega
      · rw [hino] at h
        exact ⟨hp, if_pos h⟩
    rintro ⟨⟨⟩, v⟩ - ⟨-, hfree, hsv, hev, hinov⟩
    change Sound v at hsv
    change Eff u v _ _ _ at hev
    change v.inodes = u.inodes at hinov
    have hvino : v.inodes = s.inodes := hinov.trans hino
    have hvref : v.ref ip = s.ref ip + 1 := by rw [hev.ref, Pi.zero_apply, Int.add_zero, href]
    have hvl : v.locks ip = true := by rw [hev.locks, Function.update_self]
    rw [hino] at hfree
    simp only [state, ok_bind, hvino]
    rw [if_neg hfree]
    have hunlock : update v.locks ip false = s.locks := by
      rw [hev.locks, Function.update_idem, hul]
      exact (Function.update_eq_self_iff ..).2 (hl ip).symm
    have hsv' : Eff s v (one ip) v.locks 0 := (he.trans hev).congr (fun j => by simp) hev.locks.symm rfl
    by_cases hdir : (s.inodes ip).type = .dir
    · have hdir' : (v.inodes ip).type = .dir := by rw [hvino, hdir]
      rw [if_neg (not_not.2 hdir), if_neg (not_not.2 hdir)]
      by_cases hlast : parent = true ∧ rest = []
      · obtain ⟨t, hrun, hst, het, hit⟩ := iunlock_run hsv hvl
        rw [if_pos hlast, if_pos hlast, bind_ok_run hrun]
        refine .ok ⟨rfl, hst, (hsv'.trans het).congr (fun j => by simp [gain]) hunlock rfl, hit.trans hvino⟩
      · rw [if_neg hlast, if_neg hlast]
        have hfull : ∀ next, v.full c next ↔ (s.addRef ip).full c next :=
          fun next => full_congr fun j => by rw [hsv'.ref, addRef_ref]
        refine Sat.bind ((dirlookup_spec _ hsv hdir').mono ?_ fun _ h => h) ?_
        · rintro e ⟨hp, off, i, hlook, hf⟩
          rw [hvino] at hlook
          rw [hlook]
          exact ⟨hp, if_pos ((hfull i).1 hf)⟩
        rintro ⟨r, w⟩ - ⟨hr, hsw, hwino, hew, hroom⟩
        change r = lookup (v.inodes ip).ents name at hr
        change w.inodes = v.inodes at hwino
        change Sound w at hsw
        change Eff v w (gainEnt r) v.locks 0 at hew
        rw [hvino] at hr
        have hwl : w.locks ip = true := by rw [hew.locks, hvl]
        obtain ⟨t, hrun, hst, het, hput⟩ := iunlockput_run hsw hwl
        have htl : update w.locks ip false = s.locks := by rw [hew.locks, hunlock]
        cases r with
        | none =>
          have hwref : w.ref ip = s.ref ip + 1 := by rw [hew.ref, gainEnt, Pi.zero_apply, Int.add_zero, hvref]
          have htino : t.inodes = s.inodes := hput.same hs (hwino.trans hvino) hwref
          rw [← hr]
          simp only [bind_ok_run hrun, pure_run]
          refine .ok ⟨rfl, hst, ((hsv'.trans hew).trans het).congr (fun j => ?_) htl rfl, htino⟩
          simp [gain, gainEnt]
        | some r =>
          obtain ⟨off, next⟩ := r
          have hnf : ¬ (s.addRef ip).full c next := fun h => hroom off next rfl ((hfull next).2 h)
          have hwref : s.ref ip + 1 ≤ w.ref ip := by
            rw [hew.ref, hvref]
            simp only [gainEnt, one]
            split <;> omega
          have htino : t.inodes = s.inodes := by
            cases hput with
            | kept h _ => exact h.trans (hwino.trans hvino)
            | freed _ ht hn h1 =>
              rw [hwino.trans hvino] at ht hn
              have := (hs.orphans ip ht hn).1
              omega
          rw [← hr]
          simp only [bind_ok_run hrun, if_neg hnf]
          refine namexLoop_spec hs hl rest next t hst (((hsv'.trans hew).trans het).congr (fun j => ?_) htl rfl) htino
          simp only [Pi.add_apply, Pi.neg_apply, gainEnt]
          omega
    · obtain ⟨t, hrun, hst, het, hput⟩ := iunlockput_run hsv hvl
      rw [if_pos hdir, if_pos hdir, bind_ok_run hrun]
      refine .ok ⟨rfl, hst, (hsv'.trans het).congr (fun j => ?_) hunlock rfl, hput.same hs hvino hvref⟩
      simp [gain]

/-- **namex** finds what `walkFrom` says, and keeps a reference to that and nothing else. -/
theorem namex_spec (hs : Sound s) (hl : ∀ i, s.locks i = false) (hcwd : ∀ i, cwd = some i → 0 < s.ref i) :
    Sat (namex c cwd path parent s) (fun e => Plain e ∧ walkFrom c s cwd path parent = none) fun r =>
      walkFrom c s cwd path parent = some r.1 ∧ Sound r.2 ∧ Eff s r.2 (gain r.1) s.locks 0 ∧ r.2.inodes = s.inodes := by
  unfold namex walkFrom start
  rw [bind_run]
  by_cases hroot : path.head? = some '/'
  · rw [if_pos hroot, if_pos hroot]
    have hget := iget_spec (c := c) hs (i := ROOTINO)
    cases hrun : iget c ROOTINO s with
    | error e =>
      rw [bind_error_run hrun]
      obtain ⟨hp, hf⟩ := hget.of_error hrun
      exact .error ⟨hp, if_pos hf⟩
    | ok r =>
      obtain ⟨⟨⟩, u⟩ := r
      obtain ⟨hnf, hsu, heu, hiu⟩ := hget.of_ok hrun
      rw [bind_ok_run hrun, pure_run, ok_bind, if_neg hnf]
      exact namexLoop_spec hs hl _ _ _ hsu heu hiu
  · rw [if_neg hroot, if_neg hroot]
    cases cwd with
    | none => exact .error ⟨by decide, rfl⟩
    | some ip =>
      obtain ⟨hsu, heu⟩ := addRef_spec hs (.inl (hcwd ip rfl))
      simp only [bind_ok_run idup_run, pure_run, ok_bind]
      exact namexLoop_spec hs hl _ _ _ hsu heu rfl

end Walks

end Dirs
