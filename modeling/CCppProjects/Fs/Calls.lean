import CCppProjects.Fs.Walk
/-
# What the calls do

One contract per function of sysfile.c and fs.c: references, locks and transactions afterwards, and the tree
as a function of the tree before. A call stops in a panic of its own, except where the contract says that it
waits for a lock it holds.
-/
namespace Dirs

open Fs (Ty NINODE)
open Function (update)
open Prog

variable (c : Config)

/-! ## The tree -/

abbrev Tree := Nat → Dinode

def Tree.addEnt (T : Tree) (dp : Nat) (name : Name) (i : Nat) : Tree :=
  update T dp { T dp with ents := putEnt (T dp).ents (freeSlot (T dp).ents) { inum := i, name := name.take DIRSIZ } }

def Tree.dropEnt (T : Tree) (dp off : Nat) : Tree :=
  update T dp { T dp with ents := putEnt (T dp).ents off { inum := 0, name := [] } }

def Tree.link (T : Tree) (i : Nat) (z : Int) : Tree := update T i { T i with nlink := short ((T i).nlink + z) }

/-- A new inode with one link. -/
def Tree.fresh (T : Tree) (i : Nat) (type : Ty) : Tree := update T i { type, nlink := 1, ents := [] }

/-- What `createIn` leaves. -/
def Tree.created (T : Tree) (dp : Nat) (name : Name) (i : Nat) (type : Ty) : Tree :=
  if type = .dir then ((((T.fresh i type).link dp 1).addEnt i ".".toList i).addEnt i "..".toList dp).addEnt dp name i
  else (T.fresh i type).addEnt dp name i

/-- What `unlinkAt` leaves before the first reference is given up. -/
def Tree.dropped (T : Tree) (dp off i : Nat) : Tree :=
  if (T i).type = .dir then (T.dropEnt dp off).link dp (-1) else T.dropEnt dp off

/-- What `unlinkAt` leaves before the references are given up. -/
def Tree.unlinked (T : Tree) (dp off i : Nat) : Tree := (T.dropped dp off i).link i (-1)

/-- The tree once a reference is gone: the last one to an unlinked inode frees it. `left` references stay. -/
inductive Tree.Put (T : Tree) (i : Nat) (left : Int) (U : Tree) : Prop
  | kept (h : U = T)
  | freed (h : U = update T i { T i with type := .free, ents := [] }) (ht : (T i).type ≠ .free)
      (hn : (T i).nlink = 0) (hleft : left = 0)

section Steps

variable {c} {s t u : St} {i j dp off : Nat} {name : Name} {z : Int} {type : Ty}

theorem Put.tree (h : Put s i t) : Tree.Put s.inodes i (s.ref i - 1) t.inodes := by
  cases h with
  | kept h _ => exact .kept h
  | freed h ht hn href => exact .freed h ht hn (by omega)

/-- Changes that leave cache and tree alone. -/
theorem Sound.congr (hs : Sound s) (hc : t.icache = s.icache) (hi : t.inodes = s.inodes)
    (hl : t.outstanding ≤ 0 → t.logged = 0) : Sound t := by
  constructor
  · intro j
    rw [St.ref, hc]
    exact hs.nonneg j
  · intro j
    rw [St.ref, hc, hi]
    exact hs.cached j
  · intro j
    rw [St.ref, hc, hi]
    exact hs.orphans j
  · intro j
    rw [St.ref, St.locks, hc]
    exact hs.held j
  · exact hl

/-- A transaction begins where the log has room for it. -/
theorem beginOp_room (hs : Sound s) (h : s.logged + (s.outstanding + 1) * MAXOPBLOCKS ≤ LOGSIZE) :
    ∃ t, beginOp s = .ok (⟨⟩, t) ∧ Sound t ∧ Eff s t 0 s.locks 1 ∧ t.inodes = s.inodes ∧ t.logged = s.logged := by
  have hrun : beginOp s = .ok (⟨⟩, { s with outstanding := s.outstanding + 1 }) := by
    unfold beginOp
    rw [state_bind_run, if_neg (by omega)]
    rfl
  refine ⟨_, hrun, hs.congr rfl rfl fun h0 => ?_, ⟨fun _ => (Int.add_zero _).symm, rfl, rfl, rfl, rfl⟩, rfl, rfl⟩
  change s.outstanding + 1 ≤ 0 at h0
  exact hs.committed (by omega)

/-- The first transaction finds the log empty. -/
theorem beginOp_run (hs : Sound s) (h0 : s.outstanding = 0) :
    ∃ t, beginOp s = .ok (⟨⟩, t) ∧ Sound t ∧ Eff s t 0 s.locks 1 ∧ t.inodes = s.inodes := by
  obtain ⟨t, hrun, hst, het, hit, -⟩ := beginOp_room hs (by rw [hs.committed (by omega), h0]; decide)
  exact ⟨t, hrun, hst, het, hit⟩

theorem beginOp_full (h : ¬ s.logged + (s.outstanding + 1) * MAXOPBLOCKS ≤ LOGSIZE) : beginOp s = .error .logSpace := by
  unfold beginOp
  rw [state_bind_run, if_pos (by omega)]
  rfl

theorem endOp_run (hs : Sound s) : ∃ t, endOp s = .ok (⟨⟩, t) ∧ Sound t ∧ Eff s t 0 s.locks (-1) ∧
    t.inodes = s.inodes := by
  refine ⟨_, rfl, hs.congr rfl rfl fun h0 => ?_, ⟨fun _ => (Int.add_zero _).symm, rfl, rfl, rfl, rfl⟩, rfl⟩
  change s.outstanding - 1 ≤ 0 at h0
  by_cases h1 : s.outstanding - 1 = 0
  · exact if_pos h1
  · exact (if_neg h1).trans (hs.committed (by omega))

theorem endOp_logged (h : endOp s = .ok (⟨⟩, t)) : t.logged = if s.outstanding - 1 = 0 then 0 else s.logged := by
  cases h
  rfl

/-- An inode that is held changes; it stays allocated if it was. -/
theorem setInode_spec {d : Dinode} (hs : Sound s) (ht : d.type = (s.inodes i).type) (hl : s.locks i = true) :
    Sound (s.setInode i d) ∧ Eff s (s.setInode i d) 0 s.locks 0 := by
  obtain ⟨hpos, hv⟩ := hs.held i hl
  refine ⟨⟨hs.nonneg, ?_, ?_, hs.held, hs.committed⟩, fun _ => (Int.add_zero _).symm,
    rfl, (Int.add_zero _).symm, rfl, rfl⟩
  · intro j
    by_cases hj : j = i
    · subst hj
      simp only [St.setInode, Function.update_self, ht]
      exact hs.cached j
    · simp only [St.setInode, Function.update_of_ne hj]
      exact hs.cached j
  · intro j
    by_cases hj : j = i
    · subst hj
      exact fun _ _ => ⟨hpos, hv⟩
    · simp only [St.setInode, Function.update_of_ne hj]
      exact hs.orphans j

theorem addLink_run (hs : Sound s) (hl : s.locks i = true) : ∃ t, addLink i z s = .ok (⟨⟩, t) ∧
    Sound t ∧ Eff s t 0 s.locks 0 ∧
    t.inodes = Tree.link s.inodes i z := by
  obtain ⟨h1, h2⟩ := setInode_spec (d := { s.inodes i with nlink := short ((s.inodes i).nlink + z) }) hs rfl hl
  exact ⟨_, rfl, h1, h2, rfl⟩

/-- The entry that stands in the way is an inode that is locked. -/
theorem dirlink_deadlock (hs : Sound s) (ht : (s.inodes dp).type = .dir)
    (hfound : lookup (s.inodes dp).ents name = some (off, i))
    (hl : s.locks i = true) (inum : Nat) : dirlink c dp name inum s = .error .deadlock := by
  have hlook := dirlookup_spec (c := c) name hs ht
  have hpos := (hs.held i hl).1
  cases hrun : dirlookup c dp name s with
  | error e =>
    obtain ⟨-, off', i', h, hf⟩ := hlook.of_error hrun
    obtain ⟨rfl, rfl⟩ : off = off' ∧ i = i' := by simpa [hfound] using h
    exact absurd hpos hf.1
  | ok r =>
    obtain ⟨r, u⟩ := r
    obtain ⟨hr, hsu, -, heu, -⟩ := hlook.of_ok hrun
    obtain rfl : r = some (off, i) := hr.trans hfound
    have hlu : (u.icache i).locked = true := by
      have : u.locks i = true := by rw [heu.locks, hl]
      exact this
    rw [dirlink, bind_ok_run hrun]
    simp [iput, bind_run, hlu, state, ok_bind]
    rfl

/-- A directory entry is made where there is none of that name. -/
theorem dirlink_spec {inum : Nat} (hs : Sound s) (ht : (s.inodes dp).type = .dir) (hl : s.locks dp = true)
    (hfree : ∀ off i, lookup (s.inodes dp).ents name = some (off, i) → s.locks i = false) :
    Sat (dirlink c dp name inum s) Plain fun r => Sound r.2 ∧ Eff s r.2 0 s.locks 0 ∧
      ((r.1 = false ∧ lookup (s.inodes dp).ents name ≠ none ∧ r.2.inodes = s.inodes) ∨
        (r.1 = true ∧ lookup (s.inodes dp).ents name = none ∧ r.2.inodes = Tree.addEnt s.inodes dp name inum)) := by
  have hlook := dirlookup_spec (c := c) name hs ht
  cases hrun : dirlookup c dp name s with
  | error e =>
    rw [dirlink, bind_error_run hrun]
    exact .error (hlook.of_error hrun).1
  | ok r =>
    obtain ⟨r, u⟩ := r
    obtain ⟨hr, hsu, hiu, heu, -⟩ := hlook.of_ok hrun
    simp only at hr hsu hiu heu
    rw [dirlink, bind_ok_run hrun]
    cases r with
    | some r =>
      obtain ⟨off, i⟩ := r
      have hlu : u.locks i = false := by rw [heu.locks, hfree off i hr.symm]
      have href : u.ref i = s.ref i + 1 := by rw [heu.ref, gainEnt, one, if_pos rfl]
      have hpos : 0 < u.ref i := by
        have := hs.nonneg i
        omega
      obtain ⟨t, hput, hst, het, hkept⟩ := iput_run hsu hpos hlu
      simp only [bind_ok_run hput, pure_run]
      refine .ok ⟨hst, (heu.trans het).congr (fun j => ?_) heu.locks rfl, .inl ⟨rfl, ?_, hkept.same hs hiu href⟩⟩
      · simp [gainEnt]
      · rw [← hr]
        simp
    | none =>
      have hlu : u.locks dp = true := by rw [heu.locks, hl]
      simp only [state_bind_run]
      split
      · exact .error (by decide)
      · let d : Dinode := { u.inodes dp with
          ents := putEnt (u.inodes dp).ents (freeSlot (u.inodes dp).ents) { inum, name := name.take DIRSIZ } }
        obtain ⟨h1, h2⟩ := setInode_spec (d := d) hsu rfl hlu
        refine .ok ⟨h1, (heu.trans h2).congr (fun j => ?_) heu.locks rfl, .inr ⟨rfl, hr.symm, ?_⟩⟩
        · simp [gainEnt]
        · change update u.inodes dp d = _
          simp only [d, hiu]
          rfl

end Steps

/-! ## create -/

section Create

variable {c} {s t u : St} {i j dp off : Nat} {name : Name} {z : Int} {type : Ty}

/-- A free inode is neither locked nor valid in the cache. -/
theorem Sound.free (hs : Sound s) (ht : (s.inodes i).type = .free) : s.locks i = false ∧
    (0 < s.ref i → (s.icache i).valid = false) := by
  have hv : 0 < s.ref i → (s.icache i).valid = false := by
    intro hpos
    by_contra hv
    exact hs.cached i hpos (by simpa using hv) ht
  refine ⟨?_, hv⟩
  by_contra hl
  obtain ⟨hpos, hvalid⟩ := hs.held i (by simpa using hl)
  rw [hv hpos] at hvalid
  cases hvalid

/-- The first free inode, allocated and referenced but neither locked nor read. -/
theorem ialloc_cases (hs : Sound s) : (∃ e, ialloc c type s = .error e ∧ Plain e) ∨
    ∃ i, 1 ≤ i ∧ i < c.ninodes ∧ (s.inodes i).type = .free ∧
      ialloc c type s = .ok (i, (s.setInode i { type, nlink := 0, ents := [] }).setSlot i
      { ref := s.ref i + 1, valid := false, locked := false }) := by
  simp only [ialloc, state_bind_run]
  cases hi : (List.range c.ninodes).find? fun i => 1 ≤ i ∧ (s.inodes i).type = .free with
  | some i =>
    obtain ⟨hi1, hfree⟩ : 1 ≤ i ∧ (s.inodes i).type = .free := by
      have := List.find?_some hi
      simpa using this
    have hlt : i < c.ninodes := List.mem_range.1 (List.mem_of_find?_eq_some hi)
    obtain ⟨hlock, hvalid⟩ := hs.free hfree
    have hlocked : (s.icache i).locked = false := hlock
    have hcount : (s.setInode i { type, nlink := 0, ents := [] }).inUse c = s.inUse c := rfl
    by_cases hpos : 0 < (s.icache i).ref
    · refine .inr ⟨i, hi1, hlt, hfree, ?_⟩
      simp [iget, bind_run, state, ok_bind, hpos, hlocked, hvalid hpos]
    · by_cases hroom : s.inUse c < NINODE
      · refine .inr ⟨i, hi1, hlt, hfree, ?_⟩
        have hzero : s.ref i = 0 := Int.le_antisymm (by simpa using hpos) (hs.nonneg i)
        simp [iget, bind_run, state, ok_bind, hcount, hroom, hlocked, hzero]
      · refine .inl ⟨.igetNoInodes, ?_, by decide⟩
        simp [iget, bind_run, state, ok_bind, hpos, hcount, hroom]
        rfl
  | none => exact .inl ⟨_, rfl, by decide⟩

theorem makeNode_spec (hs : Sound s) (htype : type ≠ .free) : Sat (makeNode c type s) Plain fun r =>
    1 ≤ r.1 ∧ r.1 < c.ninodes ∧ (s.inodes r.1).type = .free ∧ Sound r.2 ∧
    Eff s r.2 (one r.1) (update s.locks r.1 true) 0 ∧
      r.2.inodes = Tree.fresh s.inodes r.1 type := by
  rcases ialloc_cases (c := c) hs with ⟨e, he, hp⟩ | ⟨i, hi1, hlt, hfree, hrun⟩
  · rw [makeNode, bind_error_run he]
    exact .error hp
  · have h0 := hs.nonneg i
    have hlock : ilock i ((s.setInode i { type, nlink := 0, ents := [] }).setSlot i
      { ref := s.ref i + 1, valid := false, locked := false }) =
        .ok (⟨⟩, (s.setInode i { type, nlink := 0, ents := [] }).setSlot i
        { ref := s.ref i + 1, valid := true, locked := true }) := by
      have hr : ¬ s.ref i + 1 < 1 := by omega
      simp [ilock, hr, htype, St.setInode, St.setSlot]
    have hshort : short 1 = 1 := by decide
    rw [makeNode, bind_ok_run hrun, bind_ok_run hlock]
    refine .ok ⟨hi1, hlt, hfree, ⟨?_, ?_, ?_, ?_, hs.committed⟩, ?_, ?_⟩
    · intro j
      have := hs.nonneg j
      change 0 ≤ St.ref (St.setSlot _ i _) j
      rw [setSlot_ref]
      split
      · simp only
        omega
      · exact this
    · intro j
      by_cases hj : j = i
      · subst hj
        exact fun _ _ => by simpa [St.setInode, St.setSlot] using htype
      · have := hs.cached j
        simpa [St.ref, St.setInode, St.setSlot, Function.update_of_ne hj] using this
    · intro j
      by_cases hj : j = i
      · subst hj
        intro _ hn
        simp [St.setInode, St.setSlot, hshort] at hn
      · have := hs.orphans j
        simpa [St.ref, St.setInode, St.setSlot, Function.update_of_ne hj] using this
    · intro j
      by_cases hj : j = i
      · subst hj
        intro _
        simp only [St.ref] at h0
        simp only [St.ref, St.setInode, St.setSlot, Function.update_self]
        exact ⟨by omega, trivial⟩
      · have := hs.held j
        simpa [St.ref, St.locks, St.setInode, St.setSlot, Function.update_of_ne hj] using this
    · refine ⟨fun j => ?_, setSlot_locks, (Int.add_zero _).symm, rfl, rfl⟩
      change St.ref (St.setSlot _ i _) j = _
      rw [setSlot_ref, one]
      split
      · next h => rw [h]
      · exact (Int.add_zero _).symm
    · simp [St.setInode, St.setSlot, Tree.fresh, hshort]

/-- The dots of a new directory: two entries, and one link more for the parent. -/
theorem makeDots_spec (hs : Sound s) (hne : i ≠ dp) (htype : (s.inodes i).type = type) (hents : (s.inodes i).ents = [])
    (hli : s.locks i = true) (hld : s.locks dp = true) : Sat (makeDots c type dp i s) Plain fun r =>
    Sound r.2 ∧ Eff s r.2 0 s.locks 0 ∧
      r.2.inodes = if type = .dir then ((Tree.link s.inodes dp 1).addEnt i ".".toList i).addEnt
      i "..".toList dp else s.inodes := by
  unfold makeDots
  by_cases hdir : type = .dir
  · rw [if_pos hdir, if_pos hdir]
    obtain ⟨t, ht, hst, het, hit⟩ := addLink_run (z := 1) hs hld
    have hti : t.inodes i = s.inodes i := by
      rw [hit]
      exact Function.update_of_ne hne ..
    have htl : t.locks = s.locks := het.locks
    have htdir : (t.inodes i).type = .dir := by rw [hti, htype, hdir]
    rw [bind_ok_run ht, bind_run]
    refine Sat.bind (dirlink_spec hst htdir (by rw [htl, hli]) ?_) ?_
    · intro off j h
      rw [hti, hents] at h
      cases h
    rintro ⟨b, u⟩ - ⟨hsu, heu, hcases⟩
    change Sound u at hsu
    change Eff t u 0 t.locks 0 at heu
    have hul : u.locks = s.locks := heu.locks.trans htl
    rcases hcases with ⟨-, hfound, -⟩ | ⟨hb, -, hiu⟩
    · rw [hti, hents] at hfound
      exact absurd rfl hfound
    change u.inodes = _ at hiu
    have hui : (u.inodes i).type = .dir ∧ (u.inodes i).ents = [{ inum := i, name := ".".toList }] := by
      rw [hiu, Tree.addEnt, Function.update_self, hti, hents]
      exact ⟨htype.trans hdir, rfl⟩
    have hdots : lookup (u.inodes i).ents "..".toList = none := by
      have hcmp : namecmp ['.', '.'] ['.'] = false := by decide
      simp [hui.2, lookup, hcmp]
    rw [bind_run]
    refine Sat.bind (dirlink_spec hsu hui.1 (by rw [hul, hli]) ?_) ?_
    · intro off j h
      rw [hdots] at h
      cases h
    rintro ⟨b', v⟩ - ⟨hsv, hev, hcases⟩
    change Sound v at hsv
    change Eff u v 0 u.locks 0 at hev
    rcases hcases with ⟨-, hfound, -⟩ | ⟨hb', -, hiv⟩
    · exact absurd hdots hfound
    change v.inodes = _ at hiv
    simp only at hb hb'
    subst hb hb'
    refine .ok ⟨hsv, ((het.trans heu).trans hev).congr (fun j => by simp) hul rfl, ?_⟩
    change v.inodes = _
    rw [hiv, hiu, hit]
  · rw [if_neg hdir, if_neg hdir]
    exact .ok ⟨hs, .refl s, rfl⟩

/-- What `create` makes in `dp`: the new inode is locked and referenced, `dp` is given up. -/
theorem createIn_spec (hs : Sound s) (htype : type ≠ .free) (hdir : (s.inodes dp).type = .dir)
    (hnone : lookup (s.inodes dp).ents name = none)
    (hl : s.locks dp = true) : Sat (createIn c dp name type s) Plain fun r =>
      ∃ i, r.1 = some i ∧ 1 ≤ i ∧ i < c.ninodes ∧ (s.inodes i).type = .free ∧ Sound r.2 ∧
        Eff s r.2 (one i - one dp) (update (update s.locks dp false) i true) 0 ∧
        Tree.Put (Tree.created s.inodes dp name i type) dp (s.ref dp - 1) r.2.inodes := by
  unfold createIn
  rw [bind_run]
  refine Sat.bind (makeNode_spec hs htype) ?_
  rintro ⟨i, t⟩ - ⟨hi1, hlt, hfree, hst, het, hit⟩
  simp only at hi1 hlt hfree hst het hit
  have hne : i ≠ dp := by
    rintro rfl
    rw [hfree] at hdir
    cases hdir
  have htd : t.inodes dp = s.inodes dp := by
    rw [hit]
    exact Function.update_of_ne hne.symm ..
  have hti : t.inodes i = { type, nlink := 1, ents := [] } := by
    rw [hit]
    exact Function.update_self ..
  have htli : t.locks i = true := by rw [het.locks, Function.update_self]
  have htld : t.locks dp = true := by rw [het.locks, Function.update_of_ne hne.symm, hl]
  rw [bind_run]
  refine Sat.bind (makeDots_spec hst hne (by rw [hti]) (by rw [hti]) htli htld) ?_
  rintro ⟨⟨⟩, u⟩ - ⟨hsu, heu, hiu⟩
  change Sound u at hsu
  change Eff t u 0 t.locks 0 at heu
  change u.inodes = _ at hiu
  have hud : (u.inodes dp).type = .dir ∧ (u.inodes dp).ents = (s.inodes dp).ents := by
    rw [hiu]
    split
    · rw [Tree.addEnt, Function.update_of_ne hne.symm, Tree.addEnt, Function.update_of_ne hne.symm,
        Tree.link, Function.update_self, htd]
      exact ⟨hdir, rfl⟩
    · rw [htd]
      exact ⟨hdir, rfl⟩
  have huld : u.locks dp = true := by rw [heu.locks, htld]
  rw [bind_run]
  refine Sat.bind (dirlink_spec hsu hud.1 huld ?_) ?_
  · intro off j h
    rw [hud.2, hnone] at h
    cases h
  rintro ⟨b, v⟩ - ⟨hsv, hev, hcases⟩
  change Sound v at hsv
  change Eff u v 0 u.locks 0 at hev
  rcases hcases with ⟨-, hfound, -⟩ | ⟨hb, -, hiv⟩
  · rw [hud.2] at hfound
    exact absurd hnone hfound
  change v.inodes = _ at hiv
  change b = true at hb
  subst hb
  have hvld : v.locks dp = true := by rw [hev.locks, huld]
  obtain ⟨w, hrun, hsw, hew, hput⟩ := iunlockput_run hsv hvld
  simp only [Bool.not_true, Bool.false_eq_true, if_false]
  rw [bind_ok_run hrun]
  refine .ok ⟨i, rfl, hi1, hlt, hfree, hsw, (((het.trans heu).trans hev).trans hew).congr (fun j => ?_) ?_ rfl, ?_⟩
  · simp only [Pi.add_apply, Pi.zero_apply, Pi.neg_apply, Pi.sub_apply]
    omega
  · rw [hev.locks, heu.locks, het.locks, Function.update_comm hne]
  · have hcreated : v.inodes = Tree.created s.inodes dp name i type := by
      rw [hiv, hiu, hit, Tree.created]
      split <;> rfl
    have hleft : v.ref dp = s.ref dp := by
      rw [hev.ref, heu.ref, het.ref, one, if_neg hne.symm]
      simp
    rw [← hcreated, ← hleft]
    exact hput.tree

/-- An inode that is there already is returned locked, or given up. -/
theorem reopen_spec (hs : Sound s) (hl : s.locks dp = true) (hrest : ∀ j, j ≠ dp → s.locks j = false)
    (hput : ∀ t, Put s dp t → t.inodes = s.inodes)
    (hi : (s.inodes i).type ≠ .free → (s.inodes i).nlink = 0 → 1 + one dp i < s.ref i) :
    Sat (reopen dp i type s) Plain fun r => Sound r.2 ∧ r.2.inodes = s.inodes ∧ (s.inodes i).type ≠ .free ∧
      ((r.1 = none ∧ ¬ (type = .file ∧ (s.inodes i).type = .file) ∧
          Eff s r.2 (-one dp - one i) (update s.locks dp false) 0) ∨
        (r.1 = some i ∧ type = .file ∧ (s.inodes i).type = .file ∧
          Eff s r.2 (-one dp) (update (update s.locks dp false) i true) 0)) := by
  unfold reopen
  obtain ⟨t, ht, hst, het, hput'⟩ := iunlockput_run hs hl
  have hit := hput t hput'
  have htl : t.locks i = false := by
    rw [het.locks]
    by_cases hj : i = dp
    · rw [hj, Function.update_self]
    · rw [Function.update_of_ne hj, hrest i hj]
  rw [bind_ok_run ht, bind_run]
  refine Sat.bind ((ilock_spec hst htl).mono (fun _ h => h.1) fun _ h => h) ?_
  rintro ⟨⟨⟩, u⟩ - ⟨-, hfree, hsu, heu, hiu⟩
  change Sound u at hsu
  change Eff t u 0 (update t.locks i true) 0 at heu
  change u.inodes = t.inodes at hiu
  have hui : u.inodes = s.inodes := hiu.trans hit
  have hul : u.locks i = true := by rw [heu.locks, Function.update_self]
  rw [hit] at hfree
  rw [state_bind_run, hui]
  by_cases hfile : type = .file ∧ (s.inodes i).type = .file
  · rw [if_pos hfile, pure_run]
    have heff : Eff s u (-one dp) (update (update s.locks dp false) i true) 0 :=
      (het.trans heu).congr (fun j => by simp) (by rw [het.locks]) rfl
    exact .ok ⟨hsu, hui, hfree, .inr ⟨rfl, hfile.1, hfile.2, heff⟩⟩
  · rw [if_neg hfile]
    obtain ⟨v, hv, hsv, hev, hputv⟩ := iunlockput_run hsu hul
    have huref : u.ref i = s.ref i - one dp i := by
      rw [heu.ref, het.ref, Pi.zero_apply, Pi.neg_apply]
      omega
    rw [bind_ok_run hv]
    refine .ok ⟨hsv, ?_, hfree, .inl ⟨rfl, hfile, ((het.trans heu).trans hev).congr (fun j => ?_) ?_ rfl⟩⟩
    · cases hputv with
      | kept h _ => exact h.trans hui
      | freed _ h1 h2 h3 =>
        rw [hui] at h1 h2
        have := hi h1 h2
        omega
    · simp only [Pi.add_apply, Pi.zero_apply, Pi.neg_apply, Pi.sub_apply]
      omega
    · rw [heu.locks, het.locks, Function.update_idem]
      exact (Function.update_eq_self_iff ..).2 (by rw [← het.locks, htl])

/-- What `create` comes to. -/
inductive Created (c : Config) (s : St) (cwd : Option Nat) (path : Path) (type : Ty) : Option Nat → St → Prop
  | noParent (t : St) (hw : walkFrom c s cwd path true = some none) (ht : t.inodes = s.inodes)
      (he : Eff s t 0 s.locks 0) :
    Created c s cwd path type none t
  | taken (t : St) (dp : Nat) (name : Name) (off i : Nat) (hw : walkFrom c s cwd path true = some (some (dp, name)))
    (hlook : lookup (s.inodes dp).ents name = some (off, i)) (hroom : ¬ (s.addRef dp).full c i)
    (hfree : (s.inodes i).type ≠ .free)
    (htype : ¬ (type = .file ∧ (s.inodes i).type = .file)) (ht : t.inodes = s.inodes)
    (he : Eff s t 0 s.locks 0) : Created c s cwd path type none t
  | there (t : St) (i : Nat) (hfile : type = .file) (htype : (s.inodes i).type = .file) (ht : t.inodes = s.inodes)
    (he : Eff s t (one i) (update s.locks i true) 0) : Created c s cwd path type (some i) t
  | made (t : St) (dp : Nat) (name : Name) (i : Nat) (hw : walkFrom c s cwd path true = some (some (dp, name)))
    (hdir : (s.inodes dp).type = .dir) (hlook : lookup (s.inodes dp).ents name = none) (hi : 1 ≤ i ∧ i < c.ninodes)
    (hfree : (s.inodes i).type = .free) (ht : Tree.Put (Tree.created s.inodes dp name i type) dp (s.ref dp) t.inodes)
    (he : Eff s t (one i) (update s.locks i true) 0) : Created c s cwd path type (some i) t

/-- A walk to a parent ends in a directory. -/
theorem walk_parent_dir : ∀ {els : List Name} {ip j : Nat} {nm : Name}, walk c s true els ip =
    some (some (j, nm)) → (s.inodes j).type = .dir
  | [], ip, j, nm, h => by simp [walk] at h
  | name :: rest, ip, j, nm, h => by
    simp only [walk] at h
    split at h
    · cases h
    · split at h
      · cases h
      · next hdir =>
        split at h
        · obtain ⟨rfl, -⟩ : ip = j ∧ name = nm := by simpa using h
          exact not_not.1 hdir
        · split at h
          · cases h
          · split at h
            · cases h
            · exact walk_parent_dir h

theorem walkFrom_parent_dir {cwd : Option Nat} {path : Path} {nm : Name}
    (h : walkFrom c s cwd path true = some (some (j, nm))) :
    (s.inodes j).type = .dir := by
  unfold walkFrom at h
  split at h
  · split at h
    · cases h
    · exact walk_parent_dir h
  · split at h
    · exact walk_parent_dir h
    · cases h

/-- **create** stops only in a panic of its own; what it returns is locked. -/
theorem create_spec {cwd : Option Nat} {path : Path} (hs : Sound s) (hl : ∀ i, s.locks i = false)
    (hcwd : ∀ i, cwd = some i → 0 < s.ref i)
    (htype : type ≠ .free) : Sat (create c cwd path type s) Plain fun r => Sound r.2 ∧
    Created c s cwd path type r.1 r.2 := by
  unfold create
  rw [bind_run]
  refine Sat.bind ((namex_spec hs hl hcwd).mono (fun _ h => h.1) fun _ h => h) ?_
  rintro ⟨r, t⟩ - ⟨hw, hst, het, hit⟩
  simp only at hw hst het hit
  cases r with
  | none => exact .ok ⟨hst, .noParent t hw hit het⟩
  | some r =>
    obtain ⟨dp, name⟩ := r
    have hdir := walkFrom_parent_dir hw
    have htl : ∀ j, t.locks j = false := fun j => by rw [het.locks, hl]
    refine sat_bind ((ilock_spec hst (htl dp)).mono (fun _ h => h.1) fun _ h => h) ?_
    rintro ⟨⟩ u - ⟨-, -, hsu, heu, hiu⟩
    change Sound u at hsu
    change Eff t u 0 (update t.locks dp true) 0 at heu
    change u.inodes = t.inodes at hiu
    have hui : u.inodes = s.inodes := hiu.trans hit
    have hudir : (u.inodes dp).type = .dir := by rw [hui, hdir]
    have hul : u.locks = update s.locks dp true := by rw [heu.locks, het.locks]
    have huref : ∀ j, u.ref j = s.ref j + one dp j :=
      fun j => by rw [heu.ref, het.ref, Pi.zero_apply, Int.add_zero, gain]
    refine sat_bind ((dirlookup_spec _ hsu hudir).mono (fun _ h => h.1) fun _ h => h) ?_
    rintro r v - ⟨hr, hsv, hiv, hev, hroom⟩
    simp only at hr hsv hiv hev hroom
    have hvi : v.inodes = s.inodes := hiv.trans hui
    have hvl : v.locks = update s.locks dp true := by rw [hev.locks, hul]
    have hvld : v.locks dp = true := by rw [hvl, Function.update_self]
    have hback : update (update s.locks dp true) dp false = s.locks := by
      rw [Function.update_idem]
      exact (Function.update_eq_self_iff ..).2 (hl dp).symm
    rw [hui] at hr
    cases r with
    | some r =>
      obtain ⟨off, i⟩ := r
      have hvref : ∀ j, v.ref j = s.ref j + one dp j + one i j := fun j => by rw [hev.ref, huref, gainEnt]
      have hrest : ∀ j, j ≠ dp → v.locks j = false := fun j hj => by rw [hvl, Function.update_of_ne hj, hl]
      have hput : ∀ w, Put v dp w → w.inodes = v.inodes := by
        intro w h
        cases h with
        | kept h _ => exact h
        | freed _ h1 h2 h3 =>
          rw [hvi] at h1 h2
          have := (hs.orphans dp h1 h2).1
          have hone : one dp dp = 1 := if_pos rfl
          have hpos : 0 ≤ one i dp := by unfold one; split <;> omega
          have := hvref dp
          omega
      have hi : (v.inodes i).type ≠ .free → (v.inodes i).nlink = 0 → 1 + one dp i < v.ref i := by
        rw [hvi, hvref]
        intro h1 h2
        have := (hs.orphans i h1 h2).1
        have hone : one i i = 1 := if_pos rfl
        omega
      refine (reopen_spec hsv hvld hrest hput hi).mono (fun _ h => h) ?_
      rintro ⟨r, w⟩ ⟨hsw, hiw, hfree, hcases⟩
      simp only at hsw hiw hfree hcases
      have hwi : w.inodes = s.inodes := hiw.trans hvi
      rcases hcases with ⟨rfl, hn, hew⟩ | ⟨rfl, h1, h2, hew⟩
      · rw [hvi] at hn hfree
        have hnf : ¬ (s.addRef dp).full c i :=
          fun h => hroom off i rfl ((full_congr fun j => by rw [huref, addRef_ref]).2 h)
        refine ⟨hsw, .taken w dp name off i hw hr.symm hnf hfree hn hwi
          ((((het.trans heu).trans hev).trans hew).congr (fun j => ?_) ?_ rfl)⟩
        · simp only [Pi.add_apply, Pi.zero_apply, Pi.neg_apply, Pi.sub_apply, gain, gainEnt]
          omega
        · rw [hvl, hback]
      · rw [hvi] at h2
        refine ⟨hsw, .there w i h1 h2 hwi ((((het.trans heu).trans hev).trans hew).congr (fun j => ?_) ?_ rfl)⟩
        · simp only [Pi.add_apply, Pi.zero_apply, Pi.neg_apply, gain, gainEnt]
          omega
        · rw [hvl, hback]
    | none =>
      have hvdir : (v.inodes dp).type = .dir := by rw [hvi, hdir]
      refine (createIn_spec hsv htype hvdir (by rw [hvi]; exact hr.symm) hvld).mono (fun _ h => h) ?_
      rintro ⟨r, w⟩ ⟨i, hri, hi1, hlt, hfree, hsw, hew, hputw⟩
      simp only at hri hsw hew hputw
      subst hri
      have hleft : v.ref dp - 1 = s.ref dp := by
        rw [hev.ref, huref, gainEnt, one, if_pos rfl, Pi.zero_apply]
        omega
      rw [hvi, hleft] at hputw
      rw [hvi] at hfree
      refine ⟨hsw, .made w dp name i hw hdir hr.symm ⟨hi1, hlt⟩ hfree hputw
        ((((het.trans heu).trans hev).trans hew).congr (fun j => ?_) ?_ rfl)⟩
      · simp only [Pi.add_apply, Pi.zero_apply, Pi.sub_apply, gain, gainEnt]
        omega
      · rw [hvl, hback]

end Create

end Dirs
