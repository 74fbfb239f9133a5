import CCppProjects.Fs.Counts
/-
# Link counts over runs

Every call but those that enter a name keeps `Counted` by itself. `create` and `sys_link` keep it where the
directory entered has a link and the count one step of room (`Enters`); the swap files live in the root
directory, which nobody can remove.
-/
namespace Dirs

open Fs (Ty)
open Function (update)
open Prog

section

variable {T U : Tree} {N i dp off : Nat} {name : Name} {type : Ty}

theorem short_succ {z : Int} (h : short z = z) (hroom : z < 32767) : short (z + 1) = z + 1 := by
  simp only [short] at h ⊢
  omega

theorem Live.ne_of_free (hd : Live T dp) (hi : (T i).type = .free) : i ≠ dp := by
  rintro rfl
  rw [Live, hi] at hd
  cases hd.1

theorem dots_of_new (hi : i ≠ 0) :
    putEnt (putEnt [] (freeSlot []) { inum := i, name := ".".toList.take DIRSIZ })
      (freeSlot (putEnt [] (freeSlot []) { inum := i, name := ".".toList.take DIRSIZ }))
      { inum := dp, name := "..".toList.take DIRSIZ } =
    [{ inum := i, name := ".".toList }, { inum := dp, name := "..".toList }] := by
  have hslot : freeSlot [{ inum := i, name := ".".toList.take DIRSIZ }] = 1 := by simp [freeSlot, hi]
  have hfirst : putEnt [] (freeSlot []) { inum := i, name := ".".toList.take DIRSIZ } =
    [{ inum := i, name := ".".toList.take DIRSIZ }] := rfl
  rw [hfirst, hslot]
  rfl

/-- **create** -/
theorem Counted.created (h : Counted N T) (hdp : Live T dp) (hi : 1 ≤ i ∧ i < N)
    (hfree : (T i).type = .free) (htype : type ≠ .free)
    (hroom : type = .dir → (T dp).nlink < 32767) : Counted N (T.created dp name i type) := by
  have hne := hdp.ne_of_free hfree
  unfold Tree.created
  by_cases hdir : type = .dir
  · rw [if_pos hdir]
    subst hdir
    have hshort := short_succ (h.wide dp) (hroom rfl)
    -- the five steps, at the new directory and at the one above
    have hati : ((((T.fresh i .dir).link dp 1).addEnt i ".".toList i).addEnt i "..".toList dp) i =
        { type := .dir, nlink := 1, ents := [{ inum := i, name := ".".toList },
        { inum := dp, name := "..".toList }] } := by
      simp only [Tree.addEnt, Tree.link, Tree.fresh, Function.update_self, Function.update_of_ne hne,
        dots_of_new (by omega : i ≠ 0)]
    have hatd : ((((T.fresh i .dir).link dp 1).addEnt i ".".toList i).addEnt i "..".toList dp) dp =
      { T dp with nlink := (T dp).nlink + 1 } := by
      simp only [Tree.addEnt, Tree.link, Tree.fresh, Function.update_self, Function.update_of_ne hne.symm, hshort]
    have hother : ∀ d, d ≠ i → d ≠ dp →
      ((((T.fresh i .dir).link dp 1).addEnt i ".".toList i).addEnt i "..".toList dp) d = T d :=
      fun d hdi hdd => by
      simp only [Tree.addEnt, Tree.link, Tree.fresh, Function.update_of_ne hdi, Function.update_of_ne hdd]
    generalize (((T.fresh i .dir).link dp 1).addEnt i ".".toList i).addEnt i "..".toList dp = V at hati hatd hother
    have hen : Entered T (V.addEnt dp name i) dp i (name.take DIRSIZ) := by
      refine ⟨hne, ?_, ?_, fun d hdi hdd => ?_⟩
      · rw [Tree.addEnt, Function.update_self, hatd]
      · rw [Tree.addEnt, Function.update_self, hatd]
      · rw [Tree.addEnt, Function.update_of_ne hdd, hother d hdi hdd]
    refine h.enter_dir ⟨hen, hdp, hfree, ?_, ?_⟩ hi ?_
    · rw [Tree.addEnt, Function.update_self, hatd]
    · rw [Tree.addEnt, Function.update_of_ne hne, hati]
    · rw [Tree.addEnt, Function.update_self, hatd, hshort]
  · rw [if_neg hdir]
    have hatd : T.fresh i type dp = T dp := Function.update_of_ne hne.symm ..
    have hati : (T.fresh i type).addEnt dp name i i = { type, nlink := 1, ents := [] } := by
      rw [Tree.addEnt, Function.update_of_ne hne, Tree.fresh, Function.update_self]
    have hen : Entered T ((T.fresh i type).addEnt dp name i) dp i (name.take DIRSIZ) := by
      refine ⟨hne, ?_, ?_, fun d hdi hdd => ?_⟩
      · rw [Tree.addEnt, Function.update_self, hatd]
      · rw [Tree.addEnt, Function.update_self, hatd]
      · rw [Tree.addEnt, Function.update_of_ne hdd, Tree.fresh, Function.update_of_ne hdi]
    refine h.enter_file hen hdp ?_ hi (by simp [hfree]) ?_ ?_ ?_ ?_
    · rw [Tree.addEnt, Function.update_self, hatd]
    · rw [hati]
      exact htype
    · rw [hati]
      exact hdir
    · rw [hati, h.count_free hfree (by omega)]
      rfl
    · rw [hati]
      rfl

/-- **link** -/
theorem Counted.linked (h : Counted N T) (hdp : Live T dp) (hfree : (T i).type ≠ .free)
    (hdir : (T i).type ≠ .dir) (hroom : (T i).nlink < 32767) :
    Counted N ((T.link i 1).addEnt dp name i) := by
  have hne : i ≠ dp := by
    rintro rfl
    exact hdir hdp.1
  have hatd : T.link i 1 dp = T dp := Function.update_of_ne hne.symm ..
  have hati : (T.link i 1).addEnt dp name i i = { T i with nlink := (T i).nlink + 1 } := by
    rw [Tree.addEnt, Function.update_of_ne hne, Tree.link, Function.update_self, short_succ (h.wide i) hroom]
  have hen : Entered T ((T.link i 1).addEnt dp name i) dp i (name.take DIRSIZ) := by
    refine ⟨hne, ?_, ?_, fun d hdi hdd => ?_⟩
    · rw [Tree.addEnt, Function.update_self, hatd]
    · rw [Tree.addEnt, Function.update_self, hatd]
    · rw [Tree.addEnt, Function.update_of_ne hdd, Tree.link, Function.update_of_ne hdi]
  refine h.enter_file hen hdp ?_ (h.inside i hfree) hdir ?_ ?_ ?_ ?_
  · rw [Tree.addEnt, Function.update_self, hatd]
  · rw [hati]
    exact hfree
  · rw [hati]
    exact hdir
  · rw [hati, h.count i hfree hdir]
  · rw [hati, short_succ (h.wide i) hroom]

/-- What `sys_link` takes back was one link: a `short` comes back from both of its ends. -/
theorem Counted.relink (h : Counted N T) : (T.link i 1).link i (-1) = T := by
  have hn := h.wide i
  funext d
  by_cases hd : d = i
  · subst hd
    have : short (short ((T d).nlink + 1) + -1) = (T d).nlink := by
      simp only [short] at hn ⊢
      omega
    rw [Tree.link, Function.update_self, Tree.link, Function.update_self, this]
  · rw [Tree.link, Function.update_of_ne hd, Tree.link, Function.update_of_ne hd]

/-- **unlink** -/
theorem Counted.unlinked (h : Counted N T) (hd : (T dp).type = .dir)
    (hfound : lookup (T dp).ents name = some (off, i)) (hdots : dots name = false)
    (hfree : (T i).type ≠ .free) (hempty : (T i).type = .dir → isdirempty (T i).ents = true) :
    Counted N (T.unlinked dp off i) := by
  obtain ⟨e, he, hei, hi0, hc⟩ := lookup_some hfound
  -- a directory without a link holds no entries but its dots
  have hdp : Live T dp := by
    refine ⟨hd, fun hn => ?_⟩
    have hdot := h.dead dp off e hd hn he (hei ▸ hi0)
    rw [← dots_congr hc, hdots] at hdot
    cases hdot
  have hoff := h.two_le_off hdp hfound hdots
  have hne : i ≠ dp := by
    rintro rfl
    exact ((h.named i off e hdp hoff he (hei ▸ hi0)).2 (by rw [hei]; exact hd)).2.2 hei
  have htype : ∀ d, (T.unlinked dp off i d).type = (T d).type :=
    fun d => by rw [Tree.unlinked, Tree.link_type, Tree.dropped_type]
  have hdropi : T.dropped dp off i i = T i := by
    unfold Tree.dropped
    split
    · rw [Tree.link, Function.update_of_ne hne, Tree.dropEnt, Function.update_of_ne hne]
    · rw [Tree.dropEnt, Function.update_of_ne hne]
  have hati : T.unlinked dp off i i = { T i with nlink := short ((T i).nlink - 1) } := by
    rw [Tree.unlinked, Tree.link, Function.update_self, hdropi]
    rfl
  have hatd : T.unlinked dp off i dp =
    T.dropped dp off i dp := by rw [Tree.unlinked, Tree.link, Function.update_of_ne hne.symm]
  have hle : Left T (T.unlinked dp off i) dp off i e := by
    refine ⟨hne, hi0, hoff, ⟨he, hei⟩, ?_, htype, by rw [hati], by rw [hati], fun d hdi hdd => ?_⟩
    · rw [Tree.unlinked_ents, Tree.dropEnt, Function.update_self]
    · rw [Tree.unlinked, Tree.link, Function.update_of_ne hdi, Tree.dropped]
      split
      · rw [Tree.link, Function.update_of_ne hdd, Tree.dropEnt, Function.update_of_ne hdd]
      · rw [Tree.dropEnt, Function.update_of_ne hdd]
  by_cases hdir : (T i).type = .dir
  · refine h.leave_dir ⟨hle, hdp, ?_, hdir, hempty hdir⟩
    rw [hatd, Tree.dropped, if_pos hdir, Tree.link, Function.update_self, Tree.dropEnt, Function.update_self]
    rfl
  · refine h.leave_file hle hdp ?_ hfree hdir
    rw [hatd, Tree.dropped, if_neg hdir, Tree.dropEnt, Function.update_self]

end

variable (c : Config)

/-- The directory that the path leads into has a link, and room for `room` more. -/
def Into (s : St) (cwd : Option Nat) (path : Path) (room : Int) : Prop :=
  ∀ dp name, walkFrom c s cwd path true = some (some (dp, name)) → (s.inodes dp).nlink ≠ 0 ∧
    (s.inodes dp).nlink + room ≤ 32767

/-- A call that enters a name does so in a directory with a link, and no count is at its end. -/
def Enters (s : St) : Call → Prop
  | .sysOpen p (some path) m => m.create = true → Into c s (s.proc p).cwd path 0
  | .sysMkdir p (some path) => Into c s (s.proc p).cwd path 1
  | .sysMknod p (some path) => Into c s (s.proc p).cwd path 0
  | .sysLink p (some old) (some new) => ∀ i nm, walkFrom c s (s.proc p).cwd old false = some (some (i, nm)) →
      (s.inodes i).nlink < 32767 ∧ Into c (s.addRef i) (s.proc p).cwd new 0
  | _ => True

/-- What the link counts count, and what the entries lead to: a directory's parent has one entry for it, and no other
directory has any. -/
structure LinkCounts (s : St) : Prop where
  file : ∀ i, (s.inodes i).type ≠ .free → (s.inodes i).type ≠ .dir →
    (s.inodes i).nlink = Tree.count s.inodes c.ninodes i
  dir : ∀ d, Live s.inodes d → (s.inodes d).nlink = 1 + Tree.subs s.inodes c.ninodes d
  entry : ∀ (d k : Nat) (e : Dirent), Live s.inodes d → (s.inodes d).ents[k]? = some e →
    e.inum ≠ 0 → (s.inodes e.inum).type ≠ .free
  parent : ∀ x, Live s.inodes x → x ≠ ROOTINO → ∃ p k e, Up s.inodes x p ∧ Live s.inodes p ∧ 2 ≤ k ∧
    (s.inodes p).ents[k]? = some e ∧ e.inum = x ∧
    ∀ (d l : Nat) (a : Dirent), Live s.inodes d → 2 ≤ l → (s.inodes d).ents[l]? = some a → a.inum = x → d = p ∧ l = k
  orphan : ∀ i, (s.inodes i).type ≠ .free → (s.inodes i).nlink = 0 → 0 < s.ref i

section

variable {c} {s t u : St} {p pid : Nat} {cwd : Option Nat} {path old new : Path} {type : Ty} {T U : Tree} {b : Bool}

theorem Made.counted (h : Made c s cwd path type U) (htype : type ≠ .free) (hc : Counted c.ninodes s.inodes)
    (hinto : Into c s cwd path (if type = .dir then 1 else 0)) : Counted c.ninodes U := by
  cases h with
  | same _ hp => exact hc.puts hp
  | new dp i name _ hw hm hp =>
    obtain ⟨hlink, hroom⟩ := hinto dp name hw
    refine (hc.created ⟨hm.dir, hlink⟩ hm.inside hm.free htype fun hdir => ?_).puts hp
    rw [if_pos hdir] at hroom
    omega

theorem Unlinked.counted (h : Unlinked c s cwd path b U) (hc : Counted c.ninodes s.inodes) : Counted c.ninodes U := by
  cases h with
  | stays _ => exact hc
  | gone dp off i name _ _ hu hp => exact (hc.unlinked hu.dir hu.found hu.dots hu.alloc hu.empty).puts hp

theorem Linked.counted (h : Linked c s cwd old new b U) (hc : Counted c.ninodes s.inodes)
    (henters : ∀ i nm, walkFrom c s cwd old false = some (some (i, nm)) → (s.inodes i).nlink < 32767 ∧
    Into c (s.addRef i) cwd new 0) :
    Counted c.ninodes U := by
  cases h with
  | refused => exact hc
  | undone i _ _ hp =>
    rw [hc.relink] at hp
    exact hc.puts hp
  | made i dp nm name _ hw hw' hm hp =>
    obtain ⟨hroom, hinto⟩ := henters i nm hw
    exact (hc.linked ⟨hm.dir, (hinto dp name hw').1⟩ hm.alloc hm.file hroom).puts hp

/-- Swap files are made in `/`, which is live. -/
theorem Counted.into_swap (hc : Counted c.ninodes s.inodes) : Into c s cwd (swapPath pid) 0 := by
  intro dp name hw
  rw [walkFrom_swapPath] at hw
  split at hw
  · cases hw
  · split at hw
    · cases hw
    · split at hw
      · cases hw
      · obtain ⟨rfl, -⟩ : ROOTINO = dp ∧ swapName pid = name := by simpa using hw
        have hwide := hc.wide ROOTINO
        refine ⟨hc.root.1.2, ?_⟩
        simp only [short] at hwide
        omega

theorem Removed.counted (h : Removed c s p b t) (hs : Settled s) (htidy : Tidy s.inodes)
    (hc : Counted c.ninodes s.inodes) :
    Counted c.ninodes t.inodes := by
  cases h with
  | none _ => exact hc
  | closed f u _ _ _ hrun hun _ => exact hun.counted (hc.puts (closed_spec (p := p) hs htidy hrun).2.2.2.2.1)

theorem Renewed.counted (h : Renewed c s p U) (hs : Settled s) (htidy : Tidy s.inodes)
    (hc : Counted c.ninodes s.inodes) : Counted c.ninodes U := by
  cases h with
  | same => exact hc
  | new b u _ hr hm =>
    have hcu := hr.counted hs htidy hc
    exact hm.counted (by decide) hcu hcu.into_swap

theorem Exited.counted (h : Exited c s p U) (htidy : Tidy s.inodes) (hc : Counted c.ninodes s.inodes) :
    Counted c.ninodes U := by
  cases h with
  | puts _ hp => exact hc.puts hp
  | removed u t b hu hp hr => exact hr.counted hu (htidy.puts hp) (hc.puts hp)

theorem Forked.counted (h : Forked c s pid U) (hc : Counted c.ninodes s.inodes) : Counted c.ninodes U := by
  cases h with
  | same => exact hc
  | swap u i _ hu hm =>
    rw [← hu] at hc
    exact hm.counted (by decide) hc hc.into_swap

/-- One call. -/
theorem Counted.step (hc : Counted c.ninodes s.inodes) (hs : Inv s) {l : Call} (he : Enters c s l)
    (h : Step c s l t) : Counted c.ninodes t.inodes := by
  obtain ⟨hs, htidy⟩ := hs
  cases l with
  | sysOpen p path m =>
    obtain ⟨r, -, -, h2⟩ := of_map (sysOpen_spec hs) h
    cases path with
    | none =>
      rw [show t.inodes = s.inodes from h2]
      exact hc
    | some path =>
      cases hm : m.create with
      | true => exact (h2.1 hm).counted (by decide) hc (he hm)
      | false => exact hc.puts (h2.2 hm)
  | sysMkdir p path =>
    obtain ⟨r, -, -, h2⟩ := of_map (sysMake_spec (by decide) hs) h
    cases path with
    | none =>
      rw [show t.inodes = s.inodes from h2]
      exact hc
    | some path => exact Made.counted h2 (by decide) hc he
  | sysMknod p path =>
    obtain ⟨r, -, -, h2⟩ := of_map (sysMake_spec (by decide) hs) h
    cases path with
    | none =>
      rw [show t.inodes = s.inodes from h2]
      exact hc
    | some path => exact Made.counted h2 (by decide) hc he
  | sysLink p old new =>
    obtain ⟨b, -, -, h2⟩ := of_map (sysLink_ends hs (sysLink_waits hs h)) h
    cases old with
    | none =>
      rw [show t.inodes = s.inodes from h2]
      exact hc
    | some old =>
      cases new with
      | none =>
        rw [show t.inodes = s.inodes from h2]
        exact hc
      | some new => exact Linked.counted h2 hc he
  | sysUnlink p path =>
    obtain ⟨r, -, -, h2⟩ := of_map (sysUnlink_spec hs htidy) h
    cases path with
    | none =>
      rw [show t.inodes = s.inodes from h2]
      exact hc
    | some path => exact Unlinked.counted h2 hc
  | sysChdir p path =>
    obtain ⟨r, -, -, h2⟩ := of_map (sysChdir_spec hs) h
    exact hc.puts h2
  | sysClose p fd =>
    obtain ⟨r, -, -, -, h2⟩ := of_map (sysClose_spec hs) h
    exact hc.puts h2
  | sysExec p path l =>
    cases path with
    | none =>
      obtain rfl : s = t := by injection h
      exact hc
    | some path =>
      by_cases hf : ExecFine c s p path l
      · obtain ⟨r, -, -, u, hu, hiu, h2⟩ := of_map (sysExec_spec hs htidy hf) h
        exact h2.counted hu (hiu ▸ htidy) (hiu ▸ hc)
      · obtain ⟨e, he, -⟩ := sysExec_stuck hs htidy hf
        simp only [Step, Call.run, he] at h
        cases h
  | fork p pid =>
    obtain ⟨r, -, h2⟩ := of_map (fork_spec hs) h
    exact h2.counted hc
  | exit p =>
    obtain ⟨r, -, h2⟩ := of_map (exit_spec hs htidy) h
    exact h2.counted htidy hc

theorem Counted.linkCounts (hc : Counted c.ninodes s.inodes) (hs : Sound s) : LinkCounts c s := by
  refine ⟨hc.count, hc.subs, fun d k e hd he hn => ?_, fun x hx hr => ?_, fun i hi hn => (hs.orphans i hi hn).1⟩
  · rcases Nat.lt_or_ge k 2 with hk | hk
    · have hcases : k = 0 ∨ k = 1 := by omega
      rcases hcases with rfl | rfl
      · obtain rfl := Option.some.inj (he.symm.trans (hc.dot d hd))
        dsimp only
        rw [hd.1]
        decide
      · obtain ⟨p, hp, hpd⟩ := hc.dotdot d hd
        obtain rfl := Option.some.inj (he.symm.trans hp)
        dsimp only
        rw [hpd]
        decide
    · exact (hc.named d k e hd hk he hn).1
  · obtain ⟨p, k, e, hp, hpl, hk, he, rfl⟩ := hc.child x hx hr
    have h0 := (hc.inside e.inum (by rw [hx.1]; decide)).1
    refine ⟨p, k, e, hp, hpl, hk, he, rfl, fun d l a hd hl ha hae => ?_⟩
    have hup := ((hc.named d l a hd hl ha (by omega)).2 (by rw [hae]; exact hx.1)).2.1
    rw [hae] at hup
    obtain rfl := hup.unique hp
    exact ⟨rfl, hc.once d l k a e hd hl hk ha he hae (by rw [hae]; exact hx.1) (by omega)⟩

/-- **Link counts.** They count the names, from any counted disk, as long as names are entered into
directories that have a link. -/
theorem link_counts {ls : List Call} (hclean : Clean T) (hc : Counted c.ninodes T)
    (hrun : Lts.Run (Lts.On (Enters c) (Step c)) (booted T) ls s) :
    LinkCounts c s := by
  have hinv : Inv s ∧ Counted c.ninodes s.inodes := hrun.inv (I := fun s => Inv s ∧ Counted c.ninodes s.inodes)
    (fun _ _ _ hi hstep => ⟨hi.1.step hstep.2, hi.2.step hi.1 hstep.1 hstep.2⟩) ⟨.booted hclean, hc⟩
  exact hinv.2.linkCounts hinv.1.settled.sound

theorem live_rootTree {d : Nat} : Live rootTree d ↔ d = ROOTINO := by
  by_cases hd : d = ROOTINO
  · subst hd
    exact iff_of_true (by decide) rfl
  · refine iff_of_false (fun hl => ?_) hd
    simp [Live, rootTree, hd] at hl

theorem counted_rootTree : Counted swapping.ninodes rootTree := by
  have hfree : ∀ i, i ≠ ROOTINO → (rootTree i).type = .free := fun i hi => by simp [rootTree, hi]
  have hlen : (rootTree ROOTINO).ents.length = 2 := rfl
  have hnone : ∀ k (e : Dirent), 2 ≤ k → (rootTree ROOTINO).ents[k]? ≠ some e := fun k e hk he => by
    have := (List.getElem?_eq_some_iff.1 he).1
    omega
  refine ⟨fun i hi => ?_, ⟨by decide, by decide⟩, fun d hd => ?_, fun d hd => ?_,
    fun d k e hd hn he h0 => ?_, fun d k e hd hk he _ => ?_,
    fun x hx hr => absurd (live_rootTree.1 hx) hr, fun d k l a b hd hk hl ha => ?_, fun d hd => ?_,
    fun i hi hdir => ?_, fun i => ?_⟩
  · by_cases hr : i = ROOTINO
    · rw [hr]
      decide
    · exact absurd (hfree i hr) hi
  · obtain rfl := live_rootTree.1 hd
    rfl
  · obtain rfl := live_rootTree.1 hd
    exact ⟨ROOTINO, by decide, by decide⟩
  · by_cases hr : d = ROOTINO
    · subst hr
      cases hn
    · rw [hfree d hr] at hd
      cases hd
  · obtain rfl := live_rootTree.1 hd
    exact absurd he (hnone k e hk)
  · obtain rfl := live_rootTree.1 hd
    exact absurd ha (hnone k a hk)
  · obtain rfl := live_rootTree.1 hd
    have hzero : Tree.subs rootTree swapping.ninodes ROOTINO = 0 :=
      Finset.sum_eq_zero fun x _ => if_neg
        fun hr : Live rootTree x ∧ x ≠ ROOTINO ∧ Up rootTree x ROOTINO => hr.2.1 (live_rootTree.1 hr.1)
    rw [hzero]
    rfl
  · by_cases hr : i = ROOTINO
    · subst hr
      exact absurd rfl hdir
    · exact absurd (hfree i hr) hi
  · by_cases hr : i = ROOTINO
    · subst hr
      decide
    · simp [rootTree, hr, short]

/-- The first process makes a directory. -/
theorem link_counts_mkdir : ∃ s, Step swapping (booted rootTree) (.sysMkdir 0 (some "/a".toList)) s ∧
    LinkCounts swapping s := by
  have hok : ((Call.sysMkdir 0 (some "/a".toList)).run swapping (booted rootTree)).isOk = true := by decide +kernel
  have hwalk : walkFrom swapping (booted rootTree) (some ROOTINO) "/a".toList true =
    some (some (ROOTINO, "a".toList)) := by decide +kernel
  cases hrun : (Call.sysMkdir 0 (some "/a".toList)).run swapping (booted rootTree) with
  | error e =>
    rw [hrun] at hok
    cases hok
  | ok s =>
    refine ⟨s, hrun, link_counts clean_rootTree counted_rootTree (.cons ⟨?_, hrun⟩ (.nil _))⟩
    intro dp name hw
    obtain ⟨rfl, -⟩ : ROOTINO = dp ∧ "a".toList = name := by simpa using hwalk.symm.trans hw
    decide

end

end Dirs
