import CCppProjects.Fs.Names
/-
# The rest of the calls

| contract | call |
|---|---|
| `linkInto_spec`, `sysLink_spec` | `sys_link`; it waits for itself where the new name is one of the directory's own (`Selfward`) |
| `unlink_spec`, `unlink_stays`   | `sys_unlink`, `removeSwapFile` |
| `openInode_spec`                | the inode `sys_open` opens |
-/
namespace Dirs

open Fs (Ty NINODE)
open Function (update)
open Prog

variable (c : Config)

/-- The directory that the path leads into has an entry of that name for itself. -/
def Selfward (s : St) (cwd : Option Nat) (path : Path) : Prop :=
  ∃ dp name off, walkFrom c s cwd path true = some (some (dp, name)) ∧ lookup (s.inodes dp).ents name = some (off, dp)

section

variable {c} {s t u : St} {i j dp ip off : Nat} {name : Name} {z : Int} {cwd : Option Nat} {path : Path}

theorem Tree.addEnt_type {T : Tree} : (T.addEnt dp name i j).type = (T j).type := by
  by_cases h : j = dp
  · rw [h, Tree.addEnt, Function.update_self]
  · rw [Tree.addEnt, Function.update_of_ne h]

theorem Tree.link_type {T : Tree} : (T.link i z j).type = (T j).type := by
  by_cases h : j = i
  · rw [h, Tree.link, Function.update_self]
  · rw [Tree.link, Function.update_of_ne h]

theorem Tree.link_ents {T : Tree} : (T.link i z j).ents = (T j).ents := by
  by_cases h : j = i
  · rw [h, Tree.link, Function.update_self]
  · rw [Tree.link, Function.update_of_ne h]

theorem Tree.dropEnt_type {T : Tree} : (T.dropEnt dp off j).type = (T j).type := by
  by_cases h : j = dp
  · rw [h, Tree.dropEnt, Function.update_self]
  · rw [Tree.dropEnt, Function.update_of_ne h]

theorem Tree.dropped_type {T : Tree} : (T.dropped dp off i j).type = (T j).type := by
  unfold Tree.dropped
  split
  · rw [Tree.link_type, Tree.dropEnt_type]
  · rw [Tree.dropEnt_type]

theorem one_self (i : Nat) : one i i = 1 := if_pos rfl

theorem one_nonneg (i j : Nat) : 0 ≤ one i j := by
  unfold one
  split <;> omega

/-! ## link -/

/-- What a walk finds depends on references, types and entries. -/
theorem walk_congr {parent : Bool} (href : ∀ j, t.ref j = s.ref j) (ht : ∀ j, (t.inodes j).type = (s.inodes j).type)
    (he : ∀ j, (t.inodes j).ents = (s.inodes j).ents) : ∀ (els : List Name) (ip : Nat),
    walk c t parent els ip = walk c s parent els ip
  | [], _ => rfl
  | name :: rest, ip => by
    have hfull : ∀ next, (t.addRef ip).full c next ↔ (s.addRef ip).full c next := fun next =>
      full_congr fun j => by rw [addRef_ref, addRef_ref, href]
    simp only [walk, ht, he, hfull]
    split <;> try rfl
    split <;> try rfl
    split <;> try rfl
    split <;> try rfl
    split <;> try rfl
    exact walk_congr href ht he rest _

theorem walkFrom_congr {parent : Bool} (href : ∀ j, t.ref j = s.ref j) (ht : ∀ j, (t.inodes j).type = (s.inodes j).type)
    (he : ∀ j, (t.inodes j).ents = (s.inodes j).ents) :
    walkFrom c t cwd path parent = walkFrom c s cwd path parent := by
  have hfull : t.full c ROOTINO ↔ s.full c ROOTINO := full_congr href
  simp only [walkFrom, hfull, walk_congr href ht he]

theorem selfward_congr (href : ∀ j, t.ref j = s.ref j) (ht : ∀ j, (t.inodes j).type = (s.inodes j).type)
    (he : ∀ j, (t.inodes j).ents = (s.inodes j).ents) : Selfward c t cwd path ↔ Selfward c s cwd path := by
  simp only [Selfward, walkFrom_congr href ht he, he]

/-- The directory of the new name, found, locked and looked through. -/
theorem linkInto_spec (hs : Sound s) (hl : ∀ i, s.locks i = false) (hcwd : ∀ i, cwd = some i → 0 < s.ref i)
    (hself : ¬ Selfward c s cwd path) : Sat (linkInto c cwd path ip s) Plain fun r => Sound r.2 ∧
    Eff s r.2 0 s.locks 0 ∧
      ((r.1 = false ∧ r.2.inodes = s.inodes) ∨
      (r.1 = true ∧ ∃ dp name, walkFrom c s cwd path true = some (some (dp, name)) ∧
        lookup (s.inodes dp).ents name = none ∧
        Tree.Put (Tree.addEnt s.inodes dp name ip) dp (s.ref dp) r.2.inodes)) := by
  unfold linkInto
  refine sat_bind ((namex_spec hs hl hcwd).mono (fun _ h => h.1) fun _ h => h) ?_
  rintro r t - ⟨hw, hst, het, hit⟩
  simp only at hw hst het hit
  cases r with
  | none => exact .ok ⟨hst, het, .inl ⟨rfl, hit⟩⟩
  | some r =>
    obtain ⟨dp, name⟩ := r
    have hdir := walkFrom_parent_dir hw
    have htl : ∀ j, t.locks j = false := fun j => by rw [het.locks, hl]
    refine sat_bind ((ilock_spec hst (htl dp)).mono (fun _ h => h.1) fun _ h => h) ?_
    rintro ⟨⟩ u - ⟨-, -, hsu, heu, hiu⟩
    change Sound u at hsu
    change Eff t u 0 (update t.locks dp true) 0 at heu
    change u.inodes = t.inodes at hiu
    have hui : u.inodes = s.inodes := hiu.trans hit
    have hul : u.locks = update s.locks dp true := by rw [heu.locks, het.locks]
    have hback : update (update s.locks dp true) dp false = s.locks := by
      rw [Function.update_idem]
      exact (Function.update_eq_self_iff ..).2 (hl dp).symm
    have huref : u.ref dp = s.ref dp + 1 := by rw [heu.ref, het.ref, Pi.zero_apply, Int.add_zero, gain, one, if_pos rfl]
    refine sat_bind (dirlink_spec hsu (by rw [hui, hdir]) (by rw [hul, Function.update_self]) ?_) ?_
    · intro off j hlook
      have hne : j ≠ dp := by
        rintro rfl
        exact hself ⟨j, name, off, hw, hui ▸ hlook⟩
      rw [hul, Function.update_of_ne hne, hl]
    rintro b v - ⟨hsv, hev, hcases⟩
    change Sound v at hsv
    change Eff u v 0 u.locks 0 at hev
    have hvl : v.locks dp = true := by rw [hev.locks, hul, Function.update_self]
    have hvref : v.ref dp = s.ref dp + 1 := by rw [hev.ref, huref, Pi.zero_apply, Int.add_zero]
    obtain ⟨w, hrun, hsw, hew, hput⟩ := iunlockput_run hsv hvl
    rw [bind_ok_run hrun]
    have hall : Eff s w 0 s.locks 0 := (((het.trans heu).trans hev).trans hew).congr (fun j => by simp [gain])
      (by rw [hev.locks, hul, hback]) rfl
    rcases hcases with ⟨hb, -, hiv⟩ | ⟨hb, hnone, hiv⟩
    · exact .ok ⟨hsw, hall, .inl ⟨hb, hput.same hs (hiv.trans hui) hvref⟩⟩
    · refine .ok ⟨hsw, hall, .inr ⟨hb, dp, name, hw, hui ▸ hnone, ?_⟩⟩
      have hleft := hput.tree
      change v.inodes = _ at hiv
      rw [hiv, hui, hvref, Int.add_sub_cancel] at hleft
      exact hleft

/-- A name that the directory has for itself: `dirlink` gives up a reference to what it has locked. -/
theorem linkInto_deadlock (hs : Sound s) (hl : ∀ i, s.locks i = false)
    (hcwd : ∀ i, cwd = some i → 0 < s.ref i) (hself : Selfward c s cwd path) :
    linkInto c cwd path ip s = .error .deadlock := by
  obtain ⟨dp, name, off, hw, hlook⟩ := hself
  have hnamex : Sat (namex c cwd path true s) _ _ := namex_spec hs hl hcwd
  cases hrun : namex c cwd path true s with
  | error e =>
    have := (hnamex.of_error hrun).2
    rw [hw] at this
    cases this
  | ok r =>
    obtain ⟨r, t⟩ := r
    obtain ⟨hr, hst, het, hit⟩ := hnamex.of_ok hrun
    obtain rfl : some (dp, name) = r := by rw [hw] at hr; exact Option.some.inj hr
    have hdir := walkFrom_parent_dir hw
    change t.inodes = s.inodes at hit
    change Eff s t _ s.locks 0 at het
    have htl : t.locks dp = false := by rw [het.locks, hl]
    have hlock := ilock_spec hst htl
    rw [linkInto, bind_ok_run hrun]
    dsimp only
    cases hlrun : ilock dp t with
    | error e =>
      rcases (hlock.of_error hlrun).2 with h | h
      · have := hs.nonneg dp
        rw [het.ref, gain, one, if_pos rfl] at h
        omega
      · rw [hit, hdir] at h
        cases h
    | ok r =>
      obtain ⟨⟨⟩, u⟩ := r
      obtain ⟨-, -, hsu, heu, hiu⟩ := hlock.of_ok hlrun
      change u.inodes = t.inodes at hiu
      change Eff t u _ _ 0 at heu
      rw [bind_ok_run hlrun]
      apply bind_error_run
      have hfound : lookup (u.inodes dp).ents name = some (off, dp) := by rw [hiu, hit, hlook]
      refine dirlink_deadlock hsu ?_ hfound ?_ ip
      · rw [hiu, hit, hdir]
      · rw [heu.locks, Function.update_self]

/-- The end of a call: its reference goes, or first its link. -/
theorem linked_spec {b : Bool} (hs : Sound s) (hl : ∀ i, s.locks i = false) (hpos : 0 < s.ref i)
    (ht : (s.inodes i).type ≠ .free) :
    ∃ t, linked i b s = .ok (b, t) ∧ Sound t ∧ Eff s t (-one i) s.locks (-1) ∧
      Tree.Put (if b then s.inodes else Tree.link s.inodes i (-1)) i (s.ref i - 1) t.inodes := by
  unfold linked
  cases b with
  | true =>
    obtain ⟨t, hrun, hst, het, hput⟩ := iput_run hs hpos (hl i)
    obtain ⟨u, hend, hsu, heu, hiu⟩ := endOp_run hst
    rw [if_pos rfl, if_pos rfl, bind_ok_run hrun, bind_ok_run hend]
    refine ⟨u, rfl, hsu, (het.trans heu).congr (fun j => by simp) het.locks rfl, ?_⟩
    rw [hiu]
    exact hput.tree
  | false =>
    rw [if_neg Bool.false_ne_true, if_neg Bool.false_ne_true]
    have hlock := ilock_spec hs (hl i)
    cases hrun : ilock i s with
    | error e =>
      rcases (hlock.of_error hrun).2 with h | h
      · omega
      · exact absurd h ht
    | ok r =>
      obtain ⟨⟨⟩, u⟩ := r
      obtain ⟨-, -, hsu, heu, hiu⟩ := hlock.of_ok hrun
      change Sound u at hsu
      change Eff s u 0 (update s.locks i true) 0 at heu
      change u.inodes = s.inodes at hiu
      have hul : u.locks i = true := by rw [heu.locks, Function.update_self]
      obtain ⟨v, hadd, hsv, hev, hiv⟩ := addLink_run (z := -1) hsu hul
      have hvl : v.locks i = true := by rw [hev.locks, hul]
      obtain ⟨w, hput, hsw, hew, hputw⟩ := iunlockput_run hsv hvl
      obtain ⟨x, hend, hsx, hex, hix⟩ := endOp_run hsw
      rw [bind_ok_run hrun, bind_ok_run hadd, bind_ok_run hput, bind_ok_run hend]
      refine ⟨x, rfl, hsx, (((heu.trans hev).trans hew).trans hex).congr (fun j => by simp) ?_ rfl, ?_⟩
      · rw [hew.locks, hev.locks, heu.locks, Function.update_idem]
        exact (Function.update_eq_self_iff ..).2 (hl i).symm
      · have hvref : v.ref i = s.ref i := by rw [hev.ref, heu.ref, Pi.zero_apply, Int.add_zero, Int.add_zero]
        have hleft := hputw.tree
        rw [hiv, hiu, hvref] at hleft
        rw [hix]
        exact hleft

/-- What `sys_link` comes to. -/
inductive Linked (c : Config) (s : St) (cwd : Option Nat) (old new : Path) : Bool → Tree → Prop
  | refused : Linked c s cwd old new false s.inodes
  | undone (i : Nat) (U : Tree) (ht : (s.inodes i).type ≠ .free)
      (hp : Puts ((Tree.link s.inodes i 1).link i (-1)) U) : Linked c s cwd old new false U
  | made (i dp : Nat) (nm name : Name) (U : Tree) (hw : walkFrom c s cwd old false = some (some (i, nm)))
    (hw' : walkFrom c (s.addRef i) cwd new true = some (some (dp, name))) (hc : CanLink s.inodes i dp name)
    (hp : Puts ((Tree.link s.inodes i 1).addEnt dp name i) U) : Linked c s cwd old new true U

/-- **link**: the new entry and the new link, or neither. -/
theorem sysLink_spec {p : Nat} {old new : Path} (hs : Sound s) (h0 : s.outstanding = 0)
    (hl : ∀ i, s.locks i = false) (hcwd : ∀ i, (s.proc p).cwd = some i → 0 < s.ref i)
    (hself : ∀ i name, walkFrom c s (s.proc p).cwd old false = some (some (i, name)) →
    (s.inodes i).type ≠ .free → (s.inodes i).type ≠ .dir →
      ¬ Selfward c (s.addRef i) (s.proc p).cwd new) :
    Sat (sysLink c p (some old) (some new) s) Plain fun r => Sound r.2 ∧ Eff s r.2 0 s.locks 0 ∧
      Linked c s (s.proc p).cwd old new r.1 r.2.inodes := by
  simp only [sysLink, state_bind_run]
  obtain ⟨b, hbegin, hsb, heb, hib⟩ := beginOp_run hs h0
  rw [bind_ok_run hbegin]
  have hbref : ∀ j, b.ref j = s.ref j := fun j => by rw [heb.ref, Pi.zero_apply, Int.add_zero]
  have hbl : ∀ j, b.locks j = false := fun j => by rw [heb.locks, hl]
  refine sat_bind ((namex_spec hsb hbl fun i h => hbref i ▸ hcwd i h).mono (fun _ h => h.1) fun _ h => h) ?_
  rintro r t - ⟨hw, hst, het, hit⟩
  simp only at hw hst het hit
  rw [walkFrom_congr hbref (fun j => by rw [hib]) fun j => by rw [hib]] at hw
  have hbt : Eff s t (gain r) s.locks 1 := (heb.trans het).congr (fun j => by simp) heb.locks rfl
  have hti : t.inodes = s.inodes := hit.trans hib
  cases r with
  | none =>
    obtain ⟨u, hend, hsu, heu, hiu⟩ := endOp_run hst
    dsimp only
    rw [bind_ok_run hend]
    refine .ok ⟨hsu, (hbt.trans heu).congr (fun j => by simp [gain]) hbt.locks rfl, ?_⟩
    rw [show u.inodes = s.inodes from hiu.trans hti]
    exact .refused
  | some r =>
    obtain ⟨ip, name⟩ := r
    have htl : t.locks ip = false := by rw [hbt.locks, hl]
    dsimp only
    refine sat_bind ((ilock_spec hst htl).mono (fun _ h => h.1) fun _ h => h) ?_
    rintro ⟨⟩ u - ⟨-, hfree, hsu, heu, hiu⟩
    change Sound u at hsu
    change Eff t u 0 (update t.locks ip true) 0 at heu
    change u.inodes = t.inodes at hiu
    have hui : u.inodes = s.inodes := hiu.trans hti
    have hul : u.locks ip = true := by rw [heu.locks, Function.update_self]
    have hback : update u.locks ip false = s.locks := by
      rw [heu.locks, Function.update_idem, hbt.locks]
      exact (Function.update_eq_self_iff ..).2 (hl ip).symm
    have hsu' : Eff s u (one ip) u.locks 1 := (hbt.trans heu).congr (fun j => by simp [gain]) heu.locks.symm rfl
    rw [hti] at hfree
    rw [state_bind_run, hui]
    by_cases hdir : (s.inodes ip).type = .dir
    · obtain ⟨v, hput, hsv, hev, hputv⟩ := iunlockput_run hsu hul
      obtain ⟨w, hend, hsw, hew, hiw⟩ := endOp_run hsv
      have hvi : v.inodes = s.inodes := hputv.same hs hui (by rw [hsu'.ref, one, if_pos rfl])
      rw [if_pos hdir, bind_ok_run hput, bind_ok_run hend]
      refine .ok ⟨hsw, ((hsu'.trans hev).trans hew).congr (fun j => by simp) (hev.locks.trans hback) rfl, ?_⟩
      rw [show w.inodes = s.inodes from hiw.trans hvi]
      exact .refused
    rw [if_neg hdir]
    obtain ⟨v, hadd, hsv, hev, hiv⟩ := addLink_run (z := 1) hsu hul
    have hvl : v.locks ip = true := by rw [hev.locks, hul]
    obtain ⟨w, hunlock, hsw, hew, hiw⟩ := iunlock_run hsv hvl
    rw [bind_ok_run hadd, bind_ok_run hunlock]
    have hsw' : Eff s w (one ip) s.locks 1 :=
      ((hsu'.trans hev).trans hew).congr (fun j => by simp) (by rw [hev.locks, hback]) rfl
    have hwi : w.inodes = Tree.link s.inodes ip 1 := by rw [hiw, hiv, hui]
    have hwl : ∀ j, w.locks j = false := fun j => by rw [hsw'.locks, hl]
    have hwref : ∀ j, w.ref j = (s.addRef ip).ref j := fun j => by rw [hsw'.ref, addRef_ref]
    have hwtype : ∀ j, (w.inodes j).type = (s.inodes j).type := fun j => by rw [hwi, Tree.link_type]
    have hwents : ∀ j, (w.inodes j).ents = (s.inodes j).ents := fun j => by rw [hwi, Tree.link_ents]
    have hone := one_nonneg ip
    refine sat_bind (linkInto_spec hsw hwl (fun i h => ?_) fun h => hself ip name hw hfree hdir
      ((selfward_congr hwref hwtype hwents).1 h)) ?_
    · have := hcwd i h
      rw [hsw'.ref]
      have := hone i
      omega
    rintro b x - ⟨hsx, hex, hcases⟩
    change Sound x at hsx
    change Eff w x 0 w.locks 0 at hex
    have hsx' : Eff s x (one ip) s.locks 1 := (hsw'.trans hex).congr (fun j => by simp) hsw'.locks rfl
    have hxref : x.ref ip = s.ref ip + 1 := by rw [hsx'.ref, one, if_pos rfl]
    have hpos : 0 < x.ref ip := by
      have := hs.nonneg ip
      omega
    have hxtype : (x.inodes ip).type ≠ .free := by
      rcases hcases with ⟨-, hix⟩ | ⟨-, dp, name, hw', -, hput⟩
      · rw [hix, hwtype]
        exact hfree
      · have hdp := walkFrom_parent_dir hw'
        rw [hwtype] at hdp
        have hne : ip ≠ dp := by
          rintro rfl
          exact hdir hdp
        cases hput with
        | kept h =>
          rw [h, Tree.addEnt_type, hwtype]
          exact hfree
        | freed h =>
          rw [h, Function.update_of_ne hne, Tree.addEnt_type, hwtype]
          exact hfree
    obtain ⟨y, hrun, hsy, hey, hput⟩ := linked_spec (b := b) hsx (fun j => by rw [hsx'.locks, hl]) hpos hxtype
    rw [hrun]
    refine .ok ⟨hsy, (hsx'.trans hey).congr (fun j => by simp) hsx'.locks rfl, ?_⟩
    rcases hcases with ⟨hb, hix⟩ | ⟨hb, dp, name', hw', hnone, hputd⟩
    · change b = false at hb
      change x.inodes = w.inodes at hix
      subst hb
      rw [if_neg Bool.false_ne_true, hix, hwi] at hput
      exact .undone ip _ hfree hput.puts
    · change b = true at hb
      change Tree.Put _ dp _ x.inodes at hputd
      subst hb
      rw [if_pos rfl] at hput
      have hdp := walkFrom_parent_dir hw'
      rw [hwtype] at hdp
      rw [hwents] at hnone
      rw [hwi] at hputd
      refine .made ip dp name name' _ hw ?_ ⟨hfree, hdir, hdp, hnone⟩ (hputd.puts.trans hput.puts)
      rw [← walkFrom_congr hwref hwtype hwents]
      exact hw'

/-! ## unlink -/

/-- What a name is that `unlink` leaves: there is none, it is one of the dots, or a directory with entries. -/
def Stays (c : Config) (s : St) (cwd : Option Nat) (path : Path) : Prop :=
  walkFrom c s cwd path true = some none ∨ ∃ dp name, walkFrom c s cwd path true = some (some (dp, name)) ∧
    (dots name = true ∨ lookup (s.inodes dp).ents name = none ∨
    ∃ off i, lookup (s.inodes dp).ents name = some (off, i) ∧
      ¬ (s.addRef dp).full c i ∧ (s.inodes i).type = .dir ∧ 1 ≤ (s.inodes i).nlink ∧
      isdirempty (s.inodes i).ents = false)

/-- What `unlink` comes to. -/
inductive Unlinked (c : Config) (s : St) (cwd : Option Nat) (path : Path) : Bool → Tree → Prop
  | stays (h : Stays c s cwd path) : Unlinked c s cwd path false s.inodes
  | gone (dp off i : Nat) (name : Name) (U : Tree) (hw : walkFrom c s cwd path true = some (some (dp, name)))
    (hc : CanUnlink s.inodes dp name off i) (hp : Puts (Tree.unlinked s.inodes dp off i) U) :
    Unlinked c s cwd path true U

/-- The entry goes, the directory is given up, then the link. -/
theorem unlinkAt_spec (hs : Sound s) (hne : i ≠ dp) (hd : s.locks dp = true) (hi : s.locks i = true) :
    Sat (unlinkAt dp off i s) Plain fun r => r.1 = true ∧ Sound r.2 ∧ Eff s r.2 (-one dp - one i)
    (update (update s.locks dp false) i false) 0 ∧
      Puts (Tree.unlinked s.inodes dp off i) r.2.inodes := by
  unfold unlinkAt
  simp only [state_bind_run]
  obtain ⟨hsa, hea⟩ :=
    setInode_spec
      (d := { s.inodes dp with ents := putEnt (s.inodes dp).ents off { inum := 0, name := [] } }) hs rfl hd
  rw [bind_run, change_run, ok_bind]
  dsimp only
  generalize hsa' :
    s.setInode dp { s.inodes dp with ents := putEnt (s.inodes dp).ents off { inum := 0, name := [] } } =
    a at hsa hea ⊢
  have hia : a.inodes = Tree.dropEnt s.inodes dp off := by
    rw [← hsa']
    rfl
  have hdot : ∃ b, dropDot dp (s.inodes i).type a = .ok (⟨⟩, b) ∧ Sound b ∧ Eff a b 0 a.locks 0 ∧
    b.inodes = Tree.dropped s.inodes dp off i := by
    unfold dropDot Tree.dropped
    split
    · obtain ⟨b, hrun, hsb, heb, hib⟩ := addLink_run (z := -1) hsa (hea.locks ▸ hd)
      exact ⟨b, hrun, hsb, heb, by rw [hib, hia]⟩
    · exact ⟨a, rfl, hsa, .refl a, hia⟩
  obtain ⟨b, hrunb, hsb, heb, hib⟩ := hdot
  have hsb' : Eff s b 0 s.locks 0 := (hea.trans heb).congr (fun j => by simp) hea.locks rfl
  obtain ⟨u, hrunu, hsu, heu, hputu⟩ := iunlockput_run hsb (i := dp) (by rw [hsb'.locks, hd])
  have hul : u.locks i = true := by rw [heu.locks, Function.update_of_ne hne, hsb'.locks, hi]
  obtain ⟨v, hrunv, hsv, hev, hiv⟩ := addLink_run (z := -1) hsu hul
  have hvl : v.locks i = true := by rw [hev.locks, hul]
  obtain ⟨w, hrunw, hsw, hew, hputw⟩ := iunlockput_run hsv hvl
  rw [bind_ok_run hrunb, bind_ok_run hrunu, bind_ok_run hrunv, bind_ok_run hrunw]
  refine .ok ⟨rfl, hsw, (((hsb'.trans heu).trans hev).trans hew).congr (fun j => ?_) ?_ rfl, ?_⟩
  · simp only [Pi.add_apply, Pi.zero_apply, Pi.neg_apply, Pi.sub_apply]
    omega
  · rw [hev.locks, heu.locks, hsb'.locks]
  · -- giving up the directory and taking the link away do not disturb each other
    have h1 := hputu.tree.link (z := -1) hne
    rw [hib, ← hiv] at h1
    exact h1.puts.trans hputw.tree.puts

/-- What was found is locked and looked at before it goes. -/
theorem unlinkFound_spec (hs : Sound s) (hne : i ≠ dp) (hd : s.locks dp = true) (hi : s.locks i = false)
    (hkept : (s.inodes dp).type ≠ .free → (s.inodes dp).nlink = 0 → 1 < s.ref dp) :
    Sat (unlinkFound dp off i s) Plain fun r => Sound r.2 ∧ Eff s r.2 (-one dp - one i) (update s.locks dp false) 0 ∧
      (s.inodes i).type ≠ .free ∧ 1 ≤ (s.inodes i).nlink ∧
      ((r.1 = false ∧ (s.inodes i).type = .dir ∧ isdirempty (s.inodes i).ents = false ∧ r.2.inodes = s.inodes) ∨
        (r.1 = true ∧ ((s.inodes i).type = .dir → isdirempty (s.inodes i).ents = true) ∧
        Puts (Tree.unlinked s.inodes dp off i) r.2.inodes)) := by
  unfold unlinkFound
  refine sat_bind ((ilock_spec hs hi).mono (fun _ h => h.1) fun _ h => h) ?_
  rintro ⟨⟩ u - ⟨-, hfree, hsu, heu, hiu⟩
  change Sound u at hsu
  change Eff s u 0 (update s.locks i true) 0 at heu
  change u.inodes = s.inodes at hiu
  have hui : u.locks i = true := by rw [heu.locks, Function.update_self]
  have hud : u.locks dp = true := by rw [heu.locks, Function.update_of_ne (Ne.symm hne), hd]
  have hback : update (update u.locks dp false) i false = update s.locks dp false := by
    rw [heu.locks, Function.update_comm hne, Function.update_idem, Function.update_comm hne.symm]
    congr 1
    exact (Function.update_eq_self_iff ..).2 hi.symm
  simp only [state_bind_run, hiu]
  by_cases hlink : (s.inodes i).nlink < 1
  · rw [if_pos hlink]
    exact .error (by decide)
  rw [if_neg hlink]
  have hlink' : 1 ≤ (s.inodes i).nlink := Int.not_lt.1 hlink
  by_cases hfull : (s.inodes i).type = .dir ∧ isdirempty (s.inodes i).ents = false
  · obtain ⟨v, hrunv, hsv, hev, hputv⟩ := iunlockput_run hsu hui
    have hvd : v.locks dp = true := by rw [hev.locks, Function.update_of_ne (Ne.symm hne), hud]
    obtain ⟨w, hrunw, hsw, hew, hputw⟩ := iunlockput_run hsv hvd
    rw [if_pos hfull, bind_ok_run hrunv, bind_ok_run hrunw]
    refine .ok ⟨hsw, ((heu.trans hev).trans hew).congr (fun j => ?_) ?_ rfl, hfree, hlink',
      .inl ⟨rfl, hfull.1, hfull.2, ?_⟩⟩
    · simp only [Pi.add_apply, Pi.zero_apply, Pi.neg_apply, Pi.sub_apply]
      omega
    · rw [hev.locks, Function.update_comm hne, hback]
    · have hvi : v.inodes = s.inodes := by
        cases hputv with
        | kept h _ => exact h.trans hiu
        | freed _ _ hn _ =>
          rw [hiu] at hn
          omega
      have hvref : v.ref dp = s.ref dp := by
        rw [hev.ref, heu.ref, Pi.zero_apply, Pi.neg_apply, one, if_neg hne.symm, Int.add_zero,
          Int.neg_zero, Int.add_zero]
      cases hputw with
      | kept h _ => exact h.trans hvi
      | freed _ ht hn href =>
        rw [hvi] at ht hn
        have := hkept ht hn
        omega
  · rw [if_neg hfull]
    refine (unlinkAt_spec hsu hne hud hui).mono (fun _ h => h) ?_
    rintro ⟨b, w⟩ ⟨hb, hsw, hew, hput⟩
    rw [hiu] at hput
    refine ⟨hsw, (heu.trans hew).congr (fun j => by simp) hback rfl, hfree, hlink', .inr ⟨hb, fun hd => ?_, hput⟩⟩
    by_contra he
    exact hfull ⟨hd, by simpa using he⟩

/-- **unlink**: where only the dots lead back to a directory it never waits for itself. -/
theorem unlink_spec (hs : Sound s) (hl : ∀ i, s.locks i = false) (hcwd : ∀ i, cwd = some i → 0 < s.ref i)
    (htidy : Tidy s.inodes) :
    Sat (unlink c cwd path s) Plain fun r => Sound r.2 ∧ Eff s r.2 0 s.locks 0 ∧
    Unlinked c s cwd path r.1 r.2.inodes := by
  unfold unlink
  refine sat_bind ((namex_spec hs hl hcwd).mono (fun _ h => h.1) fun _ h => h) ?_
  rintro r t - ⟨hw, hst, het, hit⟩
  simp only at hw hst het hit
  cases r with
  | none =>
    refine .ok ⟨hst, het, ?_⟩
    change Unlinked c s cwd path false t.inodes
    rw [hit]
    exact .stays (.inl hw)
  | some r =>
    obtain ⟨dp, name⟩ := r
    have hdir := walkFrom_parent_dir hw
    have htl : t.locks dp = false := by rw [het.locks, hl]
    dsimp only
    refine sat_bind ((ilock_spec hst htl).mono (fun _ h => h.1) fun _ h => h) ?_
    rintro ⟨⟩ u - ⟨-, -, hsu, heu, hiu⟩
    change Sound u at hsu
    change Eff t u 0 (update t.locks dp true) 0 at heu
    change u.inodes = t.inodes at hiu
    have hui : u.inodes = s.inodes := hiu.trans hit
    have hul : u.locks = update s.locks dp true := by rw [heu.locks, het.locks]
    have huld : u.locks dp = true := by rw [hul, Function.update_self]
    have hsu' : Eff s u (one dp) u.locks 0 := (het.trans heu).congr (fun j => by simp [gain]) heu.locks.symm rfl
    have hback : update u.locks dp false = s.locks := by
      rw [hul, Function.update_idem]
      exact (Function.update_eq_self_iff ..).2 (hl dp).symm
    by_cases hdots : (namecmp name ".".toList || namecmp name "..".toList) = true
    · obtain ⟨v, hrun, hsv, hev, hput⟩ := iunlockput_run hsu huld
      rw [if_pos hdots, bind_ok_run hrun]
      refine .ok ⟨hsv, (hsu'.trans hev).congr (fun j => by simp) hback rfl, ?_⟩
      rw [show v.inodes = s.inodes from hput.same hs hui (by rw [hsu'.ref, one_self])]
      exact .stays (.inr ⟨dp, name, hw, .inl hdots⟩)
    rw [if_neg hdots]
    refine sat_bind ((dirlookup_spec _ hsu (by rw [hui, hdir])).mono (fun _ h => h.1) fun _ h => h) ?_
    rintro r v - ⟨hr, hsv, hiv, hev, hroom⟩
    simp only at hr hsv hiv hev hroom
    have hvi : v.inodes = s.inodes := hiv.trans hui
    have hvl : v.locks = u.locks := hev.locks
    rw [hui] at hr
    cases r with
    | none =>
      obtain ⟨w, hrun, hsw, hew, hput⟩ := iunlockput_run hsv (hvl ▸ huld)
      dsimp only
      rw [bind_ok_run hrun]
      refine .ok ⟨hsw, ((hsu'.trans hev).trans hew).congr (fun j => by simp [gainEnt]) (by rw [hvl, hback]) rfl, ?_⟩
      rw [show w.inodes = s.inodes from
        hput.same hs hvi (by rw [hev.ref, hsu'.ref, one_self, gainEnt, Pi.zero_apply, Int.add_zero])]
      exact .stays (.inr ⟨dp, name, hw, .inr (.inl hr.symm)⟩)
    | some r =>
      obtain ⟨off, i⟩ := r
      have hdots' : dots name = false := Bool.eq_false_iff.2 hdots
      have hne : i ≠ dp := by
        rintro rfl
        have := (htidy i).dots hr.symm
        rw [hdots'] at this
        cases this
      have hvref : v.ref dp = s.ref dp + 1 := by
        rw [hev.ref, hsu'.ref, one_self, gainEnt, one, if_neg hne.symm, Int.add_zero]
      have hsv' : Eff s v (one dp + one i) u.locks 0 := (hsu'.trans hev).congr (fun j => by simp [gainEnt]) rfl rfl
      dsimp only
      refine (unlinkFound_spec hsv hne (hvl ▸ huld) (by rw [hvl, hul, Function.update_of_ne hne, hl])
        fun ht hn => ?_).mono (fun _ h => h) ?_
      · rw [hvi] at ht hn
        have := (hs.orphans dp ht hn).1
        omega
      rintro ⟨b, w⟩ ⟨hsw, hew, hfree, hlink, hcases⟩
      rw [hvi] at hfree hlink hcases
      refine ⟨hsw, (hsv'.trans hew).congr (fun j => ?_) (by rw [hvl, hback]) rfl, ?_⟩
      · simp only [Pi.add_apply, Pi.zero_apply, Pi.neg_apply, Pi.sub_apply]
        omega
      rcases hcases with ⟨hb, hd, he, hiw⟩ | ⟨hb, he, hput⟩
      · change b = false at hb
        change w.inodes = s.inodes at hiw
        have hnf : ¬ (s.addRef dp).full c i :=
          fun h => hroom off i rfl ((full_congr fun j => by rw [hsu'.ref, addRef_ref]).2 h)
        subst hb
        change Unlinked c s cwd path false w.inodes
        rw [hiw]
        exact .stays (.inr ⟨dp, name, hw, .inr (.inr ⟨off, i, hr.symm, hnf, hd, hlink, he⟩)⟩)
      · change b = true at hb
        subst hb
        exact .gone dp off i name _ hw ⟨hdir, hr.symm, hdots', hfree, hlink, he⟩ hput

/-! ## open -/

/-- What becomes of the tree where `create` may be called. -/
inductive Made (c : Config) (s : St) (cwd : Option Nat) (path : Path) (type : Ty) : Tree → Prop
  | same (U : Tree) (hp : Puts s.inodes U) : Made c s cwd path type U
  | new (dp i : Nat) (name : Name) (U : Tree) (hw : walkFrom c s cwd path true = some (some (dp, name)))
    (hc : CanMake c s.inodes dp name i) (hp : Puts (Tree.created s.inodes dp name i type) U) : Made c s cwd path type U

theorem Made.puts {type : Ty} {U V : Tree} (h : Made c s cwd path type U) (hp : Puts U V) :
    Made c s cwd path type V := by
  cases h with
  | same _ hu => exact .same _ (hu.trans hp)
  | new dp i name _ hw hc hu => exact .new dp i name _ hw hc (hu.trans hp)

/-- What a call that may return an inode returns is locked and referenced. -/
structure Opened (c : Config) (cwd : Option Nat) (path : Path) (type : Ty) (s t : St) (r : Option Nat) : Prop where
  sound : Sound t
  tree : Made c s cwd path type t.inodes
  effect : Eff s t (r.elim 0 one) (r.elim s.locks fun i => update s.locks i true) 0

theorem Opened.spec {type : Ty} (hs : Sound s) (hl : ∀ i, s.locks i = false)
    (hcwd : ∀ i, cwd = some i → 0 < s.ref i) (htype : type ≠ .free) :
    Sat (create c cwd path type s) Plain fun r => Opened c cwd path type s r.2 r.1 := by
  refine (create_spec hs hl hcwd htype).mono (fun _ h => h) ?_
  rintro ⟨r, t⟩ ⟨hst, hc⟩
  have hsame : t.inodes = s.inodes → Made c s cwd path type t.inodes := fun h => by
    rw [h]
    exact .same _ .refl
  cases hc with
  | noParent _ _ ht he => exact ⟨hst, hsame ht, he⟩
  | taken _ _ _ _ _ _ _ _ _ _ ht he => exact ⟨hst, hsame ht, he⟩
  | there _ _ _ _ ht he => exact ⟨hst, hsame ht, he⟩
  | made _ dp name i hw hdir hlook hi hfree ht he =>
    exact ⟨hst, .new dp i name _ hw ⟨hdir, hlook, hi, hfree⟩ ht.puts, he⟩

theorem openInode_spec {m : Mode} (hs : Sound s) (hl : ∀ i, s.locks i = false)
    (hcwd : ∀ i, cwd = some i → 0 < s.ref i) :
    Sat (openInode c cwd path m s) Plain fun r => Opened c cwd path .file s r.2 r.1 ∧
    (m.create = false → r.2.inodes = s.inodes) := by
  unfold openInode
  by_cases hc : m.create = true
  · rw [if_pos hc]
    refine (Opened.spec hs hl hcwd (by decide)).mono (fun _ h => h) fun _ h => ⟨h, fun hn => ?_⟩
    rw [hc] at hn
    cases hn
  rw [if_neg hc]
  refine sat_bind ((namex_spec hs hl hcwd).mono (fun _ h => h.1) fun _ h => h) ?_
  rintro r t - ⟨hw, hst, het, hit⟩
  simp only at hw hst het hit
  have hsame : ∀ v : St, v.inodes = s.inodes → Made c s cwd path .file v.inodes := fun v h => by
    rw [h]
    exact .same _ .refl
  cases r with
  | none => exact .ok ⟨⟨hst, hsame t hit, het⟩, fun _ => hit⟩
  | some r =>
    obtain ⟨ip, name⟩ := r
    have htl : t.locks ip = false := by rw [het.locks, hl]
    dsimp only
    refine sat_bind ((ilock_spec hst htl).mono (fun _ h => h.1) fun _ h => h) ?_
    rintro ⟨⟩ u - ⟨-, -, hsu, heu, hiu⟩
    change Sound u at hsu
    change Eff t u 0 (update t.locks ip true) 0 at heu
    change u.inodes = t.inodes at hiu
    have hui : u.inodes = s.inodes := hiu.trans hit
    have hul : u.locks = update s.locks ip true := by rw [heu.locks, het.locks]
    have hsu' : Eff s u (one ip) u.locks 0 := (het.trans heu).congr (fun j => by simp [gain]) heu.locks.symm rfl
    rw [state_bind_run]
    by_cases hdir : (u.inodes ip).type = .dir ∧ m.rdonly = false
    · obtain ⟨v, hrun, hsv, hev, hput⟩ := iunlockput_run hsu (by rw [hul, Function.update_self])
      have hvi := hput.same hs hui (by rw [hsu'.ref, one_self])
      rw [if_pos hdir, bind_ok_run hrun]
      refine .ok ⟨⟨hsv, hsame v hvi, (hsu'.trans hev).congr (fun j => by simp) ?_ rfl⟩, fun _ => hvi⟩
      rw [hul, Function.update_idem]
      exact (Function.update_eq_self_iff ..).2 (hl ip).symm
    · rw [if_neg hdir]
      exact .ok ⟨⟨hsu, hsame u hui, hsu'.congr (fun _ => rfl) hul rfl⟩, fun _ => hui⟩

end

end Dirs
