import CCppProjects.Fs.SwapFile
/-
# exec and its swap files

`exec` holds the inode of the program and a transaction while pages go out (exec.c:88-136), and each of them is three
writes to the swap file of the process, with a transaction each. Once the new image is in place the swap file is
replaced (exec.c:181-187). So three things can go wrong: the program is the swap file itself, more pages go out than
the log holds while `exec` keeps it from being committed, or the name of the swap file cannot be made again.

All are conditions on the state before: what `exec` does up to the swap file leaves references and tree as they were,
and states alike in that respect are not told apart later on (`Like`, `fileclose_like`).
-/
namespace Dirs

open Fs (Ty)
open Function (update)
open Prog

/-- The inode behind the swap file. -/
def St.swapInode (s : St) (p : Nat) : Option Nat := (s.proc p).swapFile.bind fun f => (s.file f).ip

/-- `exec` finds and locks the program. -/
def Runs (c : Config) (s : St) (p : Nat) (path : Path) (i : Nat) : Prop :=
  ∃ name, walkFrom c s (s.proc p).cwd path false = some (some (i, name)) ∧ (s.inodes i).type ≠ .free

/-- Pages go out to the program that is being loaded. -/
def ExecWaits (c : Config) (s : St) (p : Nat) (path : Path) (l : Load) : Prop :=
  ∃ i, Runs c s p path i ∧ l.outs ≠ [] ∧ s.swapInode p = some i

/-- Each of the writes begins with room in the log, where `used` blocks are logged and a transaction is open. -/
def roomFor (used : Nat) : List Blocks → Bool
  | [] => true
  | n :: ns => decide (used + 2 * MAXOPBLOCKS ≤ LOGSIZE) && roomFor (used + n) ns

/-- There is a swap file that pages can go to. -/
def Takes (s : St) (p : Nat) : Prop := ∃ i, s.swapInode p = some i ∧ 0 < s.ref i ∧ (s.inodes i).type ≠ .free

/-- More pages go out than the log holds until the program is loaded. -/
def ExecFills (c : Config) (s : St) (p : Nat) (path : Path) (l : Load) : Prop :=
  (∃ i, Runs c s p path i) ∧ roomFor 0 l.outs = false ∧ Takes s p

/-- `exec` gets as far as the new image. -/
def Replaces (c : Config) (s : St) (p : Nat) (path : Path) (l : Load) : Prop :=
  (∃ i, Runs c s p path i) ∧ l.loaded = true ∧ l.built = true ∧
    (l.outs ++ l.stackOuts ≠ [] → Takes s p)

/-- The name of the swap file is in the way of the new one and stays there. -/
def RenewBlocked (c : Config) (s : St) (p : Nat) : Prop :=
  match (s.proc p).swapFile with
  | none => Blocked c s (s.proc p).cwd (swapPath (s.proc p).pid)
  | some f => ∃ t, fileclose f s = .ok (⟨⟩, t) ∧ Stays c t (s.proc p).cwd (swapPath (s.proc p).pid) ∧
    Blocked c t (s.proc p).cwd (swapPath (s.proc p).pid)

/-- `exec` neither waits for itself nor stops for its swap file. -/
structure ExecFine (c : Config) (s : St) (p : Nat) (path : Path) (l : Load) : Prop where
  waits : ¬ ExecWaits c s p path l
  fills : ¬ ExecFills c s p path l
  renew : Replaces c s p path l → c.policy = true → DEF_PROCS < (s.proc p).pid → ¬ RenewBlocked c s p

section

variable {c : Config} {s t u : St} {i f p : Nat} {n : Blocks} {ns : List Blocks} {cwd : Option Nat}
    {path : Path} {l : Load} {d : Nat → Int} {ls : Nat → Bool} {z : Int}

theorem Eff.proc (h : Eff s t d ls z) : t.proc p = s.proc p := by rw [St.proc, St.proc, h.procs]

theorem Runs.unique {j : Nat} (h : Runs c s p path i) (h' : Runs c s p path j) : i = j := by
  obtain ⟨name, hw, -⟩ := h
  obtain ⟨name', hw', -⟩ := h'
  rw [hw] at hw'
  injection hw' with hw'
  injection hw' with hw'
  injection hw'

theorem Eff.swapInode (h : Eff s t d ls z) : t.swapInode p = s.swapInode p := by
  simp only [St.swapInode, h.proc, St.file, h.ftable]

/-! ## What logs nothing -/

theorem iget_keeps : Keeps St.logged (iget c i) :=
  .bind .state fun _ => .ite (.change fun _ => rfl) (.ite (.change fun _ => rfl) (.stop _))

theorem ilock_keeps : Keeps St.logged (ilock i) :=
  .bind .state fun _ => .ite (.stop _) (.ite (.stop _) (.ite (.stop _) (.change fun _ => rfl)))

theorem iunlock_keeps : Keeps St.logged (iunlock i) := .bind .state fun _ => .ite (.stop _) (.change fun _ => rfl)

theorem iput_keeps : Keeps St.logged (iput i) :=
  .bind .state fun _ => .ite (.stop _) (.ite (.change fun _ => rfl) (.change fun _ => rfl))

theorem iunlockput_keeps : Keeps St.logged (iunlockput i) := .bind iunlock_keeps fun _ => iput_keeps

theorem dirlookup_keeps {name : Name} : Keeps St.logged (dirlookup c i name) := by
  refine .bind .state fun s => .ite (.stop _) ?_
  split
  · exact .bind iget_keeps fun _ => .pure _
  · exact .pure _

theorem namexLoop_keeps {parent : Bool} : ∀ (els : List Name) (i : Nat), Keeps St.logged (namexLoop c parent els i)
  | [], i => .ite (.bind iput_keeps fun _ => .pure _) (.pure _)
  | name :: rest, i => by
    refine .bind ilock_keeps fun _ => .bind .state fun s => .ite (.bind iunlockput_keeps fun _ => .pure _) ?_
    refine .ite (.bind iunlock_keeps fun _ => .pure _) (.bind dirlookup_keeps fun r => ?_)
    cases r with
    | none => exact .bind iunlockput_keeps fun _ => .pure _
    | some r => exact .bind iunlockput_keeps fun _ => namexLoop_keeps rest r.2

theorem namex_keeps {parent : Bool} : Keeps St.logged (namex c cwd path parent) := by
  refine .bind (.ite (.bind iget_keeps fun _ => .pure _) ?_) fun r => ?_
  · cases cwd with
    | none => exact .stop _
    | some i => exact .bind (.bind .state fun _ => .change fun _ => rfl) fun _ => .pure _
  · cases r with
    | none => exact .pure _
    | some i => exact namexLoop_keeps _ i

/-! ## Pages out -/

/-- The writes begin with room in the log: outside a transaction each is committed at once. -/
def St.Fits (s : St) (ns : List Blocks) : Prop := s.outstanding = 0 ∨ (s.outstanding = 1 ∧ roomFor s.logged ns = true)

theorem St.Fits.room (h : s.Fits (n :: ns)) (hs : Sound s) : s.logged +
    (s.outstanding + 1) * MAXOPBLOCKS ≤ LOGSIZE := by
  rcases h with h | ⟨h, hroom⟩
  · rw [hs.committed (by omega), h]
    decide
  · simp only [roomFor, Bool.and_eq_true, decide_eq_true_eq] at hroom
    rw [h]
    omega

theorem St.Fits.nonneg (h : s.Fits ns) : 0 ≤ s.outstanding := by
  rcases h with h | h <;> omega

theorem St.Fits.next (h : s.Fits (n :: ns)) (ho : t.outstanding = s.outstanding)
    (hl : t.logged = if s.outstanding = 0 then 0 else s.logged + n) : t.Fits ns := by
  rcases h with h | ⟨h, hroom⟩
  · exact .inl (ho.trans h)
  · rw [if_neg (by omega)] at hl
    simp only [roomFor, Bool.and_eq_true] at hroom
    exact .inr ⟨ho.trans h, by rw [hl]; exact hroom.2⟩

/-- A page goes out where the log has room and the inode can be locked. -/
theorem pageOut_run (hs : Sound s) (h0 : 0 ≤ s.outstanding)
    (hroom : s.logged + (s.outstanding + 1) * MAXOPBLOCKS ≤ LOGSIZE)
    (hi : s.swapInode p = some i) (hl : s.locks i = false) (hpos : 0 < s.ref i) (ht : (s.inodes i).type ≠ .free) :
    ∃ t, pageOut p n s = .ok (⟨⟩, t) ∧ Sound t ∧ Eff s t 0 s.locks 0 ∧ t.inodes = s.inodes ∧
      t.logged = if s.outstanding = 0 then 0 else s.logged + n := by
  obtain ⟨b, hbegin, hsb, heb, hib, hlb⟩ := beginOp_room hs hroom
  obtain ⟨u, hlock, hsu, heu, hiu⟩ :=
    ilock_run hsb (i := i) (by rw [heb.locks, hl]) (by rw [heb.ref, Pi.zero_apply, Int.add_zero]; exact hpos)
    (by rw [hib]; exact ht)
  have hlu : u.logged = s.logged := (ilock_keeps _ _ _ hlock).trans hlb
  have huo : u.outstanding = s.outstanding + 1 := by rw [heu.outstanding, heb.outstanding, Int.add_zero]
  let x : St := { u with logged := u.logged + n }
  have hsx : Sound x := hsu.congr rfl rfl fun h => by
    change u.outstanding ≤ 0 at h
    omega
  have hux : Eff u x 0 u.locks 0 := ⟨fun _ => (Int.add_zero _).symm, rfl, (Int.add_zero _).symm, rfl, rfl⟩
  obtain ⟨v, hunlock, hsv, hev, hiv⟩ := iunlock_run hsx (i := i) (by
    change u.locks i = true
    rw [heu.locks, Function.update_self])
  obtain ⟨w, hend, hsw, hew, hiw⟩ := endOp_run hsv
  refine ⟨w, ?_, hsw, ?_, ?_, ?_⟩
  · unfold pageOut
    rw [state_bind_run, show ((s.proc p).swapFile.bind fun f => (s.file f).ip) = some i from hi]
    dsimp only
    rw [bind_ok_run hbegin, bind_ok_run hlock, bind_run, change_run, ok_bind]
    exact (bind_ok_run hunlock).trans hend
  · refine ((((heb.trans heu).trans hux).trans hev).trans hew).congr (fun j => by simp) ?_ rfl
    rw [hev.locks]
    change update u.locks i false = s.locks
    rw [heu.locks, Function.update_idem, heb.locks]
    exact (Function.update_eq_self_iff ..).2 hl.symm
  · rw [hiw, hiv]
    exact hiu.trans hib
  · have hvo : v.outstanding = s.outstanding + 1 := by
      rw [hev.outstanding, Int.add_zero]
      exact huo
    have hlv : v.logged = s.logged + n := by
      rw [iunlock_keeps _ _ _ hunlock, ← hlu]
    rw [endOp_logged hend, hvo, hlv, Int.add_sub_cancel]

theorem pageOut_spec (hs : Sound s) (hfit : s.Fits (n :: ns)) (hl : ∀ i, s.swapInode p = some i → s.locks i = false) :
    Sat (pageOut p n s) Plain fun r => Sound r.2 ∧ Eff s r.2 0 s.locks 0 ∧ r.2.inodes = s.inodes ∧
    r.2.Fits ns ∧ Takes s p := by
  cases hi : s.swapInode p with
  | none =>
    have : pageOut p n s = .error .nullFile := by
      unfold pageOut
      rw [state_bind_run, show ((s.proc p).swapFile.bind fun f => (s.file f).ip) = none from hi]
      rfl
    rw [this]
    exact .error (by decide)
  | some i =>
    obtain ⟨b, hbegin, hsb, heb, hib, -⟩ := beginOp_room hs (hfit.room hs)
    have hlock := ilock_spec hsb (i := i) (by rw [heb.locks, hl i hi])
    cases hrun : ilock i b with
    | error e =>
      have : pageOut p n s = .error e := by
        unfold pageOut
        rw [state_bind_run, show ((s.proc p).swapFile.bind fun f => (s.file f).ip) = some i from hi]
        dsimp only
        rw [bind_ok_run hbegin]
        exact bind_error_run hrun
      rw [this]
      exact .error (hlock.of_error hrun).1
    | ok r =>
      obtain ⟨hpos, hfree, -⟩ := hlock.of_ok hrun
      rw [heb.ref, Pi.zero_apply, Int.add_zero] at hpos
      rw [hib] at hfree
      obtain ⟨t, ht, hst, het, hit, hlt⟩ := pageOut_run (n := n) hs hfit.nonneg (hfit.room hs) hi (hl i hi) hpos hfree
      rw [ht]
      exact .ok ⟨hst, het, hit, hfit.next (by rw [het.outstanding, Int.add_zero]) hlt, i, hi, hpos, hfree⟩

theorem Takes.congr (h : Eff s t d ls z) (hd : ∀ i, s.swapInode p = some i → d i = 0)
    (hi : t.inodes = s.inodes) (ht : Takes t p) : Takes s p := by
  obtain ⟨i, hswap, hpos, hfree⟩ := ht
  rw [h.swapInode] at hswap
  rw [h.ref, hd i hswap, Int.add_zero] at hpos
  exact ⟨i, hswap, hpos, hi ▸ hfree⟩

theorem pageOuts_spec : ∀ {ns : List Blocks} {s : St}, Sound s → s.Fits ns →
    (ns ≠ [] → ∀ i, s.swapInode p = some i → s.locks i = false) →
    Sat (pageOuts p ns s) Plain fun r =>
      Sound r.2 ∧ Eff s r.2 0 s.locks 0 ∧ r.2.inodes = s.inodes ∧ (ns ≠ [] → Takes s p)
  | [], s, hs, _, _ => .ok ⟨hs, .refl s, rfl, fun h => absurd rfl h⟩
  | n :: ns, s, hs, hfit, hl => by
    refine sat_bind (pageOut_spec hs hfit (hl (List.cons_ne_nil _ _))) ?_
    rintro ⟨⟩ t - ⟨hst, het, hit, hfit', htakes⟩
    change Sound t at hst
    change Eff s t 0 s.locks 0 at het
    change t.inodes = s.inodes at hit
    refine (pageOuts_spec hst hfit' fun _ i hi => ?_).mono (fun _ h => h) ?_
    · rw [het.locks]
      exact hl (List.cons_ne_nil _ _) i (by rw [← het.swapInode, hi])
    · rintro r ⟨hsr, her, hir, -⟩
      exact ⟨hsr, (het.trans her).congr (fun j => by simp) het.locks rfl, hir.trans hit, fun _ => htakes⟩

theorem pageOuts_run : ∀ {ns : List Blocks} {s : St}, Sound s → s.Fits ns →
    (ns ≠ [] → ∃ i, s.swapInode p = some i ∧ s.locks i = false ∧ 0 < s.ref i ∧ (s.inodes i).type ≠ .free) →
    ∃ t, pageOuts p ns s = .ok (⟨⟩, t)
  | [], s, _, _, _ => ⟨s, rfl⟩
  | n :: ns, s, hs, hfit, h => by
    obtain ⟨i, hi, hl, hpos, ht⟩ := h (List.cons_ne_nil _ _)
    obtain ⟨t, hrun, hst, het, hit, hlt⟩ := pageOut_run (n := n) hs hfit.nonneg (hfit.room hs) hi hl hpos ht
    obtain ⟨v, hv⟩ := pageOuts_run hst (hfit.next (by rw [het.outstanding, Int.add_zero]) hlt) fun _ =>
      ⟨i, het.swapInode.trans
        hi, by rw [het.locks, hl], by rw [het.ref, Pi.zero_apply, Int.add_zero]; exact hpos, by rw [hit]; exact ht⟩
    exact ⟨v, by rw [pageOuts, bind_ok_run hrun, hv]⟩

/-- The page that goes to an inode which is held waits for ever. -/
theorem pageOuts_deadlock (hs : Sound s) (hroom : s.logged + (s.outstanding + 1) * MAXOPBLOCKS ≤ LOGSIZE) (hn : ns ≠ [])
    (hi : s.swapInode p = some i) (hl : s.locks i = true) : pageOuts p ns s = .error .deadlock := by
  cases ns with
  | nil => exact absurd rfl hn
  | cons n ns =>
    obtain ⟨b, hbegin, hsb, heb, -⟩ := beginOp_room hs hroom
    have hlb : (b.icache i).locked = true := by
      have : b.locks i = true := by rw [heb.locks, hl]
      exact this
    have hpos : ¬ (b.icache i).ref < 1 := by
      have h1 := (hs.held i hl).1
      have h2 := heb.ref i
      simp only [St.ref, Pi.zero_apply] at h1 h2
      omega
    rw [pageOuts]
    refine bind_error_run ?_
    unfold pageOut
    rw [state_bind_run, show ((s.proc p).swapFile.bind fun f => (s.file f).ip) = some i from hi]
    dsimp only
    rw [bind_ok_run hbegin]
    refine bind_error_run ?_
    rw [ilock, state_bind_run, if_neg hpos, hlb, if_pos rfl]
    rfl

/-- The page that finds the log full within the transaction of `exec` waits for ever. -/
theorem pageOuts_fill : ∀ {ns : List Blocks} {s : St}, Sound s → s.outstanding = 1 →
    roomFor s.logged ns = false → s.swapInode p = some i →
    s.locks i = false → 0 < s.ref i → (s.inodes i).type ≠ .free → pageOuts p ns s = .error .logSpace
  | [], _, _, _, h, _, _, _, _ => by cases h
  | n :: ns, s, hs, ho, h, hi, hl, hpos, ht => by
    rw [pageOuts]
    by_cases hroom : s.logged + 2 * MAXOPBLOCKS ≤ LOGSIZE
    · -- this one still has room, a later one has not
      obtain ⟨t, hrun, hst, het, hit, hlt⟩ := pageOut_run (n := n) hs (by omega) (by rw [ho]; omega) hi hl hpos ht
      rw [if_neg (by omega)] at hlt
      simp only [roomFor, decide_eq_true hroom, Bool.true_and] at h
      rw [bind_ok_run hrun]
      refine pageOuts_fill hst (by rw [het.outstanding, ho]; rfl) (by rw [hlt]; exact h)
        (het.swapInode.trans hi) (by rw [het.locks, hl]) ?_
        (by rw [hit]; exact ht)
      rw [het.ref, Pi.zero_apply, Int.add_zero]
      exact hpos
    · refine bind_error_run ?_
      unfold pageOut
      rw [state_bind_run, show ((s.proc p).swapFile.bind fun f => (s.file f).ip) = some i from hi]
      dsimp only
      exact bind_error_run (beginOp_full (by rw [ho]; omega))

/-! ## Up to the new image -/

/-- `exec` has begun its transaction, and found and locked the program. -/
structure Started (s u : St) (i : Nat) : Prop where
  sound : Sound u
  effect : Eff s u (one i) (update s.locks i true) 1
  inodes : u.inodes = s.inodes
  logged : u.logged = 0

theorem execImage_cases (c : Config) (p : Nat) (path : Path) (hs : Settled s) (l : Load) :
    (∃ i u, Runs c s p path i ∧ Started s u i ∧ execImage c p path l s = loadImage p i l u) ∨
      (¬ ∃ i, Runs c s p path i) ∧ Sat (execImage c p path l s) Plain fun r =>
        r.1 = false ∧ Sound r.2 ∧ Eff s r.2 0 s.locks 0 ∧ r.2.inodes = s.inodes := by
  simp only [execImage, state_bind_run]
  obtain ⟨b, hbegin, hsb, heb, hib, hlb⟩ := beginOp_room hs.sound (by rw [hs.committed, hs.closed]; decide)
  have hlike := heb.like hib
  have hlogged : b.logged = 0 := hlb.trans hs.committed
  rw [bind_ok_run hbegin]
  have hnamex : Sat (namex c (s.proc p).cwd path false b) _ _ :=
    namex_spec hsb (fun i => by rw [heb.locks, hs.unlocked])
    fun i h => by rw [hlike.ref]; exact hs.cwd_pos (p := p) h
  cases hrun : namex c (s.proc p).cwd path false b with
  | error e =>
    obtain ⟨hplain, hstuck⟩ := hnamex.of_error hrun
    rw [hlike.walkFrom] at hstuck
    refine .inr ⟨fun ⟨i, name, hw, _⟩ => ?_, ?_⟩
    · rw [hw] at hstuck
      cases hstuck
    · rw [bind_error_run hrun]
      exact .error hplain
  | ok r =>
    obtain ⟨r, t⟩ := r
    obtain ⟨hw, hst, het, hit⟩ := hnamex.of_ok hrun
    simp only at hw hst het hit
    rw [hlike.walkFrom] at hw
    have hti : t.inodes = s.inodes := hit.trans hib
    have hbt : Eff s t (gain r) s.locks 1 := (heb.trans het).congr (fun j => by simp) heb.locks rfl
    rw [bind_ok_run hrun]
    cases r with
    | none =>
      obtain ⟨u, hend, hsu, heu, hiu⟩ := endOp_run hst
      refine .inr ⟨fun ⟨i, name, hw', _⟩ => ?_, ?_⟩
      · rw [hw] at hw'
        cases hw'
      · dsimp only
        rw [bind_ok_run hend]
        exact .ok ⟨rfl, hsu, (hbt.trans heu).congr (fun j => by simp [gain]) hbt.locks rfl, hiu.trans hti⟩
    | some r =>
      obtain ⟨ip, name⟩ := r
      have hlock := ilock_spec hst (i := ip) (by rw [hbt.locks, hs.unlocked])
      cases hrunl : ilock ip t with
      | error e =>
        obtain ⟨hplain, hbad⟩ := hlock.of_error hrunl
        refine .inr ⟨fun ⟨i, name', hw', hfree⟩ => ?_, ?_⟩
        · rw [hw] at hw'
          cases hw'
          rcases hbad with hbad | hbad
          · have := hs.sound.nonneg ip
            rw [hbt.ref, gain, one_self] at hbad
            omega
          · exact hfree (hti ▸ hbad)
        · dsimp only
          rw [bind_error_run hrunl]
          exact .error hplain
      | ok r =>
        obtain ⟨⟨⟩, u⟩ := r
        obtain ⟨-, hfree, hsu, heu, hiu⟩ := hlock.of_ok hrunl
        refine .inl ⟨ip, u, ⟨name, hw, hti ▸ hfree⟩, ⟨hsu, ?_, hiu.trans hti, ?_⟩, ?_⟩
        · exact (hbt.trans heu).congr (fun j => by simp [gain]) (by rw [hbt.locks]) rfl
        · rw [ilock_keeps _ _ _ hrunl, namex_keeps _ _ _ hrun, hlogged]
        · dsimp only
          rw [bind_ok_run hrunl]

namespace Started

theorem outstanding (h : Started s u i) (hs : Settled s) : u.outstanding = 1 := by
  rw [h.effect.outstanding, hs.closed, Int.zero_add]

theorem room (h : Started s u i) (hs : Settled s) : u.logged + (u.outstanding + 1) * MAXOPBLOCKS ≤ LOGSIZE := by
  rw [h.logged, h.outstanding hs]
  decide

theorem fits (h : Started s u i) (hs : Settled s) (hroom : roomFor 0 ns = true) : u.Fits ns :=
  .inr ⟨h.outstanding hs, by rw [h.logged]; exact hroom⟩

/-- Inodes other than the program are as they were. -/
theorem other (h : Started s u i) (hs : Settled s) {j : Nat} (hj : j ≠ i) : u.locks j = false ∧ u.ref j = s.ref j := by
  rw [h.effect.locks, h.effect.ref, Function.update_of_ne hj, one, if_neg hj, Int.add_zero]
  exact ⟨hs.unlocked j, rfl⟩

theorem takes (h : Started s u i) (hs : Settled s) (hi : s.swapInode p ≠ some i) : Takes u p ↔ Takes s p := by
  refine exists_congr fun j => ?_
  rw [h.effect.swapInode, h.inodes]
  refine and_congr_right fun hj => ?_
  rw [(h.other hs fun he => hi (he ▸ hj)).2]

/-- The program given up again and the transaction closed. -/
theorem ends (h : Started s u i) (hs : Settled s) (hst : Sound t) (het : Eff u t 0 u.locks 0)
    (hit : t.inodes = u.inodes) :
    ∃ v w, iunlockput i t = .ok (⟨⟩, v) ∧ endOp v = .ok (⟨⟩, w) ∧ Sound w ∧ Eff s w 0 s.locks 0 ∧
    w.inodes = s.inodes := by
  have hsv : Eff s t (one i) u.locks 1 := (h.effect.trans het).congr (fun j => by simp) rfl rfl
  obtain ⟨v, hput, hsv', hev, hputv⟩ :=
    iunlockput_run hst (i := i) (by rw [hsv.locks, h.effect.locks, Function.update_self])
  have hvi := hputv.same hs.sound (hit.trans h.inodes) (by rw [hsv.ref, one_self])
  obtain ⟨w, hend, hsw, hew, hiw⟩ := endOp_run hsv'
  refine ⟨v, w, hput, hend, hsw, ((hsv.trans hev).trans hew).congr (fun j => by simp) ?_ rfl, hiw.trans hvi⟩
  rw [hev.locks, hsv.locks, h.effect.locks, Function.update_idem]
  exact (Function.update_eq_self_iff ..).2 (hs.unlocked i).symm

end Started

/-- Up to the new image: pages go out to a swap file that is not the program, and have room in the log. -/
theorem loadImage_spec (hs : Settled s) (h : Started s u i) (hself : l.outs ≠ [] → s.swapInode p ≠ some i)
    (hroom : roomFor 0 l.outs = true) : Sat (loadImage p i l u) Plain fun r =>
      Sound r.2 ∧ Eff s r.2 0 s.locks 0 ∧ r.2.inodes = s.inodes ∧
        (r.1 = true → l.loaded = true ∧ l.built = true ∧ (l.outs ++ l.stackOuts ≠ [] → Takes s p)) := by
  unfold loadImage
  refine sat_bind (pageOuts_spec h.sound (h.fits hs hroom) fun hn j hj => ?_) ?_
  · rw [h.effect.swapInode] at hj
    exact (h.other hs fun he => hself hn (he ▸ hj)).1
  rintro ⟨⟩ t - ⟨hst, het, hit, htakes⟩
  obtain ⟨v, w, hput, hend, hsw, hew, hiw⟩ := h.ends hs hst het hit
  rw [bind_ok_run hput, bind_ok_run hend]
  cases hload : l.loaded with
  | false => exact .ok ⟨hsw, hew, hiw, fun hr => by cases hr⟩
  | true =>
    have hwo : w.outstanding = 0 := by rw [hew.outstanding, hs.closed, Int.add_zero]
    refine sat_bind (pageOuts_spec hsw (.inl hwo) fun _ j _ => by rw [hew.locks, hs.unlocked]) ?_
    rintro ⟨⟩ x - ⟨hsx, hex, hix, htakesx⟩
    change Sound x at hsx
    change Eff w x 0 w.locks 0 at hex
    change x.inodes = w.inodes at hix
    refine .ok ⟨hsx, (hew.trans hex).congr (fun j => by simp) hew.locks rfl, hix.trans hiw,
      fun hr => ⟨rfl, hr, fun hn => ?_⟩⟩
    -- a page went out, so there is a swap file that could be locked
    by_cases houts : l.outs = []
    · exact (htakesx fun hno => hn (by rw [houts, hno]; rfl)).congr hew (fun _ _ => rfl) hiw
    · exact (h.takes hs (hself houts)).1 (htakes houts)

theorem loadImage_run (hs : Settled s) (h : Started s u i) (hself : l.outs ≠ [] → s.swapInode p ≠ some i)
    (hroom : roomFor 0 l.outs = true) (hload : l.loaded = true) (hbuilt : l.built = true)
    (htakes : l.outs ++ l.stackOuts ≠ [] → Takes s p) : ∃ t, loadImage p i l u = .ok (true, t) := by
  obtain ⟨t, hrun⟩ := pageOuts_run (p := p) h.sound (h.fits hs hroom) fun hn => by
    obtain ⟨j, hj, hpos, hfree⟩ := htakes fun he => hn (List.append_eq_nil_iff.1 he).1
    obtain ⟨h1, h2⟩ := h.other hs fun he => hself hn (he ▸ hj)
    exact ⟨j, h.effect.swapInode.trans hj, h1, h2 ▸ hpos, h.inodes ▸ hfree⟩
  obtain ⟨hst, het, hit, -⟩ := (pageOuts_spec (p := p) h.sound (h.fits hs hroom) fun hn j hj => by
    rw [h.effect.swapInode] at hj
    exact (h.other hs fun he => hself hn (he ▸ hj)).1).of_ok hrun
  obtain ⟨v, w, hput, hend, hsw, hew, hiw⟩ := h.ends hs hst het hit
  have hwo : w.outstanding = 0 := by rw [hew.outstanding, hs.closed, Int.add_zero]
  obtain ⟨x, hrunx⟩ : ∃ x, pageOuts p l.stackOuts w = .ok (⟨⟩, x) := pageOuts_run hsw (.inl hwo) fun hn => by
    obtain ⟨j, hj, hpos, hfree⟩ := htakes fun he => hn (List.append_eq_nil_iff.1 he).2
    exact ⟨j, hew.swapInode.trans
      hj, by rw [hew.locks, hs.unlocked], by rw [hew.ref, Pi.zero_apply, Int.add_zero]; exact hpos, hiw ▸ hfree⟩
  refine ⟨x, ?_⟩
  rw [loadImage, bind_ok_run hrun, bind_ok_run hput, bind_ok_run hend, hload, if_neg (by decide),
    bind_ok_run hrunx, hbuilt]
  rfl

theorem execImage_spec (hs : Settled s) (h : ¬ ExecWaits c s p path l) (hf : ¬ ExecFills c s p path l) :
    Sat (execImage c p path l s) Plain fun r =>
      Sound r.2 ∧ Eff s r.2 0 s.locks 0 ∧ r.2.inodes = s.inodes ∧ (r.1 = true → Replaces c s p path l) := by
  rcases execImage_cases c p path hs l with ⟨i, u, hruns, hstart, hrun⟩ | ⟨-, hsat⟩
  · have hself : l.outs ≠ [] → s.swapInode p ≠ some i := fun hn hi => h ⟨i, hruns, hn, hi⟩
    rw [hrun]
    cases hroom : roomFor 0 l.outs with
    | true =>
      refine (loadImage_spec hs hstart hself hroom).mono (fun _ h => h) ?_
      rintro r ⟨h1, h2, h3, h4⟩
      exact ⟨h1, h2, h3, fun hr => ⟨⟨i, hruns⟩, h4 hr⟩⟩
    | false =>
      -- there is no swap file, so the first page stops it
      have hno : ¬ Takes s p := fun ht => hf ⟨⟨i, hruns⟩, hroom, ht⟩
      cases houts : l.outs with
      | nil =>
        rw [houts] at hroom
        cases hroom
      | cons n ns =>
        have hself := hself (by rw [houts]; exact List.cons_ne_nil _ _)
        obtain ⟨e, he, hplain⟩ : ∃ e, pageOut p n u = .error e ∧ Plain e := by
          have hsat : Sat (pageOut p n u) _ _ :=
            pageOut_spec hstart.sound (hstart.fits hs (show roomFor 0 [n] = true from rfl)) fun j hj => by
            rw [hstart.effect.swapInode] at hj
            exact (hstart.other hs fun he => hself (he ▸ hj)).1
          cases hpage : pageOut p n u with
          | error e => exact ⟨e, rfl, hsat.of_error hpage⟩
          | ok r => exact absurd ((hstart.takes hs hself).1 (hsat.of_ok hpage).2.2.2.2) hno
        have hload : loadImage p i l u = .error e := by
          rw [loadImage, houts]
          exact bind_error_run (bind_error_run he)
        rw [hload]
        exact .error hplain
  · exact hsat.mono (fun _ h => h) fun r hr => ⟨hr.2.1, hr.2.2.1, hr.2.2.2, fun ht => by rw [hr.1] at ht; cases ht⟩

theorem execImage_run (hs : Settled s) (h : ¬ ExecWaits c s p path l) (hf : ¬ ExecFills c s p path l)
    (hr : Replaces c s p path l) :
    ∃ t, execImage c p path l s = .ok (true, t) := by
  obtain ⟨hruns, hload, hbuilt, htakes⟩ := hr
  rcases execImage_cases c p path hs l with ⟨i, u, hruns', hstart, hrun⟩ | ⟨hno, -⟩
  · rw [hrun]
    refine loadImage_run hs hstart (fun hn hi => h ⟨i, hruns', hn, hi⟩) ?_ hload hbuilt htakes
    by_contra hroom
    have hroom : roomFor 0 l.outs = false := by simpa using hroom
    refine hf ⟨hruns, hroom, htakes fun he => ?_⟩
    rw [(List.append_eq_nil_iff.1 he).1] at hroom
    cases hroom
  · exact absurd hruns hno

theorem execImage_deadlock (hs : Settled s) (h : ExecWaits c s p path l) :
    execImage c p path l s = .error .deadlock := by
  obtain ⟨j, hruns, hn, hj⟩ := h
  rcases execImage_cases c p path hs l with ⟨i, u, hruns', hstart, hrun⟩ | ⟨hno, -⟩
  · obtain rfl : i = j := hruns'.unique hruns
    rw [hrun]
    exact bind_error_run (pageOuts_deadlock hstart.sound (hstart.room hs) hn (hstart.effect.swapInode.trans hj)
      (by rw [hstart.effect.locks, Function.update_self]))
  · exact absurd ⟨j, hruns⟩ hno

theorem execImage_fills (hs : Settled s) (h : ¬ ExecWaits c s p path l) (hf : ExecFills c s p path l) :
    execImage c p path l s = .error .logSpace := by
  obtain ⟨hruns, hroom, j, hj, hpos, hfree⟩ := hf
  rcases execImage_cases c p path hs l with ⟨i, u, hruns', hstart, hrun⟩ | ⟨hno, -⟩
  · have hn : l.outs ≠ [] := by
      rintro hn
      rw [hn] at hroom
      cases hroom
    obtain ⟨h1, h2⟩ := hstart.other hs fun he => h ⟨i, hruns', hn, he ▸ hj⟩
    rw [hrun]
    refine bind_error_run (pageOuts_fill hstart.sound (hstart.outstanding hs) (by rw [hstart.logged]; exact hroom)
      (hstart.effect.swapInode.trans hj) h1 (h2 ▸ hpos) (hstart.inodes ▸ hfree))
  · exact absurd hruns hno

/-! ## The swap file of two states that are alike -/

/-- The inode that goes with the file. -/
def St.given (s : St) (f : Nat) : Option Nat := if (s.file f).ref = 1 then (s.file f).ip else none

/-- The tree after the last reference to `i`. -/
def St.without (s : St) (i : Nat) : Tree :=
  if (s.inodes i).type ≠ .free ∧ (s.inodes i).nlink = 0 ∧ s.ref i = 1 then
    update s.inodes i { s.inodes i with type := .free, ents := [] }
  else s.inodes

theorem Put.without (h : Put s i t) : t.inodes = s.without i := by
  unfold St.without
  cases h with
  | kept h hn =>
    rw [if_neg, h]
    rintro ⟨h1, h2, h3⟩
    rcases hn with hn | hn | hn
    · exact h1 hn
    · exact hn h2
    · omega
  | freed h h1 h2 h3 => rw [if_pos ⟨h1, h2, h3⟩, h]

theorem fileclose_run (hs : Settled s) (hpos : 0 < (s.file f).ref) : ∃ t, fileclose f s = .ok (⟨⟩, t) ∧
    (∀ j, t.ref j = s.ref j - (s.given f).elim 0 fun i => one i j) ∧
    t.inodes = (s.given f).elim s.inodes s.without := by
  unfold fileclose
  rw [state_bind_run, if_neg (by omega)]
  by_cases hmore : 0 < (s.file f).ref - 1
  · have hgiven : s.given f = none := if_neg (by omega)
    rw [if_pos hmore, hgiven]
    exact ⟨_, rfl, fun j => (Int.sub_zero _).symm, rfl⟩
  have hgiven : s.given f = (s.file f).ip := if_pos (by omega)
  rw [if_neg hmore, hgiven, bind_run, change_run, ok_bind]
  have hsame : Same s (s.setFile f { ref := 0, ip := none }) := .setFile ..
  generalize s.setFile f { ref := 0, ip := none } = t at hsame ⊢
  have hst := hsame.sound hs.sound
  cases hip : (s.file f).ip with
  | none => exact ⟨t, rfl, fun j => by rw [hsame.ref]; exact (Int.sub_zero _).symm, hsame.inodes⟩
  | some ip =>
    obtain ⟨u, hbegin, hsu, heu, hiu⟩ := beginOp_run hst (hsame.outstanding.trans hs.closed)
    have huref : ∀ j, u.ref j = s.ref j := fun j => by rw [heu.ref, hsame.ref, Pi.zero_apply, Int.add_zero]
    have hui : u.inodes = s.inodes := hiu.trans hsame.inodes
    have hpos' : 0 < u.ref ip := by
      rw [huref]
      exact hs.ref_pos (holds_of_file (file_of_ref hpos) hpos hip)
    have htl : t.locks = s.locks := funext fun j => by simp only [St.locks, hsame.icache]
    obtain ⟨v, hput, hsv, hev, hputv⟩ := iput_run hsu hpos' (by rw [heu.locks, htl, hs.unlocked])
    obtain ⟨w, hend, -, hew, hiw⟩ := endOp_run hsv
    refine ⟨w, ?_, fun j => ?_, ?_⟩
    · dsimp only
      rw [bind_ok_run hbegin, bind_ok_run hput, hend]
    · rw [hew.ref, hev.ref, huref, Pi.zero_apply, Pi.neg_apply]
      simp only [Option.elim]
      omega
    · rw [hiw, hputv.without]
      simp only [St.without, hui, huref, Option.elim]

/-- Closing a file in two states that paths cannot tell apart. -/
theorem fileclose_like (hs : Settled s) (hu : Settled u) (h : Like s u) (hf : u.ftable = s.ftable)
    (hrun : fileclose f s = .ok (⟨⟩, t)) :
    ∃ v, fileclose f u = .ok (⟨⟩, v) ∧ Like t v := by
  have hpos : 0 < (s.file f).ref := by
    by_contra hn
    have : fileclose f s = .error .fileclose := by
      unfold fileclose
      rw [state_bind_run, if_pos (by omega)]
      rfl
    rw [this] at hrun
    cases hrun
  have hfile : u.file f = s.file f := by rw [St.file, St.file, hf]
  have hgiven : u.given f = s.given f := by rw [St.given, St.given, hfile]
  have hwithout : u.without = s.without := by
    funext i
    simp only [St.without, h.inodes, h.ref]
  obtain ⟨t', ht, htref, hti⟩ := fileclose_run hs hpos
  obtain ⟨v, hv, hvref, hvi⟩ := fileclose_run hu (f := f) (by rw [hfile]; exact hpos)
  obtain rfl : t = t' := by
    rw [hrun] at ht
    injection ht with ht
    injection ht
  exact ⟨v, hv, fun j => by rw [hvref, htref, hgiven, h.ref], by rw [hvi, hti, hgiven, hwithout, h.inodes]⟩

/-! ## The new swap file -/

theorem Puts.cases {T U : Tree} (h : Puts T U) (i : Nat) : U i = T i ∨ (U i).type = .free := by
  induction h with
  | refl => exact .inl rfl
  | tail _ hp ih =>
    obtain ⟨j, left, hp⟩ := hp
    cases hp with
    | kept h =>
      rw [h]
      exact ih
    | freed h =>
      by_cases hij : i = j
      · right
        rw [h, hij, Function.update_self]
      · rw [h, Function.update_of_ne hij]
        exact ih

theorem Tree.unlinked_ents {T : Tree} {dp off : Nat} :
    (T.unlinked dp off i dp).ents = ((T.dropEnt dp off) dp).ents := by
  unfold Tree.unlinked Tree.dropped
  rw [Tree.link_ents]
  split
  · rw [Tree.link_ents]
  · rfl

/-- Once the name is gone it can be made again. -/
theorem not_blocked_of_gone {dp off : Nat} {name : Name} {pid : Nat} (htidy : Tidy t.inodes)
    (hw : walkFrom c t cwd (swapPath pid) true = some (some (dp, name))) (hc : CanUnlink t.inodes dp name off i)
    (hp : Puts (Tree.unlinked t.inodes dp off i) u.inodes) : ¬ Blocked c u cwd (swapPath pid) := by
  have hroot : dp = ROOTINO ∧ name = swapName pid := by
    rw [walkFrom_swapPath] at hw
    split at hw <;> try cases hw
    split at hw <;> try cases hw
    split at hw <;> try cases hw
    exact ⟨rfl, rfl⟩
  obtain ⟨rfl, rfl⟩ := hroot
  rw [Blocked, walkFrom_swapPath]
  rcases hp.cases ROOTINO with h | h
  · have htype : (u.inodes ROOTINO).type = .dir := by
      rw [h, Tree.unlinked, Tree.link_type, Tree.dropped_type]
      exact hc.dir
    have hnone : lookup (u.inodes ROOTINO).ents (swapName pid) = none := by
      rw [h, Tree.unlinked_ents]
      exact htidy.lookup_dropEnt hc.found
    rw [htype, if_neg (by decide : ¬ Ty.dir = .free), if_neg (by decide : ¬ Ty.dir ≠ .dir)]
    split
    · rintro (h | ⟨_, _, _, _, h, -⟩) <;> cases h
    · rintro (h | ⟨dp, name, off', j, h1, h2, -⟩)
      · cases h
      · obtain ⟨rfl, rfl⟩ : ROOTINO = dp ∧ swapName pid = name := by simpa using h1
        rw [hnone] at h2
        cases h2
  · rw [h, if_pos rfl]
    split <;> rintro (h | ⟨_, _, _, _, h, -⟩) <;> cases h

/-- `removeSwapFile` leaves the name in the way only where it was and stays. -/
theorem Removed.not_blocked {b : Bool} (htidy : Tidy s.inodes) (hs : Settled s) (hr : Removed c s p b t)
    (h : ¬ RenewBlocked c s p) :
    ¬ Blocked c t (s.proc p).cwd (swapPath (s.proc p).pid) := by
  rcases hr with hf | ⟨f, u, _, _, hf, hrun, hun, href⟩
  · rw [RenewBlocked, hf] at h
    exact h
  rw [RenewBlocked, hf] at h
  obtain ⟨-, htidyu, -⟩ := closed_spec (p := p) hs htidy hrun
  intro hb
  cases b with
  | false =>
    have hlike : Like u t := ⟨href, hun.of_false⟩
    exact h ⟨u, hrun, hun.stays_of_false, hlike.blocked.1 hb⟩
  | true =>
    generalize ht : t.inodes = U at hun
    cases hun with
    | gone dp off i name _ hw hc hp =>
      rw [← ht] at hp
      exact not_blocked_of_gone htidyu hw hc hp hb

/-- The tree after `removeSwapFile` and `createSwapFile`. -/
inductive Renewed (c : Config) (s : St) (p : Nat) : Tree → Prop
  | same : Renewed c s p s.inodes
  | new (b : Bool) (u : St) (U : Tree) (hr : Removed c s p b u)
      (hm : Made c u (s.proc p).cwd (swapPath (s.proc p).pid) .file U) : Renewed c s p U

theorem newSwapFile_spec (hs : Settled s) (htidy : Tidy s.inodes)
    (h : c.policy = true → DEF_PROCS < (s.proc p).pid → ¬ RenewBlocked c s p) : Sat (newSwapFile c p s) Plain fun r =>
      Settled r.2 ∧ Moved s r.2 0 s.locks 0 ∧ Renewed c s p r.2.inodes := by
  unfold newSwapFile
  rw [state_bind_run]
  by_cases hc : c.policy = true ∧ DEF_PROCS < (s.proc p).pid
  · rw [if_pos hc]
    refine sat_bind (removeSwapFile_spec hs htidy) ?_
    rintro b u - ⟨hsu, hmu, hpu, hr⟩
    change Settled u at hsu
    change Moved s u 0 s.locks 0 at hmu
    change Removed c s p b u at hr
    have hproc : u.proc p = s.proc p := by
      change u.procs = s.procs at hpu
      rw [St.proc, St.proc, hpu]
    refine (createSwapFile_spec hsu ?_).mono (fun _ h => h) ?_
    · rw [hproc]
      exact hr.not_blocked htidy hs (h hc.1 hc.2)
    · rintro r ⟨hsr, hmr, hmade⟩
      rw [hproc] at hmade
      exact ⟨hsr, (hmu.trans hmr).congr (fun j => by simp) hmu.locks rfl, .new b u _ hr hmade⟩
  · rw [if_neg hc]
    exact .ok ⟨hs, ((Eff.refl s).congr (fun _ => rfl) rfl rfl).moved, .same⟩

theorem newSwapFile_blocked (hs : Settled s) (htidy : Tidy s.inodes) (hc : c.policy = true)
    (hpid : DEF_PROCS < (s.proc p).pid)
    (h : RenewBlocked c s p) : newSwapFile c p s = .error .iunlock := by
  unfold newSwapFile
  rw [state_bind_run, if_pos ⟨hc, hpid⟩]
  cases hf : (s.proc p).swapFile with
  | none =>
    rw [RenewBlocked, hf] at h
    have hrun : removeSwapFile c p s = .ok (false, s) := by
      unfold removeSwapFile
      rw [state_bind_run, hf]
      rfl
    rw [bind_ok_run hrun]
    exact createSwapFile_blocked hs h
  | some f =>
    rw [RenewBlocked, hf] at h
    obtain ⟨t, hrun, hstays, hblocked⟩ := h
    obtain ⟨u, hu, hlike⟩ := removeSwapFile_fails hs htidy hf hrun hstays
    obtain ⟨hsu, -, hpu, -⟩ := (removeSwapFile_spec hs htidy).of_ok hu
    have hproc : u.proc p = s.proc p := by
      change u.procs = s.procs at hpu
      rw [St.proc, St.proc, hpu]
    rw [bind_ok_run hu]
    exact createSwapFile_blocked hsu (by rw [hproc]; exact hlike.blocked.2 hblocked)

/-- What the swap file is replaced by does not depend on what `exec` read meanwhile. -/
theorem renewBlocked_like (hs : Settled s) (hu : Settled u) (he : Eff s u 0 ls z) (hi : u.inodes = s.inodes) :
    RenewBlocked c u p ↔ RenewBlocked c s p := by
  have hlike := he.like hi
  have hback : Like u s := ⟨fun j => (hlike.ref j).symm, hi.symm⟩
  rw [RenewBlocked, RenewBlocked, he.proc]
  cases (s.proc p).swapFile with
  | none => exact hlike.blocked
  | some f =>
    constructor
    · rintro ⟨t, hrun, hst, hb⟩
      obtain ⟨v, hv, hl⟩ := fileclose_like hu hs hback he.ftable.symm hrun
      exact ⟨v, hv, hl.stays.2 hst, hl.blocked.2 hb⟩
    · rintro ⟨t, hrun, hst, hb⟩
      obtain ⟨v, hv, hl⟩ := fileclose_like hs hu hlike he.ftable hrun
      exact ⟨v, hv, hl.stays.2 hst, hl.blocked.2 hb⟩

/-! ## exec -/

theorem sysExec_spec (hs : Settled s) (htidy : Tidy s.inodes) (h : ExecFine c s p path l) :
    Sat (sysExec c p (some path) l s) Plain fun r =>
    Settled r.2 ∧ Ends s r.2 (!r.1) ∧ ∃ u, Settled u ∧ u.inodes = s.inodes ∧ Renewed c u p r.2.inodes := by
  refine sat_bind (execImage_spec hs h.waits h.fills) ?_
  rintro b u - ⟨hsu, heu, hiu, hrep⟩
  change Sound u at hsu
  change Eff s u 0 s.locks 0 at heu
  change u.inodes = s.inodes at hiu
  change b = true → _ at hrep
  obtain ⟨hset, hends⟩ := hs.ends hsu heu true
  cases b with
  | false => exact .ok ⟨hset, hends, u, hset, hiu, .same⟩
  | true =>
    have hren : c.policy = true → DEF_PROCS < (u.proc p).pid → ¬ RenewBlocked c u p := fun hc hpid => by
      rw [renewBlocked_like hs hset heu hiu]
      exact h.renew (hrep rfl) hc (by rw [← heu.proc]; exact hpid)
    refine sat_bind (newSwapFile_spec hset (hiu ▸ htidy) hren) ?_
    rintro ⟨⟩ v - ⟨hsv, hmv, hv⟩
    change Settled v at hsv
    change Moved u v 0 u.locks 0 at hmv
    exact .ok ⟨hsv, ⟨(heu.moved.trans hmv).congr (fun j => by simp) heu.locks rfl, fun h => by cases h⟩,
      u, hset, hiu, hv⟩

theorem sysExec_stuck (hs : Settled s) (htidy : Tidy s.inodes) (h : ¬ ExecFine c s p path l) :
    ∃ e, sysExec c p (some path) l s = .error e ∧ ¬ Plain e := by
  by_cases hwaits : ExecWaits c s p path l
  · exact ⟨.deadlock, bind_error_run (execImage_deadlock hs hwaits), by decide⟩
  by_cases hfills : ExecFills c s p path l
  · exact ⟨.logSpace, bind_error_run (execImage_fills hs hwaits hfills), by decide⟩
  have hren : ¬ (Replaces c s p path l → c.policy = true → DEF_PROCS < (s.proc p).pid →
    ¬ RenewBlocked c s p) := fun hr =>
    h ⟨hwaits, hfills, hr⟩
  push Not at hren
  obtain ⟨hrep, hc, hpid, hb⟩ := hren
  obtain ⟨u, hu⟩ := execImage_run hs hwaits hfills hrep
  obtain ⟨hsu, heu, hiu, -⟩ := (execImage_spec hs hwaits hfills).of_ok hu
  change Sound u at hsu
  change Eff s u 0 s.locks 0 at heu
  change u.inodes = s.inodes at hiu
  have hset := (hs.ends hsu heu true).1
  refine ⟨.iunlock, ?_, by decide⟩
  unfold sysExec
  dsimp only
  rw [bind_ok_run hu, if_pos rfl]
  refine bind_error_run (newSwapFile_blocked hset (hiu ▸ htidy) hc (by rw [heu.proc]; exact hpid) ?_)
  rw [renewBlocked_like hs hset heu hiu]
  exact hb

/-- **exec**, exactly when it neither waits for itself nor stops for its swap file. -/
theorem sysExec_iff (hs : Settled s) (htidy : Tidy s.inodes) : Sat (sysExec c p (some path) l s) Plain
    (fun r => Ends s r.2 !r.1) ↔
    ExecFine c s p path l := by
  constructor
  · intro h
    by_contra hf
    obtain ⟨e, hrun, he⟩ := sysExec_stuck hs htidy hf
    exact he (h.of_error hrun)
  · exact fun h => (sysExec_spec hs htidy h).mono (fun _ h => h) fun _ h => h.2.1

end

end Dirs
