import CCppProjects.Xv6.Aging
import CCppProjects.Xv6.SwapCopy
/-
# What a failed `exec` leaves behind (exec.c:10-77, 101-204)

`initPagesData` starts the record of the pages anew and keeps the old one; `bad:` puts it back. The swap file has no
backup: a page of the new image that is swapped out goes to the first slot, which may hold a page of the old image
(`getFreeFileOffset`, proc.c:803). `Attempt` are the states on the way to the new image, `Spares` the part of the file
that they leave alone.
-/
namespace Xv6

variable {c : Cfg} {x x' y z u : Ctx} {p q : Proc}

/-! ## The state a failed call must keep -/

/-- The process is as it was, and what `get_page` reads for a page that is out is the same. -/
structure Restored (x x' : Ctx) : Prop where
  proc : { x'.proc with swapFile := x.proc.swapFile } = x.proc
  file : ∀ pg ∈ x.proc.pages, ∀ f, pg.OutAt f → ∀ src, x.proc.swapFile = some src →
    ∃ dst, x'.proc.swapFile = some dst ∧ readFromSwapFile dst (some f) zeroPage = readFromSwapFile src (some f) zeroPage

/-- No page of an image of `n` pages is swapped out, for there are not so many or memory ends before; or the
pages that are out lie behind the slots that its first pages go to, and with `SCFIFO` none of the old pages at
the addresses of these has `PTE_A`. -/
def Backed (c : Cfg) (n : Nat) (x : Ctx) : Prop :=
  x.tracked c = true → n ≤ MAX_PSYC_PAGES ∨ x.kmem.freelist.length < 82 ∨
    ((∀ pg ∈ x.proc.pages, ∀ f, pg.OutAt f → (n - MAX_PSYC_PAGES) * PGSIZE ≤ f) ∧
      (c.sel = .SCFIFO → ∀ v < n - MAX_PSYC_PAGES, (x.proc.pgdir.pte v).A = false))

/-! ## The swap file -/

/-- From byte `b` on the file is what it was. -/
structure Spares (b : Nat) (src dst : SwapFile) : Prop where
  grows : src.size ≤ dst.size
  size : dst.size ≤ max src.size b
  byte : ∀ a, b ≤ a → dst.byte a = src.byte a

theorem Spares.refl (b : Nat) (fl : SwapFile) : Spares b fl fl := ⟨Nat.le_refl _, Nat.le_max_left _ _, fun _ _ => rfl⟩

theorem Spares.mono {b b' : Nat} {src dst : SwapFile} (h : Spares b src dst) (hb : b ≤ b') : Spares b' src dst :=
  ⟨h.grows, by have := h.size; omega, fun a ha => h.byte a (by omega)⟩

theorem Spares.trans {b : Nat} {f g h : SwapFile} (h1 : Spares b f g) (h2 : Spares b g h) : Spares b f h := by
  refine ⟨h1.grows.trans h2.grows, ?_, fun a ha => (h2.byte a ha).trans (h1.byte a ha)⟩
  have := h1.size
  have := h2.size
  omega

theorem Spares.read {b f : Nat} {src dst : SwapFile} (h : Spares b src dst) (hf : b ≤ f) (buffer : PageData) :
    readFromSwapFile dst (some f) buffer = readFromSwapFile src (some f) buffer := by
  funext a
  have hg := h.grows
  have hs := h.size
  simp only [readFromSwapFile]
  by_cases ha : f + a.val < src.size
  · rw [if_pos (by omega), if_pos ha, h.byte _ (by omega)]
  · rw [if_neg (by omega), if_neg ha]

theorem filewriteLoop_spares (src : Nat → UInt8) {base n : Nat} : ∀ (fuel i : Nat) (fl : SwapFile), i ≤ n →
    Spares (base + n) fl (filewriteLoop src base n fuel i fl).1 := by
  intro fuel
  induction fuel with
  | zero => exact fun i fl _ => .refl _ fl
  | succ fuel ih =>
    intro i fl hi
    rw [filewriteLoop]
    split
    · dsimp only
      have hc : min (n - i) FILEMAX ≤ n - i := Nat.min_le_left _ _
      generalize min (n - i) FILEMAX = n1 at hc
      cases hw : writei fl (base + i) n1 fun a => src (i + a) with
      | none => exact .refl _ fl
      | some fl' =>
        refine Spares.trans ?_ (ih (i + n1) fl' (by omega))
        unfold writei at hw
        split at hw
        · cases hw
        · cases hw
          refine ⟨Nat.le_max_left _ _, by dsimp only; omega, fun a ha => ?_⟩
          exact if_neg (by omega)
    · exact .refl _ fl

theorem writeToSwapFile_spares (page : PageData) (off : Nat) (fl : SwapFile) :
    Spares (off + PGSIZE) fl (writeToSwapFile page off fl).1 := filewriteLoop_spares _ _ _ _ (Nat.zero_le _)

/-! ## Swapping out a page of the new image -/

/-- `RAMQueue` with `n` indices, from `s` on. -/
def queueFrom (s n : Nat) : List (Option Nat) := (List.range' s n).map some ++ List.replicate (MAX_PSYC_PAGES - n) none

theorem queueFrom_free (s n : Nat) : firstFree (queueFrom s n) = n ∨ MAX_PSYC_PAGES ≤ firstFree (queueFrom s n) := by
  have hall : ((List.range' s n).map some).findIdx (· == none) = n := by
    have hlen : ((List.range' s n).map some).length = n := by simp
    conv => rhs; rw [← hlen]
    refine List.findIdx_eq_length.2 fun a ha => ?_
    obtain ⟨i, -, rfl⟩ := List.mem_map.1 ha
    rfl
  rw [firstFree, queueFrom, List.findIdx_append, hall, List.length_map, List.length_range', if_neg (Nat.lt_irrefl n)]
  cases hm : MAX_PSYC_PAGES - n with
  | zero =>
    rw [List.replicate_zero, List.findIdx_nil]
    omega
  | succ m =>
    rw [List.replicate_succ, List.findIdx_cons]
    exact .inl (Nat.zero_add n)

/-- `insert` puts the next index behind them. -/
theorem queueFrom_set {s n : Nat} (h : n < MAX_PSYC_PAGES) :
    (queueFrom s n).set n (some (s + n)) = queueFrom s (n + 1) := by
  have hlen : ((List.range' s n).map some).length = n := by simp
  have hsucc : MAX_PSYC_PAGES - n = MAX_PSYC_PAGES - (n + 1) + 1 := by omega
  rw [queueFrom, queueFrom, List.set_append_right _ _ (by omega), hlen, Nat.sub_self,
    hsucc, List.replicate_succ, List.set_cons_zero,
    List.range'_concat, List.map_append, List.append_assoc]
  simp

/-- `removeSCFIFO` takes the head of a full queue if it was not accessed, and clears nothing. -/
theorem removeSCFIFO_head {s : Nat} {r : Option Nat} {p' : Proc} (hq : p.RAMQueue = queueFrom s MAX_PSYC_PAGES)
    (hA : ∀ pg, p.pages[s]? = some pg → ∀ e, walkpgdir c p.pgdir (pg.vAddress / PGSIZE) = some e → e.A = false)
    (h : removeSCFIFO c p = .ok (r, p')) : p' = { p with RAMQueue := queueFrom (s + 1) (MAX_PSYC_PAGES - 1) } := by
  have hcons : p.RAMQueue = some s :: (List.range' (s + 1) (MAX_PSYC_PAGES - 1)).map some := hq
  unfold removeSCFIFO at h
  obtain ⟨⟨t, temp, found⟩, hs, h⟩ := bind_ok h
  rw [hcons, scfifoScan] at hs
  obtain ⟨pg, hpg, hs⟩ := bind_ok hs
  have hget : p.pages[s]? = some pg := by
    unfold Proc.page at hpg
    dsimp only at hpg
    split at hpg
    · cases hpg
    · next hget =>
      cases hpg
      exact hget
  split at hs
  · cases hs
  · next e he =>
    rw [if_neg (by simp [hA pg hget e he])] at hs
    cases hs
    cases h
    have hall : ((List.range' (s + 1) (MAX_PSYC_PAGES - 1)).map some).takeWhile (· != none) =
        (List.range' (s + 1) (MAX_PSYC_PAGES - 1)).map some := by
      refine List.takeWhile_eq_self_iff.2 fun a ha => ?_
      obtain ⟨i, -, rfl⟩ := List.mem_map.1 ha
      rfl
    simp only [hall, List.length_map, List.length_range']
    rfl

theorem removeVictim_still {s : Nat} {r : Option Nat} {p' : Proc}
    (hq : c.sel = .SCFIFO → p.RAMQueue = queueFrom s MAX_PSYC_PAGES)
    (hA : c.sel = .SCFIFO → ∀ pg, p.pages[s]? = some pg →
    ∀ e, walkpgdir c p.pgdir (pg.vAddress / PGSIZE) = some e → e.A = false)
    (h : removeVictim c p = .ok (r, p')) :
    ∃ a, p' = { p with RAMQueue := a } ∧ (c.sel = .SCFIFO → a = queueFrom (s + 1) (MAX_PSYC_PAGES - 1)) := by
  unfold removeVictim at h
  split at h
  · next hsel =>
    cases h
    exact ⟨_, rfl, fun hs => absurd (hsel.symm.trans hs) nofun⟩
  · next hsel => exact ⟨_, removeSCFIFO_head (hq hsel) (hA hsel) h, fun _ => rfl⟩
  · next hsel =>
    unfold removeNFUA at h
    obtain ⟨m, -, h⟩ := bind_ok h
    cases h
    exact ⟨_, rfl, fun hs => absurd (hsel.symm.trans hs) nofun⟩
  · next hsel =>
    unfold removeLAPA at h
    obtain ⟨m, -, h⟩ := bind_ok h
    split at h
    · cases h
    · cases h
      exact ⟨_, rfl, fun hs => absurd (hsel.symm.trans hs) nofun⟩
  · next hsel =>
    unfold removeAQ at h
    cases h
    exact ⟨_, rfl, fun hs => absurd (hsel.symm.trans hs) nofun⟩

/-- What a swap-out does to a process without free slots in its file. -/
structure Evicts (p q : Proc) : Prop where
  id : q.id = p.id
  pgdir : q.pgdir = p.pgdir
  offsets : q.offsetQueue = p.offsetQueue
  next : q.fileOffset = (p.fileOffset + PGSIZE) % UINT
  file : ∃ src dst, p.swapFile = some src ∧ q.swapFile = some dst ∧ Spares (p.fileOffset + PGSIZE) src dst
  pages : ∃ i pg off, p.pages[i]? = some pg ∧
    q.pages = p.pages.set i { pg with fileOffset := some off, isInRAM := false }

theorem swapToFile_evicts {s : Nat} (hq : c.sel = .SCFIFO → x.proc.RAMQueue = queueFrom s MAX_PSYC_PAGES)
    (hA : c.sel = .SCFIFO → ∀ pg, x.proc.pages[s]? = some pg →
      ∀ e, walkpgdir c x.proc.pgdir (pg.vAddress / PGSIZE) = some e → e.A = false)
    (hfree : x.proc.offsetQueue.getD 0 none = none) (h : swapToFile c .other x = .ok y) :
    Evicts x.proc y.proc ∧ (c.sel = .SCFIFO → y.proc.RAMQueue = queueFrom (s + 1) (MAX_PSYC_PAGES - 1)) := by
  obtain ⟨addr, p, z, q, hsel, hz, hq', h⟩ := swapToFile_cases h
  obtain ⟨fl, page, hfl, rfl⟩ := writeUserPage_cases hz
  obtain ⟨e, k, -, -, rfl⟩ := releasePage_cases h
  have hspec := SwapsOut.spec (c := c) (p := x.proc) (q := q) ⟨addr, p, fl, page, hsel, hfl, hq'⟩
  unfold selectPage at hsel
  obtain ⟨⟨r, p1⟩, hv, hsel⟩ := bind_ok hsel
  obtain ⟨pg, -, hsel⟩ := bind_ok hsel
  cases hsel
  obtain ⟨a, rfl, ha⟩ := removeVictim_still hq hA hv
  obtain ⟨next, hnext⟩ : ∃ n, n = (x.proc.fileOffset + PGSIZE) % UINT := ⟨_, rfl⟩
  have hoff : getFreeFileOffset { x.proc with RAMQueue := a } = (x.proc.fileOffset,
      { x.proc with RAMQueue := a, fileOffset := next }) := by
    simp only [getFreeFileOffset, removeOffsetQueue, hfree, hnext]
  rw [hoff] at hfl hq'
  obtain ⟨i, pg', off, hpg', hpages, hid, -⟩ := hspec
  simp only [recordSwapOut] at hq'
  split at hq'
  · cases hq'
  · next pg'' _ =>
    cases hq'
    exact ⟨⟨hid, rfl, rfl, hnext, ⟨fl, _, hfl, rfl, writeToSwapFile_spares page x.proc.fileOffset fl⟩,
      i, pg', off, hpg', hpages⟩,
      ha⟩

/-! ## The way to the new image -/

/-- Where `exec` starts to load (exec.c:105). -/
def execStart (c : Cfg) (x : Ctx) : Ctx :=
  if c.paging then (x.emit [.beginOp]).setProc (initPagesData x.proc) else x.emit [.beginOp]

/-- The states of an `exec` whose image has `N` pages: `I n` with `n` of them mapped, `F` where it gives up. -/
structure Trying (c : Cfg) (N : Nat) (I : Nat → Ctx → Prop) (F : Ctx → Prop) : Prop where
  round : ∀ {n x u}, n < N → n < USERPAGES → I n x → Round c .other n x u → I (n + 1) u
  fails : ∀ {n oldsz newsz x u}, n < N → n < USERPAGES → I n x → Fails c .other oldsz newsz n x u → F u
  data : ∀ {n x} d, I n x → I n (x.setData d)
  table : ∀ {n x} v e, I n x → I n (x.setTbl .other (x.other.setPte v e))
  emit : ∀ {n x}, I n x → I n (x.emit [.endOp])
  stop : ∀ {n x}, I n x → F x

namespace Trying

variable {N n : Nat} {I : Nat → Ctx → Prop} {F : Ctx → Prop}

theorem rounds (hI : Trying c N I F) {a b : Nat} (h : Rounds c .other a b x x') (hb : b ≤ N)
    (hu : b ≤ USERPAGES) (hx : I a x) :
    I b x' := h.inv (fun _ _ _ hv hy hr => hI.round (by omega) (by omega) hy hr) hx

theorem allocuvm (hI : Trying c N I F) {oldsz newsz r : Nat} (hN : newsz < KERNBASE →
    pgUp (max oldsz newsz) ≤ N) (ho : oldsz < KERNBASE)
    (hx : I (pgUp oldsz) x) (h : Xv6.allocuvm c .other oldsz newsz x = .ok (r, x')) :
    if r = 0 then F x' else I (pgUp r) x' := by
  rcases allocuvm_rounds h with ⟨rfl, -, rfl⟩ | ⟨hlt, rfl, hr⟩ | ⟨hlt, hle, rfl, v, y, hv, hvn, hr, hf⟩
  · exact hI.stop hx
  · have hend := hI.rounds hr (hN hlt) (Loading.pgUp_le (by omega)) hx
    split
    · exact hI.stop hend
    · exact hend
  · have hpages := Loading.pgUp_le hlt
    have hmax := hN hlt
    rw [Nat.max_eq_right hle] at hmax
    exact hI.fails (by omega) (by omega) (hI.rounds hr (by omega) (by omega) hx) hf

theorem loaduvm (hI : Trying c N I F) : ∀ (bs : List UInt8) (va : Nat) {x x' : Ctx}, I n x →
    Xv6.loaduvm c va bs x = .ok x' → I n x' := by
  intro bs
  induction bs with
  | nil =>
    intro va x x' hx h
    cases h
    exact hx
  | cons b bs ih =>
    intro va x x' hx h
    rw [Xv6.loaduvm] at h
    split at h
    · cases h
    · exact ih _ (hI.data _ hx) h

theorem copyout (hI : Trying c N I F) : ∀ (bs : List UInt8) (va : Nat) {x x' : Ctx} {b : Bool}, I n x →
    Xv6.copyout c va bs x = .ok (b, x') → I n x' := by
  intro bs
  induction bs with
  | nil =>
    intro va x x' b hx h
    cases h
    exact hx
  | cons b bs ih =>
    intro va x x' b' hx h
    rw [Xv6.copyout] at h
    obtain ⟨r, -, h⟩ := lift_bind_ok h
    cases r with
    | none =>
      cases h
      exact hx
    | some f => exact ih _ (hI.data _ hx) h

theorem pushArgs (hI : Trying c N I F) : ∀ (args : List (List UInt8)) (sp : Nat) (ptrs : List Nat) {x x' : Ctx}
    {r : Option (Nat × List Nat)}, I n x → Xv6.pushArgs c args sp ptrs x = .ok (r, x') → I n x' := by
  intro args
  induction args with
  | nil =>
    intro sp ptrs x x' r hx h
    cases h
    exact hx
  | cons arg args ih =>
    intro sp ptrs x x' r hx h
    rw [Xv6.pushArgs] at h
    split at h
    · cases h
      exact hx
    · obtain ⟨⟨ok, y⟩, hy, h⟩ := bind_ok h
      have hyI := hI.copyout _ _ hx hy
      cases ok with
      | false =>
        cases h
        exact hyI
      | true => exact ih _ _ hyI h

theorem loadSegments (hI : Trying c N I F) : ∀ (phs : List Segment) (sz : Nat) {x x' : Ctx}
    {r : Option Nat}, sz < KERNBASE →
    pgUp (loadPlan phs sz).2 ≤ N → I (pgUp sz) x → Xv6.loadSegments c phs sz x = .ok (r, x') → match r with
      | none => F x'
      | some sz' => I (pgUp sz') x' ∧ sz' < KERNBASE ∧ loadPlan phs sz = (true, sz') := by
  intro phs
  induction phs with
  | nil =>
    intro sz x x' r hsz _ hx h
    cases h
    exact ⟨hx, hsz, rfl⟩
  | cons ph phs ih =>
    intro sz x x' r hsz hN hx h
    rw [Xv6.loadSegments] at h
    by_cases h1 : (!ph.readOk) = true
    · rw [if_pos h1] at h
      cases h
      exact hI.stop hx
    rw [if_neg h1] at h
    by_cases h2 : (!ph.load) = true
    · rw [if_pos h2] at h
      have hskip : loadPlan (ph :: phs) sz = loadPlan phs sz := by rw [loadPlan, if_neg h1, if_pos h2]
      rw [hskip] at hN ⊢
      exact ih sz hsz hN hx h
    rw [if_neg h2] at h
    by_cases h3 : ph.memsz < ph.filesz
    · rw [if_pos h3] at h
      cases h
      exact hI.stop hx
    rw [if_neg h3] at h
    by_cases h4 : ph.vaddr + ph.memsz < ph.vaddr
    · rw [if_pos h4] at h
      cases h
      exact hI.stop hx
    rw [if_neg h4] at h
    obtain ⟨⟨sz1, y⟩, hy, h⟩ := bind_ok h
    have hyI := hI.allocuvm (fun hlt => (pgUp_mono (loadPlan_asks _ _ h1 h2 h3 h4 hlt)).trans hN) hsz hx hy
    dsimp only at h
    by_cases h0 : sz1 = 0
    · rw [if_pos h0] at h hyI
      cases h
      exact hyI
    rw [if_neg h0] at h hyI
    obtain ⟨hlt, hsz1⟩ := allocuvm_size hy h0
    by_cases h5 : ph.vaddr.toNat % PGSIZE ≠ 0
    · rw [if_pos h5] at h
      cases h
      exact hI.stop hyI
    rw [if_neg h5] at h
    obtain ⟨z, hz, h⟩ := bind_ok h
    have hzI := hI.loaduvm _ _ hyI hz
    by_cases h6 : ph.bytes.length < ph.filesz.toNat
    · rw [if_pos h6] at h
      cases h
      exact hI.stop hzI
    rw [if_neg h6] at h
    have hplan : loadPlan (ph :: phs) sz = loadPlan phs sz1 := by
      rw [loadPlan_load h1 h2 h3 h4 hlt, ← hsz1, if_neg (by simp only [h0, h5, h6, or_self, not_false_eq_true])]
    rw [hplan] at hN ⊢
    exact ih sz1 (by omega) hN hzI h

theorem execStack (hI : Trying c N I F) {argv : List (List UInt8)} {sz : Nat} {r : Option Nat}
    (hsz : pgUp sz * PGSIZE < KERNBASE)
    (hN : pgUp sz * PGSIZE + 2 * PGSIZE < KERNBASE → pgUp sz + 2 ≤ N) (hx : I (pgUp sz) x)
    (h : Xv6.execStack c argv sz x = .ok (r, x')) : r = none → F x' := by
  unfold Xv6.execStack at h
  obtain ⟨⟨sz1, y⟩, hy, h⟩ := bind_ok h
  have hyI := hI.allocuvm (fun hlt => by
    rw [Nat.max_eq_right (Nat.le_add_right _ _), ← Nat.add_mul, Loading.pgUp_mul]
    exact hN hlt) hsz (by rw [Loading.pgUp_mul]; exact hx) hy
  dsimp only at h
  by_cases h0 : sz1 = 0
  · rw [if_pos h0] at h hyI
    cases h
    exact fun _ => hyI
  rw [if_neg h0] at h hyI
  obtain ⟨z, hz, h⟩ := bind_ok h
  have hzI : I (pgUp sz1) z := by
    unfold clearpteu at hz
    split at hz
    · cases hz
    · cases hz
      exact hI.table _ _ hyI
  obtain ⟨⟨q, u⟩, hu, h⟩ := bind_ok h
  have huI := hI.pushArgs argv _ _ hzI hu
  cases q with
  | none =>
    cases h
    exact fun _ => hI.stop huI
  | some q =>
    obtain ⟨⟨ok, v⟩, hv, h⟩ := bind_ok h
    cases h
    exact fun _ => hI.stop (hI.copyout _ _ huI hv)

/-- Where `exec` fails it goes through `bad:` from a state of `F`. -/
theorem exec_fails (hI : Trying c N I F) {img : Image} {argv : List (List UInt8)} (hN : execPages img ≤ N)
    (hF : F (execStart c x)) (h0 : ∀ b y, setupkvm c (execStart c x) = .ok (b, y) → if b then I 0 y else F y)
    (h : exec c (some img) argv x = .ok (false, x')) : ∃ y pgdir ip, F y ∧ execBad c x.proc pgdir ip y = .ok x' := by
  simp only [exec] at h
  change (if img.elfOk then execImage c x.proc img argv (execStart c x) else do
    let x ← execBad c x.proc false true (execStart c x); pure (false, x)) = _ at h
  have hbad : ∀ {pgdir ip : Bool} {y : Ctx}, F y →
      (do let x ← execBad c x.proc pgdir ip y; pure (false, x)) = .ok (false, x') →
      ∃ y pgdir ip, F y ∧ execBad c x.proc pgdir ip y = .ok x' := by
    intro pgdir ip y hy h
    obtain ⟨z, hz, h⟩ := bind_ok h
    cases h
    exact ⟨y, pgdir, ip, hy, hz⟩
  split at h
  · next helf =>
    rw [execPages, if_neg (by simp [helf])] at hN
    unfold execImage at h
    obtain ⟨⟨ok, y⟩, hy, h⟩ := bind_ok h
    have hyI := h0 ok y hy
    cases ok with
    | false => exact hbad hyI h
    | true =>
      obtain ⟨⟨r, z⟩, hz, h⟩ := bind_ok h
      have hzI := hI.loadSegments img.segs 0 (by decide) (by dsimp only at hN; split at hN <;> omega) hyI hz
      cases r with
      | none => exact hbad hzI h
      | some sz =>
        obtain ⟨hzI, hsz, hplan⟩ := hzI
        obtain ⟨⟨r, v⟩, hv, h⟩ := bind_ok h
        cases r with
        | some top =>
          obtain ⟨u, -, h⟩ := bind_ok h
          cases h
        | none =>
          refine hbad ?_ h
          have hzI' := hI.emit hzI
          by_cases hlt : pgUp sz * PGSIZE < KERNBASE
          · refine hI.execStack hlt (fun hroom => ?_) hzI' hv rfl
            rw [hplan] at hN
            simpa [hroom] using hN
          · -- the stack has no room below `KERNBASE`
            unfold Xv6.execStack at hv
            obtain ⟨⟨sz1, w⟩, hw, hv⟩ := bind_ok hv
            have hno : Xv6.allocuvm c .other (pgUp sz * PGSIZE) (pgUp sz * PGSIZE + 2 * PGSIZE) (z.emit [.endOp]) =
                .ok (0, z.emit [.endOp]) := by
              unfold Xv6.allocuvm
              rw [if_pos (by omega)]
              rfl
            rw [hno] at hw
            cases hw
            cases hv
            exact hI.stop hzI'
  · exact hbad hF h

end Trying

/-! ## Calls on the other table -/

theorem deallocuvmLoop_proc {oldsz : Nat} : ∀ (n v : Nat) {x x' : Ctx},
    deallocuvmLoop c .other oldsz false n v x = .ok x' →
    x'.proc = x.proc := by
  intro n
  induction n with
  | zero =>
    intro v x x' h
    cases h
    rfl
  | succ n ih =>
    intro v x x' h
    rw [deallocuvmLoop] at h
    split at h
    · cases h
      rfl
    · split at h
      · exact ih _ h
      · obtain ⟨y, hy, h⟩ := bind_ok h
        refine (ih _ h).trans ?_
        obtain ⟨q, ⟨hq, ⟨-, k, -, rfl⟩ | ⟨-, -, -, rfl⟩⟩ | ⟨-, -, rfl⟩⟩ := freePage_cases hy
        · rw [Bool.and_false, if_neg (by simp)] at hq
          cases hq
          rfl
        · rw [Bool.and_false, if_neg (by simp)] at hq
          cases hq
          rfl
        · rfl

theorem deallocuvm_proc {oldsz newsz : Nat} {s : Nat × Ctx} (h : deallocuvm c .other oldsz newsz false x = .ok s) :
    s.2.proc = x.proc := by
  unfold deallocuvm at h
  split at h
  · cases h
    rfl
  · obtain ⟨y, hy, h⟩ := bind_ok h
    cases h
    exact deallocuvmLoop_proc _ _ hy

theorem freevm_proc (h : freevm c x = .ok x') : x'.proc = x.proc := by
  unfold freevm at h
  split at h
  · cases h
  · obtain ⟨⟨r, y⟩, hy, h⟩ := bind_ok h
    obtain ⟨k, -, h⟩ := lift_bind_ok h
    obtain ⟨k', -, h⟩ := lift_bind_ok h
    cases h
    exact deallocuvm_proc hy

theorem setupkvmLoop_takes : ∀ (ds : List Nat) {k k' : Kmem} {t t' : Pgdir}, setupkvmLoop ds k t = (true, k', t') →
    k'.freelist.length + ds.length = k.freelist.length ∧ ∀ d, d ∉ ds → t'.pde d = t.pde d := by
  intro ds
  induction ds with
  | nil =>
    intro k k' t t' h
    cases h
    exact ⟨rfl, fun _ _ => rfl⟩
  | cons e ds ih =>
    intro k k' t t' h
    rw [setupkvmLoop] at h
    rcases kalloc_cases k with ⟨-, hk⟩ | ⟨f, rest, hfree, hk⟩
    · rw [hk] at h
      cases h
    · rw [hk] at h
      obtain ⟨hlen, hpde⟩ := ih h
      refine ⟨?_, fun d hd => ?_⟩
      · rw [hfree, List.length_cons, List.length_cons, ← Nat.add_assoc, hlen]
      · rw [List.mem_cons, not_or] at hd
        rw [hpde d hd.2]
        exact Function.update_of_ne hd.1 _ _

/-- A new table takes 65 frames and has no page tables for the user. -/
theorem setupkvm_takes {b : Bool} (h : setupkvm c x = .ok (b, y)) : y.proc = x.proc ∧
    (b = true → y.kmem.freelist.length + 65 = x.kmem.freelist.length ∧ y.other.pde 0 = none) := by
  unfold setupkvm at h
  rcases kalloc_cases x.kmem with ⟨-, hk⟩ | ⟨f, rest, hfree, hk⟩
  · rw [hk] at h
    cases h
    exact ⟨rfl, nofun⟩
  · rw [hk] at h
    dsimp only at h
    split at h
    · next k t hloop =>
      cases h
      obtain ⟨hlen, hpde⟩ := setupkvmLoop_takes _ hloop
      refine ⟨rfl, fun _ => ⟨?_, hpde 0 (by decide)⟩⟩
      have hds : kmapPdx.length = 64 := by decide
      change k.freelist.length + kmapPdx.length = rest.length at hlen
      change k.freelist.length + 65 = _
      rw [hfree, List.length_cons]
      omega
    · obtain ⟨z, hz, h⟩ := bind_ok h
      cases h
      have hproc := freevm_proc hz
      exact ⟨hproc, nofun⟩

/-! ## What the loading keeps -/

/-- From `p`, with an empty record of pages, `n` pages of the new image are mapped and room has been made for `k`;
memory had `L` free frames at the start. -/
structure Underway (c : Cfg) (p : Proc) (L n k : Nat) (y : Ctx) : Prop where
  id : y.proc.id = p.id
  pgdir : y.proc.pgdir = p.pgdir
  ages : y.proc.pages.map Page.age = p.pages.map Page.age
  pages : ∀ i pg, y.proc.pages[i]? = some pg → (pg.isAllocated = true ↔ i < n) ∧ (i < n → pg.vAddress = i * PGSIZE)
  queue : c.sel = .SCFIFO → y.proc.RAMQueue = queueFrom (k - MAX_PSYC_PAGES) (n - (k - MAX_PSYC_PAGES))
  offsets : y.proc.offsetQueue.getD 0 none = none
  next : y.proc.fileOffset = (k - MAX_PSYC_PAGES) * PGSIZE
  file : ∀ src, p.swapFile = some src → ∃ dst, y.proc.swapFile = some dst ∧
    Spares ((k - MAX_PSYC_PAGES) * PGSIZE) src dst
  frames : L < 82 → y.kmem.freelist.length + 65 + (if n = 0 then 0 else n + 1) ≤ L ∧ (n = 0 → y.other.pde 0 = none)

/-- The condition on the image, for a process that starts the loading as `p`. -/
def Fits (c : Cfg) (p : Proc) (L N : Nat) : Prop :=
  N ≤ MAX_PSYC_PAGES ∨ L < 82 ∨ (c.sel = .SCFIFO → ∀ v < N - MAX_PSYC_PAGES, (p.pgdir.pte v).A = false)

theorem Underway.room {L N n : Nat} (ht : (c.paging && decide (DEF_PROCS < p.pid)) = true)
    (hfits : Fits c p L N) (hn : n < N)
    (hu : n < USERPAGES) (h : Underway c p L n n x) (hroom : makeRoom c .other n x = .ok y) :
    Underway c p L n (n + 1) y := by
  have hM : MAX_PSYC_PAGES = 16 := rfl
  have htr : x.tracked c = true := by rw [Ctx.tracked, show x.proc.pid = p.pid from congrArg Prod.fst h.id, ht]
  unfold makeRoom at hroom
  rw [htr, Bool.true_and] at hroom
  split at hroom
  · next h16 =>
    -- the seventeenth page is reached
    have h16 : 16 ≤ n := of_decide_eq_true h16
    have hA : c.sel = .SCFIFO → ∀ v < N - MAX_PSYC_PAGES, (p.pgdir.pte v).A = false := by
      rcases hfits with hN | hL | hA
      · omega
      · have := (h.frames hL).1
        rw [if_neg (by omega)] at this
        omega
      · exact hA
    have hfull : n - (n - MAX_PSYC_PAGES) = MAX_PSYC_PAGES := by omega
    have hnext : n + 1 - MAX_PSYC_PAGES = n - MAX_PSYC_PAGES + 1 := by omega
    have hleft : n - (n - MAX_PSYC_PAGES + 1) = MAX_PSYC_PAGES - 1 := by omega
    have hhead : c.sel = .SCFIFO → ∀ pg, x.proc.pages[n - MAX_PSYC_PAGES]? = some pg →
        ∀ e, walkpgdir c x.proc.pgdir (pg.vAddress / PGSIZE) = some e → e.A = false := by
      intro hsel pg hpg e he
      -- the head of the queue is page `n - MAX_PSYC_PAGES`
      have hv := (h.pages _ pg hpg).2 (by omega)
      rw [walkpgdir, h.pgdir, hv, mul_PGSIZE_div] at he
      split at he
      · cases he
      · split at he
        · cases he
          exact hA hsel _ (by omega)
        · cases he
          rfl
    obtain ⟨hev, hqueue⟩ := swapToFile_evicts (fun hsel => (h.queue hsel).trans (by rw [hfull])) hhead h.offsets hroom
    obtain ⟨src, dst, hsrc, hdst, hsp⟩ := hev.file
    obtain ⟨i, pg, off, hpg, hpages⟩ := hev.pages
    refine ⟨hev.id.trans h.id, hev.pgdir.trans h.pgdir, ?_, fun j pg' hpg' => ?_, fun hsel => ?_,
      ?_, ?_, fun src0 hsrc0 => ?_,
      fun hL => ?_⟩
    · rw [hpages]
      have hset : (x.proc.pages.set i { pg with fileOffset := some off, isInRAM := false }).map Page.age =
          x.proc.pages.map Page.age := map_age_set hpg rfl
      exact hset.trans h.ages
    · rw [hpages, List.getElem?_set] at hpg'
      split at hpg'
      · next hij =>
        subst hij
        split at hpg'
        · cases hpg'
          exact h.pages _ pg hpg
        · cases hpg'
      · exact h.pages j pg' hpg'
    · rw [hnext, hleft]
      exact hqueue hsel
    · rw [hev.offsets]
      exact h.offsets
    · rw [hev.next, h.next, hnext, Nat.succ_mul]
      simp only [PGSIZE, UINT, USERPAGES] at *
      omega
    · obtain ⟨dst0, hdst0, hsp0⟩ := h.file src0 hsrc0
      rw [hsrc] at hdst0
      cases hdst0
      rw [h.next] at hsp
      rw [hnext, Nat.succ_mul]
      exact ⟨dst, hdst, (hsp0.mono (Nat.le_add_right _ _)).trans hsp⟩
    · have := (h.frames hL).1
      rw [if_neg (by omega)] at this
      omega
  · next h16 =>
    have h16 : ¬ 16 ≤ n := fun h => h16 (decide_eq_true h)
    have hsame : n + 1 - MAX_PSYC_PAGES = n - MAX_PSYC_PAGES := by omega
    cases hroom
    exact ⟨h.id, h.pgdir, h.ages, h.pages, hsame.symm ▸ h.queue, h.offsets, hsame.symm ▸ h.next,
      hsame.symm ▸ h.file, h.frames⟩

theorem allocPage_takes {v : Nat} (h : allocPage .other v x = .ok (.done, y)) : y.proc = x.proc ∧
    y.kmem.freelist.length + 1 ≤ x.kmem.freelist.length ∧
      (x.other.pde (v / NPTENTRIES) = none → y.kmem.freelist.length + 2 ≤ x.kmem.freelist.length) := by
  rcases allocPage_cases h with ⟨hr, -⟩ | ⟨mem, k, hk, ⟨hr, -⟩ | ⟨k', t', -, hw, -, -, rfl⟩⟩
  · cases hr
  · cases hr
  rcases kalloc_cases x.kmem with ⟨-, hk'⟩ | ⟨f, rest, hfree, hk'⟩
  · rw [hk'] at hk
    cases hk
  rw [hk'] at hk
  have hkfree : k.freelist = rest := by rw [← (Prod.mk.inj hk).2]
  change walkpgdirAlloc k x.other v = some (k', t') at hw
  change x.proc = x.proc ∧ k'.freelist.length + 1 ≤ _ ∧ (_ → k'.freelist.length + 2 ≤ _)
  rw [hfree, List.length_cons, ← hkfree]
  unfold walkpgdirAlloc at hw
  split at hw
  · next pd hpd =>
    cases hw
    refine ⟨rfl, Nat.le_refl _, fun hnone => ?_⟩
    rw [hnone] at hpd
    cases hpd
  · rcases kalloc_cases k with ⟨-, hk2⟩ | ⟨g, rest', hfree', hk2⟩
    · rw [hk2] at hw
      cases hw
    · rw [hk2] at hw
      have hkfree' : k'.freelist = rest' := by rw [← (Prod.mk.inj (Option.some.inj hw)).1]
      rw [hfree', List.length_cons, hkfree']
      exact ⟨rfl, by omega, fun _ => by omega⟩

/-- The page goes to slot `n`. -/
theorem Underway.slot {L n k : Nat} {pg : Page} (h : Underway c p L n k y)
    (hpg : y.proc.pages[y.proc.pages.findIdx fun pg => !pg.isAllocated]? = some pg) :
    y.proc.pages.findIdx (fun pg => !pg.isAllocated) = n := by
  obtain ⟨hlt, rfl⟩ := List.getElem?_eq_some_iff.1 hpg
  have hfree := List.findIdx_getElem (w := hlt)
  rw [Bool.not_eq_true'] at hfree
  refine Nat.le_antisymm (Nat.le_of_not_lt fun hn => ?_) (Nat.le_of_not_lt fun hn => ?_)
  · have halloc := List.not_of_lt_findIdx hn
    rw [Bool.not_eq_false'] at halloc
    exact absurd ((h.pages n _ (List.getElem?_eq_getElem (hn.trans hlt))).1.1 halloc) (Nat.lt_irrefl n)
  · rw [(h.pages _ _ hpg).1.2 hn] at hfree
    cases hfree

theorem Underway.round {L N n : Nat} (ht : (c.paging && decide (DEF_PROCS < p.pid)) = true)
    (hfits : Fits c p L N) (hn : n < N)
    (hu : n < USERPAGES) (h : Underway c p L n n x) (hr : Round c .other n x u) : Underway c p L (n + 1) (n + 1) u := by
  obtain ⟨y, z, hroom, hz, hrec⟩ := hr
  have hy := h.room ht hfits hn hu hroom
  obtain ⟨hproc, h1, h2⟩ := allocPage_takes hz
  have hframes : L < 82 → z.kmem.freelist.length + 65 + (if n + 1 = 0 then 0 else n + 1 + 1) ≤ L ∧
      (n + 1 = 0 → z.other.pde 0 = none) := by
    intro hL
    obtain ⟨hlen, hpde⟩ := hy.frames hL
    refine ⟨?_, nofun⟩
    rw [if_neg (Nat.succ_ne_zero n)]
    by_cases h0 : n = 0
    · subst h0
      have := h2 (hpde rfl)
      rw [if_pos rfl] at hlen
      omega
    · rw [if_neg h0] at hlen
      omega
  have htr : z.tracked c = true := by
    rw [Ctx.tracked, hproc, show y.proc.pid = p.pid from congrArg Prod.fst hy.id, ht]
  rw [if_pos htr] at hrec
  simp only [recordPage] at hrec
  split at hrec
  · cases hrec
  · next pg hpg =>
    obtain ⟨q, hq, hrec⟩ := lift_bind_ok hrec
    unfold insert at hq
    split at hq
    · next hlt =>
      cases hq
      split at hrec
      · cases hrec
      · cases hrec
        rw [hproc] at hpg
        have hslot := hy.slot hpg
        refine ⟨?_, ?_, ?_, fun i pg' hpg' => ?_, fun hsel => ?_, ?_, ?_, fun src hsrc => ?_, hframes⟩
        · exact (congrArg Proc.id hproc).trans hy.id
        · exact (congrArg Proc.pgdir hproc).trans hy.pgdir
        · change (z.proc.pages.set _ (pg.alloc n)).map Page.age = _
          rw [hproc]
          have hset : (y.proc.pages.set (y.proc.pages.findIdx fun pg => !pg.isAllocated) (pg.alloc n)).map Page.age =
              y.proc.pages.map Page.age := map_age_set hpg rfl
          exact hset.trans hy.ages
        · change (z.proc.pages.set _ (pg.alloc n))[i]? = some pg' at hpg'
          rw [hproc, hslot, List.getElem?_set] at hpg'
          split at hpg'
          · next hni =>
            subst hni
            split at hpg'
            · cases hpg'
              exact ⟨iff_of_true rfl (Nat.lt_succ_self n), fun _ => rfl⟩
            · cases hpg'
          · next hni =>
            obtain ⟨halloc, hva⟩ := hy.pages i pg' hpg'
            exact ⟨halloc.trans (by omega), fun hi => hva (by omega)⟩
        · -- the queue has room, so `insert` puts the page behind the others
          have hqueue := hy.queue hsel
          change z.proc.RAMQueue.set (firstFree z.proc.RAMQueue)
            (some (z.proc.pages.findIdx fun pg => !pg.isAllocated)) = _
          change firstFree z.proc.RAMQueue < _ at hlt
          rw [hproc, hqueue] at hlt ⊢
          rw [hslot]
          obtain ⟨s, hs⟩ : ∃ s, s = n + 1 - MAX_PSYC_PAGES := ⟨_, rfl⟩
          have hsn : s ≤ n := by
            have hM : MAX_PSYC_PAGES = 16 := rfl
            omega
          rw [← hs] at hlt ⊢
          rcases queueFrom_free s (n - s) with hfree | hfree
          · rw [hfree] at hlt ⊢
            have hset := queueFrom_set (s := s) hlt
            rw [Nat.add_sub_cancel' hsn] at hset
            rw [hset, Nat.succ_sub hsn]
          · omega
        · change z.proc.offsetQueue.getD 0 none = none
          rw [hproc]
          exact hy.offsets
        · exact (congrArg Proc.fileOffset hproc).trans hy.next
        · obtain ⟨dst, hdst, hsp⟩ := hy.file src hsrc
          exact ⟨dst, (congrArg Proc.swapFile hproc).trans hdst, hsp⟩
    · cases hq

/-- Where the loading gives up: no more than `k` slots of the swap file were written. -/
structure GaveUp (p : Proc) (k : Nat) (y : Ctx) : Prop where
  id : y.proc.id = p.id
  pgdir : y.proc.pgdir = p.pgdir
  ages : y.proc.pages.map Page.age = p.pages.map Page.age
  file : ∀ src, p.swapFile = some src → ∃ dst, y.proc.swapFile = some dst ∧ Spares (k * PGSIZE) src dst

theorem GaveUp.of_proc {k : Nat} (h : GaveUp p k x) (hproc : y.proc = x.proc) : GaveUp p k y :=
  ⟨hproc ▸ h.id, hproc ▸ h.pgdir, hproc ▸ h.ages, hproc ▸ h.file⟩

/-- The slots that an image of `N` pages can come to write. -/
def overwritten (L N : Nat) : Nat := if L < 82 then 0 else N - MAX_PSYC_PAGES

theorem Underway.gaveUp {L N n k : Nat} (hkn : k ≤ n + 1) (hkN : k ≤ N) (h : Underway c p L n k y) :
    GaveUp p (overwritten L N) y := by
  refine ⟨h.id, h.pgdir, h.ages, fun src hsrc => ?_⟩
  obtain ⟨dst, hdst, hsp⟩ := h.file src hsrc
  have hle : k - MAX_PSYC_PAGES ≤ overwritten L N := by
    have hM : MAX_PSYC_PAGES = 16 := rfl
    rw [overwritten]
    split
    · next hL =>
      have hlen := (h.frames hL).1
      split at hlen
      · omega
      · omega
    · omega
  exact ⟨dst, hdst, hsp.mono (Nat.mul_le_mul_right _ hle)⟩

theorem Underway.fails {L N n oldsz newsz : Nat} (ht : (c.paging && decide (DEF_PROCS < p.pid)) = true)
    (hfits : Fits c p L N) (hn : n < N) (hu : n < USERPAGES) (h : Underway c p L n n x)
    (hf : Fails c .other oldsz newsz n x u) : GaveUp p (overwritten L N) u := by
  obtain ⟨y, r, z, s, hroom, hz, hs, hu'⟩ := hf
  refine ((h.room ht hfits hn hu hroom).gaveUp (Nat.le_refl _) hn).of_proc ?_
  have hzy : z.proc = y.proc := by
    rcases allocPage_cases hz with ⟨-, rfl⟩ | ⟨mem, k, -, ⟨-, rfl⟩ | ⟨k', t', -, -, -, -, rfl⟩⟩
    · rfl
    · rfl
    · rfl
  have hsy : s.2.proc = y.proc := (deallocuvm_proc hs).trans hzy
  rcases hu' with ⟨-, rfl⟩ | ⟨mem, k, -, -, rfl⟩
  · exact hsy
  · exact hsy

/-- Nothing is swapped out behind the slots of the image. -/
theorem underway_trying {L N : Nat} (ht : (c.paging && decide (DEF_PROCS < p.pid)) = true) (hfits : Fits c p L N) :
    Trying c N (fun n x => n ≤ N ∧ Underway c p L n n x) (GaveUp p (overwritten L N)) where
  round hn hu hx hr := ⟨hn, hx.2.round ht hfits hn hu hr⟩
  fails hn hu hx hf := hx.2.fails ht hfits hn hu hf
  data _ hx :=
    ⟨hx.1, hx.2.id, hx.2.pgdir, hx.2.ages, hx.2.pages, hx.2.queue, hx.2.offsets, hx.2.next,
      hx.2.file, hx.2.frames⟩
  table _ _ hx :=
    ⟨hx.1, hx.2.id, hx.2.pgdir, hx.2.ages, hx.2.pages, hx.2.queue, hx.2.offsets, hx.2.next,
      hx.2.file, hx.2.frames⟩
  emit hx :=
    ⟨hx.1, hx.2.id, hx.2.pgdir, hx.2.ages, hx.2.pages, hx.2.queue, hx.2.offsets, hx.2.next,
      hx.2.file, hx.2.frames⟩
  stop hx := hx.2.gaveUp (Nat.le_succ _) hx.1

/-- A process without a record of pages stays what it is. -/
theorem untracked_trying {N : Nat} (ht : (c.paging && decide (DEF_PROCS < p.pid)) = false) :
    Trying c N (fun _ x => x.proc = p) (fun x => x.proc = p) := by
  have hroom : ∀ {n x y}, x.proc = p → makeRoom c .other n x = .ok y → y.proc = p := by
    intro n x y hx h
    unfold makeRoom at h
    rw [if_neg (by rw [Ctx.tracked, hx, ht, Bool.false_and]; simp)] at h
    cases h
    exact hx
  have hmap : ∀ {v r x y}, x.proc = p → allocPage .other v x = .ok (r, y) → y.proc = p := by
    intro v r x y hx h
    rcases allocPage_cases h with ⟨-, rfl⟩ | ⟨mem, k, -, ⟨-, rfl⟩ | ⟨k', t', -, -, -, -, rfl⟩⟩
    · exact hx
    · exact hx
    · exact hx
  refine ⟨?_, ?_, fun _ h => h, fun _ _ h => h, fun h => h, fun h => h⟩
  · rintro n x u - - hx ⟨y, z, hy, hz, h⟩
    have hzp := hmap (hroom hx hy) hz
    rw [if_neg (by rw [Ctx.tracked, hzp, ht]; simp)] at h
    cases h
    exact hzp
  · rintro n o s x u - - hx ⟨y, r, z, s, hy, hz, hs, hu⟩
    have hsp : s.2.proc = p := (deallocuvm_proc hs).trans (hmap (hroom hx hy) hz : z.proc = p)
    rcases hu with ⟨-, rfl⟩ | ⟨mem, k, -, -, rfl⟩
    · exact hsp
    · exact hsp

/-! ## A failed call -/

theorem restoreFromBackup_eq (hid : q.id = p.id) (hpgdir : q.pgdir = p.pgdir)
    (hages : q.pages.map Page.age = p.pages.map Page.age) :
    { restoreFromBackup p q with swapFile := p.swapFile } = p := by
  have hpages := restoreFromBackup_pages hages
  simp only [Proc.id, Prod.mk.injEq] at hid
  obtain ⟨h1, h2, h3, h4, h5, h6, h7⟩ := hid
  cases p
  simp only [Proc.mk.injEq]
  exact ⟨h1, h2, h3, h4, h5, hpgdir, h6, trivial, hpages, rfl, rfl, rfl, rfl, rfl, rfl, rfl, h7⟩

theorem execBad_proc {pgdir ip : Bool} (h : execBad c p pgdir ip y = .ok x') :
    x'.proc = if c.paging then restoreFromBackup p y.proc else y.proc := by
  unfold execBad at h
  obtain ⟨z, hz, h⟩ := bind_ok h
  have hzp : z.proc = if c.paging then restoreFromBackup p y.proc else y.proc := by
    split at hz
    · refine (freevm_proc hz).trans ?_
      split
      · rfl
      · rfl
    · cases hz
      split
      · rfl
      · rfl
  cases h
  split
  · exact hzp
  · exact hzp

theorem execStart_kmem (c : Cfg) (x : Ctx) : (execStart c x).kmem = x.kmem := by
  rw [execStart]
  split
  · rfl
  · rfl

/-- **A failed `exec` leaves the process as it was**, unless a page of the image that failed took the slot of a page
that is out, or the search for it a second chance from an old page. -/
theorem failed_exec_restores {file : Option Image} {argv : List (List UInt8)} (h : exec c file argv x = .ok (false, x'))
    (hb : ∀ img, file = some img → Backed c (execPages img) x) : Restored x x' := by
  cases file with
  | none =>
    cases h
    exact ⟨rfl, fun _ _ f _ src hsrc => ⟨src, hsrc, rfl⟩⟩
  | some img =>
    have hb := hb img rfl
    cases ht : x.tracked c with
    | false =>
      have hpid : (execStart c x).proc.pid = x.proc.pid := by
        rw [execStart]
        split
        · rfl
        · rfl
      have htry := untracked_trying (c := c) (p := (execStart c x).proc) (N := execPages img) (hpid ▸ ht)
      obtain ⟨y, pgdir, ip, hy, hbad⟩ := htry.exec_fails (Nat.le_refl _) rfl (fun b y hy => by
        rw [(setupkvm_takes hy).1, ite_self]) h
      have hx := execBad_proc hbad
      have heq : { x'.proc with swapFile := x.proc.swapFile } = x.proc ∧ x'.proc.swapFile = x.proc.swapFile := by
        rw [hx, hy, execStart]
        split
        · exact ⟨restoreFromBackup_eq rfl rfl (initPagesData_ages _), rfl⟩
        · exact ⟨rfl, rfl⟩
      exact ⟨heq.1, fun _ _ f _ src hsrc => ⟨src, heq.2.trans hsrc, rfl⟩⟩
    | true =>
      have hpag : c.paging = true := by
        rw [Ctx.tracked, Bool.and_eq_true] at ht
        exact ht.1
      have hstart : (execStart c x).proc = initPagesData x.proc := by
        rw [execStart, if_pos hpag]
        rfl
      have hfits : Fits c (initPagesData x.proc) x.kmem.freelist.length (execPages img) := by
        rcases hb ht with hN | hL | ⟨-, hA⟩
        · exact .inl hN
        · exact .inr (.inl hL)
        · exact .inr (.inr hA)
      obtain ⟨y, pgdir, ip, hy, hbad⟩ :=
        (underway_trying (p := initPagesData x.proc) ht hfits).exec_fails (Nat.le_refl _)
        ⟨by rw [hstart], by rw [hstart], by rw [hstart], fun src hsrc =>
        ⟨src, hstart ▸ hsrc, .refl _ src⟩⟩ (fun b y hy => by
          obtain ⟨hproc, hyes⟩ := setupkvm_takes hy
          rw [execStart_kmem] at hyes
          have hyp : y.proc = initPagesData x.proc := hproc.trans hstart
          cases b with
          | false => exact ⟨by rw [hyp], by rw [hyp], by rw [hyp], fun src hsrc => ⟨src, hyp ▸ hsrc, .refl _ src⟩⟩
          | true =>
            obtain ⟨hlen, hpde⟩ := hyes rfl
            refine ⟨Nat.zero_le _, by rw [hyp], by rw [hyp], by rw [hyp], fun i pg hpg => ?_,
              fun _ => by rw [hyp]; rfl, by rw [hyp]; rfl,
              by rw [hyp]; rfl, fun src hsrc => ⟨src, hyp ▸ hsrc, .refl _ src⟩,
              fun _ => ⟨by rw [if_pos rfl]; omega, fun _ => hpde⟩⟩
            rw [hyp] at hpg
            obtain ⟨q, -, rfl⟩ := List.mem_map.1 (List.mem_of_getElem? hpg)
            exact ⟨iff_of_false Bool.false_ne_true (Nat.not_lt_zero i), fun hi => absurd hi (Nat.not_lt_zero i)⟩) h
      have hx := execBad_proc hbad
      rw [if_pos hpag] at hx
      refine ⟨?_, fun pg hpg f hf src hsrc => ?_⟩
      · rw [hx]
        exact restoreFromBackup_eq hy.id hy.pgdir (hy.ages.trans (initPagesData_ages _))
      · obtain ⟨dst, hdst, hsp⟩ := hy.file src hsrc
        refine ⟨dst, by rw [hx]; exact hdst, hsp.read ?_ _⟩
        rw [overwritten]
        rcases hb ht with hN | hL | ⟨hout, -⟩
        · rw [Nat.sub_eq_zero_of_le hN, ite_self, Nat.zero_mul]
          exact Nat.zero_le _
        · rw [if_pos hL, Nat.zero_mul]
          exact Nat.zero_le _
        · have := hout pg hpg f hf
          split
          · rw [Nat.zero_mul]
            exact Nat.zero_le _
          · exact this

/-- A segment of `n` pages, and behind it a program header that ends too soon. -/
def exShort (n : UInt32) : Image := ⟨true, [⟨true, true, 0, n * 4096, 0, []⟩, ⟨false, false, 0, 0, 0, []⟩]⟩

/-- The third process takes fifteen pages, writes to the first, and takes two more: the first goes out. -/
def exOut : List Op := [.fork 0, .fork 0, .sbrk 2 (15 * 4096), .store 2 4096 7, .sbrk 2 (2 * 4096)]

/-- Its `exec` fails, and the first page out has another first byte or has it still. -/
def exFailed (n : UInt32) (m : Machine) : Option (Bool × Bool) :=
  (m.proc[2]?).bind fun p => match exec (exCfg .AQ) (some (exShort n)) [] (m.ctx p) with
    | .ok (false, x') => some (decide (DEF_PROCS < p.pid) && decide (execPages (exShort n) ≤ MAX_PSYC_PAGES),
        decide (DEF_PROCS < p.pid) && p.pages.any fun pg => pg.isAllocated && !pg.isInRAM && pg.fileOffset.any fun f =>
          p.swapFile.any fun src => x'.proc.swapFile.all fun dst =>
            decide (readFromSwapFile dst (some f) zeroPage ⟨0, by decide⟩ ≠ readFromSwapFile src
              (some f) zeroPage ⟨0, by decide⟩))
    | _ => none

theorem exFailed_spec {n : UInt32} {m : Machine} {b : Bool × Bool} (h : exFailed n m = some b) :
    ∃ p x', m.proc[2]? = some p ∧
    exec (exCfg .AQ) (some (exShort n)) [] (m.ctx p) = .ok (false, x') ∧
    (b.1 = true → DEF_PROCS < p.pid ∧ execPages (exShort n) ≤ MAX_PSYC_PAGES) ∧
    (b.2 = true → DEF_PROCS < p.pid ∧ ¬ Restored (m.ctx p) x') := by
  obtain ⟨p, hp, h⟩ := Option.bind_eq_some_iff.1 h
  split at h
  · next x' hx =>
    cases h
    refine ⟨p, x', hp, hx, fun hb => ?_, fun hb => ?_⟩
    · rw [Bool.and_eq_true, decide_eq_true_eq, decide_eq_true_eq] at hb
      exact hb
    · rw [Bool.and_eq_true, decide_eq_true_eq] at hb
      obtain ⟨hpid, hb⟩ := hb
      refine ⟨hpid, fun hr => ?_⟩
      obtain ⟨pg, hpg, hb⟩ := List.any_eq_true.1 hb
      simp only [Bool.and_eq_true, Bool.not_eq_true'] at hb
      obtain ⟨⟨ha, hram⟩, hb⟩ := hb
      obtain ⟨f, hoff, hb⟩ := (Option.any_eq_true _ _).1 hb
      obtain ⟨src, hsrc, hb⟩ := (Option.any_eq_true _ _).1 hb
      obtain ⟨dst, hdst, hread⟩ := hr.file pg hpg f ⟨ha, hram, hoff⟩ src hsrc
      rw [hdst, Option.all_some, decide_eq_true_eq, hread] at hb
      exact hb rfl
  · cases h

def exKeeps (m : Machine) : Bool := (exFailed 10 m).any fun b => b.1

def exLoses (m : Machine) : Bool := (exFailed 17 m).any fun b => b.2

/-- An image of ten pages. -/
theorem failed_exec_restores_ten : ∃ m0 ls m p x', Lts.Run (Trans (exCfg .AQ)) m0 ls m ∧ m.proc[2]? = some p ∧
    DEF_PROCS < p.pid ∧ exec (exCfg .AQ) (some (exShort 10)) [] (m.ctx p) = .ok (false, x') ∧
    Restored (m.ctx p) x' := by
  have hx : (bootRun .AQ exOut).any (fun s => exKeeps s.2.2) = true := by decide +kernel
  obtain ⟨m0, ls, m, -, hrun, hf⟩ := @bootRun_spec _ _ (fun _ m => exKeeps m) hx
  obtain ⟨b, hb, hf⟩ := (Option.any_eq_true _ _).1 hf
  obtain ⟨p, x', hp, he, hgood, -⟩ := exFailed_spec hb
  obtain ⟨hpid, hpages⟩ := hgood hf
  refine ⟨m0, ls, m, p, x', hrun, hp, hpid, he, failed_exec_restores he fun img himg _ => ?_⟩
  cases himg
  exact .inl hpages

/-- An image of seventeen: its first page takes the slot of the page that is out. -/
theorem failed_exec_overwrites : ¬ ∀ (c : Cfg) (k : Kmem) (data : Nat → PageData) (init : List UInt8) (m0 m : Machine)
    (ls : List Label) (i : Nat) (p : Proc) (file : Option Image) (argv : List (List UInt8)) (x' : Ctx),
    c.paging = true →
    k.Ready c → boot c k data init = .ok m0 → Lts.Run (Trans c) m0 ls m → m.proc[i]? = some p → DEF_PROCS < p.pid →
    exec c file argv (m.ctx p) = .ok (false, x') → Restored (m.ctx p) x' := by
  intro h
  have hx : (bootRun .AQ exOut).any (fun s => exLoses s.2.2) = true := by decide +kernel
  obtain ⟨m0, ls, m, hb0, hrun, hf⟩ := @bootRun_spec _ _ (fun _ m => exLoses m) hx
  obtain ⟨b, hb, hf⟩ := (Option.any_eq_true _ _).1 hf
  obtain ⟨p, x', hp, he, -, hbad⟩ := exFailed_spec hb
  obtain ⟨hpid, hnot⟩ := hbad hf
  exact hnot (h _ _ _ _ _ _ _ _ _ _ _ _ (by decide) (exKmem_ready _) hb0 hrun hp hpid he)

end Xv6
