import CCppProjects.Xv6.Transparency
/-
# The size of a process

Only `growproc` and `exec` set `sz`, and `fork` copies it; every other call leaves it alone (`Sized`).
Whatever those two are asked for, it stays below `KERNBASE` (`sizes_below`).
-/
namespace Xv6

variable {c : Cfg}

/-! ## What leaves `sz` alone -/

/-- A call that starts at `x` and comes back at `g` of its result with the same `sz`. -/
def Sized {α : Type} (x : Ctx) (g : α → Ctx) (m : K α) : Prop := ∀ a, m = .ok a → (g a).proc.sz = x.proc.sz

namespace Sized

variable {α β : Type} {x y : Ctx} {g : α → Ctx} {g' : β → Ctx} {m m' : K α} {f : α → K β}

theorem ok {a : α} (h : (g a).proc.sz = x.proc.sz) : Sized x g (.ok a) := by
  rintro b hb
  cases hb
  exact h

theorem error {e : Halt × List Event} : Sized x g (.error e : K α) := by
  rintro b hb
  cases hb

theorem halt {h : Halt} : Sized x g (y.halt h : K α) := error

theorem «from» (h : y.proc.sz = x.proc.sz) (hm : Sized y g m) : Sized x g m := fun a ha => (hm a ha).trans h

theorem bind (h : Sized x g m) (hf : ∀ a, Sized (g a) g' (f a)) : Sized x g' (m >>= f) := by
  intro b hb
  obtain ⟨a, ha, hb⟩ := bind_ok hb
  exact (hf a b hb).trans (h a ha)

theorem lift {m : Except Halt α} (hf : ∀ a, m = .ok a → Sized x g' (f a)) : Sized x g' (y.lift m >>= f) := by
  intro b hb
  obtain ⟨a, ha, hb⟩ := lift_bind_ok hb
  exact hf a ha b hb

theorem ite {p : Prop} [Decidable p] (h : Sized x g m) (h' : Sized x g m') : Sized x g (if p then m else m') := by
  split
  · exact h
  · exact h'

end Sized

theorem Proc.sz_of_id {p q : Proc} (h : p.id = q.id) : p.sz = q.sz := by
  simp only [Proc.id, Prod.mk.injEq] at h
  exact h.2.2.2.2.1

@[simp] theorem Ctx.setTbl_sz (x : Ctx) (w : Tbl) (t : Pgdir) : (x.setTbl w t).proc.sz = x.proc.sz := by
  cases w <;> rfl

theorem freePage_sized (w : Tbl) (flag : Bool) (v : Nat) (x : Ctx) : Sized x id (freePage c w flag v x) := by
  intro x' h
  obtain ⟨q, ⟨hq, hx⟩ | ⟨_, _, rfl⟩⟩ := freePage_cases h
  · have hid : q.id = x.proc.id := by
      split at hq
      · exact (deallocatePage_id hq).1
      · cases hq
        rfl
    rcases hx with ⟨_, k, _, rfl⟩ | ⟨_, _, _, rfl⟩
    · simp [Proc.sz_of_id hid]
    · simp [Proc.sz_of_id hid]
  · rfl

theorem deallocuvmLoop_sized (w : Tbl) (oldsz : Nat) (flag : Bool) (n : Nat) : ∀ (v : Nat) (x : Ctx),
    Sized x id (deallocuvmLoop c w oldsz flag n v x) := by
  induction n with
  | zero => exact fun _ _ => .ok rfl
  | succ n ih =>
    intro v x
    rw [deallocuvmLoop]
    refine .ite (.ok rfl) ?_
    split
    · apply ih
    · exact .bind (freePage_sized w flag v x) fun y => ih _ y

theorem deallocuvm_sized (w : Tbl) (oldsz newsz : Nat) (flag : Bool) (x : Ctx) :
    Sized x Prod.snd (deallocuvm c w oldsz newsz flag x) := by
  unfold deallocuvm
  exact .ite (.ok rfl) (.bind (deallocuvmLoop_sized w oldsz flag _ _ x) fun y => .ok rfl)

theorem freevm_sized (x : Ctx) : Sized x id (freevm c x) := by
  unfold freevm
  split
  · exact .halt
  · refine .bind (deallocuvm_sized .other KERNBASE 0 false x) fun s => ?_
    exact .lift fun k _ => .lift fun k' _ => .ok (by simp)

theorem setupkvm_sized (x : Ctx) : Sized x Prod.snd (setupkvm c x) := by
  unfold setupkvm
  split
  · exact .ok rfl
  · split
    · exact .ok (by simp)
    · exact .from (by simp) (.bind (freevm_sized _) fun y => .ok rfl)

theorem recordPage_sized (w : Tbl) (v : Nat) (x : Ctx) : Sized x id (recordPage c w v x) := by
  unfold recordPage
  simp only
  split
  · exact .halt
  · refine .lift fun p hp => ?_
    have hsz := Proc.sz_of_id (insert_id hp).1
    split
    · exact .halt
    · exact .ok (by simpa using hsz)

theorem allocPage_sized (w : Tbl) (v : Nat) (x : Ctx) : Sized x Prod.snd (allocPage w v x) := by
  unfold allocPage
  split
  · exact .ok rfl
  · refine .lift fun r _ => ?_
    split
    · exact .ok rfl
    · exact .ok (by simp)

theorem writeUserPage_sized (addr offset : Nat) (x : Ctx) : Sized x id (writeUserPage c addr offset x) := by
  intro x' h
  obtain ⟨fl, page, _, rfl⟩ := writeUserPage_cases h
  rfl

theorem releasePage_sized (w : Tbl) (addr : Nat) (x : Ctx) : Sized x id (releasePage c w addr x) := by
  unfold releasePage
  split
  · exact .halt
  · exact .lift fun k _ => .ok (by simp)

theorem swapToFile_sized (w : Tbl) (x : Ctx) : Sized x id (swapToFile c w x) := by
  unfold swapToFile
  refine .lift fun s hs => ?_
  have hid := Proc.sz_of_id (selectPage_spec hs).1.1
  refine .from (y := (x.emit [.swapCall x.proc]).setProc (getFreeFileOffset s.2).2)
    ((Proc.sz_of_id (getFreeFileOffset_id s.2).1).trans hid) (.bind (writeUserPage_sized s.1 _ _) fun y => ?_)
  refine .lift fun p hp => .from (Proc.sz_of_id (recordSwapOut_id hp).1) (releasePage_sized w s.1 (y.setProc p))

theorem allocuvmLoop_sized (w : Tbl) (oldsz newsz : Nat) (n : Nat) : ∀ (v : Nat) (x : Ctx),
    Sized x Prod.snd (allocuvmLoop c w oldsz newsz n v x) := by
  induction n with
  | zero => exact fun _ _ => .ok rfl
  | succ n ih =>
    intro v x
    rw [allocuvmLoop]
    refine .ite (.ok rfl) ?_
    refine .bind (g := id) (.ite (swapToFile_sized w x) (.ok rfl)) fun y => ?_
    refine .bind (allocPage_sized w v y) ?_
    rintro ⟨r, z⟩
    have hfail := deallocuvm_sized (c := c) w newsz oldsz false (z.emit [.growFailed w (v - pgUp oldsz)])
    cases r with
    | noFrame => exact .from rfl (.bind hfail fun s => .ok rfl)
    | noTable mem => exact .from rfl (.bind hfail fun s => .lift fun k _ => .ok rfl)
    | done => exact .bind (g := id) (.ite (recordPage_sized w v z) (.ok rfl)) fun u => ih _ u

theorem allocuvm_sized (w : Tbl) (oldsz newsz : Nat) (x : Ctx) : Sized x Prod.snd (allocuvm c w oldsz newsz x) := by
  unfold allocuvm
  exact .ite (.ok rfl) (.ite (.ok rfl) (.bind (allocuvmLoop_sized w oldsz newsz _ _ x) fun s => .ok rfl))

theorem loaduvm_sized : ∀ (bs : List UInt8) (va : Nat) (x : Ctx), Sized x id (loaduvm c va bs x) :=
  fun bs va x x' h => congrArg Proc.sz (loaduvm_same bs va x x' h).1

theorem copyout_sized : ∀ (bs : List UInt8) (va : Nat) (x : Ctx), Sized x Prod.snd (copyout c va bs x)
  | [], _, _ => .ok rfl
  | b :: bs, va, x => by
    rw [copyout]
    refine .lift fun r _ => ?_
    split
    · exact .ok rfl
    · exact .from rfl (copyout_sized bs _ _)

theorem clearpteu_sized (va : Nat) (x : Ctx) : Sized x id (clearpteu c va x) := by
  unfold clearpteu
  split
  · exact .halt
  · exact .ok rfl

theorem getPage_sized (va : Nat) (x : Ctx) : Sized x Prod.snd (getPage c va x) := by
  unfold getPage
  refine .bind (g := id) (.ite (swapToFile_sized .own x) (.ok rfl)) fun y => ?_
  split
  · exact .ok rfl
  · rename_i mem k _
    have hload : Sized (y.setKmem k) id (loadPage c (va / PGSIZE) mem (y.setKmem k)) := by
      intro z hz
      obtain ⟨pg, fl, e, q, q', n, _, _, _, hq, hq', _, rfl⟩ := loadPage_cases hz
      exact (Proc.sz_of_id (insert_id hq').1).trans (Proc.sz_of_id (insertOffsetQueue_id hq).1)
    exact .from rfl (.bind hload fun z => .ok rfl)

theorem trapPgflt_sized (va : Nat) (w : Bool) (x : Ctx) : Sized x id (trapPgflt c va w x) := by
  unfold trapPgflt
  refine .lift fun pg _ => .ite (.bind (getPage_sized va x) fun s => .ok rfl) (.ite ?_ (.ok rfl))
  intro x' h
  rcases handlePageFault_cases h with rfl | ⟨amount, _, _, _, _, _, rfl⟩ <;> rfl

theorem finishPageFault_sized (flt : Fault) (x : Ctx) : Sized x id (finishPageFault c flt x) := by
  unfold finishPageFault
  simp only
  split
  · exact .halt
  · refine .ite ?_ (.ite (.ok (by simp)) .halt)
    split
    · exact .ok rfl
    · unfold copyPage
      exact .lift fun k _ => .lift fun k' _ => .ok (by simp)

theorem copyuvm_sized (sz : Nat) (x : Ctx) : Sized x Prod.snd (copyuvm c sz x) := by
  have hloop : ∀ n v x, Sized x Prod.snd (copyuvmLoop c sz n v x) := by
    intro n
    induction n with
    | zero => exact fun _ _ => .ok rfl
    | succ n ih =>
      intro v x
      rw [copyuvmLoop]
      refine .ite (.ok rfl) ?_
      split
      · exact .halt
      · rename_i e _
        have hshare : Sized x Prod.snd (sharePage c v e x) := by
          unfold sharePage
          refine .lift fun r _ => ?_
          split
          · exact .ok (by simp)
          · exact .lift fun k _ => .ok (by simp)
        exact .ite (.bind hshare fun s => .ite (ih _ s.2) (.ok rfl)) (.ite (ih _ x) .halt)
  unfold copyuvm
  refine .bind (setupkvm_sized x) fun s => .ite (.ok rfl) (.bind (hloop _ _ s.2) fun u => .ite (.ok rfl) ?_)
  exact .bind (freevm_sized u.2) fun y => .ok rfl

/-! ## What sets it -/

/-- The size `allocuvm` returns is 0 or below `KERNBASE` when the one it started from is. -/
theorem allocuvm_lt {w : Tbl} {oldsz newsz r : Nat} {x x' : Ctx} (h : allocuvm c w oldsz newsz x = .ok (r, x'))
    (ho : oldsz < KERNBASE) : r < KERNBASE := by
  have h0 : 0 < KERNBASE := by decide
  unfold allocuvm at h
  split at h
  · cases h
    exact h0
  · split at h
    · cases h
      exact ho
    · obtain ⟨⟨b, y⟩, _, h⟩ := bind_ok h
      cases h
      split
      · omega
      · exact h0

theorem deallocuvm_le {w : Tbl} {oldsz newsz r : Nat} {flag : Bool} {x x' : Ctx}
    (h : deallocuvm c w oldsz newsz flag x = .ok (r, x')) : r ≤ oldsz := by
  unfold deallocuvm at h
  split at h
  · cases h
    exact Nat.le_refl _
  · obtain ⟨y, _, h⟩ := bind_ok h
    cases h
    omega

/-- **`sbrk`** of any `int` keeps the size below `KERNBASE`. -/
theorem growproc_below {n : Int} {x x' : Ctx} {ok : Bool} (h : growproc c n x = .ok (ok, x'))
    (hsz : x.proc.sz < KERNBASE) : x'.proc.sz < KERNBASE := by
  unfold growproc at h
  split at h
  · obtain ⟨⟨sz, y⟩, hy, h⟩ := bind_ok h
    have hsame : y.proc.sz = x.proc.sz := allocuvm_sized .own _ _ x _ hy
    have hlt := allocuvm_lt hy hsz
    dsimp only at h
    split at h <;> cases h
    · omega
    · exact hlt
  · split at h
    · obtain ⟨⟨sz, y⟩, hy, h⟩ := bind_ok h
      have hsame : y.proc.sz = x.proc.sz := deallocuvm_sized .own _ _ true _ _ hy
      have hle : sz ≤ x.proc.sz := deallocuvm_le hy
      dsimp only at h
      split at h <;> cases h
      · omega
      · show sz < KERNBASE
        omega
    · cases h
      exact hsz

theorem loadSegments_sized : ∀ (phs : List Segment) (sz : Nat) (x : Ctx), Sized x Prod.snd (loadSegments c phs sz x)
  | [], _, _ => .ok rfl
  | ph :: phs, sz, x => by
    rw [loadSegments]
    refine .ite (.ok rfl) (.ite (loadSegments_sized phs sz x) (.ite (.ok rfl) (.ite (.ok rfl) ?_)))
    refine .bind (allocuvm_sized .other sz _ x) fun s => .ite (.ok rfl) (.ite (.ok rfl) ?_)
    exact .bind (loaduvm_sized _ _ s.2) fun y => .ite (.ok rfl) (loadSegments_sized phs _ y)

theorem execStack_sized (argv : List (List UInt8)) (sz : Nat) (x : Ctx) : Sized x Prod.snd (execStack c argv sz x) := by
  have hpush : ∀ args sp ptrs x, Sized x Prod.snd (pushArgs c args sp ptrs x) := by
    intro args
    induction args with
    | nil => exact fun _ _ _ => .ok rfl
    | cons arg args ih =>
      intro sp ptrs x
      rw [pushArgs]
      exact .ite (.ok rfl) (.bind (copyout_sized _ _ x) fun s => .ite (ih _ _ s.2) (.ok rfl))
  unfold execStack
  refine .bind (allocuvm_sized .other _ _ x) fun s => .ite (.ok rfl) ?_
  refine .bind (clearpteu_sized _ s.2) fun y => .bind (hpush argv s.1 [] y) ?_
  rintro ⟨_ | ⟨sp, ptrs⟩, z⟩
  · exact .ok rfl
  · exact .bind (copyout_sized _ _ z) fun u => .ok rfl

/-- With two more pages above a rounded size, `allocuvm` returns 0 or a size below `KERNBASE`. -/
theorem execStack_below {argv : List (List UInt8)} {sz top : Nat} {x x' : Ctx}
    (h : execStack c argv sz x = .ok (some top, x')) : top < KERNBASE := by
  unfold execStack at h
  obtain ⟨⟨sz1, y⟩, hy, h⟩ := bind_ok h
  have hlt : sz1 < KERNBASE := by
    unfold allocuvm at hy
    split at hy
    · cases hy
      decide
    · have hall : allocuvm c .other (pgUp sz * PGSIZE) (pgUp sz * PGSIZE + 2 * PGSIZE) x = .ok (sz1, y) := by
        unfold allocuvm
        rwa [if_neg (by assumption)]
      exact allocuvm_lt hall (by omega)
  dsimp only at h
  split at h
  · cases h
  obtain ⟨z, _, h⟩ := bind_ok h
  obtain ⟨⟨r, u⟩, _, h⟩ := bind_ok h
  cases r with
  | none => cases h
  | some q =>
    obtain ⟨⟨ok, v⟩, _, h⟩ := bind_ok h
    cases ok <;> cases h
    exact hlt

theorem execCommit_sz {sz : Nat} {x x' : Ctx} (h : execCommit c sz x = .ok x') : x'.proc.sz = sz := by
  have := freevm_sized _ _ h
  rw [id_eq] at this
  rw [this]
  split <;> rfl

theorem execBad_sized (b : Proc) (pgdir ip : Bool) (x : Ctx) : Sized x id (execBad c b pgdir ip x) := by
  unfold execBad
  have hx : (if c.paging then x.setProc (restoreFromBackup b x.proc) else x).proc.sz = x.proc.sz := by
    split <;> rfl
  refine .from hx (.bind (g := id) (.ite (freevm_sized _) (.ok rfl)) fun y => .ok ?_)
  split <;> rfl

theorem execImage_below {b : Proc} {img : Image} {argv : List (List UInt8)} {x x' : Ctx} {ok : Bool}
    (h : execImage c b img argv x = .ok (ok, x')) (hsz : x.proc.sz < KERNBASE) : x'.proc.sz < KERNBASE := by
  unfold execImage at h
  obtain ⟨⟨ok1, y⟩, hy, h⟩ := bind_ok h
  have hys : y.proc.sz = x.proc.sz := setupkvm_sized x _ hy
  -- the error exits
  have hbad : ∀ {pgdir ip : Bool} {u : Ctx}, u.proc.sz = x.proc.sz →
      (do let x ← execBad c b pgdir ip u; pure (false, x)) = .ok (ok, x') → x'.proc.sz < KERNBASE := by
    intro pgdir ip u hu h
    obtain ⟨z, hz, h⟩ := bind_ok h
    cases h
    rw [show x'.proc.sz = u.proc.sz from execBad_sized b pgdir ip u x' hz, hu]
    exact hsz
  cases ok1 with
  | false => exact hbad hys h
  | true =>
    obtain ⟨⟨r, u⟩, hu, h⟩ := bind_ok h
    have hus : u.proc.sz = x.proc.sz := (loadSegments_sized _ _ y _ hu).trans hys
    cases r with
    | none => exact hbad hus h
    | some sz =>
      obtain ⟨⟨r, v⟩, hv, h⟩ := bind_ok h
      have hvs : v.proc.sz = x.proc.sz := (execStack_sized _ _ _ _ hv).trans hus
      cases r with
      | none => exact hbad hvs h
      | some top =>
        obtain ⟨z, hz, h⟩ := bind_ok h
        cases h
        rw [execCommit_sz hz]
        exact execStack_below hv

/-- **`exec`** of any file keeps the size below `KERNBASE`. -/
theorem exec_below {file : Option Image} {argv : List (List UInt8)} {x x' : Ctx} {ok : Bool}
    (h : exec c file argv x = .ok (ok, x')) (hsz : x.proc.sz < KERNBASE) : x'.proc.sz < KERNBASE := by
  simp only [exec] at h
  cases file with
  | none =>
    cases h
    exact hsz
  | some img =>
    have hinit : (if c.paging then (x.emit [.beginOp]).setProc (initPagesData (x.emit [.beginOp]).proc)
        else x.emit [.beginOp]).proc.sz = x.proc.sz := by split <;> rfl
    dsimp only at h
    split at h
    · exact execImage_below h (hinit ▸ hsz)
    · obtain ⟨z, hz, h⟩ := bind_ok h
      cases h
      rw [show x'.proc.sz = _ from execBad_sized _ _ _ _ _ hz, hinit]
      exact hsz

/-! ## The machine -/

/-- Every process's size is below `KERNBASE`. -/
def Machine.Below (m : Machine) : Prop := ∀ p ∈ m.proc, p.sz < KERNBASE

variable {m m' : Machine} {p : Proc} {i : Nat}

theorem Machine.Below.setProc (h : m.Below) {q : Proc} (hq : q.sz < KERNBASE) (j : Nat) : (m.setProc j q).Below := by
  intro r hr
  rcases List.mem_or_eq_of_mem_set hr with hr | rfl
  · exact h r hr
  · exact hq

theorem Machine.Below.put (h : m.Below) {x : Ctx} (hx : x.proc.sz < KERNBASE) (j : Nat) : (m.put j x).Below :=
  Machine.Below.setProc (m := { m with kmem := x.kmem, data := x.data }) h hx j

theorem exit_below (h : m.Below) (hp : p.sz < KERNBASE) {es : List Event} (hx : exit c i p m = .ok (es, m')) :
    m'.Below := by
  unfold exit at hx
  split at hx
  · cases hx
  · cases hx
    intro r hr
    rcases List.mem_or_eq_of_mem_set hr with hr | rfl
    · obtain ⟨q, hq, rfl⟩ := List.mem_map.1 hr
      have := h q hq
      split <;> exact this
    · exact hp

theorem fork_below (h : m.Below) (hp : p.sz < KERNBASE) {o : Option Nat} {es : List Event}
    (hx : fork c i p m = .ok (o, es, m')) : m'.Below := by
  simp only [fork] at hx
  split at hx
  · cases hx
    exact h
  rename_i q hq
  have hqs : q.sz < KERNBASE := h q (List.mem_of_getElem? hq)
  split at hx
  · cases hx
    exact Machine.Below.setProc (m := { m with nextpid := m.nextpid + 1 }) h (by exact hqs) _
  · rename_i kstack k _
    obtain ⟨b, y, hy, ⟨_, np, z, hz, _, _, rfl⟩ | ⟨_, k', _, _, _, rfl⟩⟩ := forkInto_cases hx
    · have hys : y.proc.sz = p.sz := copyuvm_sized _ _ _ hy
      obtain ⟨_, hid, _, _, hzp, _⟩ : Does (swapLaw c) [] [] False id y z ∧ _ := childBook hz
      have hnp : np.sz = y.proc.sz := (Proc.sz_of_id hid).trans rfl
      refine Machine.Below.setProc (.put (m := { m with nextpid := m.nextpid + 1 }) h ?_ _) ?_ _
      · rw [hzp, hys]
        exact hp
      · show np.sz < KERNBASE
        rw [hnp, hys]
        exact hp
    · have hys : y.proc.sz = p.sz := copyuvm_sized _ _ _ hy
      refine Machine.Below.setProc (.put (m := { m with nextpid := m.nextpid + 1 }) h ?_ _) ?_ _
      · rw [Ctx.setKmem_proc, hys]
        exact hp
      · exact hqs

theorem wait_below (h : m.Below) (hp : p.sz < KERNBASE) {o : Option Nat} {es : List Event}
    (hx : wait c i p m = .ok (o, es, m')) : m'.Below := by
  rcases wait_cases hx with ⟨_, _, rfl⟩ | ⟨j, q, a, k, x, hq, _, _, _, _, hfree, _, _, rfl⟩
  · exact h
  · have hxs : x.proc.sz = p.sz := freevm_sized _ _ hfree
    exact (h.put (hxs ▸ hp) i).setProc (q := q.reaped) (h q (List.mem_of_getElem? hq)) j

theorem trapRet_below (h : m.Below) {x : Ctx} (hx : x.proc.sz < KERNBASE) {os : List Obs} {es : List Event}
    (ht : trapRet c m i x = .ok (os, es, m')) : m'.Below := by
  simp only [trapRet] at ht
  split at ht
  · split at ht
    · cases ht
    · rename_i es' m1 he
      cases ht
      exact exit_below (h.put hx i) hx he
  · cases ht
    exact h.put hx i

theorem stepProc_below (h : m.Below) (hp : p.sz < KERNBASE) {op : Op} {os : List Obs} {es : List Event}
    (hx : stepProc c m p op = .ok (os, es, m')) : m'.Below := by
  -- a trap leaves `sz` alone
  have htrap : ∀ {f : K Ctx} {i : Nat}, Sized (m.ctx p) id f →
    (do trapRet c m i (← f)) = .ok (os, es, m') → m'.Below := by
    intro f i hf ht
    obtain ⟨y, hy, ht⟩ := bind_ok ht
    refine trapRet_below h (x := y) ?_ ht
    rw [show y.proc.sz = p.sz from hf y hy]
    exact hp
  cases op with
  | load i va =>
    simp only [stepProc] at hx
    split at hx
    · cases hx
      exact h
    · exact htrap (trapPgflt_sized va false _) hx
  | store i va b =>
    simp only [stepProc] at hx
    split at hx
    · cases hx
      exact h
    · exact htrap (trapPgflt_sized va true _) hx
  | access i v =>
    simp only [stepProc] at hx
    split at hx
    · cases hx
      exact h.setProc (by exact hp) i
    · cases hx
      exact h
  | resume i =>
    simp only [stepProc] at hx
    split at hx
    · cases hx
      exact h
    · exact htrap (finishPageFault_sized _ _) hx
  | sbrk i n =>
    obtain ⟨⟨ok, y⟩, hy, hx⟩ := bind_ok hx
    cases hx
    exact h.put (growproc_below hy hp) i
  | fork i =>
    obtain ⟨⟨o, es', m1⟩, hy, hx⟩ := bind_ok hx
    cases hx
    exact fork_below h hp hy
  | exit i =>
    obtain ⟨⟨es', m1⟩, hy, hx⟩ := bind_ok hx
    cases hx
    exact exit_below h hp hy
  | wait i =>
    obtain ⟨⟨o, es', m1⟩, hy, hx⟩ := bind_ok hx
    cases hx
    exact wait_below h hp hy
  | exec i file argv =>
    obtain ⟨⟨ok, y⟩, hy, hx⟩ := bind_ok hx
    cases hx
    exact h.put (exec_below hy hp) i
  | tick i =>
    obtain ⟨q, hq, hx⟩ := lift_bind_ok hx
    cases hx
    exact h.setProc (by rw [Proc.sz_of_id (tick_ticks hq).id]; exact hp) i

theorem boot_below {k : Kmem} {data : Nat → PageData} {init : List UInt8}
    (hb : boot c k data init = .ok m) : m.Below := by
  obtain ⟨kstack, k', x, y, z, _, _, _, _, _, rfl⟩ := boot_cases hb
  intro q hq
  rcases List.mem_cons.1 hq with rfl | hq
  · show PGSIZE < KERNBASE
    decide
  · obtain ⟨_, rfl⟩ := List.mem_replicate.1 hq
    show 0 < KERNBASE
    decide

/-- **Sizes.** After any steps of any processes from `userinit` on, every size is below `KERNBASE`. -/
theorem sizes_below {k : Kmem} {data : Nat → PageData} {init : List UInt8} {m0 : Machine}
    (hb : boot c k data init = .ok m0) {ls : List Label} (hrun : Lts.Run (Trans c) m0 ls m) : m.Below := by
  refine hrun.inv (I := Machine.Below) ?_ (boot_below hb)
  rintro s ⟨op, os, es⟩ t hs ht
  simp only [Trans, step] at ht
  split at ht
  · cases ht
    exact hs
  · rename_i p hp
    split at ht
    · exact stepProc_below hs (hs p (List.mem_of_getElem? hp)) ht
    · cases ht
      exact hs

end Xv6
