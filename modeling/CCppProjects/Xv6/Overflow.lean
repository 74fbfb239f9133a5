import CCppProjects.Xv6.Follow
/-
# The slots of `pages[]`

`allocuvm` looks for a free slot and has no branch for the case that there is none (vm.c:258-263): the page then goes
to `pages[MAX_TOTAL_PAGES]`. Nothing else bounds the number of pages, so a request stays inside the array as long as
the pages it asks for find free slots (`Request.Fits`).
-/
namespace Xv6

variable {c : Cfg}

/-- The write past the end of `pages[]` (vm.c:263). -/
def Halt.overflow : Halt := .wild "pages[MAX_TOTAL_PAGES]"

def Proc.freeSlots (p : Proc) : Nat := p.pages.countP fun pg => !pg.isAllocated

/-- A call that does not run past the end of `pages[]`; what it returns is in `Q`. -/
def Stays {α : Type} (m : K α) (Q : α → Prop) : Prop := Sat m (fun e => e.1 ≠ .overflow) Q

/-! ## Rules -/

/-- The same of a computation without a record. -/
def Tame {α : Type} (m : Except Halt α) : Prop := Sat m (· ≠ .overflow) fun _ => True

namespace Tame

variable {α β : Type} {m : Except Halt α} {f : α → Except Halt β}

theorem ok {a : α} : Tame (.ok a) := Sat.ok trivial

theorem wild {s : String} (h : s ≠ "pages[MAX_TOTAL_PAGES]") : Tame (.error (.wild s) : Except Halt α) := by
  refine Sat.error fun he => h ?_
  injection he

theorem panic {s : String} : Tame (.error (.panic s) : Except Halt α) := Sat.error (by simp [Halt.overflow])

theorem nullPte : Tame (.error .nullPte : Except Halt α) := Sat.error (by simp [Halt.overflow])

theorem bind (h : Tame m) (hf : ∀ a, Tame (f a)) : Tame (m >>= f) := Sat.bind h fun a _ _ => hf a

end Tame

namespace Stays

variable {α β : Type} {m m' : K α} {f : α → K β} {x : Ctx} {Q Q' : α → Prop} {R : β → Prop}

theorem ok {a : α} (h : Q a) : Stays (.ok a) Q := Sat.ok h

theorem wild {s : String} (h : s ≠ "pages[MAX_TOTAL_PAGES]") : Stays (x.halt (.wild s)) Q := by
  refine Sat.error fun he => h ?_
  injection he

theorem panic {s : String} : Stays (x.halt (.panic s)) Q := Sat.error (by simp [Halt.overflow])

theorem nullPte : Stays (x.halt .nullPte) Q := Sat.error (by simp [Halt.overflow])

theorem hang : Stays (x.halt .hang) Q := Sat.error (by simp [Halt.overflow])

theorem bind (h : Stays m Q) (hf : ∀ a, m = .ok a → Q a → Stays (f a) R) : Stays (m >>= f) R := Sat.bind h hf

theorem ite {p : Prop} [Decidable p] (h : p → Stays m Q) (h' : ¬ p → Stays m' Q) : Stays (if p then m else m') Q :=
  Sat.ite h h'

theorem mono (h : Stays m Q) (hQ : ∀ a, Q a → Q' a) : Stays m Q' := Sat.mono h (fun _ he => he) hQ

/-- What is known of the result by other means. -/
theorem of_ok (h : Stays m fun _ => True) (hQ : ∀ a, m = .ok a → Q a) : Stays m Q := by
  have hm : Sat m (fun e => e.1 ≠ .overflow) fun _ => True := h
  exact Sat.intro hQ fun e he => hm.of_error he

theorem lift {m : Except Halt α} (h : Tame m) (hf : ∀ a, m = .ok a → Stays (f a) R) : Stays (x.lift m >>= f) R := by
  have hs : Sat m (· ≠ .overflow) fun _ => True := h
  cases hm : m with
  | ok a => exact hf a hm
  | error e => exact Sat.error (hs.of_error hm)

end Stays

/-! ## What knows nothing of the end of `pages[]` -/

theorem page_tame (p : Proc) (i : Option Nat) : Tame (p.page i) := by
  unfold Proc.page
  split
  · exact .wild (by decide)
  · split
    · exact .wild (by decide)
    · exact .ok

theorem insert_tame (i : Nat) (p : Proc) : Tame (insert i p) := by
  unfold insert
  split
  · exact .ok
  · exact .wild (by decide)

theorem insertOffsetQueue_tame (o : Option Nat) (p : Proc) : Tame (insertOffsetQueue o p) := by
  unfold insertOffsetQueue
  split
  · exact .ok
  · exact .wild (by decide)

theorem scfifoScan_tame (p : Proc) (qs : List (Option Nat)) : ∀ (t : Pgdir) (temp : List (Option Nat)),
    Tame (scfifoScan c p qs t temp) := by
  induction qs with
  | nil => exact fun _ _ => .ok
  | cons q qs ih =>
    intro t temp
    rw [scfifoScan]
    refine .bind (page_tame p q) fun pg => ?_
    split
    · exact .nullPte
    · split
      · apply ih
      · exact .ok

theorem nfuaScan_tame (p : Proc) (n : Nat) : ∀ i m, Tame (nfuaScan p n i m) := by
  induction n with
  | zero => exact fun _ _ => .ok
  | succ n ih => exact fun i m => .bind (page_tame p _) fun a => .bind (page_tame p _) fun b => ih _ _

theorem lapaScan_tame (p : Proc) (n : Nat) : ∀ i m age count, Tame (lapaScan p n i m age count) := by
  induction n with
  | zero => exact fun _ _ _ _ => .ok
  | succ n ih =>
    intro i m age count
    rw [lapaScan]
    refine .bind (page_tame p _) fun a => ?_
    split
    · apply ih
    · split <;> apply ih

theorem removeVictim_tame (p : Proc) : Tame (removeVictim c p) := by
  unfold removeVictim
  split
  · exact .ok
  · refine .bind (scfifoScan_tame p _ _ _) fun s => ?_
    dsimp only
    split
    · exact .ok
    · split
      · exact .panic
      · exact .ok
  · exact .bind (nfuaScan_tame p _ _ _) fun m => .ok
  · refine .bind (lapaScan_tame p _ _ _ _ _) fun m => ?_
    split
    · exact .panic
    · exact .ok
  · exact .ok

theorem selectPage_tame (p : Proc) : Tame (selectPage c p) :=
  .bind (removeVictim_tame p) fun s => .bind (page_tame s.2 s.1) fun _ => .ok

theorem recordSwapOut_tame (addr offset : Nat) (p : Proc) : Tame (recordSwapOut addr offset p) := by
  unfold recordSwapOut
  dsimp only
  split
  · exact .wild (by decide)
  · exact .ok

theorem deallocatePage_tame (va : Nat) (p : Proc) : Tame (deallocatePage c va p) := by
  unfold deallocatePage
  dsimp only
  split
  · exact .panic
  · refine .bind ?_ fun q => .ok
    split
    · exact .ok
    · exact insertOffsetQueue_tame _ p

theorem kfree_tame (v : Nat) (k : Kmem) : Tame (kfree c v k) := by
  unfold kfree
  split
  · exact .panic
  · dsimp only
    split <;> exact .ok

theorem freePdes_tame (ds : List Nat) (t : Pgdir) : ∀ k, Tame (freePdes c ds t k) := by
  induction ds with
  | nil => exact fun _ => .ok
  | cons d ds ih =>
    intro k
    rw [freePdes]
    split
    · apply ih
    · exact .bind (kfree_tame _ k) fun k' => ih k'

theorem mappages_tame (k : Kmem) (t : Pgdir) (v f : Nat) (perm : Pte) : Tame (mappages k t v f perm) := by
  unfold mappages
  split
  · exact .ok
  · split
    · exact .panic
    · exact .ok

theorem uva2ka_tame (t : Pgdir) (v : Nat) : Tame (uva2ka c t v) := by
  unfold uva2ka
  split
  · exact .nullPte
  · exact .ok

theorem writeUserPage_stays (addr offset : Nat) (x : Ctx) : Stays (writeUserPage c addr offset x) fun _ => True := by
  unfold writeUserPage
  split
  · exact .wild (by decide)
  · dsimp only
    refine .ite (fun _ => .ok trivial) fun _ => ?_
    split
    · exact .nullPte
    · exact .ite (fun _ => .ok trivial) fun _ => .hang

theorem releasePage_stays (w : Tbl) (addr : Nat) (x : Ctx) : Stays (releasePage c w addr x) fun _ => True := by
  unfold releasePage
  split
  · exact .nullPte
  · exact .lift (kfree_tame _ _) fun k _ => .ok trivial

theorem freePage_stays (w : Tbl) (flag : Bool) (v : Nat) (x : Ctx) : Stays (freePage c w flag v x) fun _ => True := by
  unfold freePage
  dsimp only
  refine .ite (fun _ => .ite (fun _ => .panic) fun _ => .lift ?_ fun p _ => .lift (kfree_tame _ _)
    fun k _ => .ok trivial)
    fun _ => .ite (fun _ => .ite (fun _ => .panic) fun _ => .lift ?_ fun p _ => .ok trivial) fun _ => .ok trivial
  · split
    · exact deallocatePage_tame _ _
    · exact .ok
  · split
    · exact deallocatePage_tame _ _
    · exact .ok

theorem deallocuvm_stays (w : Tbl) (oldsz newsz : Nat) (flag : Bool) (x : Ctx) :
    Stays (deallocuvm c w oldsz newsz flag x) fun _ => True := by
  have hloop : ∀ n v x, Stays (deallocuvmLoop c w oldsz flag n v x) fun _ => True := by
    intro n
    induction n with
    | zero => exact fun _ _ => .ok trivial
    | succ n ih =>
      intro v x
      rw [deallocuvmLoop]
      refine .ite (fun _ => .ok trivial) fun _ => ?_
      split
      · apply ih
      · exact .bind (freePage_stays w flag v x) fun y _ _ => ih _ y
  unfold deallocuvm
  exact .ite (fun _ => .ok trivial) fun _ => .bind (hloop _ _ x) fun y _ _ => .ok trivial

theorem freevm_stays (x : Ctx) : Stays (freevm c x) fun _ => True := by
  unfold freevm
  split
  · exact .panic
  · refine .bind (deallocuvm_stays _ _ _ _ x) fun s _ _ => ?_
    exact .lift (freePdes_tame _ _ _) fun k _ => .lift (kfree_tame _ _) fun k' _ => .ok trivial

theorem setupkvm_stays (x : Ctx) : Stays (setupkvm c x) fun _ => True := by
  unfold setupkvm
  split
  · exact .ok trivial
  · split
    · exact .ok trivial
    · exact .bind (freevm_stays _) fun y _ _ => .ok trivial

theorem allocPage_stays (w : Tbl) (v : Nat) (x : Ctx) : Stays (allocPage w v x) fun _ => True := by
  unfold allocPage
  split
  · exact .ok trivial
  · refine .lift (mappages_tame _ _ _ _ _) fun r _ => ?_
    split <;> exact .ok trivial

theorem loaduvm_stays : ∀ (bs : List UInt8) (va : Nat) (x : Ctx), Stays (loaduvm c va bs x) fun _ => True
  | [], _, _ => .ok trivial
  | b :: bs, va, x => by
    rw [loaduvm]
    split
    · exact .panic
    · apply loaduvm_stays bs

theorem copyout_stays : ∀ (bs : List UInt8) (va : Nat) (x : Ctx), Stays (copyout c va bs x) fun _ => True
  | [], _, _ => .ok trivial
  | b :: bs, va, x => by
    rw [copyout]
    refine .lift (uva2ka_tame _ _) fun r _ => ?_
    split
    · exact .ok trivial
    · apply copyout_stays bs

theorem clearpteu_stays (va : Nat) (x : Ctx) : Stays (clearpteu c va x) fun _ => True := by
  unfold clearpteu
  split
  · exact .panic
  · exact .ok trivial

theorem pushArgs_stays : ∀ (args : List (List UInt8)) (sp : Nat) (ptrs : List Nat) (x : Ctx),
    Stays (pushArgs c args sp ptrs x) fun _ => True
  | [], _, _, _ => .ok trivial
  | arg :: args, sp, ptrs, x => by
    rw [pushArgs]
    refine .ite (fun _ => .ok trivial) fun _ => .bind (copyout_stays _ _ x) fun s _ _ => ?_
    exact .ite (fun _ => pushArgs_stays args _ _ s.2) fun _ => .ok trivial

/-! ## Free slots -/

theorem SwapsOut.freeSlots {p q : Proc} (h : SwapsOut c p q) : q.freeSlots = p.freeSlots := by
  obtain ⟨i, pg, off, hpg, hq, -, -⟩ := h.spec
  obtain ⟨hi, rfl⟩ := List.getElem?_eq_some_iff.1 hpg
  rw [Proc.freeSlots, hq, List.countP_set hi, Proc.freeSlots]
  have : (if (!p.pages[i].isAllocated) = true then 1 else 0) ≤ p.pages.countP fun pg => !pg.isAllocated := by
    split
    · next hf => exact List.countP_pos_iff.2 ⟨_, List.getElem_mem hi, hf⟩
    · exact Nat.zero_le _
  dsimp only
  omega

/-- A new page takes one. -/
theorem Records.freeSlots {v : Nat} {p q : Proc} (h : Records v p q) : q.freeSlots + 1 = p.freeSlots := by
  obtain ⟨i, pg, rfl, hpg, hq, -, -⟩ := h.spec
  obtain ⟨hi, rfl⟩ := List.getElem?_eq_some_iff.1 hpg
  have hfree : (!p.pages[p.pages.findIdx fun pg => !pg.isAllocated].isAllocated) = true :=
    List.findIdx_getElem (p := fun pg : Page => !pg.isAllocated) (w := hi)
  have hpos : 0 < p.pages.countP fun pg => !pg.isAllocated := List.countP_pos_iff.2 ⟨_, List.getElem_mem hi, hfree⟩
  rw [Proc.freeSlots, hq, List.countP_set hi, if_pos hfree, if_neg (by simp [Page.alloc]), Proc.freeSlots]
  omega

theorem exists_free {p : Proc} (h : 0 < p.freeSlots) : p.pages.findIdx (fun pg => !pg.isAllocated) < p.pages.length :=
  List.findIdx_lt_length.2 (List.countP_pos_iff.1 h)

/-- Every move leaves the process who it is. -/
theorem pid_follows (c : Cfg) : Follows c (fun _ => True) fun p q => q.pid = p.pid where
  refl _ := rfl
  trans h h' := h'.trans h
  table _ _ := rfl
  fault _ _ _ _ := rfl
  swap _ _ _ h := by
    obtain ⟨_, _, _, _, _, hid, _⟩ := h.spec
    exact congrArg Prod.fst hid
  dealloc _ _ _ _ h := congrArg Prod.fst (deallocatePage_id h).1
  record _ _ _ _ h := by
    obtain ⟨_, _, _, _, _, hid, _⟩ := h.spec
    exact congrArg Prod.fst hid
  load _ _ _ _ h := by
    obtain ⟨pg, p', q', t, _, hq, hq', rfl⟩ := h
    exact congrArg Prod.fst ((insert_id hq').1.trans (insertOffsetQueue_id hq).1)

theorem Ctx.tracked_of_pid {x y : Ctx} (h : y.proc.pid = x.proc.pid) : y.tracked c = x.tracked c := by
  rw [Ctx.tracked, h, Ctx.tracked]

theorem swapToFile_stays (w : Tbl) (x : Ctx) : Stays (swapToFile c w x) fun y =>
    y.proc.freeSlots = x.proc.freeSlots ∧ y.proc.pid = x.proc.pid := by
  have h : Stays (swapToFile c w x) fun _ => True := by
    unfold swapToFile
    refine .lift (selectPage_tame _) fun s _ => ?_
    refine .bind (writeUserPage_stays _ _ _) fun y _ _ => .lift (recordSwapOut_tame _ _ _) fun q _ => ?_
    exact releasePage_stays _ _ _
  refine h.of_ok fun y hy => ⟨?_, (pid_follows c).swapToFile trivial w x y hy⟩
  obtain ⟨addr, p, z, q, hsel, hz, hq, hy⟩ := swapToFile_cases hy
  obtain ⟨fl, page, hfl, rfl⟩ := writeUserPage_cases hz
  obtain ⟨e, k, _, _, rfl⟩ := releasePage_cases hy
  have hswap : SwapsOut c x.proc q := ⟨addr, p, fl, page, hsel, hfl, hq⟩
  rw [← hswap.freeSlots]
  cases w <;> rfl

theorem recordPage_stays (w : Tbl) (v : Nat) (x : Ctx) (h : 0 < x.proc.freeSlots) : Stays (recordPage c w v x) fun y =>
    y.proc.freeSlots + 1 = x.proc.freeSlots ∧ y.proc.pid = x.proc.pid := by
  have hi := exists_free h
  unfold recordPage
  dsimp only
  rw [List.getElem?_eq_getElem hi]
  refine .lift (insert_tame _ _) fun q hq => ?_
  have hrec : Records v x.proc { q with numberOfAllocatedPages := q.numberOfAllocatedPages + 1 } :=
    ⟨_, q, List.getElem?_eq_getElem hi, hq, rfl⟩
  have hpid := (pid_follows c).record trivial hrec
  split
  · exact .nullPte
  · refine .ok ⟨?_, ?_⟩
    · rw [← hrec.freeSlots]
      cases w <;> rfl
    · cases w <;> exact hpid

theorem allocPage_proc {w : Tbl} {v : Nat} {x x' : Ctx} {r : Mapped} (h : allocPage w v x = .ok (r, x')) :
    ∃ t, x'.proc = { x.proc with pgdir := t } := by
  rcases allocPage_cases h with ⟨-, rfl⟩ | ⟨mem, k, -, ⟨-, rfl⟩ | ⟨k', t', -, -, -, -, rfl⟩⟩
  · exact ⟨_, rfl⟩
  · exact ⟨_, rfl⟩
  · cases w <;> exact ⟨_, rfl⟩

/-- A request for `n` pages takes `n` slots at most. -/
theorem allocuvmLoop_stays (w : Tbl) (oldsz newsz : Nat) (n : Nat) : ∀ (v : Nat) (x : Ctx),
    (x.tracked c = true → n ≤ x.proc.freeSlots) → Stays (allocuvmLoop c w oldsz newsz n v x) fun s => s.1 = true →
      x.tracked c = true → x.proc.freeSlots ≤ s.2.proc.freeSlots + n := by
  induction n with
  | zero => exact fun v x _ => .ok fun _ _ => Nat.le_refl _
  | succ n ih =>
    intro v x hn
    rw [allocuvmLoop]
    refine .ite (fun _ => .ok fun _ _ => Nat.le_add_right _ _) fun _ => ?_
    refine .bind (Q := fun y => y.proc.freeSlots = x.proc.freeSlots ∧ y.proc.pid = x.proc.pid)
      (.ite (fun _ => swapToFile_stays w x) fun _ => .ok ⟨rfl, rfl⟩) fun y _ hy => ?_
    refine .bind (allocPage_stays w v y) ?_
    rintro ⟨r, z⟩ hz -
    obtain ⟨t, hzp⟩ := allocPage_proc hz
    have hzfree : z.proc.freeSlots = x.proc.freeSlots := by rw [hzp, ← hy.1]; rfl
    have hztr : z.tracked c = x.tracked c := Ctx.tracked_of_pid (by rw [hzp]; exact hy.2)
    have hfail := deallocuvm_stays (c := c) w newsz oldsz false (z.emit [.growFailed w (v - pgUp oldsz)])
    cases r with
    | noFrame => exact .bind hfail fun s _ _ => .ok fun h => absurd h Bool.false_ne_true
    | noTable mem =>
      exact .bind hfail fun s _ _ => .lift (kfree_tame _ _) fun k _ => .ok fun h => absurd h Bool.false_ne_true
    | done =>
      refine .bind (Q := fun u => u.proc.pid = z.proc.pid ∧
        (x.tracked c = true → u.proc.freeSlots + 1 = x.proc.freeSlots)) ?_ fun u _ hu => ?_
      · refine .ite (fun htr => ?_) fun htr => .ok ⟨rfl, fun h => absurd (hztr.trans h) htr⟩
        have hroom := hn (hztr.symm.trans htr)
        exact (recordPage_stays w v z (by omega)).mono fun u hu => ⟨hu.2, fun _ => by omega⟩
      · have hutr : u.tracked c = x.tracked c := (Ctx.tracked_of_pid hu.1).trans hztr
        refine (ih (v + 1) u fun h => ?_).mono fun s hs hok htr => ?_
        · have := hn (hutr.symm.trans h)
          have := hu.2 (hutr.symm.trans h)
          omega
        · have := hs hok (hutr.trans htr)
          have := hu.2 htr
          omega

theorem allocuvm_stays (w : Tbl) (oldsz newsz : Nat) (x : Ctx)
    (h : x.tracked c = true → newsz < KERNBASE → pgUp newsz - pgUp oldsz ≤ x.proc.freeSlots) :
    Stays (allocuvm c w oldsz newsz x) fun s => s.1 ≠ 0 → x.tracked c = true →
      x.proc.freeSlots ≤ s.2.proc.freeSlots + (pgUp s.1 - pgUp oldsz) := by
  unfold allocuvm
  refine .ite (fun _ => .ok fun h _ => absurd rfl h) fun hlt => ?_
  refine .ite (fun _ => .ok fun _ _ => Nat.le_add_right _ _) fun _ => ?_
  refine .bind (allocuvmLoop_stays w oldsz newsz _ _ x fun htr => h htr (by omega)) fun s _ hs => .ok fun h0 htr => ?_
  cases hok : s.1 with
  | false => exact absurd (if_neg (by simp [hok])) h0
  | true =>
    have := hs hok htr
    simpa [hok] using this

/-! ## exec -/

/-- How far the loop over the program headers (exec.c:117) gets as long as there is memory: the size it reaches, and
whether it comes to its end. -/
def loadPlan : List Segment → Nat → Bool × Nat
  | [], sz => (true, sz)
  | ph :: phs, sz =>
    if !ph.readOk then (false, sz)
    else if !ph.load then loadPlan phs sz
    else if ph.memsz < ph.filesz ∨ ph.vaddr + ph.memsz < ph.vaddr ∨ KERNBASE ≤
      (ph.vaddr + ph.memsz).toNat then (false, sz)
    else
      let sz := max sz (ph.vaddr + ph.memsz).toNat
      if sz = 0 ∨ ph.vaddr.toNat % PGSIZE ≠ 0 ∨ ph.bytes.length < ph.filesz.toNat then (false, sz) else loadPlan phs sz

/-- The pages `exec` asks for, those of the stack with them. -/
def execPages (img : Image) : Nat :=
  if !img.elfOk then 0 else
  let plan := loadPlan img.segs 0
  if plan.1 && decide (pgUp plan.2 * PGSIZE + 2 * PGSIZE < KERNBASE) then pgUp plan.2 + 2 else pgUp plan.2

theorem le_loadPlan : ∀ (phs : List Segment) (sz : Nat), sz ≤ (loadPlan phs sz).2
  | [], _ => Nat.le_refl _
  | ph :: phs, sz => by
    have ih := le_loadPlan phs
    rw [loadPlan]
    split
    · exact Nat.le_refl _
    · split
      · exact ih sz
      · split
        · exact Nat.le_refl _
        · dsimp only
          split
          · exact Nat.le_max_left _ _
          · exact (Nat.le_max_left _ _).trans (ih _)

theorem pgUp_mono {a b : Nat} (h : a ≤ b) : pgUp a ≤ pgUp b := Nat.div_le_div_right (by omega)

theorem allocuvm_size {w : Tbl} {oldsz newsz r : Nat} {x x' : Ctx} (h : allocuvm c w oldsz newsz x = .ok (r, x'))
    (hr : r ≠ 0) : newsz < KERNBASE ∧ r = max oldsz newsz := by
  unfold allocuvm at h
  split at h
  · cases h
    exact absurd rfl hr
  · split at h
    · cases h
      omega
    · obtain ⟨⟨b, y⟩, -, h⟩ := bind_ok h
      cases h
      cases b with
      | false => exact absurd rfl hr
      | true =>
        refine ⟨by omega, ?_⟩
        rw [if_pos rfl]
        omega

/-- A header that is fine as far as `allocuvm`. -/
theorem loadPlan_load {ph : Segment} {phs : List Segment} {sz : Nat} (hr : ¬ (!ph.readOk) = true)
    (hl : ¬ (!ph.load) = true)
    (hm : ¬ ph.memsz < ph.filesz) (hw : ¬ ph.vaddr + ph.memsz < ph.vaddr)
    (hlt : (ph.vaddr + ph.memsz).toNat < KERNBASE) :
    loadPlan (ph :: phs) sz = if max sz (ph.vaddr + ph.memsz).toNat = 0 ∨ ph.vaddr.toNat % PGSIZE ≠ 0 ∨
        ph.bytes.length < ph.filesz.toNat then (false, max sz (ph.vaddr + ph.memsz).toNat)
      else loadPlan phs (max sz (ph.vaddr + ph.memsz).toNat) := by
  rw [loadPlan, if_neg hr, if_neg hl, if_neg (by simp only [hm, hw, false_or]; omega)]

/-- What `allocuvm` is then asked for is in the plan. -/
theorem loadPlan_asks {ph : Segment} (phs : List Segment) (sz : Nat) (hr : ¬ (!ph.readOk) = true)
    (hl : ¬ (!ph.load) = true)
    (hm : ¬ ph.memsz < ph.filesz) (hw : ¬ ph.vaddr + ph.memsz < ph.vaddr)
    (hlt : (ph.vaddr + ph.memsz).toNat < KERNBASE) :
    max sz (ph.vaddr + ph.memsz).toNat ≤ (loadPlan (ph :: phs) sz).2 := by
  rw [loadPlan_load hr hl hm hw hlt]
  split
  · exact Nat.le_refl _
  · exact le_loadPlan _ _

/-- Loading takes no more slots than the plan has pages. -/
theorem loadSegments_stays : ∀ (phs : List Segment) (sz : Nat) (x : Ctx),
    (x.tracked c = true → MAX_TOTAL_PAGES ≤ x.proc.freeSlots + pgUp sz) →
    (x.tracked c = true → pgUp (loadPlan phs sz).2 ≤ MAX_TOTAL_PAGES) → Stays (loadSegments c phs sz x) fun s =>
      ∀ sz', s.1 = some sz' → loadPlan phs sz = (true, sz') ∧ (x.tracked c = true →
        MAX_TOTAL_PAGES ≤ s.2.proc.freeSlots + pgUp sz')
  | [], sz, x, hfree, _ => .ok fun sz' h => by
    cases h
    exact ⟨rfl, hfree⟩
  | ph :: phs, sz, x, hfree, hplan => by
    have hnone : ∀ (y : Ctx) sz', (none : Option Nat) = some sz' → loadPlan (ph :: phs) sz = (true, sz') ∧
        (x.tracked c = true → MAX_TOTAL_PAGES ≤ y.proc.freeSlots + pgUp sz') := fun y sz' h => by cases h
    rw [loadSegments]
    refine .ite (fun _ => .ok (hnone _)) fun hr => .ite (fun hl => ?_) fun hl => .ite (fun _ => .ok (hnone _)) fun hm =>
      .ite (fun _ => .ok (hnone _)) fun hw => ?_
    · have hskip : loadPlan (ph :: phs) sz = loadPlan phs sz := by rw [loadPlan, if_neg hr, if_pos hl]
      rw [hskip]
      exact loadSegments_stays phs sz x hfree (hskip ▸ hplan)
    refine .bind (allocuvm_stays .other sz _ x fun htr hlt => ?_) fun s hs hroom => ?_
    · have hin := pgUp_mono (loadPlan_asks phs sz hr hl hm hw hlt)
      have hmax := pgUp_mono (Nat.le_max_right sz (ph.vaddr + ph.memsz).toNat)
      have := hfree htr
      have := hplan htr
      omega
    refine .ite (fun _ => .ok (hnone _)) fun h0 => .ite (fun _ => .ok (hnone _)) fun hal => ?_
    obtain ⟨hlt, hsz⟩ := allocuvm_size hs h0
    have htr : s.2.tracked c = x.tracked c :=
      Ctx.tracked_of_pid ((pid_follows c).allocuvm trivial trivial .other _ _ x s hs)
    refine .bind (loaduvm_stays _ _ s.2) fun y hy _ => .ite (fun _ => .ok (hnone _)) fun hlen => ?_
    obtain ⟨hyp, -⟩ := loaduvm_same _ _ _ _ hy
    have hytr : y.tracked c = x.tracked c := (Ctx.tracked_of_pid (by rw [hyp])).trans htr
    have hstep : loadPlan (ph :: phs) sz = loadPlan phs s.1 := by
      rw [loadPlan_load hr hl hm hw hlt, ← hsz, if_neg (by simp only [h0, hal, hlen, or_self, not_false_eq_true])]
    rw [hstep]
    refine (loadSegments_stays phs s.1 y (fun h => ?_) fun h => ?_).mono fun u hu sz' hsz' => ?_
    · have := hroom h0 (hytr.symm.trans h)
      have := hfree (hytr.symm.trans h)
      have := pgUp_mono (show sz ≤ s.1 by omega)
      rw [hyp]
      omega
    · exact hstep ▸ hplan (hytr.symm.trans h)
    · exact (hu sz' hsz').imp_right fun hf htr => hf (hytr.trans htr)

theorem execStack_stays (argv : List (List UInt8)) (sz : Nat) (x : Ctx)
    (h : x.tracked c = true → pgUp sz * PGSIZE + 2 * PGSIZE < KERNBASE → 2 ≤ x.proc.freeSlots) :
    Stays (execStack c argv sz x) fun _ => True := by
  have h2 : pgUp (pgUp sz * PGSIZE + 2 * PGSIZE) - pgUp (pgUp sz * PGSIZE) = 2 := by
    simp only [pgUp, PGSIZE]
    omega
  unfold execStack
  refine .bind (allocuvm_stays .other _ _ x fun htr hlt => by rw [h2]; exact h htr hlt) fun s _ _ => ?_
  refine .ite (fun _ => .ok trivial) fun _ => .bind (clearpteu_stays _ s.2) fun y _ _ => ?_
  refine .bind (pushArgs_stays _ _ _ y) ?_
  rintro ⟨_ | ⟨sp, ptrs⟩, z⟩ - -
  · exact .ok trivial
  · exact .bind (copyout_stays _ _ z) fun u _ _ => .ok trivial

theorem execBad_stays (b : Proc) (pgdir ip : Bool) (x : Ctx) : Stays (execBad c b pgdir ip x) fun _ => True := by
  unfold execBad
  refine .bind (Q := fun _ => True) (.ite (fun _ => freevm_stays _) fun _ => .ok trivial) fun y _ _ => .ok trivial

theorem initPagesData_freeSlots (p : Proc) : (initPagesData p).freeSlots = p.pages.length := by
  rw [Proc.freeSlots, List.countP_eq_length.2]
  · exact List.length_map _
  · intro pg hpg
    obtain ⟨_, _, rfl⟩ := List.mem_map.1 hpg
    rfl

/-- `exec` of a program that asks for `MAX_TOTAL_PAGES` pages at most. -/
theorem exec_stays (file : Option Image) (argv : List (List UInt8)) (x : Ctx)
    (hlen : x.proc.pages.length = MAX_TOTAL_PAGES)
    (h : x.tracked c = true → ∀ img, file = some img → execPages img ≤ MAX_TOTAL_PAGES) :
    Stays (exec c file argv x) fun _ => True := by
  simp only [exec]
  cases file with
  | none => exact .ok trivial
  | some img =>
    dsimp only
    have hbad : ∀ (pgdir ip : Bool) (y : Ctx),
        Stays (do let x ← execBad c x.proc pgdir ip y; pure (false, x)) fun _ => True :=
      fun pgdir ip y => .bind (execBad_stays _ _ _ y) fun _ _ _ => .ok trivial
    obtain ⟨hutr, hfree⟩ : (if c.paging then (x.emit [.beginOp]).setProc (initPagesData (x.emit [.beginOp]).proc)
        else x.emit [.beginOp]).tracked c = x.tracked c ∧ (x.tracked c = true → MAX_TOTAL_PAGES ≤ (if c.paging then
          (x.emit [.beginOp]).setProc (initPagesData (x.emit [.beginOp]).proc) else x.emit
            [.beginOp]).proc.freeSlots) := by
      split
      · refine ⟨rfl, fun _ => ?_⟩
        rw [← hlen]
        exact (initPagesData_freeSlots _).ge
      · next hp =>
        refine ⟨rfl, fun htr => ?_⟩
        rw [Ctx.tracked, Bool.and_eq_true] at htr
        exact absurd htr.1 hp
    generalize (if c.paging then (x.emit [.beginOp]).setProc (initPagesData (x.emit [.beginOp]).proc)
      else x.emit [.beginOp]) = u at hutr hfree
    refine .ite (fun helf => ?_) fun _ => hbad false true u
    have hplan : x.tracked c = true → pgUp (loadPlan img.segs 0).2 ≤ execPages img ∧
      execPages img ≤ MAX_TOTAL_PAGES := by
      refine fun htr => ⟨?_, h htr img rfl⟩
      rw [execPages, if_neg (by simp [helf])]
      dsimp only
      split
      · exact Nat.le_add_right _ _
      · exact Nat.le_refl _
    unfold execImage
    refine .bind (setupkvm_stays u) ?_
    rintro ⟨_ | _, y⟩ hy -
    · exact hbad false true y
    obtain ⟨hyp, -⟩ := setupkvm_same hy
    have hytr : y.tracked c = x.tracked c := (Ctx.tracked_of_pid (by rw [hyp])).trans hutr
    refine .bind (loadSegments_stays img.segs 0 y (fun htr => ?_) fun htr => ?_) ?_
    · rw [hyp]
      exact hfree (hytr.symm.trans htr)
    · have := hplan (hytr.symm.trans htr)
      omega
    rintro ⟨_ | sz, z⟩ hz hload
    · exact hbad true true z
    obtain ⟨hpl, hroom⟩ := hload sz rfl
    have hztr : z.tracked c = x.tracked c :=
      (Ctx.tracked_of_pid ((pid_follows c).loadSegments trivial trivial _ _ _ _ hz)).trans hytr
    refine .bind (execStack_stays argv sz (z.emit [.endOp]) fun htr hlt => ?_) ?_
    · have htr : x.tracked c = true := hztr.symm.trans htr
      have hroom : MAX_TOTAL_PAGES ≤ z.proc.freeSlots + pgUp sz := hroom (hytr.trans htr)
      have hpages := h htr img rfl
      rw [execPages, if_neg (by simp [helf]), hpl] at hpages
      rw [if_pos (by simpa using hlt)] at hpages
      change 2 ≤ z.proc.freeSlots
      dsimp only at hpages
      omega
    rintro ⟨_ | top, v⟩ _ -
    · exact hbad true false v
    · have hcommit : Stays (execCommit c top v) fun _ => True := freevm_stays _
      exact .bind hcommit fun w _ _ => .ok trivial

/-! ## Requests -/

/-- A call that can make the process grow. -/
inductive Request
  | sbrk (n : Int)
  | exec (file : Option Image) (argv : List (List UInt8))

def Request.op (i : Nat) : Request → Op
  | .sbrk n => .sbrk i n
  | .exec file argv => .exec i file argv

/-- The pages the request of process `p` asks for find free slots; `exec` starts with all of them free. -/
def Request.Fits (c : Cfg) (p : Proc) : Request → Prop
  | .sbrk n => c.paging = true → DEF_PROCS < p.pid → 0 < n → addInt p.sz n < KERNBASE →
    pgUp (addInt p.sz n) - pgUp p.sz ≤ p.freeSlots
  | .exec file _ => c.paging = true → DEF_PROCS < p.pid → ∀ img, file = some img → execPages img ≤ MAX_TOTAL_PAGES

theorem growproc_stays (n : Int) (x : Ctx) (h : (Request.sbrk n).Fits c x.proc) :
    Stays (growproc c n x) fun _ => True := by
  unfold growproc
  refine .ite (fun hn => ?_) fun _ => .ite (fun _ => ?_) fun _ => .ok trivial
  · refine .bind (allocuvm_stays .own _ _ x fun htr hlt => ?_) fun s _ _ => .ok trivial
    simp only [Ctx.tracked, Bool.and_eq_true, decide_eq_true_eq] at htr
    exact h htr.1 htr.2 hn hlt
  · exact .bind (deallocuvm_stays _ _ _ _ _) fun s _ _ => .ok trivial

/-- `pages[]` keeps its length. -/
theorem length_follows (c : Cfg) : Follows c (fun _ => True) fun p q => q.pages.length = p.pages.length where
  refl _ := rfl
  trans h h' := h'.trans h
  table _ _ := rfl
  fault _ _ _ _ := rfl
  swap _ _ _ h := by
    obtain ⟨i, pg, off, _, hq, _⟩ := h.spec
    rw [hq, List.length_set]
  dealloc _ va p q h := by
    simp only [deallocatePage] at h
    split at h
    · cases h
    · obtain ⟨p', hp', h⟩ := bind_ok h
      cases h
      rw [List.length_set]
      split at hp'
      · cases hp'
        rfl
      · rw [(insertOffsetQueue_id hp').2.2]
  record _ _ _ _ h := by
    obtain ⟨i, pg, _, _, hq, _⟩ := h.spec
    rw [hq, List.length_set]
  load _ _ _ _ h := by
    obtain ⟨pg, p', q', t, _, hq, hq', rfl⟩ := h
    dsimp only
    rw [(insert_id hq').2.2, (insertOffsetQueue_id hq).2.2, List.length_set]

theorem length_kept (c : Cfg) : Kept c fun _ p => p.pages.length = MAX_TOTAL_PAGES where
  mono h := h
  follows _ := (length_follows c).keeping fun _ _ hq hp => hq.trans hp
  shrink _ h := h
  size _ _ h := h
  init h := (List.length_map _).trans h
  restore hb hp := by simp [restoreFromBackup, hb, hp]
  create h := h
  alloc _ _ _ _ _ := List.length_replicate
  copies hp _ h := by
    rcases h with ⟨-, rfl⟩ | ⟨src, buffer, -, rfl⟩
    · exact hp
    · exact hp
  state _ h := h
  undone _ _ _ := List.length_replicate
  noStack h := h
  exit _ _ _ h _ := h
  reaped h := h
  tick hp h := by
    obtain ⟨ps, t, a, rfl, hps⟩ := tick_cases h
    have := congrArg List.length hps
    rw [List.length_map, List.length_map] at this
    exact this.trans hp
  unused _ := List.length_replicate

/-- **No request that fits writes past the end of `pages[]`**, in any state reached from `userinit` on. -/
theorem request_in_bounds {k : Kmem} {data : Nat → PageData} {init : List UInt8} {m0 m : Machine}
    (hb : boot c k data init = .ok m0) {ls : List Label} (hrun : Lts.Run (Trans c) m0 ls m) (i : Nat) (r : Request)
    (hfits : ∀ p, m.proc[i]? = some p → r.Fits c p) (es : List Event) : step c m (r.op i) ≠ .error (.overflow, es) := by
  have hlen := (length_kept c).run hb hrun
  have hstep : Stays (step c m (r.op i)) fun _ => True := by
    have hi : (r.op i).proc = i := by cases r <;> rfl
    unfold step
    rw [hi]
    split
    · exact .ok trivial
    · next p hp =>
      have hfit := hfits p hp
      refine .ite (fun _ => ?_) fun _ => .ok trivial
      cases r with
      | sbrk n => exact .bind (growproc_stays n (m.ctx p) hfit) fun s _ _ => .ok trivial
      | exec file argv =>
        refine .bind (exec_stays file argv (m.ctx p) (hlen p (List.mem_of_getElem? hp)) fun htr => ?_)
          fun s _ _ => .ok trivial
        simp only [Ctx.tracked, Bool.and_eq_true, decide_eq_true_eq] at htr
        exact hfit htr.1 htr.2
  have hsat : Sat (step c m (r.op i)) (fun e => e.1 ≠ .overflow) fun _ => True := hstep
  exact fun h => hsat.of_error h rfl

/-- The third process has no page recorded and asks for as many pages as there are slots. -/
def exAll (m : Machine) : Bool :=
  (m.proc[2]?).any fun p => pgUp (addInt p.sz (32 * 4096)) - pgUp p.sz == 32 && p.freeSlots == 32

/-- A request for all the slots. -/
theorem request_in_bounds_all : ∃ m0 ls m, Lts.Run (Trans (exCfg .SCFIFO)) m0 ls m ∧
    (∃ p, m.proc[2]? = some p ∧ pgUp (addInt p.sz (32 * 4096)) - pgUp p.sz = MAX_TOTAL_PAGES) ∧
    ∀ es, step (exCfg .SCFIFO) m (.sbrk 2 (32 * 4096)) ≠ .error (.overflow, es) := by
  have hx : (bootRun .SCFIFO [.fork 0, .fork 0]).any (fun s => exAll s.2.2) = true := by decide +kernel
  obtain ⟨m0, ls, m, hb, hrun, hf⟩ := @bootRun_spec _ _ (fun _ m => exAll m) hx
  obtain ⟨p, hp, hf⟩ := (Option.any_eq_true _ _).1 hf
  simp only [Bool.and_eq_true, beq_iff_eq] at hf
  obtain ⟨hn, hfree⟩ := hf
  refine ⟨m0, ls, m, hrun, ⟨p, hp, hn⟩, request_in_bounds hb hrun 2 (.sbrk (32 * 4096)) ?_⟩
  intro q hq _ _ _ _
  obtain rfl := Option.some.inj (hp.symm.trans hq)
  rw [hn, hfree]

/-- With one page more the last one is recorded past the end. -/
theorem request_out_of_bounds : ¬ ∀ (c : Cfg) (k : Kmem) (data : Nat → PageData) (init : List UInt8) (m0 m : Machine)
    (ls : List Label), c.sel ≠ .NONE → k.Ready c → boot c k data init = .ok m0 → Lts.Run (Trans c) m0 ls m →
    ∀ (i : Nat) (r : Request) (es : List Event), step c m (r.op i) ≠ .error (.overflow, es) := by
  intro h
  have hx : (bootRun .SCFIFO [.fork 0, .fork 0]).any (fun s =>
      match step (exCfg .SCFIFO) s.2.2 (.sbrk 2 (33 * 4096)) with
      | .error (e, _) => e == .overflow
      | .ok _ => false) = true := by decide +kernel
  obtain ⟨m0, ls, m, hb, hrun, hf⟩ := @bootRun_spec _ _ (fun _ m =>
    match step (exCfg .SCFIFO) m (.sbrk 2 (33 * 4096)) with
    | .error (e, _) => e == .overflow
    | .ok _ => false) hx
  have hno := h _ _ _ _ _ _ _ (by decide) (exKmem_ready _) hb hrun 2 (.sbrk (33 * 4096))
  split at hf
  · next e es he =>
    obtain rfl : e = .overflow := by simpa using hf
    exact hno es he
  · cases hf

end Xv6
