import CCppProjects.Xv6.Transparency
/-
# What swapping does to PTE_U

`swapToFile` leaves the bit of its victim alone (vm.c:486-488), `get_page` maps the page with `PTE_W | PTE_U`
whatever it had (vm.c:603). The page below the stack has it cleared (`clearpteu`, exec.c:145), so once it has been
out and in again programs can use it.
-/
namespace Xv6

variable {c : Cfg} {w : Tbl} {v : Nat} {x x' y y' : Ctx}

theorem swapToFile_user (h : swapToFile c w x = .ok x') (hv : v < USERPAGES) :
    ((x'.tbl w).pte v).U = ((x.tbl w).pte v).U := by
  obtain ⟨addr, p, z, q, hsel, hz, hq, h⟩ := swapToFile_cases h
  obtain ⟨⟨-, hw, -⟩, -⟩ := selectPage_spec hsel
  obtain ⟨-, hoff, -⟩ := getFreeFileOffset_id p
  obtain ⟨-, hrec, -⟩ := recordSwapOut_id hq
  obtain ⟨hown, hother⟩ : z.proc.pgdir = (getFreeFileOffset p).2.pgdir ∧ z.other = x.other := by
    obtain ⟨_, _, _, rfl⟩ := writeUserPage_cases hz
    exact ⟨rfl, rfl⟩
  obtain ⟨e, k, he, _, rfl⟩ := releasePage_cases h
  obtain ⟨a, ha, -⟩ := hw.2.2 v hv
  -- the table before the mark differs from the one at the start in `PTE_A` at most
  have hsame : (((z.setProc q).tbl w).pte v).U = ((x.tbl w).pte v).U := by
    cases w with
    | own =>
      change (q.pgdir.pte v).U = (x.proc.pgdir.pte v).U
      rw [hrec, hown, hoff, ha]
    | other =>
      change (z.other.pte v).U = (x.other.pte v).U
      rw [hother]
  rw [Ctx.setKmem_tbl, Ctx.setTbl_tbl, Pgdir.pte_setPte]
  split
  · next heq =>
    subst heq
    obtain ⟨rfl, -⟩ := walkpgdir_user hv he
    exact hsame
  · exact hsame

theorem getPage_user {va : Nat} (h : getPage c va y = .ok (true, y')) :
    ∃ f, y'.proc.pgdir.pte (va / PGSIZE) = { permWU with addr := f, P := true } := by
  unfold getPage at h
  obtain ⟨z, -, h⟩ := bind_ok h
  split at h
  · cases h
  · next mem k _ =>
    obtain ⟨z', hz, h⟩ := bind_ok h
    cases h
    obtain ⟨pg, fl, e, q, q', n, -, -, -, hq, hq', -, rfl⟩ := loadPage_cases hz
    obtain ⟨-, hoff, -⟩ := insertOffsetQueue_id hq
    obtain ⟨-, hins, -⟩ := insert_id hq'
    refine ⟨V2P mem / PGSIZE, ?_⟩
    change q'.pgdir.pte (va / PGSIZE) = _
    rw [hins, hoff, Pgdir.pte_setPte, if_pos rfl]

/-- Page `v` of table `w` is the victim when `swapToFile` is entered at `x`; at `y`, any time later, `get_page`
brings the page back. -/
structure Returns (c : Cfg) (w : Tbl) (v : Nat) (x x' y y' : Ctx) : Prop where
  user : v < USERPAGES
  victim : ∃ addr p, selectPage c x.proc = .ok (addr, p) ∧ addr / PGSIZE = v
  out : swapToFile c w x = .ok x'
  back : ∃ va, va / PGSIZE = v ∧ getPage c va y = .ok (true, y')

/-- **Going out and coming back keeps `PTE_U` exactly on the pages that had it.** -/
theorem returns_user (h : Returns c w v x x' y y') : ((x'.tbl w).pte v).U = ((x.tbl w).pte v).U ∧
    ((y'.proc.pgdir.pte v).U = ((x.tbl w).pte v).U ↔ ((x.tbl w).pte v).U = true) := by
  obtain ⟨va, rfl, hback⟩ := h.back
  obtain ⟨f, hf⟩ := getPage_user hback
  have hU : (y'.proc.pgdir.pte (va / PGSIZE)).U = true := congrArg Pte.U hf
  refine ⟨swapToFile_user h.out h.user, ?_⟩
  rw [hU]
  exact eq_comm

/-! ## The page below the stack -/

/-- A program of one page, below a page without `PTE_U` and the stack. -/
def exImage : Image := ⟨true, [⟨true, true, 0, 4096, 0, []⟩]⟩

/-- The third process runs it and asks for as many pages that `RAMQueue` is full, and `n` more. -/
def exOps (n : Nat) : List Op := [.fork 0, .fork 0, .exec 2 (some exImage) [], .sbrk 2 ((13 + n) * 4096)]

/-- The third process's context after that. -/
def exCtx (n : Nat) : Option Ctx := (bootRun .AQ (exOps n)).bind fun s => (s.2.2.proc[2]?).map s.2.2.ctx

/-- The victim goes out and comes back at once: its number and its `PTE_U` before and after. -/
def exReturn (x : Ctx) : Option (Nat × Bool × Bool) :=
  match selectPage (exCfg .AQ) x.proc, swapToFile (exCfg .AQ) .own x with
  | .ok (addr, _), .ok x' => match getPage (exCfg .AQ) addr x' with
    | .ok (true, y) => some (addr / PGSIZE, (x.proc.pgdir.pte (addr / PGSIZE)).U, (y.proc.pgdir.pte (addr / PGSIZE)).U)
    | _ => none
  | _, _ => none

theorem exReturn_spec {v : Nat} {u u' : Bool} (h : exReturn x = some (v, u, u')) (hv : v < USERPAGES) :
    ∃ x' y', Returns (exCfg .AQ) .own v x x' x' y' ∧ (x.proc.pgdir.pte v).U = u ∧ (y'.proc.pgdir.pte v).U = u' := by
  unfold exReturn at h
  split at h
  · next addr p x' hsel hout =>
    split at h
    · next y hback =>
      simp only [Option.some.injEq, Prod.mk.injEq] at h
      obtain ⟨rfl, rfl, rfl⟩ := h
      exact ⟨x', y, ⟨hv, ⟨addr, p, hsel, rfl⟩, hout, addr, rfl, hback⟩, rfl, rfl⟩
    · cases h
  · cases h

/-- The page of the program. -/
theorem returns_user_text : ∃ x x' y y', Returns (exCfg .AQ) .own 0 x x' y y' ∧
    (y'.proc.pgdir.pte 0).U = (x.proc.pgdir.pte 0).U := by
  have hx : ((exCtx 0).bind exReturn) = some (0, true, true) := by decide +kernel
  obtain ⟨x, -, hx⟩ := Option.bind_eq_some_iff.1 hx
  obtain ⟨x', y', h, hU, -⟩ := exReturn_spec hx (by decide)
  exact ⟨x, x', x', y', h, (returns_user h).2.2 hU⟩

/-- The page below the stack. -/
theorem returns_user_not_always : ¬ ∀ (c : Cfg) (w : Tbl) (v : Nat) (x x' y y' : Ctx), Returns c w v x x' y y' →
    (y'.proc.pgdir.pte v).U = ((x.tbl w).pte v).U := by
  intro h
  have hx : ((exCtx 1).bind exReturn) = some (1, false, true) := by decide +kernel
  obtain ⟨x, -, hx⟩ := Option.bind_eq_some_iff.1 hx
  obtain ⟨x', y', hr, hU, hU'⟩ := exReturn_spec hx (by decide)
  have := h _ _ _ _ _ _ _ hr
  rw [hU'] at this
  exact absurd (this.trans hU) (by decide)

end Xv6
