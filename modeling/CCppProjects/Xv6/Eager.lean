import CCppProjects.Xv6.Record
import CCppProjects.Xv6.Transparency
/-
# Copy-on-write fork is eager fork

The reference machine copies every page at `fork`. Without a replacement policy every run of the kernel shows
what that machine shows (`eagerLaw`), a program gets through to every page of its own, and neither panic of
`handle_page_fault` is in reach: the first half of a fault finds an entry without `PTE_W`, because one with it
would have let the store through, and the second half a count that was not 0 and an entry with `PTE_C`, because
the page was present when the count was read (`Fault.Ok`).
-/
namespace Xv6

open Share

variable {c : Cfg} {L : RefLaw c} {m m' : Machine} {r r' : Ref} {i : Nat} {p : Proc}

/-! ## Halts -/

/-- A call that does not halt in `handle_page_fault`. -/
def Calm {α : Type} (m : K α) : Prop := Sat m (fun e => e.1 ∉ faultPanics) fun _ => True

theorem Leaves.calm {α : Type} {x : Ctx} {g : α → Ctx} {m : K α} (h : Leaves closing x g m) : Calm m := by
  refine Sat.mono h ?_ fun _ _ => trivial
  rintro e ⟨es, _, hq, _⟩
  exact hq

theorem Calm.ok {α : Type} (a : α) : Calm (.ok a) := Sat.ok trivial

theorem Calm.halt {α : Type} {x : Ctx} {h : Halt} (hh : h ∉ faultPanics) : Calm (x.halt h : K α) := Sat.error hh

theorem Calm.bind {α β : Type} {m : K α} {f : α → K β} (h : Calm m) (hf : ∀ a, Calm (f a)) : Calm (m >>= f) :=
  Sat.bind h fun a _ _ => hf a

theorem Calm.ite {α : Type} {q : Prop} [Decidable q] {m m' : K α} (h : q → Calm m) (h' : ¬ q → Calm m') :
    Calm (if q then m else m') := Sat.ite h h'

theorem Calm.lift {α : Type} {x : Ctx} {m : Except Halt α} (h : Quiet m) : Calm (x.lift m) := by
  refine Sat.intro (fun _ _ => trivial) fun e he => ?_
  cases m with
  | ok a => cases he
  | error h' =>
    cases he
    exact h.of_error rfl

theorem execBad_calm (b : Proc) (pgdir ip : Bool) (x : Ctx) : Calm (execBad c b pgdir ip x) := by
  unfold execBad
  refine .bind (.ite (fun _ => ?_) fun _ => .ok _) fun y => .ok _
  exact (freevm_mute _).of_mute.calm

theorem exec_calm (file : Option Image) (argv : List (List UInt8)) (x : Ctx) : Calm (exec c file argv x) := by
  unfold exec
  cases file with
  | none => exact .ok _
  | some img =>
    refine .ite (fun _ => ?_) fun _ => .bind (execBad_calm _ _ _ _) fun y => .ok _
    exact Sat.mono (execImage_record _ _ _ _) (fun e he => he.1) fun _ _ => trivial

/-- A store the processor refuses. -/
theorem handlePageFault_calm {va : Nat} {x : Ctx} (hno : permits x.proc.pgdir va true = false) :
    Calm (handlePageFault c va x) := by
  unfold handlePageFault
  refine .ite (fun _ => .ok _) fun hva => ?_
  split
  · exact .halt (by decide)
  · rename_i e he
    obtain ⟨rfl, hpde⟩ := walkpgdir_user (lt_USERPAGES_of_lt (by omega)) he
    refine .ite (fun _ => .ok _) fun hPU => .ite (fun hW => ?_) fun _ => ?_
    · simp only [Ctx.setProc_proc, Bool.not_eq_eq_eq_not, Bool.not_true, Bool.or_eq_true, not_or, Bool.not_eq_false]
        at hPU hW hpde
      have : permits x.proc.pgdir va true = true := by
        simp only [permits, hpde, hPU.1, hPU.2, hW, Bool.and_true, Bool.or_true, decide_eq_true_eq]
        omega
      rw [hno] at this
      cases this
    · exact .bind (.lift (getRefCount_quiet _ _)) fun a => .ok _

theorem copyPage_calm (flt : Fault) (mem : Nat) (x : Ctx) : Calm (copyPage c flt mem x) := by
  unfold copyPage
  refine .bind (.lift (decRefCount_quiet _ _)) fun k => ?_
  exact .bind (.lift (incRefCount_quiet _ _)) fun k => .ok _

theorem finishPageFault_calm {flt : Fault} {x : Ctx} (hok : flt.Ok x.proc.pgdir) : Calm (finishPageFault c flt x) := by
  unfold finishPageFault
  simp only
  split
  · exact .halt (by decide)
  · rename_i e he
    obtain ⟨rfl, _⟩ := walkpgdir_user (lt_USERPAGES_of_lt hok.va) he
    refine .ite (fun _ => ?_) fun h1 => .ite (fun _ => .ok _) fun hno => ?_
    · split
      · exact .ok _
      · exact copyPage_calm _ _ _
    · have := hok.amount
      exact absurd ⟨by omega, hok.C⟩ hno

/-- A fault without a replacement policy. -/
theorem trapPgflt_eager (hc : c.paging = false) (va : Nat) (w : Bool) (x : Ctx) :
    trapPgflt c va w x = if w then handlePageFault c va x else .ok x := by
  unfold trapPgflt
  rw [hc]
  rfl

theorem trapRet_calm (i : Nat) (x : Ctx) : Calm (trapRet c m i x) := (trapRet_leaves x m i x).calm

/-- No step of a process whose memory is in order halts in `handle_page_fault`. -/
theorem stepProc_calm (hc : c.paging = false) (hok : ProcOk p) (op : Op) : Calm (stepProc c m p op) := by
  have hfault : ∀ va w, (w = true → permits p.pgdir va true = false) → Calm (trapPgflt c va w (m.ctx p)) := by
    intro va w hw
    rw [trapPgflt_eager hc]
    exact .ite (fun h => handlePageFault_calm (hw h)) fun _ => .ok _
  cases hop : op.plain with
  | true => exact (stepProc_leaves hop m p).calm
  | false =>
    cases op with
    | load i va =>
      exact .ite (fun _ => .ok _) fun _ => .bind (hfault va false fun h => by cases h) fun x => trapRet_calm i x
    | store i va b =>
      refine .ite (fun _ => .ok _) fun hno => .bind (hfault va true fun _ => ?_) fun x => trapRet_calm i x
      simpa using hno
    | resume i =>
      simp only [stepProc]
      split
      · exact .ok _
      · rename_i flt hflt
        exact .bind (finishPageFault_calm (hok.fault flt hflt)) fun x => trapRet_calm i x
    | exec i file argv => exact .bind (exec_calm file argv _) fun s => .ok _
    | access | sbrk | fork | exit | wait | tick => cases hop

/-! ## What a step shows and whose memory it changes -/

/-- A step that is neither a `fork` nor a `wait`. -/
def Op.alone : Op → Bool
  | .fork _ | .wait _ => false
  | _ => true

/-- The process whose memory an observation is about; a child's slot is not its parent's. -/
def Obs.proc : Obs → Nat
  | .load i _ _ | .store i _ _ | .sbrk i _ | .exec i _ _ | .fork _ i | .wait i => i

theorem refStep_other {o : Obs} (h : refStep r o = some r') {j : Nat} (hj : j ≠ o.proc) : r' j = r j := by
  cases o with
  | load i va b =>
    simp only [refStep] at h
    split at h
    · cases h
      rfl
    · cases h
  | store i va b =>
    simp only [refStep] at h
    split at h
    · cases h
      exact Function.update_of_ne hj _ _
    · cases h
  | sbrk | fork | exec | wait =>
    cases h
    exact Function.update_of_ne hj _ _

theorem RefRun.other {os : List Obs} (h : RefRun r os r') {j : Nat} (hj : ∀ o ∈ os, j ≠ o.proc) : r' j = r j := by
  induction h with
  | nil => rfl
  | cons hs _ ih =>
    rw [ih fun o ho => hj o (List.mem_cons_of_mem _ ho)]
    exact refStep_other hs (hj _ (List.mem_cons_self ..))

theorem trapRet_silent {x : Ctx} {os : List Obs} {es : List Event} (h : trapRet c m i x = .ok (os, es, m')) :
    os = [] := by
  unfold trapRet at h
  split at h
  · simp only at h
    split at h
    · cases h
    · cases h
      rfl
  · cases h
    rfl

theorem stepProc_obs {op : Op} (ha : op.alone = true) {os : List Obs} {es : List Event}
    (h : stepProc c m p op = .ok (os, es, m')) : ∀ o ∈ os, o.proc = op.proc := by
  cases op with
  | fork | wait => cases ha
  | load i va =>
    simp only [stepProc] at h
    split at h
    · cases h
      simp [Obs.proc, Op.proc]
    · obtain ⟨x, _, h⟩ := bind_ok h
      simp [trapRet_silent h]
  | store i va b =>
    simp only [stepProc] at h
    split at h
    · cases h
      simp [Obs.proc, Op.proc]
    · obtain ⟨x, _, h⟩ := bind_ok h
      simp [trapRet_silent h]
  | access i v =>
    simp only [stepProc] at h
    split at h <;> cases h <;> simp
  | resume i =>
    simp only [stepProc] at h
    split at h
    · cases h
      simp
    · obtain ⟨x, _, h⟩ := bind_ok h
      simp [trapRet_silent h]
  | sbrk i n =>
    obtain ⟨s, _, h⟩ := bind_ok h
    cases h
    split <;> simp [Obs.proc, Op.proc]
  | exit i =>
    obtain ⟨s, _, h⟩ := bind_ok h
    cases h
    simp
  | exec i file argv =>
    obtain ⟨s, _, h⟩ := bind_ok h
    cases h
    split
    · cases file <;> simp [Obs.proc, Op.proc]
    · simp
  | tick i =>
    obtain ⟨s, _, h⟩ := lift_bind_ok h
    cases h
    simp

/-- The memory of every other process is what it was. -/
theorem Sim.unseen (h : Sim L m r) {op : Op} (ha : op.alone = true) {os : List Obs} {es : List Event}
    (hx : Xv6.step c m op = .ok (os, es, m')) (hL : ∀ ev ∈ es, L.Ok (m.others op.proc) ev)
    {j : Nat} (hj : j ≠ op.proc) :
    (m'.proc[j]?).map m'.sees = (m.proc[j]?).map m.sees := by
  obtain ⟨r', hrun, h'⟩ := h.step hx hL
  have hos : ∀ o ∈ os, j ≠ o.proc := by
    unfold Xv6.step at hx
    split at hx
    · cases hx
      simp
    · split at hx
      · exact fun o ho => (stepProc_obs ha hx o ho).symm ▸ hj
      · cases hx
        simp
  have hr : r' j = r j := hrun.other hos
  cases h1 : m.proc[j]? with
  | none =>
    have hlen := List.getElem?_eq_none_iff.1 h1
    rw [List.getElem?_eq_none (by rw [h'.inv.length, ← h.inv.length]; exact hlen)]
    rfl
  | some q =>
    obtain ⟨hlt, _⟩ := List.getElem?_eq_some_iff.1 h1
    have hlt' : j < m'.proc.length := by rw [h'.inv.length, ← h.inv.length]; exact hlt
    obtain ⟨q', h2⟩ : ∃ q', m'.proc[j]? = some q' := ⟨_, List.getElem?_eq_getElem hlt'⟩
    rw [h2, Option.map_some, Option.map_some, ← h.shows _ _ h1, ← h'.shows _ _ h2, hr]

/-! ## Programs get through -/

/-- The program is running. -/
def Proc.Idle (p : Proc) : Prop := p.state = .RUNNABLE ∧ p.fault = none

/-- A page of the program's own at `va`. -/
def Pgdir.Own (t : Pgdir) (va : Nat) : Prop :=
  va < KERNBASE ∧ (t.pte (va / PGSIZE)).P = true ∧ (t.pte (va / PGSIZE)).U = true

theorem permits_of_own {t : Pgdir} {va : Nat} {w : Bool} (h : t.Own va)
    (hpde : (t.pde (va / PGSIZE / NPTENTRIES)).isSome = true) (hW : w = true → (t.pte (va / PGSIZE)).W = true) :
    permits t va w = true := by
  obtain ⟨hva, hP, hU⟩ := h
  cases w with
  | false => simp [permits, hva, hpde, hP, hU]
  | true => simp [permits, hva, hpde, hP, hU, hW rfl]

theorem step_enabled (hp : m.proc[i]? = some p) {op : Op} (hi : op.proc = i) (hen : op.enabled p = true) :
    step c m op = stepProc c m p op := by
  subst hi
  rw [step, hp]
  simp only [if_pos hen]

theorem Proc.Idle.enabled (h : p.Idle) {op : Op} (hr : ∀ i, op ≠ .resume i) : op.enabled p = true := by
  obtain ⟨h1, h2⟩ := h
  cases op with
  | resume i => exact absurd rfl (hr i)
  | _ => simp [Op.enabled, h1, h2]

/-- What the processor needs to know of a user page. -/
theorem MachInv.page (h : MachInv L m) (hp : m.proc[i]? = some p) {v : Nat} (hv : v < USERPAGES)
    (hP : (p.pgdir.pte v).P = true) :
    (p.pgdir.pde (v / NPTENTRIES)).isSome = true ∧ c.FrameOk (p.pgdir.pte v).addr := by
  obtain ⟨sw, hI⟩ := (h.ctx hp).inv
  have hfr : p.vtable.frame v = some (p.pgdir.pte v).addr := by
    rw [(h.procOk hp).vtable_frame, Pgdir.frame_of hv hP]
  obtain ⟨_, hP', _⟩ := Pgdir.frame_eq_some.1 hfr
  have hpde := (hI.present (t := p.vtable) (List.mem_cons_self ..) hv hP').1
  have hsame : p.vtable.pde = p.pgdir.pde := by
    unfold Proc.vtable
    split
    · split <;> rfl
    · rfl
  exact ⟨hsame ▸ hpde, (hI.user p.vtable (List.mem_cons_self ..) _ ⟨v, hfr⟩).1⟩

theorem load_own (h : MachInv L m) (hs : Shows m r) (hp : m.proc[i]? = some p) (hidle : p.Idle) {va : Nat}
    (hm : p.pgdir.Own va) :
    ∃ b, (r i).mem.byte va = some b ∧ step c m (.load i va) = .ok ([.load i va b], [], m) := by
  have hpm := permits_of_own (w := false) hm (h.page hp (lt_USERPAGES_of_lt hm.1) hm.2.1).1 fun h => by cases h
  refine ⟨_, load_shows hs hp hpm, ?_⟩
  rw [step_enabled hp rfl (hidle.enabled (by simp)), stepProc, if_pos hpm]
  rfl

theorem store_permitted (hp : m.proc[i]? = some p) (hidle : p.Idle) {va : Nat} (hpm : permits p.pgdir va true = true)
    (b : UInt8) : ∃ m', step c m (.store i va b) = .ok ([.store i va b], [], m') := by
  refine ⟨{ m with data := setByte m.data (p.pgdir.pte (va / PGSIZE)).addr va b }, ?_⟩
  rw [step_enabled hp rfl (hidle.enabled (by simp)), stepProc, if_pos hpm]
  rfl

/-- The machine after a half of a fault that is not the end of it, or that ends with the process alive. -/
theorem trapRet_stays {x : Ctx} (h : x.proc.killed = false ∨ x.proc.fault.isSome = true) :
    trapRet c m i x = .ok ([], x.log, m.put i x) := by
  have hno : ¬ (x.proc.killed && x.proc.fault.isNone) = true := by
    rcases h with h | h
    · simp [h]
    · obtain ⟨flt, hflt⟩ := Option.isSome_iff_exists.1 h
      simp [hflt]
  rw [trapRet, if_neg hno]
  rfl

theorem put_self (hp : m.proc[i]? = some p) (x : Ctx) : (m.put i x).proc[i]? = some x.proc :=
  List.getElem?_set_self (List.getElem?_eq_some_iff.1 hp).1

theorem walkpgdir_of_pde {t : Pgdir} {v : Nat} (hv : v < USERPAGES) (h : (t.pde (v / NPTENTRIES)).isSome = true) :
    walkpgdir c t v = some (t.pte v) := by
  obtain ⟨f, hf⟩ := Option.isSome_iff_exists.1 h
  rw [walkpgdir, hf]
  simp only [if_pos hv]

/-- A store at a mapped address is done, or the process is in the middle of the fault. -/
theorem store_own (hc : c.paging = false) (h : MachInv L m) (hp : m.proc[i]? = some p) (hidle : p.Idle) {va : Nat}
    (hm : p.pgdir.Own va) (b : UInt8) :
    (∃ m', step c m (.store i va b) = .ok ([.store i va b], [], m')) ∨
      ∃ m' q flt, step c m (.store i va b) = .ok ([], [], m') ∧ m'.proc[i]? = some q ∧
      q.fault = some flt ∧ flt.va = va := by
  obtain ⟨hva, hP, hU⟩ := id hm
  obtain ⟨hpde, hfr⟩ := h.page hp (lt_USERPAGES_of_lt hva) hP
  by_cases hpm : permits p.pgdir va true = true
  · exact .inl (store_permitted hp hidle hpm b)
  · have hW : (p.pgdir.pte (va / PGSIZE)).W = false := by
      by_contra hW
      exact hpm (permits_of_own hm hpde fun _ => by simpa using hW)
    have hwalk := walkpgdir_of_pde (c := c) (lt_USERPAGES_of_lt hva) hpde
    obtain ⟨q, hq, hpf⟩ : ∃ q : Proc, (∃ flt, q.fault = some flt ∧ flt.va = va) ∧
        handlePageFault c va (m.ctx p) = .ok ((m.ctx p).setProc q) := by
      refine ⟨{ p with
        numberOfPageFaults := p.numberOfPageFaults + 1
        fault :=
          some ⟨va, (p.pgdir.pte (va / PGSIZE)).addr * PGSIZE, m.kmem.pageRefsNum
            (p.pgdir.pte (va / PGSIZE)).addr⟩ },
        ⟨_, rfl, rfl⟩, ?_⟩
      have hkm : (m.ctx p).kmem = m.kmem := rfl
      have hpr : (m.ctx p).proc = p := rfl
      rw [handlePageFault, if_neg (by omega)]
      simp only [Ctx.setProc_proc, Ctx.setProc_kmem, hpr, hkm, hwalk, hP, hU, hW, getRefCount_frame hfr]
      rfl
    obtain ⟨flt, hflt, hfva⟩ := hq
    refine .inr ⟨m.put i ((m.ctx p).setProc q), q, flt, ?_, put_self hp _, hflt, hfva⟩
    rw [step_enabled hp rfl (hidle.enabled (by simp)), stepProc, if_neg hpm, trapPgflt_eager hc,
      if_pos rfl, hpf, ok_bind,
      trapRet_stays (.inr (by rw [Ctx.setProc_proc, hflt]; rfl))]
    rfl

theorem copyPage_ok {flt : Fault} {f g : Nat} (hf : c.FrameOk f) (hg : c.FrameOk g) (hpa : flt.pa = g * PGSIZE)
    (x : Ctx) : ∃ y, copyPage c flt (kva f) x = .ok y := by
  simp only [copyPage, hpa, decRefCount_frame hg, P2V_kva hf, incRefCount_frame hf]
  exact ⟨_, rfl⟩

/-- With a frame to be had the second half of a fault comes back. -/
theorem finishPageFault_ok (h : MachInv L m) (hp : m.proc[i]? = some p) {flt : Fault} (hflt : p.fault = some flt)
    (hfree : m.kmem.freelist ≠ []) : ∃ x, finishPageFault c flt (m.ctx p) = .ok x := by
  have hok := (h.procOk hp).fault flt hflt
  have hv := lt_USERPAGES_of_lt hok.va
  obtain ⟨hpde, hfr⟩ := h.page hp hv hok.P
  have hpr : (m.ctx p).proc = p := rfl
  have hkm : (m.ctx p).kmem = m.kmem := rfl
  simp only [finishPageFault, Ctx.setProc_proc, Ctx.setProc_kmem, hpr, hkm, walkpgdir_of_pde hv hpde]
  by_cases h1 : 1 < flt.amount
  · rcases kalloc_cases m.kmem with ⟨h0, _⟩ | ⟨f, rest, hl, hk⟩
    · exact absurd h0 hfree
    obtain ⟨sw, hI⟩ := (h.ctx hp).inv
    have hf : c.FrameOk f := hI.frameOk f (List.mem_append_left _ (show f ∈ m.kmem.freelist by simp [hl]))
    simp only [if_pos h1, hk]
    exact copyPage_ok hf hfr hok.pa _
  · have : flt.amount = 1 ∧ (p.pgdir.pte (flt.va / PGSIZE)).C = true := ⟨by have := hok.amount; omega, hok.C⟩
    simp only [if_neg h1, if_pos this]
    exact ⟨_, rfl⟩

/-- The fault is over and the store it was about goes through. -/
theorem resume_own (h : MachInv L m) (hp : m.proc[i]? = some p) {flt : Fault} (hflt : p.fault = some flt)
    (hlive : p.killed = false) (hfree : m.kmem.freelist ≠ []) (b : UInt8) :
    ∃ es m' m'', step c m (.resume i) = .ok ([], es, m') ∧
      step c m' (.store i flt.va b) = .ok ([.store i flt.va b], [], m'') := by
  have hpok := h.procOk hp
  have hok := hpok.fault flt hflt
  obtain ⟨hpde, _⟩ := h.page hp (lt_USERPAGES_of_lt hok.va) hok.P
  have hperm : ∀ e : Pte, e.P = true → e.U = true → e.W = true →
      permits (p.pgdir.setPte (flt.va / PGSIZE) e) flt.va true = true := by
    intro e h1 h2 h3
    simp [permits, hok.va, Pgdir.pte_setPte, hpde, h1, h2, h3]
  have hrun : p.state = .RUNNABLE := by
    by_contra hn
    have := hpok.idle hn
    rw [hflt] at this
    cases this
  obtain ⟨x, hx⟩ := finishPageFault_ok h hp hflt hfree
  -- in the branches left the table has an entry with `PTE_W` where the fault was
  obtain ⟨hfn, hst, hkl, hpm⟩ : x.proc.fault = none ∧ x.proc.state = p.state ∧ x.proc.killed = p.killed ∧
      permits x.proc.pgdir flt.va true = true := by
    rcases finishPageFault_cases hok hx with ⟨_, mem, k, k1, k2, _, _, _, rfl⟩ | ⟨_, hk, _⟩ | ⟨_, rfl⟩
    · exact ⟨rfl, rfl, rfl, hperm { permWU with addr := V2P mem / PGSIZE, P := true } rfl rfl rfl⟩
    · rcases kalloc_cases m.kmem with ⟨h0, _⟩ | ⟨f, rest, _, hs⟩
      · exact absurd h0 hfree
      · rw [show (m.ctx p).kmem = m.kmem from rfl, hs] at hk
        cases hk
    · exact ⟨rfl, rfl, rfl, hperm { p.pgdir.pte (flt.va / PGSIZE) with W := true } hok.P hok.U rfl⟩
  obtain ⟨m'', hm''⟩ := store_permitted (c := c) (put_self hp x) ⟨hst.trans hrun, hfn⟩ hpm b
  refine ⟨x.log, m.put i x, m'', ?_, hm''⟩
  have hen : (Op.resume i).enabled p = true := by simp [Op.enabled, hrun, hflt]
  rw [step_enabled hp rfl hen, stepProc, hflt]
  simp only [hx, ok_bind]
  exact trapRet_stays (.inl (hkl.trans hlive))

/-! ## Runs -/

/-- What programs have of the machine `m` when the machine that copies at once is at `r`. -/
structure AsEager (c : Cfg) (m : Machine) (r : Ref) : Prop where
  /-- The memory and the size of every process are the same. -/
  shows : Shows m r
  /-- A load at a page of its own gives the byte there. -/
  load : ∀ i p va, m.proc[i]? = some p → p.Idle → p.pgdir.Own va →
    ∃ b, (r i).mem.byte va = some b ∧ step c m (.load i va) = .ok ([.load i va b], [], m)
  /-- A store there is done, or starts a fault. -/
  store : ∀ i p va b, m.proc[i]? = some p → p.Idle → p.pgdir.Own va →
    (∃ m', step c m (.store i va b) = .ok ([.store i va b], [], m')) ∨
      ∃ m' q flt, step c m (.store i va b) = .ok ([], [], m') ∧ m'.proc[i]? = some q ∧ q.fault = some flt ∧ flt.va = va
  /-- After the fault, with a frame to be had, it is done. -/
  resume : ∀ i p flt b, m.proc[i]? = some p → p.fault = some flt → p.killed = false → m.kmem.freelist ≠ [] →
    ∃ es m' m'', step c m (.resume i) = .ok ([], es, m') ∧
    step c m' (.store i flt.va b) = .ok ([.store i flt.va b], [], m'')
  /-- Nothing a process does but `fork` and `wait`, a store least of all, changes what another one reads. -/
  unseen : ∀ op os es m' j, op.alone = true → step c m op = .ok (os, es, m') → j ≠ op.proc →
    (m'.proc[j]?).map m'.sees = (m.proc[j]?).map m.sees
  /-- No step ends in a panic of `handle_page_fault`. -/
  calm : ∀ op e, step c m op = .error e → e.1 ∉ faultPanics

theorem step_calm (hc : c.paging = false) (h : MachInv L m) (op : Op) : Calm (step c m op) := by
  unfold step
  split
  · exact .ok _
  · rename_i p hp
    exact .ite (fun _ => stepProc_calm hc (h.procOk hp) op) fun _ => .ok _

theorem Sim.asEager (hc : c.paging = false) (h : Sim (eagerLaw hc) m r) : AsEager c m r where
  shows := h.shows
  load _ _ _ hp hidle hown := load_own h.inv h.shows hp hidle hown
  store _ _ _ b hp hidle hown := store_own hc h.inv hp hidle hown b
  resume _ _ _ b hp hflt hlive hfree := resume_own h.inv hp hflt hlive hfree b
  unseen _ _ _ _ _ ha hx hj := h.unseen ha hx (fun _ _ => trivial) hj
  calm op _ he := (step_calm hc h.inv op).of_error he

/-- **Copy-on-write is eager fork.** In the build without a replacement policy every run from `userinit` on shows
what a run of the reference machine shows, and ends where that one ends. -/
theorem cow_eager (hsel : c.sel = .NONE) {k : Kmem} {data : Nat → PageData} {init : List UInt8} {m0 : Machine}
    (hk : k.Ready c) (hb : Xv6.boot c k data init = .ok m0) {ls : List Label} (hrun : Lts.Run (Trans c) m0 ls m) :
    ∃ r, RefRun (refBoot init) (ls.flatMap Label.obs) r ∧ AsEager c m r := by
  have hc : c.paging = false := by
    rw [Cfg.paging, hsel]
    rfl
  have hs : Lts.Steps (Trans c) (eagerLaw hc).Allows m0 ls := fun _ l t _ _ => eagerLaw_allows hc t l
  obtain ⟨r, h1, h2⟩ := (Sim.boot (L := eagerLaw hc) hk hb).run (hrun.on hs)
  exact ⟨r, h1, h2.asEager hc⟩

/-- A page shared with a child and a grandchild, stored to by all three and read by all three. -/
theorem cow_eager_family : ∃ m0 ls m, Lts.Run (Trans (exCfg .NONE)) m0 ls m ∧
    (ls.flatMap Label.obs).length = 8 ∧ ∃ r, RefRun (refBoot []) (ls.flatMap Label.obs) r ∧
    AsEager (exCfg .NONE) m r := by
  have hx :
    (bootRun .NONE [.fork 0, .fork 1, .store 0 0 7, .store 1 0 8, .resume 1, .resume 0,
    .store 0 0 7, .store 1 0 8,
      .store 2 0 9, .resume 2, .store 2 0 9, .load 0 0, .load 1 0, .load 2 0]).any
      (fun s => (s.2.1.flatMap Label.obs).length == 8) = true := by decide +kernel
  obtain ⟨m0, ls, m, hb, hrun, hf⟩ := @bootRun_spec _ _ (fun ls _ => (ls.flatMap Label.obs).length == 8) hx
  exact ⟨m0, ls, m, hrun, by simpa using hf, cow_eager rfl (exKmem_ready _) hb hrun⟩

end Xv6
