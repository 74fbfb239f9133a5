import CCppProjects.Lib.Run
import CCppProjects.Xv6.FamilySpec
/-
# Every step is a step of the reference machine

`Sim L m r` relates the two machines: the kernel's memory is in order under the law `L`, programs
see what the reference machine has, and there is nothing above a process's size. A step whose
record the law allows keeps it (`Sim.step`), and so does a run (`Sim.run`).
-/
namespace Xv6

open Share

variable {c : Cfg} {L : RefLaw c} {m m' : Machine} {r r' : Ref} {i : Nat} {p : Proc}

/-! ## Nothing above the size -/

def RefProc.Bounded (p : RefProc) : Prop := ∀ u, p.sz ≤ u * PGSIZE → p.mem u = none

theorem Mem.set_isSome (m : Mem) (va : Nat) (b : UInt8) (u : Nat) : ((m.set va b) u).isSome = (m u).isSome := by
  rw [Mem.set, Function.update_apply]
  split
  · rename_i hu
    rw [hu, Option.isSome_map]
  · rfl

theorem Mem.write_isSome (bs : List UInt8) : ∀ (va : Nat) (m : Mem) (u : Nat),
    ((m.write va bs) u).isSome = (m u).isSome := by
  induction bs with
  | nil => intro va m u; rfl
  | cons b bs ih =>
    intro va m u
    rw [Mem.write, ih, Mem.set_isSome]

theorem Mem.write_eq_none {bs : List UInt8} {va : Nat} {m : Mem} {u : Nat} :
    m.write va bs u = Option.none ↔ m u = Option.none := by
  rw [← Option.not_isSome_iff_eq_none, ← Option.not_isSome_iff_eq_none, Mem.write_isSome]

theorem Mem.grow_eq_none {m : Mem} {sz newsz u : Nat} (h : m u = Option.none) (hu : newsz ≤ u * PGSIZE) :
    m.grow sz newsz u = Option.none := by
  rw [Mem.grow, if_neg (by omega), h]

theorem RefProc.Bounded.sbrk {p : RefProc} (h : p.Bounded) (n : Int) : (refSbrk n p).Bounded := by
  intro u hu
  unfold refSbrk at hu ⊢
  by_cases hpos : 0 < n
  · simp only [if_pos hpos] at hu ⊢
    exact Mem.grow_eq_none (h u (by omega)) (by omega)
  by_cases hneg : n < 0
  · simp only [if_neg hpos, if_pos hneg] at hu ⊢
    rw [Mem.cut]
    split
    · rfl
    · rename_i hcut
      refine h u (Nat.le_of_not_lt fun hlt => hcut ⟨Nat.le_of_not_lt fun hup => ?_, hlt⟩)
      rw [lt_pgUp] at hup
      split at hu <;> omega
  · simp only [if_neg hpos, if_neg hneg] at hu ⊢
    exact h u hu

theorem RefProc.Bounded.segments : ∀ (segs : List Segment) {p : RefProc}, p.Bounded → (refSegments segs p).Bounded
  | [], _, h => h
  | ph :: phs, p, h => by
    rw [refSegments]
    split
    · exact RefProc.Bounded.segments phs h
    · refine RefProc.Bounded.segments phs fun u hu => ?_
      have hu : max p.sz (ph.vaddr + ph.memsz).toNat ≤ u * PGSIZE := hu
      exact Mem.write_eq_none.2 (Mem.grow_eq_none (h u (by omega)) (by omega))

theorem refStrings_eq_none {u : Nat} : ∀ (args : List (List UInt8)) (sp : Nat) (ptrs : List Nat) (m : Mem),
    m u = none → (refStrings args sp ptrs m).2.2 u = none
  | [], _, _, _, h => h
  | _ :: args, _, _, _, h => refStrings_eq_none args _ _ _ (Mem.write_eq_none.2 h)

theorem RefProc.Bounded.exec (img : Image) (argv : List (List UInt8)) : (refExec img argv).Bounded := by
  have hseg : (refSegments img.segs ⟨Mem.none, 0⟩).Bounded := .segments _ fun _ _ => rfl
  intro u hu
  have hu : pgUp (refSegments img.segs ⟨Mem.none, 0⟩).sz * PGSIZE + 2 * PGSIZE ≤ u * PGSIZE := hu
  have hup : ¬ u < pgUp (refSegments img.segs ⟨Mem.none, 0⟩).sz := by
    simp only [PGSIZE] at hu
    omega
  rw [lt_pgUp] at hup
  refine Mem.write_eq_none.2 (refStrings_eq_none _ _ _ _ (Mem.grow_eq_none (hseg u ?_) hu))
  omega

theorem RefProc.Bounded.step (h : ∀ i, (r i).Bounded) {o : Obs} (hs : refStep r o = some r') : ∀ i, (r' i).Bounded := by
  have hupd : ∀ {q : RefProc} (j : Nat), q.Bounded → ∀ k, (Function.update r j q k).Bounded := by
    intro q j hq k
    rw [Function.update_apply]
    split
    · exact hq
    · exact h k
  cases o with
  | load i va b =>
    simp only [refStep] at hs
    split at hs
    · cases hs
      exact h
    · cases hs
  | store i va b =>
    simp only [refStep] at hs
    split at hs
    · cases hs
      refine hupd i fun u hu => ?_
      have := Mem.set_isSome (r i).mem va b u
      rw [h i u hu] at this
      simpa using this
    · cases hs
  | sbrk i n =>
    cases hs
    exact hupd i ((h i).sbrk n)
  | fork i j =>
    cases hs
    exact hupd j (h i)
  | exec i img argv =>
    cases hs
    exact hupd i (.exec img argv)
  | wait j =>
    cases hs
    exact hupd j fun _ _ => rfl

/-! ## One step -/

/-- The reference machine's steps. -/
def RefRun : Ref → List Obs → Ref → Prop := Lts.Run fun r o r' => refStep r o = some r'

structure Sim (L : RefLaw c) (m : Machine) (r : Ref) : Prop where
  inv : MachInv L m
  shows : Shows m r
  bounded : ∀ i, (r i).Bounded

/-- The machines after a step seen as `os`. -/
def Sim.After (L : RefLaw c) (m' : Machine) (r : Ref) (os : List Obs) : Prop :=
  ∃ r', RefRun r os r' ∧ Sim L m' r'

theorem Sim.silent (h : Sim L m r) (hI : MachInv L m') (hS : Shows m' r) : Sim.After L m' r [] :=
  ⟨r, .nil r, hI, hS, h.bounded⟩

theorem Sim.seen (h : Sim L m r) {o : Obs} (ho : refStep r o = some r') (hI : MachInv L m') (hS : Shows m' r') :
    Sim.After L m' r [o] :=
  ⟨r', .single ho, hI, hS, RefProc.Bounded.step h.bounded ho⟩

theorem Sim.sees (h : Sim L m r) (hp : m.proc[i]? = some p) : 
    r i = ⟨(m.ctx p).mem .own, (m.ctx p).proc.sz⟩ :=
  h.shows i p hp

theorem trapRet_keeps (h : Sim L m r) (hp : m.proc[i]? = some p) (hrun : p.state = .RUNNABLE) {x : Ctx}
    {os : List Obs} {es : List Event} (hm : Faults L m.stacks (m.others i) (m.ctx p) x)
    (hx : trapRet c m i x = .ok (os, es, m')) (hc : ∀ ev ∈ es, L.Ok (m.others i) ev) : Sim.After L m' r os := by
  unfold trapRet at hx
  split at hx
  · rename_i hk
    simp only at hx
    split at hx
    · cases hx
    rename_i es' m'' hex
    cases hx
    obtain ⟨hI, hS⟩ := h.inv.faults h.shows hp hrun hm fun ev hev => hc ev (List.mem_append_left _ hev)
    have hp' : (m.put i x).proc[i]? = some x.proc :=
      List.getElem?_set_self (List.getElem?_eq_some_iff.1 hp).1
    simp only [Bool.and_eq_true, Option.isNone_iff_eq_none] at hk
    obtain ⟨hI', hS'⟩ := exit_keeps hI hS hp' hk.2 hex
    exact h.silent hI' hS'
  · cases hx
    obtain ⟨hI, hS⟩ := h.inv.faults h.shows hp hrun hm hc
    exact h.silent hI hS

theorem Op.enabled_runnable {op : Op} (h : op.enabled p = true) (ht : ∀ i, op ≠ .tick i) : p.state = .RUNNABLE := by
  cases op <;> simp_all [Op.enabled]

theorem Op.enabled_idle {op : Op} (h : op.enabled p = true) (hr : ∀ i, op ≠ .resume i) : p.fault = none := by
  cases op <;> simp_all [Op.enabled]

theorem sbrk_keeps (h : Sim L m r) (hp : m.proc[i]? = some p) (hrun : p.state = .RUNNABLE) (hf : p.fault = none)
    {n : Int} {ok : Bool} {x : Ctx} (hx : growproc c n (m.ctx p) = .ok (ok, x)) (hc : Clean L (m.others i) x) :
    Sim.After L (m.put i x) r (if ok || n < 0 then [.sbrk i n] else []) := by
  have hri := h.sees hp
  have habove : ∀ u, (m.ctx p).proc.sz ≤ u * PGSIZE → (m.ctx p).mem .own u = none := by
    intro u hu
    have hb := h.bounded i u
    rw [hri] at hb
    exact hb hu
  have hmv : Moves L m.stacks (m.others i) _ (m.ctx p) x := growproc_moves rfl (h.inv.procOk hp).sz habove hx
  obtain ⟨hI, hS⟩ := h.inv.moves h.shows hp hrun hf hmv hc
  rw [← hri] at hS
  split
  · rename_i hn
    rw [if_pos hn] at hS
    exact h.seen rfl hI hS
  · rename_i hn
    rw [if_neg hn, Function.update_eq_self] at hS
    exact h.silent hI hS

theorem exec_keeps (h : Sim L m r) (hp : m.proc[i]? = some p) (hrun : p.state = .RUNNABLE) (hf : p.fault = none)
    {file : Option Image} {argv : List (List UInt8)} {ok : Bool} {x : Ctx}
    (hx : exec c file argv (m.ctx p) = .ok (ok, x)) (hc : Clean L (m.others i) x) :
    Sim.After L (m.put i x) r (if ok then (file.map fun img => Obs.exec i img argv).toList else []) := by
  have hok := h.inv.procOk hp
  obtain ⟨ho, hspec⟩ := exec_spec (L := L) hok.pages rfl hx
  cases ok with
  | true =>
    obtain ⟨img, rfl, hmv⟩ := hspec
    obtain ⟨hI, hS⟩ := h.inv.moves h.shows hp hrun hf hmv hc
    exact h.seen rfl hI hS
  | false =>
    obtain ⟨hI, hS⟩ := h.inv.moves h.shows hp hrun hf (Does.moves hspec ho hok.sz) hc
    rw [← h.sees hp, Function.update_eq_self] at hS
    exact h.silent hI hS

/-- What programs can tell of a step the reference machine shows as well. -/
theorem Sim.stepProc (h : Sim L m r) {op : Op} (hi : op.proc = i) (hp : m.proc[i]? = some p)
    (hen : op.enabled p = true) {os : List Obs} {es : List Event} (hx : Xv6.stepProc c m p op = .ok (os, es, m'))
    (hc : ∀ ev ∈ es, L.Ok (m.others i) ev) : Sim.After L m' r os := by
  have hok := h.inv.procOk hp
  cases op with
  | load j va =>
    obtain rfl : j = i := hi
    have hrun := Op.enabled_runnable hen (by simp)
    have hf := Op.enabled_idle hen (by simp)
    simp only [Xv6.stepProc] at hx
    split at hx
    · rename_i hpm
      cases hx
      exact h.seen (by rw [refStep, if_pos (load_shows h.shows hp hpm)]) h.inv h.shows
    · obtain ⟨x, hx1, hx⟩ := bind_ok hx
      exact trapRet_keeps h hp hrun (trapPgflt_faults hf rfl hx1) hx hc
  | store j va b =>
    obtain rfl : j = i := hi
    have hrun := Op.enabled_runnable hen (by simp)
    have hf := Op.enabled_idle hen (by simp)
    simp only [Xv6.stepProc] at hx
    split at hx
    · rename_i hpm
      cases hx
      obtain ⟨h1, h2⟩ := store_shows h.inv h.shows hp hf hpm
      exact h.seen (by rw [refStep, if_pos h1]) ⟨h.inv.length, h.inv.mem, h.inv.proc⟩ h2
    · obtain ⟨x, hx1, hx⟩ := bind_ok hx
      exact trapRet_keeps h hp hrun (trapPgflt_faults hf rfl hx1) hx hc
  | access j v =>
    obtain rfl : j = i := hi
    have hrun := Op.enabled_runnable hen (by simp)
    have hf := Op.enabled_idle hen (by simp)
    simp only [Xv6.stepProc] at hx
    split at hx
    · rename_i hP
      cases hx
      have ht : Ticks p { p with pgdir := p.pgdir.setPte v { p.pgdir.pte v with A := true } } :=
        ⟨rfl, .setPte _ (fun _ => rfl) (by simp [hP]), fun h => h⟩
      obtain ⟨hI, hS⟩ := h.inv.ticks h.shows hp hf ht (by rw [hrun]; decide)
      exact h.silent hI hS
    · cases hx
      exact h.silent h.inv h.shows
  | resume j =>
    obtain rfl : j = i := hi
    have hrun := Op.enabled_runnable hen (by simp)
    simp only [Xv6.stepProc] at hx
    split at hx
    · cases hx
      exact h.silent h.inv h.shows
    rename_i flt hflt
    obtain ⟨x, hx1, hx⟩ := bind_ok hx
    exact trapRet_keeps h hp hrun (finishPageFault_faults hflt (hok.fault flt hflt) rfl hx1) hx hc
  | sbrk j n =>
    obtain rfl : j = i := hi
    have hrun := Op.enabled_runnable hen (by simp)
    have hf := Op.enabled_idle hen (by simp)
    simp only [Xv6.stepProc] at hx
    obtain ⟨⟨ok, x⟩, hx1, hx'⟩ := bind_ok hx
    clear hx
    cases hx'
    exact sbrk_keeps h hp hrun hf hx1 hc
  | fork j =>
    obtain rfl : j = i := hi
    have hrun := Op.enabled_runnable hen (by simp)
    have hf := Op.enabled_idle hen (by simp)
    simp only [Xv6.stepProc] at hx
    obtain ⟨⟨o, es', m''⟩, hx1, hx'⟩ := bind_ok hx
    clear hx
    cases hx'
    obtain ⟨hI, hS⟩ := fork_keeps h.inv h.shows (h.bounded j) hp hrun hf hx1 hc
    cases o with
    | none => exact h.silent hI hS
    | some k => exact h.seen rfl hI hS
  | exit j =>
    obtain rfl : j = i := hi
    have hf := Op.enabled_idle hen (by simp)
    simp only [Xv6.stepProc] at hx
    obtain ⟨⟨es', m''⟩, hx1, hx'⟩ := bind_ok hx
    clear hx
    cases hx'
    obtain ⟨hI, hS⟩ := exit_keeps h.inv h.shows hp hf hx1
    exact h.silent hI hS
  | wait j =>
    obtain rfl : j = i := hi
    have hrun := Op.enabled_runnable hen (by simp)
    have hf := Op.enabled_idle hen (by simp)
    simp only [Xv6.stepProc] at hx
    obtain ⟨⟨o, es', m''⟩, hx1, hx'⟩ := bind_ok hx
    clear hx
    cases hx'
    obtain ⟨hI, hS⟩ := wait_keeps h.inv h.shows hp hrun hf hx1
    cases o with
    | none => exact h.silent hI hS
    | some k => exact h.seen rfl hI hS
  | exec j file argv =>
    obtain rfl : j = i := hi
    have hrun := Op.enabled_runnable hen (by simp)
    have hf := Op.enabled_idle hen (by simp)
    simp only [Xv6.stepProc] at hx
    obtain ⟨⟨ok, x⟩, hx1, hx'⟩ := bind_ok hx
    clear hx
    cases hx'
    exact exec_keeps h hp hrun hf hx1 hc
  | tick j =>
    obtain rfl : j = i := hi
    have hf := Op.enabled_idle hen (by simp)
    have hst : p.state ≠ .UNUSED := by
      intro hu
      rw [Op.enabled, hu] at hen
      cases hen
    simp only [Xv6.stepProc] at hx
    obtain ⟨p', hx1, hx'⟩ := lift_bind_ok hx
    cases hx'
    obtain ⟨hI, hS⟩ := h.inv.ticks h.shows hp hf (tick_ticks hx1) hst
    exact h.silent hI hS

/-- **One step.** -/
theorem Sim.step (h : Sim L m r) {op : Op} {os : List Obs} {es : List Event} (hx : Xv6.step c m op = .ok (os, es, m'))
    (hc : ∀ ev ∈ es, L.Ok (m.others op.proc) ev) : Sim.After L m' r os := by
  unfold Xv6.step at hx
  split at hx
  · cases hx
    exact h.silent h.inv h.shows
  rename_i p hp
  split at hx
  · rename_i hen
    exact h.stepProc rfl hp hen hx hc
  · cases hx
    exact h.silent h.inv h.shows

/-! ## The start -/

/-- `kmem` before the first process: as `freerange` leaves it, with some frames gone to the kernel. -/
structure Kmem.Ready (c : Cfg) (k : Kmem) : Prop where
  nodup : k.freelist.Nodup
  free : FreeOk c k

/-- The reference machine with `init` in page 0 of the first process. -/
def refBoot (init : List UInt8) : Ref :=
  Function.update (fun _ => ⟨Mem.none, 0⟩) 0
    ⟨Mem.write 0 init (Function.update Mem.none 0 (some zeroPage)), PGSIZE⟩

theorem Kmem.Ready.memInv (L : RefLaw c) {k : Kmem} (h : k.Ready c) (n : Nat) (hn : n ≤ NPROC + 2) :
    MemInv L k [] (List.replicate n .empty) fun _ => false := by
  induction n with
  | zero =>
    have hkf : kernelFrames k [] [] = k.freelist := by simp [kernelFrames]
    refine ⟨Nat.zero_le _, hkf ▸ h.nodup, hkf ▸ h.free, by simp, by simp, by simp, by simp, fun f hf => ?_⟩
    simp [frames, cnt] at hf
  | succ n ih => exact (ih (by omega)).addEmpty (by rw [List.length_replicate]; omega)

theorem setupkvm_same {x x' : Ctx} (h : setupkvm c x = .ok (true, x')) : x'.proc = x.proc ∧ x'.log = x.log := by
  unfold setupkvm at h
  split at h
  · cases h
  · split at h
    · cases h
      exact ⟨rfl, rfl⟩
    · obtain ⟨y, hy, h⟩ := bind_ok h
      cases h

theorem loaduvm_same : ∀ (bs : List UInt8) (va : Nat) (x x' : Ctx), loaduvm c va bs x = .ok x' →
    x'.proc = x.proc ∧ x'.log = x.log
  | [], _, _, _, h => by
    cases h
    exact ⟨rfl, rfl⟩
  | b :: bs, va, x, x', h => by
    rw [loaduvm] at h
    split at h
    · cases h
    · obtain ⟨h1, h2⟩ := loaduvm_same bs _ _ x' h
      exact ⟨h1, h2⟩

theorem allocPage_same {v : Nat} {x x' : Ctx} {b : Mapped} (h : allocPage .other v x = .ok (b, x')) :
    x'.proc = x.proc ∧ x'.log = x.log := by
  rcases allocPage_cases h with ⟨_, rfl⟩ | ⟨_, _, _, ⟨_, rfl⟩ | ⟨_, _, _, _, _, _, rfl⟩⟩ <;> exact ⟨rfl, rfl⟩

/-- The parts of `userinit`. -/
theorem boot_cases {k : Kmem} {data : Nat → PageData} {init : List UInt8} (h : boot c k data init = .ok m) :
    ∃ kstack k' x y z, kalloc k = (some kstack, k') ∧
      setupkvm c ⟨k', data, allocproc c 1 kstack .unused, .empty, []⟩ = .ok (true, x) ∧
      init.length < PGSIZE ∧ allocPage .other 0 x = .ok (.done, y) ∧ loaduvm c 0 init y = .ok z ∧
      m = ⟨z.kmem, z.data, { z.proc with pgdir := z.other, sz := PGSIZE, state := .RUNNABLE } ::
        List.replicate (NPROC - 1) .unused, 2⟩ := by
  unfold boot at h
  split at h
  · cases h
  rename_i kstack k' hk
  obtain ⟨⟨ok, x⟩, hx, h'⟩ := bind_ok h
  clear h
  cases ok with
  | false => cases h'
  | true =>
    simp only [Bool.not_true, Bool.false_eq_true, if_false] at h'
    by_cases hlen : PGSIZE ≤ init.length
    · rw [if_pos hlen] at h'
      cases h'
    rw [if_neg hlen] at h'
    obtain ⟨⟨b, y⟩, hy, h⟩ := bind_ok h'
    clear h'
    cases b with
    | done =>
      obtain ⟨z, hz, h⟩ := bind_ok h
      exact ⟨kstack, k', x, y, z, hk, hx, by omega, hy, hz, (Except.ok.inj h).symm⟩
    | noFrame => cases h
    | noTable mem => cases h

theorem Proc.unused_ok : ProcOk .unused := by
  refine ⟨fun pg hpg => ?_, Nat.zero_le _, fun _ h => (by cases h), fun _ => rfl, fun _ => ⟨rfl, rfl⟩,
    fun _ h => (by cases h)⟩
  rw [(List.mem_replicate.1 hpg).2]
  exact (by decide : (0 : Nat) < KERNBASE)

/-- **The machines agree at the start.** -/
theorem Sim.boot {k : Kmem} {data : Nat → PageData} {init : List UInt8} (hk : k.Ready c)
    (h : Xv6.boot c k data init = .ok m) : Sim L m (refBoot init) := by
  obtain ⟨kstack, k', x, y, z, hka, hx, hlen, hy, hz, rfl⟩ := boot_cases h
  obtain ⟨f, hkf, hfok, hV, _, _, hI⟩ := (hk.memInv L (NPROC - 1 + 2) (by decide)).kalloc hka
  have hm0 : MemOk L [f] (List.replicate (NPROC - 1) .empty) True
      ⟨k', data, allocproc c 1 kstack .unused, .empty, []⟩ := by
    refine ⟨⟨_, hI⟩, fun _ => Ctx.private_empty rfl, allocproc_pages (c := c) 1 kstack .unused⟩
  have h1 : Does L [f] (List.replicate (NPROC - 1) .empty) True _ _ x := (setupkvm_does rfl hx).1
  have h2 : Does L [f] (List.replicate (NPROC - 1) .empty) True _ x y := (allocPage_done (by decide) hy).1
  have h3 : Does L [f] (List.replicate (NPROC - 1) .empty) True _ y z := loaduvm_does trivial
    init 0 y z (by simp only [PGSIZE, KERNBASE] at *; omega) hz
  have hall := (h1.trans h2).trans h3
  obtain ⟨p1, l1⟩ := setupkvm_same hx
  obtain ⟨p2, l2⟩ := allocPage_same hy
  obtain ⟨p3, l3⟩ := loaduvm_same _ _ _ _ hz
  have hproc : z.proc = allocproc c 1 kstack .unused := p3.trans (p2.trans p1)
  have hlog : z.log = [] := l3.trans (l2.trans l1)
  obtain ⟨⟨⟨sw, hI⟩, _, _⟩, hmems, _⟩ := hall.mem (fun ev hev => by rw [hlog] at hev; cases hev) hm0
  have hp0 : z.proc.pgdir = .empty := by rw [hproc]; rfl
  rw [Ctx.tables, hp0] at hI
  have hrep : (List.replicate (NPROC - 1) Proc.unused).map Proc.vtable = List.replicate (NPROC - 1) .empty := by
    rw [List.map_replicate]
    rfl
  have hstk : (List.replicate (NPROC - 1) Proc.unused).filterMap Proc.stackFrame = [] :=
    List.filterMap_eq_nil_iff.2 fun q hq => by rw [(List.mem_replicate.1 hq).2]; rfl
  have hks : ({ z.proc with pgdir := z.other, sz := PGSIZE, state := .RUNNABLE } : Proc).stackFrame = some f := by
    rw [Proc.stackFrame, hproc, ← hV]
    rfl
  have hok : ProcOk { z.proc with pgdir := z.other, sz := PGSIZE, state := .RUNNABLE } := by
    rw [hproc]
    refine ⟨allocproc_pages (c := c) 1 kstack .unused, (by decide : PGSIZE ≤ KERNBASE), fun _ h => (by cases h),
      fun _ => rfl, fun h => (by cases h), fun a ha => ?_⟩
    obtain rfl : kstack = a := Option.some.inj ha
    rw [hkf, V2P_kva hfok, mul_PGSIZE_div]
  have hvt : ({ z.proc with pgdir := z.other, sz := PGSIZE, state := .RUNNABLE } : Proc).vtable = z.other := by
    rw [Proc.vtable_eq (by rw [hproc]; rfl)]
  refine ⟨⟨by simp [NPROC], ⟨sw, ?_⟩, fun q hq => ?_⟩, fun j q hq => ?_, fun j => ?_⟩
  · rw [Machine.stacks, List.map_cons, List.filterMap_cons, hks, hstk, hvt, hrep]
    exact hI.dropEmpty
  · rcases List.mem_cons.1 hq with rfl | hq
    · exact hok
    · rw [(List.mem_replicate.1 hq).2]
      exact Proc.unused_ok
  · have hother : z.mem .other = Mem.write 0 init (Function.update Mem.none 0 (some zeroPage)) :=
      congrArg Prod.snd hmems
    cases j with
    | zero =>
      obtain rfl := Option.some.inj hq
      rw [refBoot, Function.update_self, ← hother]
      rfl
    | succ j =>
      obtain rfl := (List.mem_replicate.1 (List.mem_of_getElem? hq)).2
      rw [refBoot, Function.update_of_ne (by omega)]
      show _ = RefProc.mk (view z.data Pgdir.empty.frame) 0
      rw [view_none Pgdir.frame_empty]
  · rw [refBoot, Function.update_apply]
    split
    · intro u hu
      refine Mem.write_eq_none.2 (Function.update_of_ne ?_ _ _)
      rintro rfl
      simp [PGSIZE] at hu
    · exact fun _ _ => rfl

/-! ## Runs -/

/-- A step as a run records it. -/
structure Label where
  op : Op
  obs : List Obs
  events : List Event

def Trans (c : Cfg) (m : Machine) (l : Label) (m' : Machine) : Prop := Xv6.step c m l.op = .ok (l.obs, l.events, m')

/-- What the step puts on record the law allows. -/
def RefLaw.Allows (L : RefLaw c) (m : Machine) (l : Label) : Prop := ∀ ev ∈ l.events, L.Ok (m.others l.op.proc) ev

/-- **A run.** Programs cannot tell it from a run of the reference machine. -/
theorem Sim.run {ls : List Label} (h : Sim L m r) (hrun : Lts.Run (Lts.On L.Allows (Trans c)) m ls m') :
    ∃ r', RefRun r (ls.flatMap Label.obs) r' ∧ Sim L m' r' :=
  hrun.simulates (fun _ _ _ _ hs ht => hs.step ht.2 ht.1) h

end Xv6
