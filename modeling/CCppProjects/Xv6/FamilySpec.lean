import CCppProjects.Xv6.MachSpec
/-
# `fork` and `wait` on the machine

The two calls that write two slots of `ptable`: `fork` gives the child a table that shows what the
parent's shows, `wait` takes the table of a child that has exited apart.
-/
namespace Xv6

open Share

variable {c : Cfg} {L : RefLaw c} {m m' : Machine} {r : Ref} {i j : Nat} {p q : Proc}

theorem getElem?_findIdx {α : Type} {l : List α} {f : α → Bool} {a : α} (h : l[l.findIdx f]? = some a) :
    f a = true := by
  obtain ⟨hlt, rfl⟩ := List.getElem?_eq_some_iff.1 h
  exact List.findIdx_getElem

/-! ## `fork` -/

theorem allocproc_pages (pid a : Nat) (q : Proc) : (allocproc c pid a q).UserPages := by
  intro pg hpg
  rw [(List.mem_replicate.1 hpg).2]
  exact (by decide : (0 : Nat) < KERNBASE)

/-- A child that is not to be: the slot is unused again. -/
theorem allocproc_undone (h : ProcOk q) (hq : q.state = .UNUSED) (pid a : Nat) :
    ProcOk { allocproc c pid a q with kstack := none, state := .UNUSED } := by
  have hf := h.idle (by rw [hq]; decide)
  refine ⟨fun pg hpg => allocproc_pages (c := c) pid a q pg hpg, h.sz, fun flt hflt => ?_, fun _ => hf,
    fun _ => ⟨(h.unused hq).1, rfl⟩, fun a ha => ?_⟩
  · exact absurd (hf.symm.trans hflt) (by simp)
  · cases ha

/-- The parent after its own part of `fork`. -/
theorem ProcOk.same {p' : Proc} (h : ProcOk p) (hrun : p.state = .RUNNABLE) (hf : p.fault = none) (hu : p'.UserPages)
    (hid : p'.id = p.id) : ProcOk p' ∧ p'.fault = none ∧ p'.sz = p.sz ∧ p'.kstack = p.kstack := by
  simp only [Proc.id, Prod.mk.injEq] at hid
  obtain ⟨_, i2, _, _, i5, i6, i7⟩ := hid
  have hf' : p'.fault = none := i7.trans hf
  refine ⟨⟨hu, i5 ▸ h.sz, fun flt hflt => ?_, fun _ => hf', fun hun => ?_, i6 ▸ h.kstack⟩, hf', i5, i6⟩
  · rw [hf'] at hflt
    cases hflt
  · rw [i2, hrun] at hun
    cases hun

/-- The tables and stacks with those of the processes at `i` and `j` in front. -/
theorem Machine.two (hp : m.proc[i]? = some p) (hq : m.proc[j]? = some q) (hji : j ≠ i) :
    m.stacks.Perm ([p, q].filterMap Proc.stackFrame ++ (m.rest i j).filterMap Proc.stackFrame) ∧
      (m.others i).Perm (q.vtable :: (m.rest i j).map Proc.vtable) := by
  obtain ⟨h1, h2⟩ := Machine.perm_rest hp hq hji
  refine ⟨?_, h1.map _⟩
  rw [← List.filterMap_append]
  exact h2.filterMap _

/-- The child takes its slot: its table and its stack come from the frames at hand. -/
theorem MachInv.addChild (h : MachInv L m) (hp : m.proc[i]? = some p) (hq : m.proc[j]? = some q) (hji : j ≠ i)
    (hqs : q.state = .UNUSED) {x : Ctx} {np : Proc} {ks : List Nat} (hset : m'.proc = (m.proc.set i x.proc).set j np)
    (hk : m'.kmem = x.kmem) (hst : [np].filterMap Proc.stackFrame = ks) (hkp : x.proc.kstack = p.kstack)
    (hok : ProcOk x.proc) (hokn : ProcOk np) (hf : x.proc.fault = none) (hvt : np.vtable = x.other)
    (hm : MemOk L (ks ++ m.stacks) (m.others i) False x) : MachInv L m' := by
  obtain ⟨hs1, hs2⟩ := Machine.two hp hq hji
  obtain ⟨sw, hI⟩ := hm.inv
  have hqok := h.procOk hq
  obtain ⟨hqt, hqk⟩ := hqok.unused hqs
  have hqv : q.vtable = .empty := by rw [Proc.vtable_eq (hqok.idle (by rw [hqs]; decide)), hqt]
  refine h.putTwo hp hq hji hset hok hokn ⟨sw, ?_⟩
  rw [hk, hvt, Proc.vtable_eq hf]
  -- the unused slot's empty table goes
  have hI : MemInv L x.kmem (ks ++ m.stacks) (.empty :: x.proc.pgdir :: x.other ::
    (m.rest i j).map Proc.vtable) sw := by
    refine hI.perm (.refl _) ?_
    rw [Ctx.tables]
    refine ((hs2.cons x.other).cons x.proc.pgdir).trans ?_
    rw [hqv]
    exact (List.Perm.cons x.proc.pgdir (List.Perm.swap ..)).trans (List.Perm.swap ..)
  refine hI.dropEmpty.perm ?_ (.refl _)
  refine (hs1.append_left ks).trans ?_
  have hp' : [x.proc, np].filterMap Proc.stackFrame = [x.proc].filterMap Proc.stackFrame ++ ks := by
    rw [← hst, ← List.filterMap_append]
    rfl
  have hpq : [p, q].filterMap Proc.stackFrame = [x.proc].filterMap Proc.stackFrame := by
    have hq0 : q.stackFrame = none := by rw [Proc.stackFrame, hqk]; rfl
    have hp0 : p.stackFrame = x.proc.stackFrame := by rw [Proc.stackFrame, Proc.stackFrame, hkp]
    simp only [List.filterMap_cons, List.filterMap_nil, hq0, hp0]
  rw [hp', hpq, ← List.append_assoc]
  exact List.perm_append_comm.append_right _

/-- The parts of `fork` once a kernel stack is there. -/
theorem forkInto_cases {kstack : Nat} {np : Proc} {x : Ctx} {o : Option Nat} {es : List Event}
    (h : forkInto c i j kstack np m x = .ok (o, es, m')) :
    ∃ b y, copyuvm c x.proc.sz x = .ok (b, y) ∧
      ((b = true ∧ ∃ np' z, (if c.paging && decide (DEF_PROCS < np.pid) then
          copySwapFile c { np with pgdir := y.other, sz := y.proc.sz, parent := some i } y
        else pure ({ np with pgdir := y.other, sz := y.proc.sz, parent := some i }, y)) = .ok (np', z) ∧
        o = some j ∧ es = z.log ∧ m' = (m.put i z).setProc j { np' with state := .RUNNABLE }) ∨
      (b = false ∧ ∃ k, kfree c kstack y.kmem = .ok k ∧ o = none ∧ es = y.log ∧
        m' = (m.put i (y.setKmem k)).setProc j { np with kstack := none, state := .UNUSED })) := by
  unfold forkInto at h
  obtain ⟨⟨b, y⟩, hy, h⟩ := bind_ok h
  refine ⟨b, y, hy, ?_⟩
  cases b with
  | true =>
    obtain ⟨⟨np', z⟩, hz, h⟩ := bind_ok h
    cases h
    exact .inl ⟨rfl, np', z, hz, rfl, rfl, rfl⟩
  | false =>
    obtain ⟨k, hk, h⟩ := lift_bind_ok h
    cases h
    exact .inr ⟨rfl, k, hk, rfl, rfl, rfl⟩

/-- The child's record and the swap file. -/
theorem childBook {b : Bool} {np np' : Proc} {y z : Ctx} {ks : List Nat} {ts : List Pgdir}
    (h : (if b then copySwapFile c np y else pure (np, y)) = .ok (np', z)) :
    Does L ks ts False id y z ∧ np'.id = np.id ∧ np'.pgdir = np.pgdir ∧
      (np'.pages = y.proc.pages ∨ np'.pages = np.pages) ∧ z.proc = y.proc ∧ z.other = y.other := by
  cases b with
  | true =>
    obtain ⟨h1, h2, h3, h4, h5, h6⟩ := copySwapFile_does (L := L) (d := False) h
    exact ⟨h1, h2, h3, .inl h4, h5, h6⟩
  | false =>
    cases h
    exact ⟨.refl _, rfl, rfl, .inr rfl, rfl, rfl⟩

theorem forkInto_keeps (h : MachInv L m) (hs : Shows m r) (hro : ∀ u, (r i).sz ≤ u * PGSIZE → (r i).mem u = none)
    (hp : m.proc[i]? = some p) (hrun : p.state = .RUNNABLE) (hf : p.fault = none) (hq : m.proc[j]? = some q)
    (hqs : q.state = .UNUSED) {kstack pid : Nat} {k : Kmem} (hk : kalloc m.kmem = (some kstack, k)) {o : Option Nat}
    {es : List Event}
    (hx : forkInto c i j kstack (allocproc c pid kstack q) m ((m.ctx p).setKmem k) = .ok (o, es, m'))
    (hc : ∀ ev ∈ es, L.Ok (m.others i) ev) :
    MachInv L m' ∧ Shows m' (o.elim r fun j => Function.update r j (r i)) := by
  have hji : j ≠ i := by
    rintro rfl
    rw [hp] at hq
    obtain rfl := Option.some.inj hq
    rw [hrun] at hqs
    cases hqs
  have hpok := h.procOk hp
  have hqok := h.procOk hq
  have hctx := h.ctx hp
  rw [Ctx.virtual_eq hf] at hctx
  obtain ⟨⟨sw, hI⟩, _, hu⟩ := hctx
  obtain ⟨f, hkf, hfok, hV, _, _, hI⟩ := hI.kalloc hk
  have hm0 : MemOk L (f :: m.stacks) (m.others i) False ((m.ctx p).setKmem k) := ⟨⟨sw, hI⟩, False.elim, hu⟩
  obtain ⟨b, y, hy, hcase⟩ := forkInto_cases hx
  obtain ⟨hdo, hoy⟩ : Does L (f :: m.stacks) (m.others i) False _ ((m.ctx p).setKmem k) y ∧ _ :=
    copyuvm_does hpok.sz rfl hy
  rcases hcase with ⟨rfl, np', z, hz, rfl, rfl, rfl⟩ | ⟨rfl, k', hk', rfl, rfl, rfl⟩
  · obtain ⟨hbook, hid, hpg, hpages, hzp, hzo⟩ := childBook (L := L) hz
    have hall := hdo.trans hbook
    obtain ⟨hm, hmems, hts⟩ := hall.mem hc hm0
    have hidz : z.proc.id = p.id := hall.same
    obtain ⟨hokz, hfz, hszz, hkz⟩ := hpok.same hrun hf hm.pages hidz
    have hid' := hid
    simp only [Proc.id, Prod.mk.injEq] at hid'
    obtain ⟨_, _, _, _, n5, n6, n7⟩ := hid'
    have hqf : q.fault = none := hqok.idle (by rw [hqs]; decide)
    have hnf : np'.fault = none := n7.trans hqf
    have hnk : np'.kstack = some kstack := n6
    have hnsz : np'.sz = p.sz := by rw [n5, ← hszz, hzp]
    have hokn : ProcOk { np' with state := .RUNNABLE } := by
      refine ⟨?_, hnsz ▸ hpok.sz, fun flt hflt => ?_, fun _ => hnf, fun hu => (by cases hu), fun a ha => ?_⟩
      · rcases hpages with hpages | hpages
        · rw [Proc.UserPages, hpages, ← hzp]
          exact hm.pages
        · rw [Proc.UserPages, hpages]
          exact allocproc_pages (c := c) pid kstack q
      · exact absurd (hnf.symm.trans hflt) (by simp)
      · obtain rfl := Option.some.inj (hnk.symm.trans ha)
        rw [hkf, V2P_kva hfok, mul_PGSIZE_div]
    have hvt : Proc.vtable { np' with state := .RUNNABLE } = z.other := by
      rw [Proc.vtable_eq (p := { np' with state := .RUNNABLE }) hnf, hzo]
      exact hpg
    have hst : [({ np' with state := .RUNNABLE } : Proc)].filterMap Proc.stackFrame = [f] := by
      have : Proc.stackFrame { np' with state := .RUNNABLE } = some f := by
        rw [Proc.stackFrame, show ({ np' with state := .RUNNABLE } : Proc).kstack = some kstack from hnk,
          Option.map_some, hV]
      simp only [List.filterMap_cons, List.filterMap_nil, this]
    have hI' : MachInv L ((m.put i z).setProc j { np' with state := .RUNNABLE }) := h.addChild hp hq hji hqs rfl rfl
      hst hkz hokz hokn hfz hvt hm
    refine ⟨hI', ?_⟩
    have hri := hs i p hp
    have hown : ((m.put i z).setProc j { np' with state := .RUNNABLE }).sees z.proc = r i := by
      rw [hri, Machine.sees, hszz]
      exact congrArg (RefProc.mk · p.sz) (congrArg Prod.fst hmems)
    have hput := hs.putTwo h hji rfl (fun t ht => ?_) hown
    · have hsees : ((m.put i z).setProc j { np' with state := .RUNNABLE }).sees
        { np' with state := .RUNNABLE } = r i := by
        have hmem : z.mem .other = (r i).mem := by
          rw [show z.mem .other = Mem.below p.sz ((m.ctx p).mem .own) from congrArg Prod.snd hmems]
          funext u
          rw [Mem.below, hri]
          split
          · rfl
          · rename_i hu
            have := hro u (by rw [hri]; exact Nat.le_of_not_lt hu)
            rw [hri] at this
            exact this.symm
        rw [Machine.sees, show ({ np' with state := .RUNNABLE } : Proc).sz = p.sz from hnsz,
          show ({ np' with state := .RUNNABLE } : Proc).pgdir = z.other from hpg.trans hzo.symm]
        rw [show (r i) = ⟨(r i).mem, p.sz⟩ by rw [hri]; rfl, ← hmem]
        rfl
      rw [hsees] at hput
      exact hput
    · obtain ⟨_, hs2⟩ := Machine.two hp hq hji
      exact hts t (hs2.mem_iff.2 (List.mem_cons_of_mem _ ht))
  · obtain ⟨hm, hmems, hts⟩ := hdo.mem hc hm0
    obtain ⟨hoky, hfy, hszy, hky⟩ := hpok.same hrun hf hm.pages hdo.same
    obtain ⟨swy, hIy⟩ := hm.inv
    rw [hkf, kfree_kva hIy.kernelOk] at hk'
    obtain rfl := Except.ok.inj hk'
    have hokn := allocproc_undone (c := c) hqok hqs pid kstack
    have hqf : q.fault = none := hqok.idle (by rw [hqs]; decide)
    have hvt : Proc.vtable { allocproc c pid kstack q with kstack := none, state := .UNUSED } = y.other := by
      rw [Proc.vtable_eq (p := { allocproc c pid kstack q with kstack := none, state := .UNUSED }) hqf, hoy rfl]
      exact (hqok.unused hqs).1
    have hI' : MachInv L ((m.put i (y.setKmem (y.kmem.drop f))).setProc j
        { allocproc c pid kstack q with kstack := none, state := .UNUSED }) := h.addChild (x :=
        y.setKmem (y.kmem.drop f)) hp hq
      hji hqs rfl rfl rfl hky hoky hokn hfy hvt ⟨⟨swy, hIy.dropKernel⟩, False.elim, hm.pages⟩
    refine ⟨hI', ?_⟩
    have hown : ((m.put i (y.setKmem (y.kmem.drop f))).setProc j
        { allocproc c pid kstack q with kstack := none, state := .UNUSED }).sees y.proc = r i := by
      rw [hs i p hp, Machine.sees, hszy]
      exact congrArg (RefProc.mk · p.sz) (congrArg Prod.fst hmems)
    have hput := hs.putTwo h hji rfl (fun t ht => ?_) hown
    · -- the slot shows nothing, as before
      have hsees : ((m.put i (y.setKmem (y.kmem.drop f))).setProc j
          { allocproc c pid kstack q with kstack := none, state := .UNUSED }).sees
            { allocproc c pid kstack q with kstack := none, state := .UNUSED } = r j := by
        rw [hs j q hq, Machine.sees, Machine.sees]
        show RefProc.mk (view y.data q.pgdir.frame) q.sz = _
        rw [(hqok.unused hqs).1, view_none Pgdir.frame_empty, view_none Pgdir.frame_empty]
      rw [hsees, Function.update_eq_self] at hput
      exact hput
    · obtain ⟨_, hs2⟩ := Machine.two hp hq hji
      exact hts t (hs2.mem_iff.2 (List.mem_cons_of_mem _ ht))

/-- **`fork`** gives the child what the parent has. -/
theorem fork_keeps (h : MachInv L m) (hs : Shows m r) (hro : ∀ u, (r i).sz ≤ u * PGSIZE → (r i).mem u = none)
    (hp : m.proc[i]? = some p) (hrun : p.state = .RUNNABLE) (hf : p.fault = none) {o : Option Nat} {es : List Event}
    (hx : fork c i p m = .ok (o, es, m')) (hc : ∀ ev ∈ es, L.Ok (m.others i) ev) :
    MachInv L m' ∧ Shows m' (o.elim r fun j => Function.update r j (r i)) := by
  simp only [fork] at hx
  split at hx
  · cases hx
    exact ⟨h, hs⟩
  rename_i q hq
  have hqs : q.state = .UNUSED := by simpa using getElem?_findIdx hq
  have hI : MachInv L { m with nextpid := m.nextpid + 1 } := ⟨h.length, h.mem, h.proc⟩
  have hS : Shows { m with nextpid := m.nextpid + 1 } r := hs
  split at hx
  · cases hx
    obtain ⟨h1, h2, h3, h4, h5, h6⟩ := h.procOk hq
    exact hI.keep hS hq ⟨h1, h2, h3, h4, h5, h6⟩ rfl (.refl _) rfl
  · rename_i kstack k hk
    exact forkInto_keeps hI hS hro hp hrun hf hq hqs hk hx hc

/-! ## `wait` -/

/-- The parts of `wait` when a child has exited. -/
theorem wait_cases {o : Option Nat} {es : List Event} (h : wait c i p m = .ok (o, es, m')) :
    (o = none ∧ es = [] ∧ m' = m) ∨ ∃ j q a k x, m.proc[j]? = some q ∧ q.parent = some i ∧ q.state = .ZOMBIE ∧
      q.kstack = some a ∧ kfree c a m.kmem = .ok k ∧
      freevm c (((m.ctx p).setTbl .other q.pgdir).setKmem k) = .ok x ∧ o = some j ∧ es = x.log ∧
      m' = (m.put i x).setProc j q.reaped := by
  simp only [wait] at h
  split at h
  · cases h
    exact .inl ⟨rfl, rfl, rfl⟩
  rename_i q hq
  have hz := getElem?_findIdx hq
  rw [Bool.and_eq_true, beq_iff_eq, beq_iff_eq] at hz
  obtain ⟨k, hk, h⟩ := lift_bind_ok h
  obtain ⟨x, hx, h⟩ := bind_ok h
  cases h
  cases ha : q.kstack with
  | none =>
    rw [ha] at hk
    cases hk
  | some a =>
    rw [ha] at hk
    exact .inr ⟨_, q, a, k, x, hq, hz.1, hz.2, ha, hk, hx, rfl, rfl, rfl⟩

/-- **`wait`** takes the child's memory away and nobody else's. -/
theorem wait_keeps (h : MachInv L m) (hs : Shows m r) (hp : m.proc[i]? = some p) (hrun : p.state = .RUNNABLE)
    (hf : p.fault = none) {o : Option Nat} {es : List Event} (hx : wait c i p m = .ok (o, es, m')) :
    MachInv L m' ∧ Shows m' (o.elim r fun j => Function.update r j { r j with mem := Mem.none }) := by
  rcases wait_cases hx with ⟨rfl, _, rfl⟩ | ⟨j, q, a, k, x, hq, _, hz, ha, hk, hfree, rfl, rfl, rfl⟩
  · exact ⟨h, hs⟩
  have hji : j ≠ i := by
    rintro rfl
    rw [hp] at hq
    obtain rfl := Option.some.inj hq
    rw [hrun] at hz
    cases hz
  have hpok := h.procOk hp
  have hqok := h.procOk hq
  have hqf : q.fault = none := hqok.idle (by rw [hz]; decide)
  obtain ⟨hs1, hs2⟩ := Machine.two hp hq hji
  obtain ⟨sw, hI⟩ := (h.ctx hp).inv
  rw [Ctx.virtual_eq hf] at hI
  -- the child's stack and table come to the front
  have hqs : q.stackFrame = some (V2P a / PGSIZE) := by rw [Proc.stackFrame, ha]; rfl
  have hI : MemInv L m.kmem (V2P a / PGSIZE :: ([p].filterMap Proc.stackFrame ++
      (m.rest i j).filterMap Proc.stackFrame)) (p.pgdir :: q.pgdir :: (m.rest i j).map Proc.vtable) sw := by
    refine (hI.swap.dropEmpty).perm (hs1.trans ?_) ?_
    · have : [p, q].filterMap Proc.stackFrame = [p].filterMap Proc.stackFrame ++ [V2P a / PGSIZE] := by
        rw [← List.singleton_append (l := [q]), List.filterMap_append]
        congr 1
        simp only [List.filterMap_cons, List.filterMap_nil, hqs]
      rw [this, ← List.cons_append]
      exact (List.perm_append_comm).append_right _
    · rw [← Proc.vtable_eq hqf]
      exact hs2.cons p.pgdir
  rw [hqok.kstack a ha, kfree_kva hI.kernelOk] at hk
  obtain rfl := Except.ok.inj hk
  have hm0 : MemOk L ([p].filterMap Proc.stackFrame ++ (m.rest i j).filterMap Proc.stackFrame)
      ((m.rest i j).map Proc.vtable) False
      (((m.ctx p).setTbl .other q.pgdir).setKmem (m.kmem.drop (V2P a / PGSIZE))) :=
    ⟨⟨sw, hI.dropKernel⟩, False.elim, hpok.pages⟩
  obtain ⟨hdo, hother⟩ := freevm_does (L := L)
    (d := False) hfree
  obtain ⟨hm, hmems, hts⟩ := hdo.mem (fun ev hev => by rw [freevm_log hfree] at hev; cases hev) hm0
  obtain ⟨hokx, hfx, hszx, hkx⟩ := hpok.same hrun hf hm.pages hdo.same
  have hokn : ProcOk q.reaped :=
    ⟨hqok.pages, hqok.sz, fun flt hflt => absurd (hqf.symm.trans hflt) (by simp), fun _ => hqf,
      fun _ => ⟨rfl, rfl⟩, fun a ha => by cases ha⟩
  have hmem : ∃ sw, MemInv L x.kmem ([x.proc, q.reaped].filterMap Proc.stackFrame ++
      (m.rest i j).filterMap Proc.stackFrame) (x.proc.vtable :: q.reaped.vtable ::
      (m.rest i j).map Proc.vtable) sw := by
    obtain ⟨sw', hI'⟩ := hm.inv
    refine ⟨sw', ?_⟩
    rw [Ctx.tables, hother] at hI'
    rw [Proc.vtable_eq hfx, Proc.vtable_eq (p := q.reaped) hqf]
    have hp0 : p.stackFrame = x.proc.stackFrame := by rw [Proc.stackFrame, Proc.stackFrame, hkx]
    have hstk : [x.proc, q.reaped].filterMap Proc.stackFrame = [p].filterMap Proc.stackFrame := by
      simp only [List.filterMap_cons, List.filterMap_nil, hp0, show q.reaped.stackFrame = none from rfl]
    rw [hstk]
    exact hI'
  have hown : ((m.put i x).setProc j q.reaped).sees x.proc = r i := by
    rw [hs i p hp, Machine.sees, hszx]
    exact congrArg (RefProc.mk · p.sz) (congrArg Prod.fst hmems)
  refine ⟨h.putTwo hp hq hji rfl hokx hokn hmem, ?_⟩
  have hput := hs.putTwo h hji rfl hts hown
  have hsees : ((m.put i x).setProc j q.reaped).sees q.reaped = { r j with mem := Mem.none } := by
    have hsz : (r j).sz = q.sz := by rw [hs j q hq]; rfl
    show RefProc.mk (view x.data Pgdir.empty.frame) q.sz = RefProc.mk Mem.none (r j).sz
    rw [hsz, view_none Pgdir.frame_empty]
  rw [hsees] at hput
  exact hput

end Xv6
