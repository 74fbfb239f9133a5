import CCppProjects.Xv6.ExecSpec
import CCppProjects.Xv6.FaultSpec
import CCppProjects.Xv6.ForkSpec
/-
# The machine simulates the reference machine

`MachInv` is `MemInv` with the tables and kernel stacks of all processes, where a page a process is
about to make writeable counts as writeable; `Shows m r` says that every process sees in `m` what
it has in `r`. A step of the machine that leaves nothing on record against the law keeps both, with
the reference machine taking the step's observation.
-/
namespace Xv6

open Share

variable {c : Cfg} {L : RefLaw c} {m m' : Machine} {r : Ref} {i : Nat} {p p' : Proc}

/-! ## The invariant -/

/-- The frame of the kernel stack. -/
def Proc.stackFrame (p : Proc) : Option Nat := p.kstack.map fun a => V2P a / PGSIZE

def Machine.stacks (m : Machine) : List Nat := m.proc.filterMap Proc.stackFrame

/-- The tables of all processes but `i`. -/
def Machine.others (m : Machine) (i : Nat) : List Pgdir := (m.proc.eraseIdx i).map Proc.vtable

structure ProcOk (p : Proc) : Prop where
  pages : p.UserPages
  sz : p.sz ≤ KERNBASE
  fault : ∀ flt, p.fault = some flt → flt.Ok p.pgdir
  idle : p.state ≠ .RUNNABLE → p.fault = none
  unused : p.state = .UNUSED → p.pgdir = .empty ∧ p.kstack = none
  kstack : ∀ a, p.kstack = some a → a = kva (V2P a / PGSIZE)

structure MachInv (L : RefLaw c) (m : Machine) : Prop where
  length : m.proc.length = NPROC
  mem : ∃ sw, MemInv L m.kmem m.stacks (m.proc.map Proc.vtable) sw
  proc : ∀ p ∈ m.proc, ProcOk p

/-- What the program of `p` sees. -/
def Machine.sees (m : Machine) (p : Proc) : RefProc := ⟨view m.data p.pgdir.frame, p.sz⟩

def Shows (m : Machine) (r : Ref) : Prop := ∀ i p, m.proc[i]? = some p → r i = m.sees p

theorem ProcOk.vtable_frame (h : ProcOk p) : p.vtable.frame = p.pgdir.frame := by
  unfold Proc.vtable
  split
  · rename_i flt hflt
    have hok := h.fault flt hflt
    split
    · exact Pgdir.grantW_frame _ (lt_USERPAGES_of_lt hok.va) hok.P
    · rfl
  · rfl

theorem Proc.vtable_eq (h : p.fault = none) : p.vtable = p.pgdir := by
  rw [Proc.vtable, h]

/-- The process a call is made by, at the front. -/
theorem perm_set {α : Type} {l : List α} {i : Nat} {a : α} (h : l[i]? = some a) (b : α) :
    (l.set i b).Perm (b :: l.eraseIdx i) :=
  List.set_perm_cons_eraseIdx (List.getElem?_eq_some_iff.1 h).1 b

theorem perm_self {α : Type} {l : List α} {i : Nat} {a : α} (h : l[i]? = some a) : l.Perm (a :: l.eraseIdx i) := by
  obtain ⟨hi, rfl⟩ := List.getElem?_eq_some_iff.1 h
  exact (List.getElem_cons_eraseIdx_perm hi).symm

theorem MachInv.procOk (h : MachInv L m) (hp : m.proc[i]? = some p) : ProcOk p := h.proc p (List.mem_of_getElem? hp)

/-- A call starts with `MemInv`, the process's own table in front. -/
theorem MachInv.ctx (h : MachInv L m) (hp : m.proc[i]? = some p) :
    MemOk L m.stacks (m.others i) True (m.ctx p).virtual := by
  obtain ⟨sw, hI⟩ := h.mem
  have hperm : (m.proc.map Proc.vtable).Perm (p.vtable :: m.others i) := (perm_self hp).map _
  refine ⟨⟨sw, ?_⟩, fun _ => Ctx.private_empty rfl, (h.procOk hp).pages⟩
  have hlen : (m.proc.map Proc.vtable).length < NPROC + 2 := by
    rw [List.length_map, h.length]
    omega
  exact ((hI.addEmpty hlen).perm (.refl _) (hperm.cons _)).swap

/-- The machine after a call of process `i`. -/
theorem MachInv.put (h : MachInv L m) (hp : m.proc[i]? = some p) (hset : m'.proc = m.proc.set i p')
    (hk : p'.kstack = p.kstack) (hok : ProcOk p')
    (hI : ∃ sw, MemInv L m'.kmem m.stacks (p'.vtable :: .empty :: m.others i) sw) : MachInv L m' := by
  obtain ⟨sw, hI⟩ := hI
  have hperm := perm_set hp p'
  refine ⟨by rw [hset, List.length_set, h.length], ⟨sw, ?_⟩, fun q hq => ?_⟩
  · have hstk : m'.stacks.Perm m.stacks := by
      rw [Machine.stacks, Machine.stacks, hset]
      refine (hperm.filterMap _).trans (((perm_self hp).filterMap _).trans ?_).symm
      rw [List.filterMap_cons, List.filterMap_cons, Proc.stackFrame, Proc.stackFrame, hk]
    rw [hset]
    exact (hI.swap.dropEmpty).perm hstk.symm (hperm.map Proc.vtable).symm
  · rw [hset] at hq
    rcases List.mem_or_eq_of_mem_set hq with hq | rfl
    · exact h.proc q hq
    · exact hok

/-- What the other processes see has not changed. -/
theorem Shows.put (h : Shows m r) (hI : MachInv L m) (hset : m'.proc = m.proc.set i p')
    (hts : ∀ t ∈ m.others i, view m'.data t.frame = view m.data t.frame) :
    Shows m' (Function.update r i (m'.sees p')) := by
  intro j q hq
  rw [hset, List.getElem?_set] at hq
  by_cases hij : i = j
  · subst hij
    rw [if_pos rfl] at hq
    split at hq
    · obtain rfl := Option.some.inj hq
      exact Function.update_self ..
    · cases hq
  · rw [if_neg hij] at hq
    rw [Function.update_apply, if_neg (Ne.symm hij), h j q hq, Machine.sees, Machine.sees]
    have hmem : q.vtable ∈ m.others i :=
      List.mem_map_of_mem (List.mem_eraseIdx_iff_getElem?.2 ⟨j, Ne.symm hij, hq⟩)
    rw [← (hI.procOk hq).vtable_frame, hts _ hmem]

/-! ## Calls that stay within one process -/

theorem MachInv.moves (h : MachInv L m) (hs : Shows m r) (hp : m.proc[i]? = some p) (hrun : p.state = .RUNNABLE)
    (hf : p.fault = none) {x : Ctx} {q : RefProc} (hm : Moves L m.stacks (m.others i) q (m.ctx p) x)
    (hc : Clean L (m.others i) x) : MachInv L (m.put i x) ∧ Shows (m.put i x) (Function.update r i q) := by
  have hctx := h.ctx hp
  rw [Ctx.virtual_eq hf] at hctx
  obtain ⟨⟨hI, _, hu⟩, hown, hts⟩ := hm.mem hc hctx
  have hid := hm.same
  simp only [Proc.id, Prod.mk.injEq] at hid
  obtain ⟨_, i2, _, _, i5, i6, i7⟩ := hid
  have hok := h.procOk hp
  have hf' : x.proc.fault = none := i7.trans hf
  refine ⟨h.put hp rfl i6 ⟨hu, i5 ▸ hm.le, ?_, fun _ => hf', fun hun => ?_, ?_⟩ ?_, ?_⟩
  · intro flt hflt
    rw [hf'] at hflt
    cases hflt
  · rw [i2, show (m.ctx p).proc.state = p.state from rfl, hrun] at hun
    cases hun
  · rw [i6]
    exact hok.kstack
  · rw [Proc.vtable_eq hf']
    rw [Ctx.tables, hm.other] at hI
    exact hI
  · have : Shows (m.put i x) (Function.update r i ((m.put i x).sees x.proc)) := hs.put h rfl hts
    have hsees : (m.put i x).sees x.proc = q := by
      rw [Machine.sees, i5]
      exact congrArg (RefProc.mk · q.sz) hown
    rwa [hsees] at this

theorem MachInv.faults (h : MachInv L m) (hs : Shows m r) (hp : m.proc[i]? = some p) (hrun : p.state = .RUNNABLE)
    {x : Ctx} (hm : Faults L m.stacks (m.others i) (m.ctx p) x) (hc : Clean L (m.others i) x) :
    MachInv L (m.put i x) ∧ Shows (m.put i x) r := by
  obtain ⟨⟨hI, _, hu⟩, hflt, hown, hts⟩ := hm.mem hc (h.ctx hp)
  have hid := hm.fixed
  simp only [Proc.fixed, Prod.mk.injEq] at hid
  obtain ⟨_, i2, _, i4, i5⟩ := hid
  have hok := h.procOk hp
  refine ⟨h.put hp rfl i5 ⟨hu, i4 ▸ hok.sz, hflt, fun hn => ?_, fun hun => ?_, ?_⟩ ?_, ?_⟩
  · exact absurd (i2.trans hrun) hn
  · rw [i2, show (m.ctx p).proc.state = p.state from rfl, hrun] at hun
    cases hun
  · rw [i5]
    exact hok.kstack
  · rw [Ctx.tables, show x.virtual.other = x.other from rfl, hm.other] at hI
    exact hI
  · have : Shows (m.put i x) (Function.update r i ((m.put i x).sees x.proc)) := hs.put h rfl hts
    have hsees : (m.put i x).sees x.proc = r i := by
      rw [Machine.sees, i4, hs i p hp]
      exact congrArg (RefProc.mk · p.sz) hown
    rwa [hsees, Function.update_eq_self] at this

/-- Only parents change. -/
theorem MachInv.reparent (h : MachInv L m) (g : Proc → Option Nat) :
    MachInv L { m with proc := m.proc.map fun q => { q with parent := g q } } := by
  refine ⟨by rw [List.length_map, h.length], ?_, fun q hq => ?_⟩
  · obtain ⟨sw, hI⟩ := h.mem
    refine ⟨sw, ?_⟩
    rw [Machine.stacks, List.filterMap_map, List.map_map]
    exact hI
  · obtain ⟨q', hq', rfl⟩ := List.mem_map.1 hq
    obtain ⟨h1, h2, h3, h4, h5, h6⟩ := h.proc q' hq'
    exact ⟨h1, h2, h3, h4, h5, h6⟩

theorem Shows.reparent (h : Shows m r) (g : Proc → Option Nat) :
    Shows { m with proc := m.proc.map fun q => { q with parent := g q } } r := by
  intro j q hq
  rw [List.getElem?_map, Option.map_eq_some_iff] at hq
  obtain ⟨q, hq, rfl⟩ := hq
  exact h j q hq

/-- A process whose memory and kernel stack stay what they are. -/
theorem MachInv.keep (h : MachInv L m) (hs : Shows m r) (hp : m.proc[i]? = some p) (hok : ProcOk p')
    (hk : p'.kstack = p.kstack) (hv : p.vtable.Walked p'.vtable) (hsz : p'.sz = p.sz) :
    MachInv L (m.setProc i p') ∧ Shows (m.setProc i p') r := by
  refine ⟨h.put hp rfl hk hok ?_, ?_⟩
  · obtain ⟨sw, hI⟩ := (h.ctx hp).inv
    exact ⟨sw, hI.walked hv⟩
  · have : Shows (m.setProc i p') (Function.update r i ((m.setProc i p').sees p')) := hs.put h rfl fun _ _ => rfl
    have hsees : (m.setProc i p').sees p' = r i := by
      rw [hs i p hp, Machine.sees, Machine.sees, hsz, ← hok.vtable_frame, hv.frame, (h.procOk hp).vtable_frame]
      rfl
    rwa [hsees, Function.update_eq_self] at this

/-! ## `exit` and the scheduler's hooks -/

theorem exit_keeps {es : List Event} (h : MachInv L m) (hs : Shows m r) (hp : m.proc[i]? = some p)
    (hf : p.fault = none) (hx : exit c i p m = .ok (es, m')) : MachInv L m' ∧ Shows m' r := by
  unfold exit at hx
  split at hx
  · cases hx
  cases hx
  have hmap : (m.proc.map fun q => if q.parent = some i then { q with parent := some 0 } else q) =
      m.proc.map fun q => { q with parent := if q.parent = some i then some 0 else q.parent } := by
    refine List.map_congr_left fun q _ => ?_
    split <;> rfl
  rw [hmap]
  have hI := h.reparent fun q => if q.parent = some i then some 0 else q.parent
  have hS := hs.reparent fun q => if q.parent = some i then some 0 else q.parent
  have hp' : (m.proc.map fun q => { q with parent := if q.parent = some i then some 0 else q.parent })[i]? =
      some { p with parent := if p.parent = some i then some 0 else p.parent } := by
    rw [List.getElem?_map, hp]
    rfl
  obtain ⟨h1, h2, _, _, _, h6⟩ := h.procOk hp
  have hv : ∀ q : Proc, q.fault = p.fault → q.pgdir = p.pgdir → q.vtable = p.pgdir :=
    fun q h1 h2 => by rw [Proc.vtable_eq (h1.trans hf), h2]
  refine hI.keep hS hp' ⟨h1, h2, fun flt hflt => ?_, fun _ => hf, fun hz => (by cases hz), h6⟩ rfl ?_ rfl
  · exact absurd (hf.symm.trans hflt) (by simp)
  · rw [hv { p with parent := if p.parent = some i then some 0 else p.parent } rfl rfl, hv]
    · exact .refl _
    · rfl
    · rfl

/-- What the scheduler's hook does: ages, the queue and `PTE_A`. -/
structure Ticks (p p' : Proc) : Prop where
  id : p'.id = p.id
  walked : p.pgdir.Walked p'.pgdir
  pages : p.UserPages → p'.UserPages

theorem Ticks.refl (p : Proc) : Ticks p p := ⟨rfl, .refl _, fun h => h⟩

theorem Ticks.trans {q : Proc} (h : Ticks p p') (h' : Ticks p' q) : Ticks p q :=
  ⟨h'.id.trans h.id, h.walked.trans h'.walked, fun hu => h'.pages (h.pages hu)⟩

theorem agingLoop_ticks : ∀ (n i : Nat) (p p' : Proc), agingLoop c n i p = .ok p' → Ticks p p'
  | 0, i, p, p', h => by cases h; exact .refl p
  | n + 1, i, p, p', h => by
    simp only [agingLoop] at h
    split at h
    · split at h
      · cases h
      rename_i e he
      have ih := agingLoop_ticks n (i + 1) _ p' h
      refine Ticks.trans ?_ ih
      refine ⟨rfl, ?_, fun hu => ?_⟩
      · show p.pgdir.Walked (if e.A then _ else _)
        split
        · exact .setPte _ (fun hv => (walkpgdir_user hv he).1) (by simp)
        · exact .refl _
      · refine hu.set rfl ?_
        show (p.pages.getD i default).vAddress < KERNBASE
        rw [List.getD_eq_getElem?_getD]
        cases hpg : p.pages[i]? with
        | none => exact (by decide : (0 : Nat) < KERNBASE)
        | some pg => exact hu pg (List.mem_of_getElem? hpg)
    · exact agingLoop_ticks n (i + 1) p p' h

theorem advanceBody_ticks {k : Int} (h : advanceBody c k p = .ok p') : Ticks p p' := by
  unfold advanceBody at h
  obtain ⟨cur, _, h⟩ := bind_ok h
  split at h
  · cases h
    exact .refl _
  obtain ⟨prev, _, h⟩ := bind_ok h
  obtain ⟨pgCur, _, h⟩ := bind_ok h
  obtain ⟨pgPre, _, h⟩ := bind_ok h
  split at h
  · split at h
    · cases h
      exact ⟨rfl, .refl _, fun h => h⟩
    · cases h
      exact .refl _
  · cases h

theorem advanceLoop_ticks : ∀ (n : Nat) (k : Int) (p p' : Proc), advanceLoop c n k p = .ok p' → Ticks p p'
  | 0, _, p, p', h => by cases h; exact .refl p
  | n + 1, k, p, p', h => by
    rw [advanceLoop] at h
    split at h
    · obtain ⟨q, hq, h⟩ := bind_ok h
      exact (advanceBody_ticks hq).trans (advanceLoop_ticks n (k - 1) q p' h)
    · cases h
      exact .refl p

theorem tick_ticks (h : tick c p = .ok p') : Ticks p p' := by
  unfold tick at h
  split at h
  · exact agingLoop_ticks _ _ _ _ h
  · exact agingLoop_ticks _ _ _ _ h
  · exact advanceLoop_ticks _ _ _ _ h
  · cases h; exact .refl p
  · cases h; exact .refl p

/-- Bookkeeping of a process that is not in the middle of a fault. -/
theorem MachInv.ticks (h : MachInv L m) (hs : Shows m r) (hp : m.proc[i]? = some p) (hf : p.fault = none)
    (ht : Ticks p p') (hst : p.state ≠ .UNUSED) : MachInv L (m.setProc i p') ∧ Shows (m.setProc i p') r := by
  have hid := ht.id
  simp only [Proc.id, Prod.mk.injEq] at hid
  obtain ⟨_, i2, _, _, i5, i6, i7⟩ := hid
  obtain ⟨h1, h2, _, _, _, h6⟩ := h.procOk hp
  have hf' : p'.fault = none := i7.trans hf
  refine h.keep hs hp ⟨ht.pages h1, i5 ▸ h2, fun flt hflt => ?_, fun _ => hf', fun hun => ?_, i6 ▸ h6⟩ i6 ?_ i5
  · rw [hf'] at hflt
    cases hflt
  · exact absurd (i2.symm.trans hun) hst
  · rw [Proc.vtable_eq hf, Proc.vtable_eq hf']
    exact ht.walked

/-! ## Loads and stores -/

theorem permits_user {t : Pgdir} {va : Nat} {w : Bool} (h : permits t va w = true) :
    va / PGSIZE < USERPAGES ∧ (t.pte (va / PGSIZE)).P = true ∧ (w = true → (t.pte (va / PGSIZE)).W = true) := by
  simp only [permits, Bool.and_eq_true, decide_eq_true_eq, Bool.or_eq_true, Bool.not_eq_true'] at h
  obtain ⟨⟨⟨⟨hva, _⟩, hP⟩, _⟩, hW⟩ := h
  refine ⟨lt_USERPAGES_of_lt hva, hP, fun hw => ?_⟩
  rcases hW with hW | hW
  · rw [hw] at hW
    cases hW
  · exact hW

theorem load_shows (hs : Shows m r) (hp : m.proc[i]? = some p) {va : Nat} (h : permits p.pgdir va false = true) :
    (r i).mem.byte va = some (byteAt p.pgdir m.data va) := by
  obtain ⟨hv, hP, _⟩ := permits_user h
  rw [hs i p hp]
  show ((p.pgdir.frame (va / PGSIZE)).map m.data).map _ = _
  rw [Pgdir.frame_of hv hP]
  rfl

theorem set_self {α : Type} {l : List α} {i : Nat} {a : α} (h : l[i]? = some a) : l = l.set i a := by
  obtain ⟨hi, rfl⟩ := List.getElem?_eq_some_iff.1 h
  exact (List.set_getElem_self hi).symm

theorem store_shows (h : MachInv L m) (hs : Shows m r) (hp : m.proc[i]? = some p) (hf : p.fault = none) {va : Nat}
    {b : UInt8} (hw : permits p.pgdir va true = true) :
    ((r i).mem (va / PGSIZE)).isSome = true ∧
      Shows { m with data := setByte m.data (p.pgdir.pte (va / PGSIZE)).addr va b }
        (Function.update r i { r i with mem := (r i).mem.set va b }) := by
  obtain ⟨hv, hP, hW⟩ := permits_user hw
  have hfr := Pgdir.frame_of hv hP
  have hri := hs i p hp
  obtain ⟨sw, hI⟩ := (h.ctx hp).inv
  rw [Ctx.virtual_eq hf] at hI
  have hI : MemInv L m.kmem m.stacks (p.pgdir :: .empty :: m.others i) sw := hI
  have hsome : ((r i).mem (va / PGSIZE)).isSome = true := by
    rw [hri]
    show ((p.pgdir.frame (va / PGSIZE)).map m.data).isSome = true
    rw [hfr]
    rfl
  refine ⟨hsome, ?_⟩
  have hput : Shows { m with data := setByte m.data (p.pgdir.pte (va / PGSIZE)).addr va b } _ := hs.put h
    (set_self hp) fun t ht => view_update_of_not_maps (fun hmap => ?_) _ _
  · have hsees : Machine.sees { m with data := setByte m.data (p.pgdir.pte (va / PGSIZE)).addr va b } p =
        { r i with mem := (r i).mem.set va b } := by
      rw [hri, Machine.sees, Machine.sees, view_setByte (hI.inj _ (List.mem_cons_self ..)) hfr]
    rwa [hsees] at hput
  · -- the page is writeable, so nobody else has its frame
    have hone := hI.excl _ (List.mem_cons_self ..) _ _ hfr (hW rfl)
    have hself : Maps p.pgdir.frame (p.pgdir.pte (va / PGSIZE)).addr := ⟨_, hfr⟩
    rw [frames_cons, cnt_cons, if_pos hself] at hone
    have := cnt_frames_pos (List.mem_cons_of_mem Pgdir.empty ht) hmap
    omega

/-! ## Two processes at once -/

/-- The place of `j` once the element at `i` is gone. -/
def skip (i j : Nat) : Nat := if j < i then j else j - 1

theorem getElem?_skip {α : Type} {l : List α} {i j : Nat} (hij : j ≠ i) : (l.eraseIdx i)[skip i j]? = l[j]? := by
  rw [skip, List.getElem?_eraseIdx]
  split
  · rfl
  · rw [if_neg (by omega), show j - 1 + 1 = j by omega]

/-- The processes but `i` and `j`. -/
def Machine.rest (m : Machine) (i j : Nat) : List Proc := (m.proc.eraseIdx i).eraseIdx (skip i j)

theorem Machine.mem_rest {j k : Nat} {q : Proc} (hki : k ≠ i) (hkj : k ≠ j) (hji : j ≠ i) (hq : m.proc[k]? = some q) :
    q ∈ m.rest i j := by
  refine List.mem_eraseIdx_iff_getElem?.2 ⟨skip i k, ?_, by rw [getElem?_skip hki, hq]⟩
  simp only [skip]
  split <;> split <;> omega

theorem Machine.rest_sub {j : Nat} {q : Proc} (h : q ∈ m.rest i j) : q ∈ m.proc :=
  List.mem_of_mem_eraseIdx (List.mem_of_mem_eraseIdx h)

theorem Machine.perm_rest {j : Nat} {q : Proc} (hp : m.proc[i]? = some p) (hq : m.proc[j]? = some q) (hji : j ≠ i) :
    (m.proc.eraseIdx i).Perm (q :: m.rest i j) ∧ m.proc.Perm (p :: q :: m.rest i j) := by
  have h1 : (m.proc.eraseIdx i).Perm (q :: m.rest i j) := perm_self (by rw [getElem?_skip hji, hq])
  exact ⟨h1, (perm_self hp).trans (h1.cons p)⟩

theorem Machine.perm_set_rest {j : Nat} {q np : Proc} (hp : m.proc[i]? = some p) (hq : m.proc[j]? = some q)
    (hji : j ≠ i) : ((m.proc.set i p').set j np).Perm (p' :: np :: m.rest i j) := by
  have hq' : (m.proc.set i p')[j]? = some q := by rw [List.getElem?_set_ne (Ne.symm hji), hq]
  have h1 : (q :: (m.proc.set i p').eraseIdx j).Perm (q :: p' :: m.rest i j) :=
    (perm_self hq').symm.trans
      ((perm_set hp p').trans (((Machine.perm_rest hp hq hji).1.cons p').trans (List.Perm.swap ..)))
  exact (perm_set hq' np).trans ((h1.cons_inv.cons np).trans (List.Perm.swap ..))

/-- The machine after a call of process `i` that also writes slot `j`. -/
theorem MachInv.putTwo (h : MachInv L m) {j : Nat} {q np : Proc} (hp : m.proc[i]? = some p)
    (hq : m.proc[j]? = some q) (hji : j ≠ i) (hset : m'.proc = (m.proc.set i p').set j np) (hok : ProcOk p')
    (hokn : ProcOk np) (hI : ∃ sw, MemInv L m'.kmem ([p', np].filterMap Proc.stackFrame ++
      (m.rest i j).filterMap Proc.stackFrame) (p'.vtable :: np.vtable :: (m.rest i j).map Proc.vtable) sw) :
    MachInv L m' := by
  obtain ⟨sw, hI⟩ := hI
  have hperm : m'.proc.Perm (p' :: np :: m.rest i j) := hset ▸ Machine.perm_set_rest hp hq hji
  refine ⟨by rw [hset, List.length_set, List.length_set, h.length], ⟨sw, hI.perm ?_ (hperm.map _).symm⟩, fun u hu => ?_⟩
  · rw [← List.filterMap_append]
    exact (hperm.filterMap _).symm
  · have hu := hperm.mem_iff.1 hu
    rw [List.mem_cons, List.mem_cons] at hu
    rcases hu with rfl | rfl | hu
    · exact hok
    · exact hokn
    · exact h.proc u (Machine.rest_sub hu)

theorem Shows.putTwo (h : Shows m r) (hI : MachInv L m) {j : Nat} {np : Proc} (hji : j ≠ i)
    (hset : m'.proc = (m.proc.set i p').set j np)
    (hts : ∀ t ∈ (m.rest i j).map Proc.vtable, view m'.data t.frame = view m.data t.frame) (hown : m'.sees p' = r i) :
    Shows m' (Function.update r j (m'.sees np)) := by
  intro k q hq
  rw [hset, List.getElem?_set] at hq
  by_cases hjk : j = k
  · subst hjk
    rw [if_pos rfl] at hq
    split at hq
    · obtain rfl := Option.some.inj hq
      exact Function.update_self ..
    · cases hq
  rw [if_neg hjk, List.getElem?_set] at hq
  rw [Function.update_apply, if_neg (Ne.symm hjk)]
  by_cases hik : i = k
  · subst hik
    rw [if_pos rfl] at hq
    split at hq
    · obtain rfl := Option.some.inj hq
      exact hown.symm
    · cases hq
  · rw [if_neg hik] at hq
    rw [h k q hq, Machine.sees, Machine.sees]
    have hmem := List.mem_map_of_mem (f := Proc.vtable) (Machine.mem_rest (Ne.symm hik) (Ne.symm hjk) hji hq)
    rw [← (hI.procOk hq).vtable_frame, hts _ hmem]

end Xv6
