import CCppProjects.Xv6.StepSpec
import CCppProjects.Xv6.FreeList
import Mathlib.Algebra.Order.BigOperators.Group.List
/-
# What programs and counts show

Three laws for the reference counts, and what follows from each about runs from `userinit` on:

| law | count `r` of a frame mapped `n` times | where |
| --- | --- | --- |
| `exactLaw` | `r = n`                    | nothing is copied or swapped out |
| `eagerLaw` | `n ≤ r ≤ n + 1`            | no replacement policy |
| `swapLaw`  | `n ≤ r`, one less once swapped out | a policy, as long as the slots and the frames agree |

`handle_page_fault` leaves the new page of a copy with count 2 (vm.c:555), which is why the second
law has room for one more.
-/
namespace Xv6

open Share

variable {c : Cfg} {m m' : Machine} {r : Ref}

/-! ## Exact counts -/

/-- Nothing is copied or swapped out. -/
def Event.shares : Event → Bool
  | .swapOut _ _ | .cowCopy => false
  | _ => true

theorem count_lt {n : Nat} (h : n ≤ NPROC + 3) : n < UINT := by
  simp only [NPROC, UINT] at *
  omega

theorem one_le_count : 1 ≤ NPROC + 3 := by decide

def exactLaw (c : Cfg) : RefLaw c where
  R b r n := b = false ∧ r = n ∧ n ≤ NPROC + 3
  Ok _ ev := ev.shares = true
  lt h := h.2.1 ▸ count_lt h.2.2
  fresh := ⟨rfl, rfl, one_le_count⟩
  share := by
    rintro b r n ts ⟨hb, rfl, _⟩ _ hn
    have : NPROC + 3 < UINT := by decide
    exact ⟨by omega, hb, rfl, by omega⟩
  unmap := by
    rintro b r n ⟨hb, rfl, hn⟩ h0
    exact ⟨by omega, hb, Nat.add_sub_cancel n 1, by omega⟩
  copied h := by
    have := h.2.1
    omega
  lone h := by
    have := h.2.1
    omega
  noPaging _ h := h.1
  copy h := by cases h
  swapOut _ _ h := by cases h
  swapIn h := by cases h.1

/-- The present user entries of all page tables that map `f`. -/
def Machine.ptes (m : Machine) (f : Nat) : Nat :=
  (m.proc.map fun p => (List.range USERPAGES).countP fun v => (p.pgdir.pte v).P && (p.pgdir.pte v).addr == f).sum

/-- `page_refs_num` counts the entries of every frame used as a user page. -/
def Machine.ExactRefs (m : Machine) : Prop := ∀ f, 0 < m.ptes f → m.kmem.pageRefsNum f = m.ptes f

/-- At most one number below `n` satisfies `P`. -/
theorem countP_range_unique {P : Nat → Bool} : ∀ n : Nat,
    (∀ u < n, ∀ v < n, P u = true → P v = true → u = v) →
    ((List.range n).countP P = 1 ∧ ∃ v < n, P v = true) ∨ ((List.range n).countP P = 0 ∧ ∀ v < n, P v = false)
  | 0, _ => .inr ⟨rfl, fun _ h => absurd h (Nat.not_lt_zero _)⟩
  | n + 1, h => by
    rw [List.range_succ, List.countP_append]
    have ih := countP_range_unique n fun u hu v hv => h u (by omega) v (by omega)
    cases hP : P n with
    | true =>
      rcases ih with ⟨_, v, hv, hPv⟩ | ⟨h0, _⟩
      · have := h v (by omega) n (by omega) hPv hP
        omega
      · exact .inl ⟨by simp [h0, hP], n, by omega, hP⟩
    | false =>
      rcases ih with ⟨h1, v, hv, hPv⟩ | ⟨h0, hall⟩
      · exact .inl ⟨by simp [h1, hP], v, by omega, hPv⟩
      · refine .inr ⟨by simp [h0, hP], fun v hv => ?_⟩
        rcases Nat.lt_succ_iff_lt_or_eq.1 hv with hv | rfl
        · exact hall v hv
        · exact hP

theorem Pgdir.maps_iff {t : Pgdir} {f : Nat} :
    Maps t.frame f ↔ ∃ v < USERPAGES, ((t.pte v).P && (t.pte v).addr == f) = true := by
  constructor
  · rintro ⟨v, hv⟩
    obtain ⟨h1, h2, h3⟩ := Pgdir.frame_eq_some.1 hv
    exact ⟨v, h1, by simp [h2, h3]⟩
  · rintro ⟨v, h1, h2⟩
    simp only [Bool.and_eq_true, beq_iff_eq] at h2
    exact ⟨v, Pgdir.frame_eq_some.2 ⟨h1, h2.1, h2.2⟩⟩

theorem Pgdir.count_ptes {t : Pgdir} (hi : Inj t.frame) (ts : List Pgdir) (f : Nat) :
    cnt (frames (t :: ts)) f =
      ((List.range USERPAGES).countP fun v => (t.pte v).P && (t.pte v).addr == f) + cnt (frames ts) f := by
  rw [frames_cons, cnt_cons, Nat.add_comm]
  refine congrArg (· + _) ?_
  have huniq : ∀ u < USERPAGES, ∀ v < USERPAGES, ((t.pte u).P && (t.pte u).addr == f) = true →
      ((t.pte v).P && (t.pte v).addr == f) = true → u = v := by
    intro u hu v hv h1 h2
    simp only [Bool.and_eq_true, beq_iff_eq] at h1 h2
    exact hi u v f (Pgdir.frame_eq_some.2 ⟨hu, h1.1, h1.2⟩) (Pgdir.frame_eq_some.2 ⟨hv, h2.1, h2.2⟩)
  rcases countP_range_unique USERPAGES huniq with ⟨h1, hex⟩ | ⟨h0, hall⟩
  · rw [h1, if_pos (Pgdir.maps_iff.2 hex)]
  · rw [h0, if_neg]
    rintro hmap
    obtain ⟨v, hv, hP⟩ := Pgdir.maps_iff.1 hmap
    rw [hall v hv] at hP
    cases hP

/-- The invariant's count is the number of entries. -/
theorem MachInv.ptes_eq {L : RefLaw c} (h : MachInv L m) (f : Nat) :
    m.ptes f = cnt (frames (m.proc.map Proc.vtable)) f := by
  obtain ⟨sw, hI⟩ := h.mem
  have hall : ∀ ps : List Proc, (∀ p ∈ ps, ProcOk p ∧ Inj p.vtable.frame) →
      (ps.map fun p => (List.range USERPAGES).countP fun v => (p.pgdir.pte v).P && (p.pgdir.pte v).addr == f).sum =
        cnt (frames (ps.map Proc.vtable)) f := by
    intro ps
    induction ps with
    | nil => intro _; rfl
    | cons p ps ih =>
      intro hps
      obtain ⟨hok, hi⟩ := hps p (List.mem_cons_self ..)
      have ih := ih fun q hq => hps q (List.mem_cons_of_mem _ hq)
      rw [hok.vtable_frame] at hi
      have hcnt := Pgdir.count_ptes hi (ps.map Proc.vtable) f
      rw [List.map_cons, List.sum_cons, ih, List.map_cons, frames_cons, hok.vtable_frame, ← frames_cons, hcnt]
  exact hall m.proc fun p hp => ⟨h.proc p hp, hI.inj _ (List.mem_map_of_mem hp)⟩

theorem MachInv.exactRefs (h : MachInv (exactLaw c) m) : m.ExactRefs := by
  intro f hf
  obtain ⟨sw, hI⟩ := h.mem
  rw [h.ptes_eq] at hf ⊢
  exact (hI.refs f hf).2.1

/-- No step of the run copies a page in `handle_page_fault` and none swaps one out. -/
def SharesOnly (_ : Machine) (l : Label) : Prop := ∀ ev ∈ l.events, ev.shares = true

/-- A relation to the reference machine is kept by the steps a law allows. -/
theorem RefLaw.atAll (L : RefLaw c) {Q : Machine → Prop} {P : Machine → Label → Prop} (hP : ∀ m l, P m l → L.Allows m l)
    (hQ : ∀ m, MachInv L m → Q m) {k : Kmem} {data : Nat → PageData} {init : List UInt8} {m0 : Machine}
    (hk : k.Ready c) (hb : Xv6.boot c k data init = .ok m0) {ls : List Label} (hs : Lts.Steps (Trans c) P m0 ls) :
    Lts.AtAll (Trans c) Q m0 ls := by
  refine Lts.atAll_of_steps (I := fun m => ∃ r, Sim L m r) ?_ (fun m ⟨r, hr⟩ => hQ m hr.inv) ⟨_, Sim.boot hk hb⟩ hs
  rintro m l m' ⟨r, hr⟩ hl ht
  obtain ⟨r', _, hr'⟩ := hr.step ht (hP m l hl)
  exact ⟨r', hr'⟩

/-- **Exact reference counts.** They hold throughout a run none of whose steps copies a page in
`handle_page_fault` or swaps one out. -/
theorem exactRefs_of_sharesOnly {k : Kmem} {data : Nat → PageData} {init : List UInt8} {m0 : Machine}
    (hk : k.Ready c) (hb : Xv6.boot c k data init = .ok m0) {ls : List Label}
    (hs : Lts.Steps (Trans c) SharesOnly m0 ls) : Lts.AtAll (Trans c) Machine.ExactRefs m0 ls :=
  (exactLaw c).atAll (fun _ _ h => h) (fun _ hm => hm.exactRefs) hk hb hs

/-! ## Small machines for the closed statements -/

/-- 600 free pages. -/
def exKmem : Kmem := ⟨List.range' 0x101 600, 600, fun _ => 0⟩

theorem exKmem_ready (sel : Selection) : exKmem.Ready (exCfg sel) := by
  refine ⟨List.nodup_range', fun f hf => ?_⟩
  obtain ⟨h1, h2⟩ := List.mem_range'_1.1 hf
  simp only [Cfg.FrameOk, exCfg, PHYSTOP, PGSIZE] at *
  omega

/-- `userinit` with an empty initcode. -/
def exBoot (sel : Selection) : Except (Halt × List Event) Machine := boot (exCfg sel) exKmem (fun _ _ => 0) []

/-- A run of `ops` as it is recorded. -/
def record (c : Cfg) : List Op → Machine → Option (List Label × Machine)
  | [], m => some ([], m)
  | op :: ops, m => match step c m op with
    | .error _ => none
    | .ok (os, es, m) => (record c ops m).map fun s => (⟨op, os, es⟩ :: s.1, s.2)

theorem record_run {ops : List Op} : ∀ {m : Machine} {ls : List Label} {m' : Machine},
    record c ops m = some (ls, m') → Lts.Run (Trans c) m ls m' := by
  induction ops with
  | nil =>
    intro m ls m' h
    obtain ⟨rfl, rfl⟩ : [] = ls ∧ m = m' := by simpa [record] using h
    exact .nil m
  | cons op ops ih =>
    intro m ls m' h
    rw [record] at h
    split at h
    · cases h
    · rename_i os es m1 hstep
      obtain ⟨⟨ls1, m2⟩, hrec, h⟩ := Option.map_eq_some_iff.1 h
      cases h
      exact .cons hstep (ih hrec)

/-- The run of `ops` from `userinit` on. -/
def bootRun (sel : Selection) (ops : List Op) : Option (Machine × List Label × Machine) :=
  match exBoot sel with
  | .error _ => none
  | .ok m0 => (record (exCfg sel) ops m0).map fun s => (m0, s.1, s.2)

theorem bootRun_spec {sel : Selection} {ops : List Op} {f : List Label → Machine → Bool}
    (h : (bootRun sel ops).any (fun s => f s.2.1 s.2.2) = true) :
    ∃ m0 ls m, exBoot sel = .ok m0 ∧ Lts.Run (Trans (exCfg sel)) m0 ls m ∧ f ls m = true := by
  obtain ⟨⟨m0, ls, m⟩, hrun, hf⟩ := (Option.any_eq_true _ _).1 h
  unfold bootRun at hrun
  split at hrun
  · cases hrun
  · rename_i m1 hb
    obtain ⟨⟨ls1, m2⟩, hrec, hrun⟩ := Option.map_eq_some_iff.1 hrun
    cases hrun
    exact ⟨_, _, _, hb, record_run hrec, hf⟩

/-- The first process forks, and its child forks. -/
theorem exactRefs_of_sharesOnly_fork : ∃ m0 ls m, Lts.Run (Trans (exCfg .SCFIFO)) m0 ls m ∧ 2 ≤ ls.length ∧
    Lts.AtAll (Trans (exCfg .SCFIFO)) Machine.ExactRefs m0 ls := by
  have hx : (bootRun .SCFIFO [.fork 0, .fork 1]).any
      (fun s => s.2.1.length == 2 && s.2.1.all fun l => l.events.all Event.shares) = true := by decide +kernel
  obtain ⟨m0, ls, m, hb, hrun, hf⟩ :=
    @bootRun_spec _ _ (fun ls _ => ls.length == 2 && ls.all fun l => l.events.all Event.shares) hx
  simp only [Bool.and_eq_true, beq_iff_eq, List.all_eq_true] at hf
  exact ⟨m0, ls, m, hrun, by omega,
    exactRefs_of_sharesOnly (exKmem_ready _) hb (.of_labels fun l hl _ ev hev => hf.2 l hl ev hev)⟩

/-- A process with seventeen pages: the page swapped out stays mapped, with no reference. -/
theorem exactRefs_not_always :
    ¬ ∀ (c : Cfg) (k : Kmem) (data : Nat → PageData) (init : List UInt8) (m0 m : Machine) (ls : List Label),
      k.Ready c → boot c k data init = .ok m0 → Lts.Run (Trans c) m0 ls m → m.ExactRefs := by
  intro h
  have hx : (bootRun .SCFIFO [.fork 0, .fork 1, .sbrk 2 (16 * 4096)]).any (fun s => s.2.2.proc.any fun p =>
      (p.pgdir.pte 1).P && s.2.2.kmem.pageRefsNum (p.pgdir.pte 1).addr == 0) = true := by decide +kernel
  obtain ⟨m0, ls, m, hb, hrun, hf⟩ := @bootRun_spec _ _ (fun _ m => m.proc.any fun p =>
    (p.pgdir.pte 1).P && m.kmem.pageRefsNum (p.pgdir.pte 1).addr == 0) hx
  obtain ⟨p, hp, hf⟩ := List.any_eq_true.1 hf
  simp only [Bool.and_eq_true, beq_iff_eq] at hf
  have hpos : 0 < m.ptes (p.pgdir.pte 1).addr := by
    have hmem : (List.range USERPAGES).countP
      (fun v => (p.pgdir.pte v).P && (p.pgdir.pte v).addr == (p.pgdir.pte 1).addr) ∈
        m.proc.map fun p' => (List.range USERPAGES).countP fun v =>
        (p'.pgdir.pte v).P && (p'.pgdir.pte v).addr == (p.pgdir.pte 1).addr :=
      List.mem_map_of_mem hp
    refine Nat.lt_of_lt_of_le ?_ (List.le_sum_of_mem hmem)
    exact List.countP_pos_iff.2 ⟨1, List.mem_range.2 (by decide), by simp [hf.1]⟩
  have := h _ _ _ _ _ _ _ (exKmem_ready _) hb hrun _ hpos
  omega

/-! ## With a replacement policy -/

/-- What a step of a process, the other tables being `ts`, must not do: swap out a page that is already
marked `PTE_PG` or that somebody else maps, read back a slot that does not hold what the page's
frame holds, or wrap a count. -/
def Event.Coherent (ts : List Pgdir) : Event → Prop
  | .swapOut _ e => e.PG = false ∧ ∀ t ∈ ts, ¬ Maps t.frame e.addr
  | .swapIn _ slot page => slot = page
  | .share r => r + 1 < UINT
  | _ => True

def swapLaw (c : Cfg) : RefLaw c where
  R b r n := (c.paging = false → b = false) ∧ n ≤ r + b.toNat ∧ r < UINT
  Ok ts ev := ev.Coherent ts
  lt h := h.2.2
  fresh := ⟨fun _ => rfl, by decide, by decide⟩
  share h hr _ := ⟨hr, h.1, by omega, hr⟩
  unmap := by
    rintro b r n ⟨hb, hn, hr⟩ h0
    have : b.toNat ≤ 1 := by cases b <;> decide
    exact ⟨by omega, hb, by omega, by omega⟩
  copied h := by
    have : _ + 1 ≤ _ + 0 := h.2.1
    omega
  lone h := by
    have : _ + 1 ≤ 1 + 0 := h.2.1
    omega
  noPaging hc h := h.1 hc
  copy _ := ⟨fun _ => rfl, by decide, by decide⟩
  swapOut := by
    rintro b r n e ts hc ⟨_, hn, hr⟩ ⟨h1, h2⟩
    refine ⟨h1, h2, ?_⟩
    rintro rfl rfl
    have hn : 1 ≤ r + 0 := hn
    refine ⟨hn, fun hf => ?_, ?_, by omega⟩
    · rw [hc] at hf
      cases hf
    · show 1 ≤ r - 1 + 1
      omega
  swapIn := by
    rintro r n e s d ts ⟨hb, hn, hr⟩ h
    have hn : n + 1 ≤ r + 1 := hn
    exact ⟨h, fun _ => ⟨hb, Nat.le_of_succ_le hn, hr⟩⟩

/-- The step does none of that. -/
def Coherent (m : Machine) (l : Label) : Prop := ∀ ev ∈ l.events, ev.Coherent (m.others l.op.proc)

/-- **Paging is invisible** in a run that never swaps out a page marked `PTE_PG` or shared, reads back
only slots that agree with the page's frame, and wraps no count: what programs read and write is
what they would with memory of their own. -/
theorem paging_invisible {k : Kmem} {data : Nat → PageData} {init : List UInt8} {m0 : Machine} (hk : k.Ready c)
    (hb : Xv6.boot c k data init = .ok m0) {ls : List Label} (hrun : Lts.Run (Trans c) m0 ls m)
    (hs : Lts.Steps (Trans c) Coherent m0 ls) :
    ∃ r, RefRun (refBoot init) (ls.flatMap Label.obs) r ∧ Shows m r := by
  obtain ⟨r, h1, h2⟩ := (Sim.boot (L := swapLaw c) hk hb).run (hrun.on hs)
  exact ⟨r, h1, h2.shows⟩

/-- Whether the reference machine can show what the run showed. -/
def refChecks (init : List UInt8) (ls : List Label) : Bool :=
  ((ls.flatMap Label.obs).foldlM refStep (refBoot init)).isSome

theorem refChecks_of_run {init : List UInt8} {ls : List Label} {r : Ref}
    (h : RefRun (refBoot init) (ls.flatMap Label.obs) r) : refChecks init ls = true := by
  rw [refChecks, Lts.Run.foldlM_eq h]
  rfl

/-- `Event.Coherent` as a check, the other processes being `ps`: none maps a page from its size on. -/
def Event.agrees (ps : List Proc) : Event → Bool
  | .swapOut _ e => !e.PG && ps.all fun p => (List.range (p.sz / PGSIZE + 1)).all fun v =>
      !((p.pgdir.pte v).P && (p.pgdir.pte v).addr == e.addr)
  | .swapIn _ slot page => (List.finRange PGSIZE).all fun i => slot i == page i
  | .share r => decide (r + 1 < UINT)
  | _ => true

def agrees (m : Machine) (l : Label) : Bool := l.events.all (Event.agrees (m.proc.eraseIdx l.op.proc))

/-- The machine after a step. -/
def after (c : Cfg) (m : Machine) (l : Label) : Option Machine :=
  match Xv6.step c m l.op with
  | .ok (_, _, m') => some m'
  | .error _ => none

theorem after_of_trans {l : Label} (h : Trans c m l m') : after c m l = some m' := by
  rw [after, show Xv6.step c m l.op = _ from h]

theorem Sim.coherent {L : RefLaw c} (h : Sim L m r) {l : Label} (ha : agrees m l = true) : Coherent m l := by
  intro ev hev
  have hev := List.all_eq_true.1 ha ev hev
  cases ev with
  | swapOut i e =>
    simp only [Event.agrees, Bool.and_eq_true, Bool.not_eq_true', List.all_eq_true, List.mem_range] at hev
    obtain ⟨hPG, hall⟩ := hev
    refine ⟨hPG, fun t ht => ?_⟩
    obtain ⟨p, hp, rfl⟩ := List.mem_map.1 ht
    have hm := List.mem_of_mem_eraseIdx hp
    rw [(h.inv.proc p hm).vtable_frame]
    rintro ⟨v, hv⟩
    have hvsz : v < p.sz / PGSIZE + 1 := by
      by_contra hge
      obtain ⟨j, hj⟩ := List.mem_iff_getElem?.1 hm
      have hb := h.bounded j v
      rw [h.shows j p hj] at hb
      have hlt : p.sz < v * PGSIZE := Nat.lt_mul_of_div_lt (by omega) (by decide)
      have hnone : view m.data p.pgdir.frame v = none := hb hlt.le
      rw [view, hv] at hnone
      cases hnone
    obtain ⟨-, hP, hf⟩ := Pgdir.frame_eq_some.1 hv
    have := hall p hp v hvsz
    simp [hP, hf] at this
  | swapIn i slot page => exact funext fun i => by simpa using List.all_eq_true.1 hev i (List.mem_finRange i)
  | share n =>
    have hn : n + 1 < UINT := of_decide_eq_true hev
    exact hn
  | _ => trivial

/-- A run whose steps all pass the check is coherent. -/
theorem Sim.coherent_steps : ∀ {ls : List Label} {m : Machine} {r : Ref}, Sim (swapLaw c) m r →
    Lts.along (after c) agrees m ls = true → Lts.Steps (Trans c) Coherent m ls
  | [], _, _, _, _ => fun _ _ _ hp _ => absurd hp (by simp)
  | l :: ls, m, r, h, ha => by
    simp only [Lts.along, Bool.and_eq_true] at ha
    have hl := h.coherent ha.1
    intro before k t hp hr
    cases hr with
    | nil =>
      obtain rfl : k = l := by simpa using hp
      exact hl
    | cons h1 h2 =>
      rw [List.cons_append, List.cons_prefix_cons] at hp
      obtain ⟨rfl, hp⟩ := hp
      rw [after_of_trans h1] at ha
      obtain ⟨r', -, h'⟩ := h.step h1 hl
      exact Sim.coherent_steps h' ha.2 _ k t hp h2

/-- Process 3 stores in a page, grows until that is swapped out, and forks; its next store finds the page
read-only and brings it back from its slot, and is then made. Parent and child load what they should. -/
def exSwapped : List Op :=
  [.fork 0, .fork 0, .sbrk 2 4096, .store 2 4096 7, .sbrk 2 (15 * 4096), .fork 2, .store 2 4097 8, .store 2 4097 8,
    .load 2 4096, .load 2 4097, .load 3 4096]

/-- A page goes to its slot, or comes back from it. -/
def Event.moves : Event → Bool
  | .swapOut _ _ | .swapIn _ _ _ => true
  | _ => false

theorem paging_invisible_store : ∃ m0 ls m r, Lts.Run (Trans (exCfg .SCFIFO)) m0 ls m ∧
    (ls.flatMap Label.obs).length = 10 ∧ (ls.flatMap Label.events).countP Event.moves = 2 ∧
    RefRun (refBoot []) (ls.flatMap Label.obs) r ∧ Shows m r := by
  have hx : (bootRun .SCFIFO exSwapped).any (fun s => (exBoot .SCFIFO).toOption.any fun m0 =>
      Lts.along (after (exCfg .SCFIFO)) agrees m0 s.2.1 && (s.2.1.flatMap Label.obs).length == 10 &&
        (s.2.1.flatMap Label.events).countP Event.moves == 2) = true := by decide +kernel
  obtain ⟨m0, ls, m, hb, hrun, hf⟩ := @bootRun_spec _ _ (fun ls _ => (exBoot .SCFIFO).toOption.any fun m0 =>
    Lts.along (after (exCfg .SCFIFO)) agrees m0 ls && (ls.flatMap Label.obs).length == 10 &&
      (ls.flatMap Label.events).countP Event.moves == 2) hx
  simp only [hb, Except.toOption, Option.any_some, Bool.and_eq_true, beq_iff_eq] at hf
  obtain ⟨⟨hagrees, hobs⟩, hmoves⟩ := hf
  obtain ⟨r, hr, hshows⟩ := paging_invisible (exKmem_ready _) hb hrun
    ((Sim.boot (exKmem_ready _) hb).coherent_steps hagrees)
  exact ⟨m0, ls, m, r, hrun, hobs, hmoves, hr, hshows⟩

/-- A page stored to after it was swapped out: the next store after a `fork` brings back what the slot
holds, and the byte stored first is gone; the store that faulted is made again. -/
theorem paging_invisible_not_always :
    ¬ ∀ (c : Cfg) (k : Kmem) (data : Nat → PageData) (init : List UInt8) (m0 m : Machine) (ls : List Label),
      c.sel ≠ .NONE → k.Ready c → Xv6.boot c k data init = .ok m0 → Lts.Run (Trans c) m0 ls m →
      ∃ r, RefRun (refBoot init) (ls.flatMap Label.obs) r := by
  intro h
  have hx : (bootRun .SCFIFO [.fork 0, .fork 0, .sbrk 2 (16 * 4096), .store 2 4096 7, .fork 2, .store 2 4097 8,
      .store 2 4097 8, .load 2 4096]).any (fun s => !refChecks [] s.2.1) = true := by decide +kernel
  obtain ⟨m0, ls, m, hb, hrun, hf⟩ := @bootRun_spec _ _ (fun ls _ => !refChecks [] ls) hx
  obtain ⟨r, hr⟩ := h _ _ _ _ _ _ _ (by decide) (exKmem_ready _) hb hrun
  rw [refChecks_of_run hr] at hf
  cases hf

/-! ## Without -/

def eagerLaw (h : c.paging = false) : RefLaw c where
  R b r n := b = false ∧ n ≤ r ∧ r ≤ n + 1 ∧ n ≤ NPROC + 3
  Ok _ _ := True
  lt h := by
    have : NPROC + 4 < UINT := by decide
    omega
  fresh := by decide
  share := by
    rintro b r n ts ⟨hb, h1, h2, _⟩ _ hn
    have : NPROC + 4 < UINT := by decide
    exact ⟨by omega, hb, by omega, by omega, by omega⟩
  unmap := by
    rintro b r n ⟨hb, h1, h2, hn⟩ h0
    exact ⟨by omega, hb, by omega, by omega, by omega⟩
  copied h := by omega
  lone h := by omega
  noPaging _ h := h.1
  copy _ := by decide
  swapOut hc := by
    rw [h] at hc
    cases hc
  swapIn h := by cases h.1

theorem eagerLaw_allows (h : c.paging = false) (m : Machine) (l : Label) : (eagerLaw h).Allows m l := fun _ _ => trivial

end Xv6
