import CCppProjects.Xv6.SleepCode
/-
# Sleep locks exclude, and no wakeup is lost

`Cpus` ties the spin locks to the code: a CPU has exactly the locks that the code of its process still has to
give back. From it no lock is taken twice, given back by another CPU or held across `swtch`, so nothing
panics. `Slks` is what the sleep locks say, `Awake` that nobody sleeps on a lock that is free, except while
the process that freed it is on its way to `wakeup1`.
-/
namespace Xv6.Sleep

open Locks
open Ptable (ProcState)
open Function (update)

/-- The spin locks that CPU `c` must have. -/
def holds (s : State) (c : Nat) : Finset Spin :=
  match (s.cpu c).proc with
  | some p => owes eff (s.proc p).code
  | none => if (s.cpu c).loop then {.ptable} else ∅

structure Cpus (s : State) : Prop where
  shape : ∀ p, Shape (s.proc p).code
  once : ∀ {c c' p}, (s.cpu c).proc = some p → (s.cpu c').proc = some p → c = c'
  held : ∀ c k, s.spin k = some c ↔ k ∈ holds s c
  ncli : ∀ c, (s.cpu c).ncli = (holds s c).card
  fl : ∀ c, (holds s c).Nonempty → (s.cpu c).fl = false
  loop : ∀ {c p}, (s.cpu c).proc = some p → (s.cpu c).loop = true
  ready : ∀ {c p}, (s.cpu c).proc = some p → ((s.proc p).state = .RUNNING ↔ ∀ js, (s.proc p).code ≠ .sched :: js)
  off : ∀ p, (∀ c, (s.cpu c).proc ≠ some p) → Parked (s.proc p).code ∧
    owes eff (s.proc p).code = {.ptable} ∧ (s.proc p).state ≠ .RUNNING

structure Slks (s : State) : Prop where
  mine : ∀ p l, (s.proc p).mine l = true → s.slk l = ⟨true, p⟩
  locked : ∀ l, (s.slk l).locked = true → ∃ p, (s.proc p).mine l = true
  unlock : ∀ p l, .unlock l ∈ (s.proc p).code → (s.proc p).mine l = true
  take : ∀ p l js, (s.proc p).code = .lock l :: js → (s.slk l).locked = false

/-- Asleep on `l`, or about to be. -/
def Waiting (s : State) (p l : Nat) : Prop :=
  (s.proc p).state = .SLEEPING ∧ (s.proc p).chan = some l ∨ Falls l (s.proc p).code

def Awake (s : State) : Prop := ∀ p l, Waiting s p l → (s.slk l).locked = true ∨
    ∃ c q, (s.cpu c).proc = some q ∧ Wakes l (s.proc q).code

section

variable {s t : State} {c c' p q l : Nat} {k : Spin} {i : Instr} {is js : List Instr}

/-! ## CPUs and spin locks -/

theorem holds_run (h : (s.cpu c).proc = some p) : holds s c = owes eff (s.proc p).code := by rw [holds, h]

theorem holds_congr (hcpu : t.cpu c = s.cpu c) (hcode : ∀ p, (s.cpu c).proc = some p →
    (t.proc p).code = (s.proc p).code) :
    holds t c = holds s c := by
  rw [holds, holds, hcpu]
  cases h : (s.cpu c).proc with
  | none => rfl
  | some p => simp only [hcode p h]

/-- What the step of another process leaves of a process: it may have been woken. -/
structure Same (x y : Proc) : Prop where
  code : y.code = x.code
  mine : y.mine = x.mine
  state : y.state = .RUNNING ↔ x.state = .RUNNING
  sleeping : ∀ l, y.state = .SLEEPING → y.chan = some l → x.state = .SLEEPING ∧ x.chan = some l

theorem Same.refl (x : Proc) : Same x x := ⟨rfl, rfl, Iff.rfl, fun _ h h' => ⟨h, h'⟩⟩

theorem Same.wake (x : Proc) : Same x x.wake := by
  unfold Proc.wake
  split
  · next h => exact ⟨rfl, rfl, by simp [h], fun l hs => by simp at hs⟩
  · exact .refl x

theorem Same.killed (x : Proc) : Same x { x.wake with killed := true } :=
  ⟨(Same.wake x).code, (Same.wake x).mine, (Same.wake x).state, (Same.wake x).sleeping⟩

/-- A step of process `p`, which stays on CPU `c`. -/
theorem Cpus.moved (h : Cpus s) (hrun : (s.cpu c).proc = some p) (hcpu : ∀ c', c' ≠ c → t.cpu c' = s.cpu c')
    (hsame : ∀ q, q ≠ p → Same (s.proc q) (t.proc q)) (hproc : (t.cpu c).proc = some p)
    (hloop : (t.cpu c).loop = (s.cpu c).loop)
    (hshape : Shape (t.proc p).code) (hspin : ∀ k, t.spin k = some c ↔ k ∈ owes eff (t.proc p).code)
    (hspin' : ∀ k c', c' ≠ c → (t.spin k = some c' ↔ s.spin k = some c'))
    (hncli : (t.cpu c).ncli = (owes eff (t.proc p).code).card)
    (hfl : (owes eff (t.proc p).code).Nonempty → (t.cpu c).fl = false)
    (hready : (t.proc p).state = .RUNNING ↔ ∀ js, (t.proc p).code ≠ .sched :: js) : Cpus t := by
  have hprocs : ∀ c', (t.cpu c').proc = (s.cpu c').proc := fun c' => by
    by_cases hc : c' = c
    · rw [hc, hproc, hrun]
    · rw [hcpu c' hc]
  have hne : ∀ {c' q}, c' ≠ c → (s.cpu c').proc = some q → q ≠ p := fun hc hq => by
    rintro rfl
    exact hc (h.once hq hrun)
  have hhc : holds t c = owes eff (t.proc p).code := holds_run hproc
  have hho : ∀ c', c' ≠ c → holds t c' = holds s c' :=
    fun c' hc => holds_congr (hcpu c' hc) fun q hq => (hsame q (hne hc hq)).code
  constructor
  · intro q
    by_cases hq : q = p
    · rw [hq]
      exact hshape
    · rw [(hsame q hq).code]
      exact h.shape q
  · intro c1 c2 q h1 h2
    rw [hprocs] at h1 h2
    exact h.once h1 h2
  · intro c' k
    by_cases hc : c' = c
    · rw [hc, hhc]
      exact hspin k
    · rw [hho c' hc, hspin' k c' hc]
      exact h.held c' k
  · intro c'
    by_cases hc : c' = c
    · rw [hc, hhc]
      exact hncli
    · rw [hho c' hc, hcpu c' hc]
      exact h.ncli c'
  · intro c'
    by_cases hc : c' = c
    · rw [hc, hhc]
      exact hfl
    · rw [hho c' hc, hcpu c' hc]
      exact h.fl c'
  · intro c' q hq
    by_cases hc : c' = c
    · rw [hc, hloop]
      exact h.loop hrun
    · rw [hcpu c' hc] at hq ⊢
      exact h.loop hq
  · intro c' q hq
    rw [hprocs] at hq
    by_cases hc : c' = c
    · obtain rfl : p = q := by
        rw [hc, hrun] at hq
        exact Option.some.inj hq
      exact hready
    · have hs := hsame q (hne hc hq)
      rw [hs.state, hs.code]
      exact h.ready hq
  · intro q hq
    simp only [hprocs] at hq
    have hs := hsame q (by rintro rfl; exact hq c hrun)
    rw [hs.code, ne_eq, hs.state]
    exact h.off q hq

/-- An instruction that is about no spin lock. -/
theorem Cpus.plain (h : Cpus s) (hrun : (s.cpu c).proc = some p) (hcode : (s.proc p).code = i :: is)
    (heff : eff i = .none) (hi : i ≠ .sched)
    (hcpu : ∀ c', c' ≠ c → t.cpu c' = s.cpu c') (hsame : ∀ q, q ≠ p → Same (s.proc q) (t.proc q))
    (hproc : (t.cpu c).proc = some p)
    (hloop : (t.cpu c).loop = (s.cpu c).loop) (hncli : (t.cpu c).ncli = (s.cpu c).ncli)
    (hfl : (owes eff is).Nonempty → (t.cpu c).fl = (s.cpu c).fl)
    (hspin : t.spin = s.spin) (htcode : (t.proc p).code = is)
    (hstate : (t.proc p).state = .RUNNING ↔ (s.proc p).state = .RUNNING ∧ i ≠ .runnable ∧
    ∀ l, i ≠ .sleeping l) : Cpus t := by
  have hshape : Shape (i :: is) := hcode ▸ h.shape p
  have hholds : holds s c = owes eff is := by rw [holds_run hrun, hcode, owes_none heff]
  refine h.moved hrun hcpu hsame hproc hloop (htcode ▸ hshape.tail) (fun k => ?_)
    (fun k c' _ => by rw [hspin]) ?_ (fun hn => ?_) ?_
  · rw [hspin, htcode, ← hholds]
    exact h.held c k
  · rw [htcode, hncli, ← hholds]
    exact h.ncli c
  · rw [htcode] at hn
    rw [hfl hn]
    exact h.fl c (hholds ▸ hn)
  · have hrunning : (s.proc p).state = .RUNNING := (h.ready hrun).2 fun js hjs => by
      rw [hcode] at hjs
      exact hi (List.cons.inj hjs).1
    rw [hstate, htcode, and_iff_right hrunning]
    have := hshape.of_sched
    constructor
    · rintro ⟨h1, h2⟩ js hjs
      rcases this.1 ⟨js, hjs⟩ with rfl | ⟨l, rfl⟩
      · exact h1 rfl
      · exact h2 l rfl
    · intro hjs
      refine ⟨?_, fun l => ?_⟩
      · rintro rfl
        obtain ⟨js, hj⟩ := this.2 (.inl rfl)
        exact hjs js hj
      · rintro rfl
        obtain ⟨js, hj⟩ := this.2 (.inr ⟨l, rfl⟩)
        exact hjs js hj

theorem instr_cases (h : Trans s (.instr c) t) : ∃ p i is, (s.cpu c).proc = some p ∧
    (s.proc p).code = i :: is ∧ exec c p i is s = .ok t := by
  simp only [Trans, step] at h
  split at h
  · cases h
  · next p hp =>
    split at h
    · cases h
    · next i is hcode => exact ⟨p, i, is, hp, hcode, h⟩

theorem acquire_ok (h : acquire c k s = .ok t) :
    s.spin k = none ∧ t = (s.setCpu c (pushcli (s.cpu c))).setSpin k (some c) := by
  unfold acquire at h
  split at h
  · cases h
  · split at h
    · cases h
    · next hn =>
      rw [Except.ok.injEq] at h
      exact ⟨not_not.1 hn, h.symm⟩

theorem release_ok (h : release c k s = .ok t) : s.spin k = some c ∧ ∃ x, popcli (s.cpu c) = .ok x ∧
    t = (s.setCpu c x).setSpin k none := by
  unfold release at h
  split at h
  · cases h
  · next hk =>
    cases hpop : popcli (s.cpu c) with
    | error e =>
      rw [hpop] at h
      cases h
    | ok x =>
      rw [hpop] at h
      simp only [Except.map, Except.ok.injEq] at h
      exact ⟨not_not.1 hk, x, rfl, h.symm⟩

theorem popcli_ok {x y : Cpu} (h : popcli x = .ok y) : y.proc = x.proc ∧ y.ncli = x.ncli - 1 ∧
    y.loop = x.loop ∧ (x.ncli ≠ 1 → y.fl = false) := by
  unfold popcli at h
  split at h
  · cases h
  · split at h
    · cases h
    · rw [Except.ok.injEq] at h
      subst h
      refine ⟨rfl, rfl, rfl, fun hn => ?_⟩
      have : ¬ x.ncli - 1 = 0 := by omega
      simp [this]

/-- A process that is not in `sched` is running. -/
theorem Cpus.running (h : Cpus s) (hrun : (s.cpu c).proc = some p) (hcode : (s.proc p).code = i :: is)
    (hi : i ≠ .sched) : (s.proc p).state = .RUNNING :=
  (h.ready hrun).2 fun js hjs => by
    rw [hcode] at hjs
    exact hi (List.cons.inj hjs).1

theorem Cpus.not_sched (h : Cpus s) (hcode : (s.proc p).code = i :: is) (h1 : i ≠ .runnable)
    (h2 : ∀ l, i ≠ .sleeping l) (js : List Instr) :
    is ≠ .sched :: js := fun hjs => by
  have hshape : Shape (i :: is) := hcode ▸ h.shape p
  rcases hshape.of_sched.1 ⟨js, hjs⟩ with hr | ⟨l, hl⟩
  · exact h1 hr
  · exact h2 l hl

theorem spin_update {o : Option Nat} {k' : Spin} : (s.setSpin k o).spin k' = if k' = k then o else s.spin k' := by
  simp only [State.setSpin, Function.update_apply]

theorem Cpus.acquire (h : Cpus s) (hrun : (s.cpu c).proc = some p) (hcode : (s.proc p).code = .acquire k :: is)
    (he : acquire c k (s.setProc p { s.proc p with code := is }) = .ok t) : Cpus t := by
  obtain ⟨hfree, rfl⟩ := acquire_ok he
  have hshape : Shape (.acquire k :: is) := hcode ▸ h.shape p
  obtain ⟨hk, howes⟩ := hshape.kept.owes_take rfl
  have hholds : holds s c = owes eff (.acquire k :: is) := by rw [holds_run hrun, hcode]
  have hheld := h.held c
  have hncli := h.ncli c
  rw [hholds] at hheld hncli
  refine h.moved hrun (fun c' hc => by simp [hc]) (fun q hq => by simpa [hq] using Same.refl _) ?_ ?_ ?_
    (fun k' => ?_) (fun k' c' hc => ?_) ?_
    (fun _ => ?_) ?_
  · simpa [pushcli] using hrun
  · simp [pushcli]
  · simpa using hshape.tail
  · simp only [setSpin_proc, setCpu_proc, setProc_self, howes, Finset.mem_insert, spin_update,
      setCpu_spin, setProc_spin]
    by_cases hkk : k' = k
    · simp [hkk]
    · simp [hkk, hheld]
  · simp only [spin_update, setCpu_spin, setProc_spin] at hfree ⊢
    by_cases hkk : k' = k
    · simp [hkk, hfree, hc.symm]
    · simp [hkk]
  · simp [pushcli, howes, hncli, hk]
  · simp [pushcli]
  · simpa [h.running hrun hcode (by simp)] using h.not_sched hcode (by simp) (by simp)

theorem Cpus.release (h : Cpus s) (hrun : (s.cpu c).proc = some p) (hcode : (s.proc p).code = .release k :: is)
    (he : release c k (s.setProc p { s.proc p with code := is }) = .ok t) : Cpus t := by
  obtain ⟨hfree, x, hpop, rfl⟩ := release_ok he
  obtain ⟨hx1, hx2, hx3, hx4⟩ := popcli_ok hpop
  have hshape : Shape (.release k :: is) := hcode ▸ h.shape p
  obtain ⟨hk, howes⟩ := hshape.kept.owes_give rfl
  have hholds : holds s c = owes eff (.release k :: is) := by rw [holds_run hrun, hcode]
  have hheld := h.held c
  have hncli := h.ncli c
  rw [hholds, howes] at hheld hncli
  rw [Finset.card_insert_of_notMem hk] at hncli
  refine h.moved hrun (fun c' hc => by simp [hc]) (fun q hq => by simpa [hq] using Same.refl _) ?_ ?_ ?_
    (fun k' => ?_) (fun k' c' hc => ?_) ?_
    (fun hn => ?_) ?_
  · simpa [hx1] using hrun
  · simp [hx3]
  · simpa using hshape.tail
  · simp only [setSpin_proc, setCpu_proc, setProc_self, spin_update, setCpu_spin, setProc_spin]
    by_cases hkk : k' = k
    · simp [hkk, hk]
    · simp [hkk, hheld]
  · simp only [spin_update, setCpu_spin, setProc_spin] at hfree ⊢
    by_cases hkk : k' = k
    · simp [hkk, hfree, hc.symm]
    · simp [hkk]
  · simp [hx2, hncli]
  · simp only [setSpin_proc, setCpu_proc, setProc_self] at hn
    have hpos := hn.card_pos
    simp only [setSpin_cpu, setCpu_self]
    refine hx4 ?_
    simp only [setProc_cpu]
    omega
  · simpa [h.running hrun hcode (by simp)] using h.not_sched hcode (by simp) (by simp)

/-- The processor goes back to the scheduler, with `ptable.lock`. -/
theorem Cpus.sched (h : Cpus s) (hrun : (s.cpu c).proc = some p) (hcode : (s.proc p).code = .sched :: is)
    (ht : t = (s.setProc p { s.proc p with code := is, intena := (s.cpu c).intena }).setCpu c
    { s.cpu c with proc := none }) : Cpus t := by
  subst ht
  have hshape : Shape (.sched :: is) := hcode ▸ h.shape p
  have howes : owes eff is = {.ptable} := hshape.kept.needs
  have hholds : holds s c = {.ptable} := by rw [holds_run hrun, hcode, owes_none rfl, howes]
  have hloop := h.loop hrun
  have hc' : holds ((s.setProc p { s.proc p with code := is, intena := (s.cpu c).intena }).setCpu c
    { s.cpu c with proc := none }) c = {.ptable} := by
    simp [holds, hloop]
  have hne : ∀ {c' q}, c' ≠ c → (s.cpu c').proc = some q → q ≠ p := fun hc hq => by
    rintro rfl
    exact hc (h.once hq hrun)
  have hho : ∀ c', c' ≠ c → holds
    ((s.setProc p { s.proc p with code := is, intena := (s.cpu c).intena }).setCpu c
    { s.cpu c with proc := none }) c' =
      holds s c' := fun c' hc => holds_congr (by simp [hc]) fun q hq => by simp [hne hc hq]
  constructor
  · intro q
    by_cases hq : q = p
    · simpa [hq] using hshape.tail
    · simpa [hq] using h.shape q
  · intro c1 c2 q h1 h2
    by_cases hc1 : c1 = c
    · simp [hc1] at h1
    · by_cases hc2 : c2 = c
      · simp [hc2] at h2
      · simp only [setCpu_ne hc1, setCpu_ne hc2, setProc_cpu] at h1 h2
        exact h.once h1 h2
  · intro c1 k
    by_cases hc1 : c1 = c
    · rw [hc1, hc', ← hholds]
      exact h.held c k
    · rw [hho c1 hc1]
      exact h.held c1 k
  · intro c1
    by_cases hc1 : c1 = c
    · rw [hc1, hc', ← hholds]
      simpa using h.ncli c
    · rw [hho c1 hc1]
      simpa [hc1] using h.ncli c1
  · intro c1
    by_cases hc1 : c1 = c
    · rw [hc1, hc', ← hholds]
      simpa using h.fl c
    · rw [hho c1 hc1]
      simpa [hc1] using h.fl c1
  · intro c1 q hq
    by_cases hc1 : c1 = c
    · simp [hc1] at hq
    · simp only [setCpu_ne hc1, setProc_cpu] at hq ⊢
      exact h.loop hq
  · intro c1 q hq
    by_cases hc1 : c1 = c
    · simp [hc1] at hq
    · simp only [setCpu_ne hc1, setProc_cpu] at hq
      simpa [hne hc1 hq] using h.ready hq
  · intro q hq
    by_cases hqp : q = p
    · subst hqp
      obtain ⟨js, hjs⟩ := hshape.sched
      have hstate : (s.proc q).state ≠ .RUNNING := fun hr => (h.ready hrun).1 hr is hcode
      simp only [setCpu_proc, setProc_self]
      exact ⟨.inr ⟨js, hjs⟩, howes, hstate⟩
    · have hoff : ∀ c1, (s.cpu c1).proc ≠ some q := fun c1 hc1 => by
        by_cases hcc : c1 = c
        · rw [hcc, hrun] at hc1
          exact hqp (Option.some.inj hc1).symm
        · exact hq c1 (by simpa [hcc] using hc1)
      simpa [hqp] using h.off q hoff

theorem owes_sleep : owes eff (sleep l ++ .test l :: [.lock l, .release (.lk l)]) = {.lk l} := by
  simp [sleep, owes, eff, Eff.before, Finset.pair_comm (Spin.lk l) Spin.ptable]

theorem Cpus.instr (h : Cpus s) (hrun : (s.cpu c).proc = some p) (hcode : (s.proc p).code = i :: is)
    (he : exec c p i is s = .ok t) : Cpus t := by
  have hshape : Shape (i :: is) := hcode ▸ h.shape p
  have hother : ∀ (x : Proc) q, q ≠ p → Same (s.proc q) ((s.setProc p x).proc q) := fun x q hq => by
    rw [setProc_ne hq]
    exact .refl _
  cases i with
  | acquire k => exact h.acquire hrun hcode he
  | release k => exact h.release hrun hcode he
  | test l =>
    simp only [exec, Except.ok.injEq] at he
    subst he
    split
    · -- the lock is taken: the code of `sleep` comes first, and again the test
      obtain rfl := hshape.test
      have howes : owes eff (.test l :: [.lock l, .release (.lk l)]) = {.lk l} := by simp [owes, eff, Eff.before]
      have hholds : holds s c = {.lk l} := by rw [holds_run hrun, hcode, howes]
      refine h.moved hrun (fun c' _ => rfl) (hother _) hrun rfl ?_ (fun k => ?_)
        (fun k c' _ => Iff.rfl) ?_ (fun _ => ?_) ?_
      · rw [setProc_self]
        exact .call (.acquiresleep l) (List.suffix_refl _)
      · rw [setProc_self, owes_sleep, ← hholds]
        exact h.held c k
      · rw [setProc_self, owes_sleep, ← hholds]
        exact h.ncli c
      · exact h.fl c (by rw [hholds]; exact Finset.singleton_nonempty _)
      · rw [setProc_self]
        exact iff_of_true (h.running hrun hcode (by simp)) (by simp [sleep])
    · exact h.plain hrun hcode rfl (by simp) (fun _ _ => rfl) (hother _) hrun rfl rfl
        (fun _ => rfl) rfl (by simp) (by simp)
  | lock l =>
    simp only [exec, Except.ok.injEq] at he
    subst he
    exact h.plain hrun hcode rfl (by simp) (fun _ _ => rfl) (hother _) hrun rfl rfl (fun _ => rfl) rfl
      (by simp) (by simp)
  | unlock l =>
    simp only [exec, Except.ok.injEq] at he
    subst he
    exact h.plain hrun hcode rfl (by simp) (fun _ _ => rfl) (hother _) hrun rfl rfl (fun _ => rfl) rfl
      (by simp) (by simp)
  | read l =>
    simp only [exec, Except.ok.injEq] at he
    subst he
    exact h.plain hrun hcode rfl (by simp) (fun _ _ => rfl) (hother _) hrun rfl rfl (fun _ => rfl) rfl
      (by simp) (by simp)
  | sleeping l =>
    simp only [exec, Except.ok.injEq] at he
    subst he
    exact h.plain hrun hcode rfl (by simp) (fun _ _ => rfl) (hother _) hrun rfl rfl (fun _ => rfl) rfl
      (by simp) (by simp)
  | runnable =>
    simp only [exec, Except.ok.injEq] at he
    subst he
    exact h.plain hrun hcode rfl (by simp) (fun _ _ => rfl) (hother _) hrun rfl rfl (fun _ => rfl) rfl
      (by simp) (by simp)
  | sched =>
    simp only [exec] at he
    split at he
    · cases he
    split at he
    · cases he
    split at he
    · cases he
    split at he
    · cases he
    rw [Except.ok.injEq] at he
    exact h.sched hrun hcode he.symm
  | restore =>
    simp only [exec, Except.ok.injEq] at he
    subst he
    exact h.plain hrun hcode rfl (by simp) (fun c' hc => by simp [hc]) (hother _) (by simpa using hrun)
      (by simp) (by simp) (fun _ => by simp)
      rfl (by simp) (by simp)
  | tidy =>
    simp only [exec, Except.ok.injEq] at he
    subst he
    exact h.plain hrun hcode rfl (by simp) (fun _ _ => rfl) (hother _) hrun rfl rfl (fun _ => rfl) rfl
      (by simp) (by simp)
  | wakeup1 l =>
    simp only [exec, Except.ok.injEq] at he
    subst he
    have hrunning := h.running hrun hcode (by simp)
    refine h.plain hrun hcode rfl (by simp) (fun _ _ => rfl) (fun q hq => ?_) hrun rfl rfl (fun _ => rfl) rfl ?_ ?_
    · simp only [setProc_ne hq]
      split
      · exact .wake _
      · exact .refl _
    · simp only [setProc_self]
      split
      · exact (Same.wake _).code
      · rfl
    · simp only [setProc_self]
      split
      · rw [(Same.wake _).state]
        simp
      · simp
  | kill q =>
    simp only [exec, Except.ok.injEq] at he
    subst he
    split
    · exact h.plain hrun hcode rfl (by simp) (fun _ _ => rfl) (hother _) hrun rfl rfl
        (fun _ => rfl) rfl (by simp) (by simp)
    · refine h.plain hrun hcode rfl (by simp) (fun _ _ => rfl) (fun r hr => ?_) hrun rfl rfl (fun _ => rfl) rfl ?_ ?_
      · by_cases hrq : r = q
        · subst hrq
          simpa [hr] using Same.killed _
        · simpa [hrq, hr] using Same.refl _
      · by_cases hpq : p = q
        · subst hpq
          simpa using (Same.killed _).code
        · simp [hpq]
      · by_cases hpq : p = q
        · subst hpq
          simpa using (Same.killed _).state
        · simp [hpq]
  | iret =>
    simp only [exec, Except.ok.injEq] at he
    subst he
    refine h.plain hrun hcode rfl (by simp) (fun c' hc => by simp [hc]) (hother _) (by simpa using hrun)
      (by simp) (by simp) (fun hn => ?_)
      rfl (by simp) (by simp)
    -- no lock is held when the interrupt returns
    rw [hshape.kept.needs] at hn
    exact absurd hn Finset.not_nonempty_empty

/-! ## Calls, interrupts and the scheduler -/

theorem owes_code (f : Call) : owes eff f.code = ∅ := by
  cases f with
  | releasesleep l => simp [Call.code, releasesleep, wakeup, owes, eff, Eff.before]
  | _ => simp [Call.code, acquiresleep, holdingsleep, kill, owes, eff, Eff.before]

theorem owes_yield (h : owes eff is = ∅) : owes eff (yield ++ is) = ∅ := by
  have hnil : owes eff is = owes eff [] := h
  rw [owes_append hnil, List.append_nil]
  simp [yield, owes, eff, Eff.before]

/-- A running process whose code changes but owes what it owed. -/
theorem Cpus.recode {x : Proc} {y : Cpu} (h : Cpus s) (hrun : (s.cpu c).proc = some p)
    (hshape : Shape x.code) (howes : owes eff x.code = owes eff (s.proc p).code)
    (hstate : x.state = .RUNNING) (hhead : ∀ js, x.code ≠ .sched :: js)
    (hy : y.proc = some p ∧ y.loop = (s.cpu c).loop ∧ y.ncli = (s.cpu c).ncli)
    (hfl : (owes eff x.code).Nonempty → y.fl = false) : Cpus ((s.setProc p x).setCpu c y) := by
  have hholds := holds_run hrun
  refine h.moved hrun (fun c' hc => by simp [hc]) (fun q hq => by simpa [hq] using Same.refl _)
    (by simpa using hy.1) (by simpa using hy.2.1)
    (by simpa using hshape) (fun k => ?_) (fun k c' _ => Iff.rfl) ?_ (by simpa using hfl) ?_
  · rw [setCpu_proc, setProc_self, howes, ← hholds]
    exact h.held c k
  · simpa [howes, ← hholds, hy.2.2] using h.ncli c
  · simpa [hstate] using hhead

/-- The scheduler of `c` takes `ptable.lock` or gives it back. -/
theorem Cpus.scheduler (h : Cpus s) (hnone : (s.cpu c).proc = none)
    (hcpu : ∀ c', c' ≠ c → t.cpu c' = s.cpu c') (hproc : t.proc = s.proc)
    (hnone' : (t.cpu c).proc = none) (hspin : ∀ k, t.spin k = some c ↔ k ∈ holds t c)
    (hspin' : ∀ k c', c' ≠ c → (t.spin k = some c' ↔ s.spin k = some c')) (hncli : (t.cpu c).ncli = (holds t c).card)
    (hfl : (holds t c).Nonempty → (t.cpu c).fl = false) : Cpus t := by
  have hprocs : ∀ c', (t.cpu c').proc = (s.cpu c').proc := fun c' => by
    by_cases hc : c' = c
    · rw [hc, hnone, hnone']
    · rw [hcpu c' hc]
  have hho : ∀ c', c' ≠ c → holds t c' = holds s c' := fun c' hc => holds_congr (hcpu c' hc) fun q _ => by rw [hproc]
  refine ⟨fun p => ?_, fun h1 h2 => ?_, fun c' k => ?_, fun c' => ?_, fun c' => ?_, fun {c' p} hp => ?_,
    fun {c' p} hp => ?_, fun p hp => ?_⟩
  · rw [hproc]
    exact h.shape p
  · rw [hprocs] at h1 h2
    exact h.once h1 h2
  · by_cases hc : c' = c
    · rw [hc]
      exact hspin k
    · rw [hho c' hc, hspin' k c' hc]
      exact h.held c' k
  · by_cases hc : c' = c
    · rw [hc]
      exact hncli
    · rw [hho c' hc, hcpu c' hc]
      exact h.ncli c'
  · by_cases hc : c' = c
    · rw [hc]
      exact hfl
    · rw [hho c' hc, hcpu c' hc]
      exact h.fl c'
  · by_cases hc : c' = c
    · rw [hc, hnone'] at hp
      cases hp
    · rw [hcpu c' hc] at hp ⊢
      exact h.loop hp
  · rw [hprocs] at hp
    rw [hproc]
    exact h.ready hp
  · simp only [hprocs] at hp
    rw [hproc]
    exact h.off p hp

theorem Cpus.enter (h : Cpus s) (ht : Trans s (.enter c) t) : Cpus t := by
  simp only [Trans, step] at ht
  split at ht
  · next hn =>
    obtain ⟨hnone, hloop⟩ := hn
    cases hacq : Sleep.acquire c .ptable (s.setCpu c { s.cpu c with fl := true }) with
    | error e =>
      rw [hacq] at ht
      cases ht
    | ok u =>
      rw [hacq] at ht
      simp only [Except.map, Except.ok.injEq] at ht
      obtain ⟨hfree, rfl⟩ := acquire_ok hacq
      subst ht
      have hempty : holds s c = ∅ := by rw [holds, hnone]; simp [hloop]
      have hheld := h.held c
      have hncli := h.ncli c
      rw [hempty] at hheld hncli
      refine h.scheduler hnone (fun c' hc => by simp [hc]) rfl (by simpa [pushcli] using hnone)
        (fun k => ?_) (fun k c' hc => ?_) ?_ (fun _ => ?_)
      · simp only [setCpu_spin, spin_update, holds, setSpin_cpu, setCpu_self, pushcli, hnone]
        by_cases hk : k = .ptable
        · simp [hk]
        · simp [hk, hheld]
      · simp only [setCpu_spin, spin_update] at hfree ⊢
        by_cases hk : k = .ptable
        · simp [hk, hfree, hc.symm]
        · simp [hk]
      · simp [holds, pushcli, hnone, hncli]
      · simp [pushcli]
  · cases ht

theorem Cpus.leave (h : Cpus s) (ht : Trans s (.leave c) t) : Cpus t := by
  simp only [Trans, step] at ht
  split at ht
  · next hn =>
    obtain ⟨hnone, hloop⟩ := hn
    cases hrel : Sleep.release c .ptable s with
    | error e =>
      rw [hrel] at ht
      cases ht
    | ok u =>
      rw [hrel] at ht
      simp only [Except.map, Except.ok.injEq] at ht
      obtain ⟨hfree, x, hpop, rfl⟩ := release_ok hrel
      obtain ⟨hx1, hx2, hx3, hx4⟩ := popcli_ok hpop
      subst ht
      have hone : holds s c = {.ptable} := by rw [holds, hnone]; simp [hloop]
      have hheld := h.held c
      have hncli := h.ncli c
      rw [hone] at hheld hncli
      refine h.scheduler hnone (fun c' hc => by simp [hc]) rfl (by simpa [hx1] using hnone)
        (fun k => ?_) (fun k c' hc => ?_) ?_ (fun hne => ?_)
      · simp only [setCpu_spin, spin_update, holds, setSpin_cpu, setCpu_self, hx1, hnone]
        by_cases hk : k = .ptable
        · simp [hk]
        · simp [hk, hheld]
      · simp only [setCpu_spin, spin_update]
        by_cases hk : k = .ptable
        · simp [hk, hfree, hc.symm]
        · simp [hk]
      · simp [holds, hx1, hx2, hnone, hncli]
      · simp [holds, hx1, hnone] at hne
  · cases ht

theorem Cpus.dispatch (h : Cpus s) (ht : Trans s (.dispatch c p) t) : Cpus t := by
  simp only [Trans, step] at ht
  split at ht
  · next hn =>
    obtain ⟨hnone, hloop, hstate⟩ := hn
    rw [Except.ok.injEq] at ht
    subst ht
    have hone : holds s c = {.ptable} := by rw [holds, hnone]; simp [hloop]
    have hptable : s.spin .ptable = some c := (h.held c .ptable).2 (by rw [hone]; exact Finset.mem_singleton_self _)
    -- a process on another CPU is not RUNNABLE while this one has `ptable.lock`
    have hoff : ∀ c', (s.cpu c').proc ≠ some p := fun c' hc' => by
      have hsched : ¬ ∀ js, (s.proc p).code ≠ .sched :: js := fun hjs => by
        rw [(h.ready hc').2 hjs] at hstate
        cases hstate
      obtain ⟨js, hjs⟩ : ∃ js, (s.proc p).code = .sched :: js := by simpa using hsched
      have howes : owes eff js = {.ptable} := by
        have hshape := h.shape p
        rw [hjs] at hshape
        exact hshape.kept.needs
      have hheld :=
        (h.held c' .ptable).2
          (by rw [holds_run hc', hjs, owes_none rfl, howes]; exact Finset.mem_singleton_self _)
      obtain rfl : c = c' := Option.some.inj (hptable.symm.trans hheld)
      rw [hnone] at hc'
      cases hc'
    obtain ⟨hparked, howes, -⟩ := h.off p hoff
    have hne : ∀ {c' q}, (s.cpu c').proc = some q → q ≠ p := fun hc => by
      rintro rfl
      exact hoff _ hc
    have hcc : ∀ {c' q}, (s.cpu c').proc = some q → c' ≠ c := fun hc => by
      rintro rfl
      rw [hnone] at hc
      cases hc
    have hhc : holds ((s.setProc p { s.proc p with state := .RUNNING }).setCpu c
      { s.cpu c with proc := some p }) c = {.ptable} := by
      simp [holds, howes]
    have hho : ∀ c', c' ≠ c → holds ((s.setProc p { s.proc p with state := .RUNNING }).setCpu c
      { s.cpu c with proc := some p }) c' = holds s c' :=
      fun c' hc => holds_congr (by simp [hc]) fun q hq => by simp [hne hq]
    have hhead : ∀ js, (s.proc p).code ≠ .sched :: js := fun js hjs => by
      rcases hparked with hf | ⟨ks, hk⟩
      · rw [hf] at hjs
        simp [forkret] at hjs
      · rw [hk] at hjs
        simp at hjs
    constructor
    · intro q
      by_cases hq : q = p
      · simpa [hq] using h.shape p
      · simpa [hq] using h.shape q
    · intro c1 c2 q h1 h2
      by_cases hc1 : c1 = c <;> by_cases hc2 : c2 = c
      · rw [hc1, hc2]
      · simp only [hc1, setCpu_self, setCpu_ne hc2, setProc_cpu] at h1 h2
        obtain rfl := Option.some.inj h1
        exact absurd h2 (hoff c2)
      · simp only [hc2, setCpu_self, setCpu_ne hc1, setProc_cpu] at h1 h2
        obtain rfl := Option.some.inj h2
        exact absurd h1 (hoff c1)
      · simp only [setCpu_ne hc1, setCpu_ne hc2, setProc_cpu] at h1 h2
        exact h.once h1 h2
    · intro c1 k
      by_cases hc1 : c1 = c
      · rw [hc1, hhc, ← hone]
        exact h.held c k
      · rw [hho c1 hc1]
        exact h.held c1 k
    · intro c1
      by_cases hc1 : c1 = c
      · rw [hc1, hhc, ← hone]
        simpa using h.ncli c
      · rw [hho c1 hc1]
        simpa [hc1] using h.ncli c1
    · intro c1
      by_cases hc1 : c1 = c
      · rw [hc1, hhc, ← hone]
        simpa using h.fl c
      · rw [hho c1 hc1]
        simpa [hc1] using h.fl c1
    · intro c1 q hq
      by_cases hc1 : c1 = c
      · simpa [hc1] using hloop
      · simp only [setCpu_ne hc1, setProc_cpu] at hq ⊢
        exact h.loop hq
    · intro c1 q hq
      by_cases hc1 : c1 = c
      · obtain rfl : p = q := by simpa [hc1] using hq
        simpa using hhead
      · simp only [setCpu_ne hc1, setProc_cpu] at hq
        simpa [hne hq] using h.ready hq
    · intro q hq
      have hqp : q ≠ p := by
        rintro rfl
        exact hq c (by simp)
      have hoffq : ∀ c1, (s.cpu c1).proc ≠ some q := fun c1 h1 => hq c1 (by simpa [hcc h1] using h1)
      simpa [hqp] using h.off q hoffq
  · cases ht

theorem Cpus.step (h : Cpus s) {e : Event} (ht : Trans s e t) : Cpus t := by
  cases e with
  | instr c =>
    obtain ⟨p, i, is, hrun, hcode, he⟩ := instr_cases ht
    exact h.instr hrun hcode he
  | call c f =>
    simp only [Trans, Sleep.step] at ht
    split at ht
    · cases ht
    · next p hrun =>
      split at ht
      · next hn =>
        rw [Except.ok.injEq] at ht
        have hstate : (s.proc p).state = .RUNNING := (h.ready hrun).2 fun js hjs => by
          rw [hn.1] at hjs
          cases hjs
        have hsame : (s.setProc p { s.proc p with code := f.code }).setCpu c (s.cpu c) =
          s.setProc p { s.proc p with code := f.code } := by
          rw [← setProc_cpu (s := s) (p := p) (x := { s.proc p with code := f.code })]
          exact setCpu_eta
        have hshape : Shape f.code :=
          .call f (by cases f <;> simp [Call.full, Call.code, acquiresleep, Sleep.sleep, List.suffix_cons_iff])
        rw [← ht, ← hsame]
        refine h.recode hrun hshape ?_ hstate (fun js => ?_) ⟨hrun, rfl, rfl⟩ (fun hne => ?_)
        · rw [owes_code, hn.1]
          rfl
        · cases f <;> simp [Call.code, acquiresleep, releasesleep, holdingsleep, Sleep.kill]
        · rw [owes_code] at hne
          exact absurd hne Finset.not_nonempty_empty
      · cases ht
  | timer c =>
    simp only [Trans, Sleep.step] at ht
    split at ht
    · cases ht
    · next p hrun =>
      split at ht
      · next hn =>
        rw [Except.ok.injEq] at ht
        -- interrupts are on, so the process holds no spin lock
        have hempty : owes eff (s.proc p).code = ∅ := by
          rw [← holds_run hrun]
          by_contra hne
          rw [h.fl c (Finset.nonempty_iff_ne_empty.2 hne)] at hn
          exact absurd hn.1 Bool.false_ne_true
        rw [← ht]
        refine h.recode hrun (.trap (List.suffix_refl _) (h.shape p) hempty) ?_ hn.2
          (fun js => ?_) ⟨hrun, rfl, rfl⟩ (fun _ => rfl)
        · rw [owes_yield hempty, hempty]
        · simp [yield]
      · cases ht
  | enter c => exact h.enter ht
  | dispatch c p => exact h.dispatch ht
  | leave c => exact h.leave ht

/-! ## No panic -/

theorem acquire_fine (h : s.spin k ≠ some c) (m : String) : Sleep.acquire c k s ≠ .error (.panic m) := by
  unfold Sleep.acquire
  rw [if_neg h]
  split
  · simp
  · simp

theorem release_fine (h : s.spin k = some c) (hfl : (s.cpu c).fl = false) (hncli : 0 < (s.cpu c).ncli) (m : String) :
    Sleep.release c k s ≠ .error (.panic m) := by
  have hpos : ¬ (s.cpu c).ncli - 1 < 0 := by omega
  simp [Sleep.release, h, popcli, hfl, hpos, Except.map]

theorem Cpus.exec_fine (h : Cpus s) (hrun : (s.cpu c).proc = some p) (hcode : (s.proc p).code = i :: is) (m : String) :
    exec c p i is s ≠ .error (.panic m) := by
  have hshape : Shape (i :: is) := hcode ▸ h.shape p
  have hholds : holds s c = owes eff (i :: is) := by rw [holds_run hrun, hcode]
  have hheld := h.held c
  have hncli := h.ncli c
  have hfl := h.fl c
  rw [hholds] at hheld hncli hfl
  cases i with
  | acquire k =>
    refine acquire_fine (s := s.setProc p { s.proc p with code := is }) (fun hk => ?_) m
    exact (hshape.kept.owes_take rfl).1 ((hheld k).1 hk)
  | release k =>
    have hmem : k ∈ owes eff (.release k :: is) := by
      rw [(hshape.kept.owes_give rfl).2]
      exact Finset.mem_insert_self ..
    refine release_fine (s := s.setProc p { s.proc p with code := is }) ((hheld k).2 hmem) (hfl ⟨k, hmem⟩) ?_ m
    have := Finset.card_pos.2 ⟨k, hmem⟩
    simp only [setProc_cpu]
    omega
  | sched =>
    have howes : owes eff (.sched :: is) = {.ptable} := by rw [owes_none rfl, hshape.kept.needs]
    rw [howes] at hheld hncli hfl
    have hstate : (s.proc p).state ≠ .RUNNING := fun hr => (h.ready hrun).1 hr is hcode
    simp [exec, (hheld .ptable).2 (Finset.mem_singleton_self _), hncli, hstate, hfl (Finset.singleton_nonempty _)]
  | _ => simp [exec]

theorem Cpus.fine (h : Cpus s) (e : Event) (m : String) : Sleep.step s e ≠ .error (.panic m) := by
  cases e with
  | instr c =>
    simp only [Sleep.step]
    split
    · simp
    · next p hrun =>
      split
      · simp
      · next i is hcode => exact h.exec_fine hrun hcode m
  | call c f =>
    simp only [Sleep.step]
    split
    · simp
    · split <;> simp
  | timer c =>
    simp only [Sleep.step]
    split
    · simp
    · split <;> simp
  | enter c =>
    simp only [Sleep.step]
    split
    · next hn =>
      have hempty : holds s c = ∅ := by rw [holds, hn.1]; simp [hn.2]
      have hfree : (s.setCpu c { s.cpu c with fl := true }).spin .ptable ≠ some c := fun hk => by
        have := (h.held c .ptable).1 hk
        rw [hempty] at this
        exact absurd this (Finset.notMem_empty _)
      have := acquire_fine hfree m
      cases hacq : Sleep.acquire c .ptable (s.setCpu c { s.cpu c with fl := true }) with
      | error e =>
        rw [hacq] at this
        simpa [Except.map] using this
      | ok u => simp [Except.map]
    · simp
  | dispatch c p =>
    simp only [Sleep.step]
    split <;> simp
  | leave c =>
    simp only [Sleep.step]
    split
    · next hn =>
      have hone : holds s c = {.ptable} := by rw [holds, hn.1]; simp [hn.2]
      have hheld := (h.held c .ptable).2 (by rw [hone]; exact Finset.mem_singleton_self _)
      have hncli := h.ncli c
      rw [hone, Finset.card_singleton] at hncli
      have := release_fine hheld (h.fl c (by rw [hone]; exact Finset.singleton_nonempty _)) (by omega) m
      cases hrel : Sleep.release c .ptable s with
      | error e =>
        rw [hrel] at this
        simpa [Except.map] using this
      | ok u => simp [Except.map]
    · simp

/-! ## Sleep locks -/

/-- What an instruction leaves alone. -/
structure Ran (s t : State) (c p : Nat) (i : Instr) (is : List Instr) : Prop where
  other : ∀ q, q ≠ p → Same (s.proc q) (t.proc q)
  cpu : ∀ c', c' ≠ c → t.cpu c' = s.cpu c'
  proc : i ≠ .sched → (t.cpu c).proc = (s.cpu c).proc
  code : (t.proc p).code = is ∧ (∀ l, i = .test l → (s.slk l).locked = false) ∨
    ∃ l, i = .test l ∧ (s.slk l).locked = true ∧ (t.proc p).code = sleep l ++ .test l :: is
  mine : (∀ l, i ≠ .lock l) → (∀ l, i ≠ .unlock l) → t.slk = s.slk ∧ (t.proc p).mine = (s.proc p).mine
  sleeping : ∀ l, (t.proc p).state = .SLEEPING → (t.proc p).chan = some l →
    (s.proc p).state = .SLEEPING ∧ (s.proc p).chan = some l ∨ i = .sleeping l

theorem exec_ran (he : exec c p i is s = .ok t) : Ran s t c p i is := by
  have hother : ∀ (x : Proc) q, q ≠ p → Same (s.proc q) ((s.setProc p x).proc q) := fun x q hq => by
    rw [setProc_ne hq]
    exact .refl _
  cases i with
  | acquire k =>
    obtain ⟨-, rfl⟩ := acquire_ok he
    exact ⟨hother _, fun c' hc => by simp [hc], fun _ => by simp [pushcli], .inl (by simp),
      fun _ _ => by simp, fun l h1 h2 => .inl ⟨by simpa using h1, by simpa using h2⟩⟩
  | release k =>
    obtain ⟨-, x, hpop, rfl⟩ := release_ok he
    exact ⟨hother _, fun c' hc => by simp [hc], fun _ => by simpa using (popcli_ok hpop).1,
      .inl (by simp), fun _ _ => by simp, fun l h1 h2 => .inl ⟨by simpa using h1, by simpa using h2⟩⟩
  | test l =>
    simp only [exec, Except.ok.injEq] at he
    subst he
    split
    · next hl => exact ⟨hother _, fun _ _ => rfl, fun _ => rfl, .inr ⟨l, rfl, hl, by simp⟩,
        fun _ _ => by simp, fun l h1 h2 => .inl ⟨by simpa using h1, by simpa using h2⟩⟩
    · next hl => exact ⟨hother _, fun _ _ => rfl, fun _ => rfl, .inl (by simpa using hl),
        fun _ _ => by simp, fun l h1 h2 => .inl ⟨by simpa using h1, by simpa using h2⟩⟩
  | lock l =>
    simp only [exec, Except.ok.injEq] at he
    subst he
    exact ⟨hother _, fun _ _ => rfl, fun _ => rfl, .inl (by simp), fun h _ => absurd rfl (h l),
      fun l h1 h2 => .inl ⟨by simpa using h1, by simpa using h2⟩⟩
  | unlock l =>
    simp only [exec, Except.ok.injEq] at he
    subst he
    exact ⟨hother _, fun _ _ => rfl, fun _ => rfl, .inl (by simp), fun _ h => absurd rfl (h l),
      fun l h1 h2 => .inl ⟨by simpa using h1, by simpa using h2⟩⟩
  | read l =>
    simp only [exec, Except.ok.injEq] at he
    subst he
    exact ⟨hother _, fun _ _ => rfl, fun _ => rfl, .inl (by simp), fun _ _ => by simp,
      fun l h1 h2 => .inl ⟨by simpa using h1, by simpa using h2⟩⟩
  | sched =>
    simp only [exec] at he
    split at he
    · cases he
    split at he
    · cases he
    split at he
    · cases he
    split at he
    · cases he
    rw [Except.ok.injEq] at he
    subst he
    exact ⟨hother _, fun c' hc => by simp [hc], fun h => absurd rfl h, .inl (by simp),
      fun _ _ => by simp, fun l h1 h2 => .inl ⟨by simpa using h1, by simpa using h2⟩⟩
  | restore =>
    simp only [exec, Except.ok.injEq] at he
    subst he
    exact ⟨hother _, fun c' hc => by simp [hc], fun _ => by simp, .inl (by simp), fun _ _ => by simp,
      fun l h1 h2 => .inl ⟨by simpa using h1, by simpa using h2⟩⟩
  | iret =>
    simp only [exec, Except.ok.injEq] at he
    subst he
    exact ⟨hother _, fun c' hc => by simp [hc], fun _ => by simp, .inl (by simp), fun _ _ => by simp,
      fun l h1 h2 => .inl ⟨by simpa using h1, by simpa using h2⟩⟩
  | wakeup1 l =>
    simp only [exec, Except.ok.injEq] at he
    subst he
    refine ⟨fun q hq => ?_, fun _ _ => rfl, fun _ => rfl, .inl ⟨?_, by simp⟩, fun _ _ => ⟨rfl, ?_⟩,
      fun l' h1 h2 => .inl ?_⟩
    · simp only [setProc_ne hq]
      split
      · exact .wake _
      · exact .refl _
    · simp only [setProc_self]
      split
      · exact (Same.wake _).code
      · rfl
    · simp only [setProc_self]
      split
      · exact (Same.wake _).mine
      · rfl
    · simp only [setProc_self] at h1 h2
      split at h1
      · rw [if_pos ‹_›] at h2
        exact (Same.wake { s.proc p with code := is }).sleeping l' h1 h2
      · rw [if_neg ‹_›] at h2
        exact ⟨h1, h2⟩
  | kill q =>
    simp only [exec, Except.ok.injEq] at he
    subst he
    split
    · exact ⟨hother _, fun _ _ => rfl, fun _ => rfl, .inl (by simp), fun _ _ => by simp,
        fun l h1 h2 => .inl ⟨by simpa using h1, by simpa using h2⟩⟩
    · by_cases hpq : p = q
      · subst hpq
        have hkill := Same.killed { s.proc p with code := is }
        refine ⟨fun r hr => ?_, fun _ _ => rfl, fun _ => rfl, .inl ⟨?_, by simp⟩, fun _ _ => ⟨rfl, ?_⟩,
          fun l' h1 h2 => .inl ?_⟩
        · simpa [hr] using Same.refl _
        · simpa using hkill.code
        · simpa using hkill.mine
        · exact hkill.sleeping l' (by simpa using h1) (by simpa using h2)
      · refine ⟨fun r hr => ?_, fun _ _ => rfl, fun _ => rfl, .inl (by simp [hpq]),
          fun _ _ => by simp [hpq], fun l h1 h2 => .inl ⟨by simpa [hpq] using h1, by simpa [hpq] using h2⟩⟩
        by_cases hrq : r = q
        · subst hrq
          simpa [hr] using Same.killed _
        · simpa [hrq, hr] using Same.refl _
  | sleeping l =>
    simp only [exec, Except.ok.injEq] at he
    subst he
    exact ⟨hother _, fun _ _ => rfl, fun _ => rfl, .inl (by simp), fun _ _ => by simp,
      fun l' _ h2 => .inr (by simpa using h2)⟩
  | runnable =>
    simp only [exec, Except.ok.injEq] at he
    subst he
    exact ⟨hother _, fun _ _ => rfl, fun _ => rfl, .inl (by simp), fun _ _ => by simp, fun l' h1 => by simp at h1⟩
  | tidy =>
    simp only [exec, Except.ok.injEq] at he
    subst he
    exact ⟨hother _, fun _ _ => rfl, fun _ => rfl, .inl (by simp), fun _ _ => by simp, fun l' _ h2 => by simp at h2⟩

/-- A step that changes no sleep lock. -/
theorem Slks.plain (h : Slks s) (hslk : t.slk = s.slk) (hmine : ∀ q, (t.proc q).mine = (s.proc q).mine)
    (hunlock : ∀ q l, .unlock l ∈ (t.proc q).code → .unlock l ∈ (s.proc q).code ∨ (s.proc q).mine l = true)
    (htake : ∀ q l js, (t.proc q).code = .lock l :: js → (s.proc q).code = .lock l :: js ∨
    (s.slk l).locked = false) : Slks t := by
  refine ⟨fun q l hq => ?_, fun l hl => ?_, fun q l hq => ?_, fun q l js hq => ?_⟩
  · rw [hmine] at hq
    rw [hslk]
    exact h.mine q l hq
  · rw [hslk] at hl
    obtain ⟨q, hq⟩ := h.locked l hl
    exact ⟨q, by rw [hmine, hq]⟩
  · rw [hmine]
    exact (hunlock q l hq).elim (h.unlock q l) id
  · rw [hslk]
    exact (htake q l js hq).elim (h.take q l js) id

/-- Another process that is about to take or give `l` has its spin lock. -/
theorem Cpus.alone (h : Cpus s) (hrun : (s.cpu c).proc = some p) (hp : k ∈ owes eff (s.proc p).code)
    (hq : k ∈ owes eff (s.proc q).code)
    (hk : k ≠ .ptable) : q = p := by
  have hc : s.spin k = some c := (h.held c k).2 (by rw [holds_run hrun]; exact hp)
  by_contra hqp
  by_cases hoff : ∀ c', (s.cpu c').proc ≠ some q
  · rw [(h.off q hoff).2.1, Finset.mem_singleton] at hq
    exact hk hq
  · obtain ⟨c', hc'⟩ : ∃ c', (s.cpu c').proc = some q := by simpa using hoff
    have hheld : s.spin k = some c' := (h.held c' k).2 (by rw [holds_run hc']; exact hq)
    obtain rfl : c = c' := Option.some.inj (hc.symm.trans hheld)
    rw [hrun] at hc'
    exact hqp (Option.some.inj hc').symm

/-- A step of `p` that takes or gives the sleep lock `l`. -/
theorem Slks.change {z : Sleeplock} {b : Bool} {x : Proc} (h : Slks s) (hc : Cpus s)
    (hrun : (s.cpu c).proc = some p) (hcode : (s.proc p).code = i :: is)
    (hi : i = .lock l ∨ i = .unlock l) (hx : x.code = is ∧ x.mine = update (s.proc p).mine l b)
    (hz : z = if b then ⟨true, p⟩ else ⟨false, 0⟩)
    (hfree : ∀ q, q ≠ p → (s.proc q).mine l = false) (hunlock : b = false → .unlock l ∉ is) :
    Slks ((s.setProc p x).setSlk l z) := by
  have hshape : Shape (i :: is) := hcode ▸ hc.shape p
  have hslk : ∀ l', ((s.setProc p x).setSlk l z).slk l' = if l' = l then z else s.slk l' := fun l' => by
    simp only [State.setSlk, Function.update_apply, setProc_slk]
  have howes : .lk l ∈ owes eff (s.proc p).code := by
    rw [hcode]
    rcases hi with rfl | rfl
    · rw [owes_none rfl]
      exact hshape.kept.needs
    · rw [owes_none rfl]
      exact hshape.kept.needs
  have hmine : ∀ q l', (((s.setProc p x).setSlk l z).proc q).mine l' = if q = p ∧
    l' = l then b else (s.proc q).mine l' := fun q l' => by
    by_cases hq : q = p
    · subst hq
      by_cases hl : l' = l
      · subst hl
        simp [hx.2]
      · simp [hx.2, hl]
    · simp [hq]
  refine ⟨fun q l' hq => ?_, fun l' hl => ?_, fun q l' hq => ?_, fun q l' js hq => ?_⟩
  · rw [hmine] at hq
    rw [hslk]
    by_cases hl : l' = l
    · subst hl
      by_cases hqp : q = p
      · rw [if_pos ⟨hqp, rfl⟩] at hq
        rw [if_pos rfl, hz, if_pos hq, hqp]
      · rw [if_neg fun hr => hqp hr.1, hfree q hqp] at hq
        cases hq
    · rw [if_neg fun hr => hl hr.2] at hq
      rw [if_neg hl]
      exact h.mine q l' hq
  · rw [hslk] at hl
    by_cases hll : l' = l
    · rw [if_pos hll, hz] at hl
      refine ⟨p, ?_⟩
      rw [hmine, if_pos ⟨rfl, hll⟩]
      cases b with
      | true => rfl
      | false => cases hl
    · rw [if_neg hll] at hl
      obtain ⟨q, hq⟩ := h.locked l' hl
      exact ⟨q, by rw [hmine, if_neg fun hr => hll hr.2, hq]⟩
  · rw [hmine]
    by_cases hqp : q = p
    · subst hqp
      rw [setSlk_proc, setProc_self, hx.1] at hq
      split
      · next hr =>
        rw [hr.2] at hq
        cases b with
        | true => rfl
        | false => exact absurd hq (hunlock rfl)
      · exact h.unlock q l' (by rw [hcode]; exact List.mem_cons_of_mem _ hq)
    · rw [setSlk_proc, setProc_ne hqp] at hq
      rw [if_neg fun hr => hqp hr.1]
      exact h.unlock q l' hq
  · rw [hslk]
    by_cases hqp : q = p
    · subst hqp
      rw [setSlk_proc, setProc_self, hx.1] at hq
      rw [hq] at hshape
      rw [hshape.of_lock] at hi
      rcases hi with hi | hi <;> cases hi
    · rw [setSlk_proc, setProc_ne hqp] at hq
      have htake := h.take q l' js hq
      by_cases hl : l' = l
      · subst hl
        have hshapeq := hc.shape q
        rw [hq] at hshapeq
        exact absurd (hc.alone hrun howes (by rw [hq, owes_none rfl]; exact hshapeq.kept.needs) (by simp)) hqp
      · rw [if_neg hl]
        exact htake

theorem Slks.instr (h : Slks s) (hc : Cpus s) (hrun : (s.cpu c).proc = some p)
    (hcode : (s.proc p).code = i :: is) (he : exec c p i is s = .ok t) :
    Slks t := by
  have hshape : Shape (i :: is) := hcode ▸ hc.shape p
  have hran := exec_ran he
  by_cases hlock : ∃ l, i = .lock l
  · obtain ⟨l, rfl⟩ := hlock
    simp only [exec, Except.ok.injEq] at he
    subst he
    refine h.change (b := true) hc hrun hcode (.inl rfl) ⟨rfl, rfl⟩ rfl (fun q _ => ?_) (by simp)
    by_contra hq
    have := h.mine q l (by simpa using hq)
    have hfree := h.take p l is hcode
    rw [this] at hfree
    cases hfree
  by_cases hunlock : ∃ l, i = .unlock l
  · obtain ⟨l, rfl⟩ := hunlock
    simp only [exec, Except.ok.injEq] at he
    subst he
    have hmine := h.unlock p l (by rw [hcode]; exact List.mem_cons_self ..)
    refine h.change (b := false) hc hrun hcode (.inr rfl) ⟨rfl, rfl⟩ rfl (fun q hq => ?_) (fun _ => ?_)
    · by_contra hql
      have h1 := h.mine q l (by simpa using hql)
      have h2 := h.mine p l hmine
      rw [h1] at h2
      exact hq (by simpa using h2)
    · rw [hshape.unlock]
      simp [wakeup]
  obtain ⟨hslk, hmine⟩ := hran.mine (fun l hl => hlock ⟨l, hl⟩) fun l hl => hunlock ⟨l, hl⟩
  have hmines : ∀ q, (t.proc q).mine = (s.proc q).mine := fun q => by
    by_cases hqp : q = p
    · rw [hqp, hmine]
    · exact (hran.other q hqp).mine
  refine h.plain hslk hmines (fun q l hq => .inl ?_) fun q l js hq => ?_
  · by_cases hqp : q = p
    · subst hqp
      rcases hran.code with ⟨hgo, -⟩ | ⟨l', rfl, -, hgo⟩
      · rw [hgo] at hq
        rw [hcode]
        exact List.mem_cons_of_mem _ hq
      · rw [hgo, hshape.test] at hq
        simp [sleep] at hq
    · rwa [(hran.other q hqp).code] at hq
  · by_cases hqp : q = p
    · subst hqp
      rcases hran.code with ⟨hgo, htest⟩ | ⟨l', rfl, -, hgo⟩
      · rw [hgo] at hq
        rw [hq] at hshape
        exact .inr (htest l hshape.of_lock)
      · rw [hgo] at hq
        simp [sleep] at hq
    · rw [(hran.other q hqp).code] at hq
      exact .inl hq

/-! ## Wakeups -/

theorem Cpus.not_falls (h : Cpus s) (hoff : ∀ c, (s.cpu c).proc ≠ some q) : ¬ Falls l (s.proc q).code := by
  rintro ⟨js, hj⟩
  rcases (h.off q hoff).1 with hf | ⟨ks, hk⟩
  · rw [hf] at hj
    simp [forkret] at hj
  · rw [hk] at hj
    simp at hj

/-- Nobody is on the way to sleep on `l` while it is about to be waked. -/
theorem Cpus.falls_wakeup1 (h : Cpus s) (hrun : (s.cpu c).proc = some p)
    (hcode : (s.proc p).code = .wakeup1 l :: is) : ¬ Falls l (s.proc q).code := by
  intro hf
  have hshape : Shape (.wakeup1 l :: is) := hcode ▸ h.shape p
  have hshapeq := h.shape q
  have hlk : .lk l ∈ owes eff (s.proc p).code := by
    rw [hcode, hshape.wakeup1]
    simp [owes, eff, Eff.before]
  have hpt : s.spin .ptable = some c :=
    (h.held c .ptable).2 (by rw [holds_run hrun, hcode, owes_none rfl]; exact hshape.kept.needs)
  have hnot : q ≠ p := by
    rintro rfl
    obtain ⟨js, hj⟩ := hf
    rw [hcode] at hj
    simp at hj
  obtain ⟨js, hj | hj | hj⟩ := hf
  · -- `lk->lk` is held until `ptable.lock` is
    rw [hj] at hshapeq
    refine hnot (h.alone hrun hlk ?_ (by simp))
    rw [hj, owes_cons, (hshapeq.tail.kept.owes_give rfl).2]
    simp [eff, Eff.before]
  · rw [hj] at hshapeq
    refine hnot (h.alone hrun hlk ?_ (by simp))
    rw [hj, (hshapeq.kept.owes_give rfl).2]
    exact Finset.mem_insert_self ..
  · rw [hj] at hshapeq
    by_cases hoff : ∀ c', (s.cpu c').proc ≠ some q
    · exact h.not_falls (l := l) hoff ⟨js, .inr (.inr hj)⟩
    · obtain ⟨c', hc'⟩ : ∃ c', (s.cpu c').proc = some q := by simpa using hoff
      have hpt' : s.spin .ptable = some c' :=
        (h.held c' .ptable).2 (by rw [holds_run hc', hj, owes_none rfl]; exact hshapeq.kept.needs)
      obtain rfl : c = c' := Option.some.inj (hpt.symm.trans hpt')
      rw [hrun] at hc'
      exact hnot (Option.some.inj hc').symm

/-- Who waits afterwards waited before, or has just seen the lock taken. -/
theorem Ran.waiting (h : Ran s t c p i is) (hc : Cpus s) (hcode : (s.proc p).code = i :: is) (hw : Waiting t q l) :
    Waiting s q l ∨ i = .test l ∧ (s.slk l).locked = true := by
  have hshape : Shape (i :: is) := hcode ▸ hc.shape p
  by_cases hqp : q = p
  · subst hqp
    rcases hw with ⟨h1, h2⟩ | hf
    · rcases h.sleeping l h1 h2 with hs | rfl
      · exact .inl (.inl hs)
      · exact .inl (.inr ⟨is, .inr (.inr hcode)⟩)
    · rcases h.code with ⟨hgo, -⟩ | ⟨l', rfl, hl, hgo⟩
      · rw [hgo] at hf
        exact .inl (.inr (hcode ▸ hf.cons hshape))
      · rw [hgo] at hf
        obtain ⟨js, hj⟩ := hf
        have hll : l' = l := by
          simp [sleep] at hj
          exact hj.1
        exact .inr ⟨hll ▸ rfl, hll ▸ hl⟩
  · have hs := h.other q hqp
    rcases hw with ⟨h1, h2⟩ | hf
    · exact .inl (.inl (hs.sleeping l h1 h2))
    · exact .inl (.inr (hs.code ▸ hf))

theorem Awake.instr (h : Awake s) (hc : Cpus s) (hrun : (s.cpu c).proc = some p)
    (hcode : (s.proc p).code = i :: is) (he : exec c p i is s = .ok t) :
    Awake t := by
  have hshape : Shape (i :: is) := hcode ▸ hc.shape p
  have hran := exec_ran he
  intro q l hw
  rcases hran.waiting hc hcode hw with hws | ⟨rfl, hl⟩
  · by_cases hunlock : i = .unlock l
    · -- the lock is free now, and its last holder is on its way
      subst hunlock
      have hgo : (t.proc p).code = is := by simpa using hran.code
      refine .inr ⟨c, p, (hran.proc (by simp)).trans hrun, [.release .ptable, .release (.lk l)], .inl ?_⟩
      rw [hgo, hshape.unlock]
      rfl
    by_cases hwake : i = .wakeup1 l
    · subst hwake
      exfalso
      rcases hw with ⟨h1, h2⟩ | hf
      · simp only [exec, Except.ok.injEq] at he
        subst he
        simp only at h1 h2
        split at h1
        · simp only [Proc.wake] at h1
          split at h1
          · simp at h1
          · next hn => exact hn h1
        · next hn =>
          rw [if_neg hn] at h2
          exact hn h2
      · by_cases hqp : q = p
        · subst hqp
          have hgo : (t.proc q).code = is := by simpa using hran.code
          rw [hgo, hshape.wakeup1] at hf
          obtain ⟨js, hj⟩ := hf
          simp at hj
        · rw [(hran.other q hqp).code] at hf
          exact hc.falls_wakeup1 hrun hcode hf
    rcases h q l hws with hl | ⟨c', r, hr, hwk⟩
    · left
      by_cases hlock : ∃ l', i = .lock l'
      · obtain ⟨l', rfl⟩ := hlock
        simp only [exec, Except.ok.injEq] at he
        subst he
        by_cases hll : l = l' <;> simp [State.setSlk, hll, hl]
      by_cases hun : ∃ l', i = .unlock l'
      · obtain ⟨l', rfl⟩ := hun
        have hll : l ≠ l' := fun hll => hunlock (by rw [hll])
        simp only [exec, Except.ok.injEq] at he
        subst he
        simp [State.setSlk, hll, hl]
      · rw [(hran.mine (fun l hl => hlock ⟨l, hl⟩) fun l hl => hun ⟨l, hl⟩).1]
        exact hl
    · right
      by_cases hrp : r = p
      · subst hrp
        obtain rfl := hc.once hr hrun
        rw [hcode] at hwk
        obtain ⟨js, hj | hj⟩ := hwk
        · obtain ⟨rfl, rfl⟩ : i = .acquire .ptable ∧ is = .wakeup1 l :: js := by simpa using hj
          have hgo : (t.proc r).code = .wakeup1 l :: js := by simpa using hran.code
          exact ⟨c', r, (hran.proc (by simp)).trans hr, js, .inr hgo⟩
        · exact absurd (List.cons.inj hj).1 hwake
      · have hcc : c' ≠ c := by
          rintro rfl
          rw [hrun] at hr
          exact hrp (Option.some.inj hr).symm
        exact ⟨c', r, by rw [hran.cpu c' hcc, hr], by rw [(hran.other r hrp).code]; exact hwk⟩
  · left
    rw [(hran.mine (by simp) (by simp)).1]
    exact hl

/-! ## Runs -/

/-- What the steps of the scheduler leave of processes and sleep locks. -/
structure Quiet (s t : State) : Prop where
  slk : t.slk = s.slk
  same : ∀ q, (t.proc q).code = (s.proc q).code ∧ (t.proc q).mine = (s.proc q).mine
  sleeping : ∀ q l, (t.proc q).state = .SLEEPING → (t.proc q).chan = some l →
    (s.proc q).state = .SLEEPING ∧ (s.proc q).chan = some l
  run : ∀ c q, (s.cpu c).proc = some q → (t.cpu c).proc = some q

theorem Quiet.slks (h : Quiet s t) (hs : Slks s) : Slks t :=
  hs.plain h.slk (fun q => (h.same q).2) (fun q _ hq => .inl ((h.same q).1 ▸ hq)) fun q _ _ hq =>
    .inl ((h.same q).1 ▸ hq)

theorem Quiet.awake (h : Quiet s t) (hs : Awake s) : Awake t := by
  intro q l hw
  rw [h.slk]
  have hws : Waiting s q l := by
    rcases hw with ⟨h1, h2⟩ | hf
    · exact .inl (h.sleeping q l h1 h2)
    · exact .inr ((h.same q).1 ▸ hf)
  rcases hs q l hws with hl | ⟨c, r, hr, hwk⟩
  · exact .inl hl
  · exact .inr ⟨c, r, h.run c r hr, by rw [(h.same r).1]; exact hwk⟩

theorem quiet_enter (ht : Trans s (.enter c) t) : Quiet s t := by
  simp only [Trans, step] at ht
  split at ht
  · next hn =>
    cases hacq : acquire c .ptable (s.setCpu c { s.cpu c with fl := true }) with
    | error e =>
      rw [hacq] at ht
      cases ht
    | ok u =>
      rw [hacq] at ht
      simp only [Except.map, Except.ok.injEq] at ht
      obtain ⟨-, rfl⟩ := acquire_ok hacq
      subst ht
      refine ⟨rfl, fun q => ⟨rfl, rfl⟩, fun q l h1 h2 => ⟨h1, h2⟩, fun c' q hq => ?_⟩
      have hcc : c' ≠ c := by
        rintro rfl
        rw [hn.1] at hq
        cases hq
      simpa [hcc] using hq
  · cases ht

theorem quiet_leave (ht : Trans s (.leave c) t) : Quiet s t := by
  simp only [Trans, step] at ht
  split at ht
  · next hn =>
    cases hrel : release c .ptable s with
    | error e =>
      rw [hrel] at ht
      cases ht
    | ok u =>
      rw [hrel] at ht
      simp only [Except.map, Except.ok.injEq] at ht
      obtain ⟨-, x, -, rfl⟩ := release_ok hrel
      subst ht
      refine ⟨rfl, fun q => ⟨rfl, rfl⟩, fun q l h1 h2 => ⟨h1, h2⟩, fun c' q hq => ?_⟩
      have hcc : c' ≠ c := by
        rintro rfl
        rw [hn.1] at hq
        cases hq
      simpa [hcc] using hq
  · cases ht

theorem quiet_dispatch (ht : Trans s (.dispatch c p) t) : Quiet s t := by
  simp only [Trans, step] at ht
  split at ht
  · next hn =>
    rw [Except.ok.injEq] at ht
    subst ht
    refine ⟨rfl, fun q => ?_, fun q l h1 h2 => ?_, fun c' q hq => ?_⟩
    · by_cases hqp : q = p <;> simp [hqp]
    · by_cases hqp : q = p
      · simp [hqp] at h1
      · exact ⟨by simpa [hqp] using h1, by simpa [hqp] using h2⟩
    · have hcc : c' ≠ c := by
        rintro rfl
        rw [hn.1] at hq
        cases hq
      simpa [hcc] using hq
  · cases ht

/-- A running process that has another piece of code to run first. -/
theorem Slks.recode {x : Proc} {y : Cpu} (h : Slks s) (hmine : x.mine = (s.proc p).mine)
    (hunlock : ∀ l, .unlock l ∈ x.code → .unlock l ∈ (s.proc p).code ∨ (s.proc p).mine l = true)
    (hhead : ∀ l js, x.code ≠ .lock l :: js) :
    Slks ((s.setProc p x).setCpu c y) := by
  refine h.plain rfl (fun q => ?_) (fun q l hq => ?_) fun q l js hq => .inl ?_
  · by_cases hqp : q = p <;> simp [hqp, hmine]
  · by_cases hqp : q = p
    · subst hqp
      exact hunlock l (by simpa using hq)
    · exact .inl (by simpa [hqp] using hq)
  · by_cases hqp : q = p
    · subst hqp
      exact absurd (by simpa using hq) (hhead l js)
    · simpa [hqp] using hq

theorem Awake.recode {x : Proc} {y : Cpu} (h : Awake s) (hrun : (s.cpu c).proc = some p)
    (hy : y.proc = some p) (hstate : x.state = .RUNNING)
    (hfalls : ∀ l, ¬ Falls l x.code) (hwakes : ∀ l, ¬ Wakes l (s.proc p).code) :
    Awake ((s.setProc p x).setCpu c y) := by
  intro q l hw
  have hws : Waiting s q l := by
    by_cases hqp : q = p
    · subst hqp
      rcases hw with ⟨h1, -⟩ | hf
      · simp [hstate] at h1
      · exact absurd (by simpa using hf) (hfalls l)
    · rcases hw with ⟨h1, h2⟩ | hf
      · exact .inl ⟨by simpa [hqp] using h1, by simpa [hqp] using h2⟩
      · exact .inr (by simpa [hqp] using hf)
  rcases h q l hws with hl | ⟨c', r, hr, hwk⟩
  · exact .inl hl
  · have hrp : r ≠ p := by
      rintro rfl
      exact hwakes l hwk
    have hcc : c' ≠ c := by
      rintro rfl
      rw [hrun] at hr
      exact hrp (Option.some.inj hr).symm
    exact .inr ⟨c', r, by simpa [hcc] using hr, by simpa [hrp] using hwk⟩

structure Inv (s : State) : Prop where
  cpus : Cpus s
  slks : Slks s
  awake : Awake s

theorem Inv.call {f : Call} (h : Inv s) (ht : Trans s (.call c f) t) : Slks t ∧ Awake t := by
  simp only [Trans, step] at ht
  split at ht
  · cases ht
  · next p hrun =>
    split at ht
    · next hn =>
      rw [Except.ok.injEq] at ht
      have hstate : (s.proc p).state = .RUNNING := (h.cpus.ready hrun).2 fun js hjs => by
        rw [hn.1] at hjs
        cases hjs
      have hsame : (s.setProc p { s.proc p with code := f.code }).setCpu c (s.cpu c) =
        s.setProc p { s.proc p with code := f.code } := by
        rw [← setProc_cpu (s := s) (p := p) (x := { s.proc p with code := f.code })]
        exact setCpu_eta
      rw [← ht, ← hsame]
      refine ⟨h.slks.recode rfl (fun l hl => .inr ?_) fun l js => ?_,
        h.awake.recode hrun hrun hstate (fun l hf => ?_) fun l hw => ?_⟩
      · cases f <;> simp [Call.code, acquiresleep, releasesleep, wakeup, holdingsleep, kill] at hl
        subst hl
        simpa [Call.allowed] using hn.2
      · cases f <;> simp [Call.code, acquiresleep, releasesleep, holdingsleep, kill]
      · obtain ⟨js, hj⟩ := hf
        cases f <;> simp [Call.code, acquiresleep, releasesleep, holdingsleep, kill] at hj
      · obtain ⟨js, hj⟩ := hw
        simp [hn.1] at hj
    · cases ht

theorem Inv.timer (h : Inv s) (ht : Trans s (.timer c) t) : Slks t ∧ Awake t := by
  simp only [Trans, step] at ht
  split at ht
  · cases ht
  · next p hrun =>
    split at ht
    · next hn =>
      rw [Except.ok.injEq] at ht
      rw [← ht]
      refine ⟨h.slks.recode rfl (fun l hl => .inl (by simpa [yield] using hl)) fun l js => by simp [yield],
        h.awake.recode hrun hrun hn.2 (fun l hf => ?_) fun l hw => ?_⟩
      · obtain ⟨js, hj⟩ := hf
        simp [yield] at hj
      · -- whoever wakes has a spin lock, and interrupts off
        have hshape := h.cpus.shape p
        have hmem : (holds s c).Nonempty := by
          obtain ⟨js, hj | hj⟩ := hw
          · rw [hj] at hshape
            refine ⟨.lk l, ?_⟩
            rw [holds_run hrun, hj, hshape.tail.wakeup1]
            simp [owes, eff, Eff.before]
          · rw [hj] at hshape
            refine ⟨.ptable, ?_⟩
            rw [holds_run hrun, hj, owes_none rfl]
            exact hshape.kept.needs
        rw [h.cpus.fl c hmem] at hn
        exact absurd hn.1 Bool.false_ne_true
    · cases ht

theorem Inv.step (h : Inv s) {e : Event} (ht : Trans s e t) : Inv t := by
  have hc := h.cpus.step ht
  cases e with
  | instr c =>
    obtain ⟨p, i, is, hrun, hcode, he⟩ := instr_cases ht
    exact ⟨hc, h.slks.instr h.cpus hrun hcode he, h.awake.instr h.cpus hrun hcode he⟩
  | call c f => exact ⟨hc, (h.call ht).1, (h.call ht).2⟩
  | timer c => exact ⟨hc, (h.timer ht).1, (h.timer ht).2⟩
  | enter c => exact ⟨hc, (quiet_enter ht).slks h.slks, (quiet_enter ht).awake h.awake⟩
  | dispatch c p => exact ⟨hc, (quiet_dispatch ht).slks h.slks, (quiet_dispatch ht).awake h.awake⟩
  | leave c => exact ⟨hc, (quiet_leave ht).slks h.slks, (quiet_leave ht).awake h.awake⟩

theorem Inv.init (procs : Nat → Bool) : Inv (.init procs) := by
  have hholds : ∀ c, holds (.init procs) c = ∅ := fun c => by simp [holds, State.init]
  have hstate : ∀ p, ((State.init procs).proc p).state ≠ .RUNNING ∧
    ((State.init procs).proc p).state ≠ .SLEEPING := fun p => by
    simp only [State.init]
    split <;> decide
  refine ⟨⟨fun p => .fork (List.suffix_refl _), fun h => ?_, fun c k => ?_, fun c => ?_,
    fun c hc => ?_, fun h => ?_, fun h => ?_, fun p _ => ?_⟩,
    ⟨fun p l h => ?_, fun l h => ?_, fun p l h => ?_, fun p l js h => ?_⟩, fun p l h => ?_⟩
  · cases h
  · rw [hholds]
    simp [State.init]
  · rw [hholds]
    rfl
  · rw [hholds] at hc
    exact absurd hc Finset.not_nonempty_empty
  · cases h
  · cases h
  · exact ⟨.inl rfl, rfl, (hstate p).1⟩
  · cases h
  · cases h
  · simp [State.init, forkret] at h
  · simp [State.init, forkret] at h
  · rcases h with ⟨h, -⟩ | ⟨js, hj⟩
    · exact absurd h (hstate p).2
    · simp [State.init, forkret] at hj

/-- What holds in every state. -/
structure Safe (s : State) : Prop where
  fine : ∀ e m, step s e ≠ .error (.panic m)
  once : ∀ c c' p, (s.cpu c).proc = some p → (s.cpu c').proc = some p → c = c'
  mutex : ∀ l p q, (s.proc p).mine l = true → (s.proc q).mine l = true → p = q
  owner : ∀ l p, (s.proc p).mine l = true ↔ (s.slk l).locked = true ∧ (s.slk l).pid = p
  awake : ∀ p l, (s.proc p).state = .SLEEPING → (s.proc p).chan = some l →
    (s.slk l).locked = true ∨ ∃ c q, (s.cpu c).proc = some q ∧ .wakeup1 l ∈ (s.proc q).code

/-- **Sleep locks**, in every run of any processes on any CPUs: one process has a lock at a time, nobody
sleeps on a free lock that no one is about to announce, and nothing panics. -/
theorem sleeplocks_safe {procs : Nat → Bool} {es : List Event} (h : Lts.Run Trans (.init procs) es s) : Safe s := by
  have hinv : Inv s := h.inv (I := Inv) (fun _ _ _ hi ht => hi.step ht) (.init procs)
  have howner : ∀ l p, (s.proc p).mine l = true ↔ (s.slk l).locked = true ∧ (s.slk l).pid = p := fun l p => by
    constructor
    · intro hp
      rw [hinv.slks.mine p l hp]
      exact ⟨rfl, rfl⟩
    · rintro ⟨hl, rfl⟩
      obtain ⟨q, hq⟩ := hinv.slks.locked l hl
      rw [hinv.slks.mine q l hq]
      exact hq
  refine ⟨fun e m => hinv.cpus.fine e m, fun c c' p => hinv.cpus.once, fun l p q hp hq => ?_,
    howner, fun p l hs hc => ?_⟩
  · rw [← ((howner l p).1 hp).2, ((howner l q).1 hq).2]
  · rcases hinv.awake p l (.inl ⟨hs, hc⟩) with hl | ⟨c, q, hq, js, hj⟩
    · exact .inl hl
    · refine .inr ⟨c, q, hq, ?_⟩
      rcases hj with hj | hj <;> simp [hj]

/-- Process 1 has lock 7; an interrupt takes its CPU from it and gives it back; process 2 goes to sleep on 7,
on another CPU. -/
def contended : List Event :=
  [.enter 0, .dispatch 0 1, .instr 0, .call 0 (.acquiresleep 7)] ++ List.replicate 4 (.instr 0) ++
  [.timer 0] ++ List.replicate 3 (.instr 0) ++ [.dispatch 0 1] ++ List.replicate 3 (.instr 0) ++
  [.enter 1, .dispatch 1 2, .instr 1, .call 1 (.acquiresleep 7)] ++ List.replicate 6 (.instr 1) ++ [.leave 1]

/-- Process 1 gives it back, and process 2 wakes, has it and asks. -/
def handed : List Event :=
  [.call 0 (.releasesleep 7)] ++ List.replicate 6 (.instr 0) ++
  [.enter 1, .dispatch 1 2] ++ List.replicate 7 (.instr 1) ++ [.call 1 (.holdingsleep 7)] ++ List.replicate 3 (.instr 1)

theorem step_run {es : List Event} (h : es.foldlM (fun s e => (step s e).toOption) s = some t) : Lts.Run Trans s es t :=
  (Lts.Run.of_foldlM h).mono fun s e t h => by
    cases hstep : step s e with
    | error x =>
      rw [hstep] at h
      cases h
    | ok u =>
      rw [hstep] at h
      obtain rfl : u = t := Option.some.inj h
      exact hstep

/-- What a test asks of a state: is process 2 asleep, who has lock 7, what did `holdingsleep` return. -/
def asked (s : State) : Bool × Bool × Bool × Bool :=
  ((s.proc 2).state == .SLEEPING, (s.proc 1).mine 7, (s.proc 2).mine 7, (s.proc 2).r)

theorem sleeplocks_contended : ∃ s t, Lts.Run Trans (.init fun p => p == 1 || p == 2) contended s ∧
    Lts.Run Trans s handed t ∧
    asked s = (true, true, false, false) ∧ asked t = (false, false, true, true) ∧ Safe s ∧ Safe t := by
  have hs : ((contended.foldlM (fun s e => (step s e).toOption) (.init fun p => p == 1 || p == 2)).map asked) =
      some (true, true, false, false) := by decide +kernel
  have ht :
    (((contended ++ handed).foldlM (fun s e => (step s e).toOption) (.init fun p => p == 1 || p == 2)).map
    asked) =
      some (false, false, true, true) := by decide +kernel
  obtain ⟨s, hs, hask⟩ := Option.map_eq_some_iff.1 hs
  obtain ⟨t, ht, hask'⟩ := Option.map_eq_some_iff.1 ht
  rw [List.foldlM_append, hs] at ht
  have hcont := step_run hs
  have hhand : Lts.Run Trans s handed t := step_run ht
  exact ⟨s, t, hcont, hhand, hask, hask', sleeplocks_safe hcont, sleeplocks_safe (hcont.append hhand)⟩

end

end Xv6.Sleep
