import CCppProjects.Xv6.Sleep
/-
# The code a process can stand in

`Shape`: a piece of one call, with the calls of `yield` that interrupted it in front. From the shape alone
follows which spin locks the process holds (`Shape.kept`) and what comes before and after each instruction.
-/
namespace Xv6.Sleep

open Locks

def eff : Instr → Eff Spin
  | .acquire k => .take k
  | .release k => .give k
  | _ => .none

/-- The locks an instruction runs under. `sched` wants no other, an interrupt finds none. -/
def need : Instr → Finset Spin → Prop
  | .acquire _, _ => True
  | .release _, _ => True
  | .test l, o => .lk l ∈ o
  | .lock l, o => .lk l ∈ o
  | .unlock l, o => .lk l ∈ o
  | .read l, o => .lk l ∈ o
  | .sched, o => o = {.ptable}
  | .iret, o => o = ∅
  | _, o => .ptable ∈ o

/-- All that one call may run, from its last round on. -/
def Call.full : Call → List Instr
  | .acquiresleep l => Sleep.sleep l ++ [.test l, .lock l, .release (.lk l)]
  | f => f.code

inductive Shape : List Instr → Prop
  | call {is : List Instr} (f : Call) (h : is <:+ f.full) : Shape is
  | fork {is : List Instr} (h : is <:+ forkret) : Shape is
  | trap {is js : List Instr} (h : is <:+ yield) (hs : Shape js) (ho : owes eff js = ∅) : Shape (is ++ js)

/-- On the way to sleep on `l`, having seen it locked. -/
def Falls (l : Nat) (is : List Instr) : Prop :=
  ∃ js, is = .acquire .ptable :: .release (.lk l) :: .sleeping l :: js ∨ is = .release (.lk l) ::
    .sleeping l :: js ∨ is = .sleeping l :: js

/-- About to wake those who sleep on `l`. -/
def Wakes (l : Nat) (is : List Instr) : Prop := ∃ js, is = .acquire .ptable :: .wakeup1 l :: js ∨ is = .wakeup1 l :: js

/-- Where a process stands that no CPU runs. -/
def Parked (is : List Instr) : Prop := is = forkret ∨ ∃ js, is = .restore :: js

section

variable {i : Instr} {is js : List Instr} {l : Nat}

theorem kept_full (f : Call) : Kept eff need f.full := by
  cases f <;> simp [Call.full, Call.code, sleep, releasesleep, wakeup, holdingsleep,
    kill, Kept, owes, eff, need, Eff.before, Eff.fits]

theorem kept_yield : Kept eff need yield := by simp [yield, Kept, owes, eff, need, Eff.before, Eff.fits]

theorem kept_forkret : Kept eff need forkret := by simp [forkret, Kept, owes, eff, need, Eff.fits]

theorem Shape.kept (h : Shape is) : Kept eff need is := by
  induction h with
  | call f h => exact (kept_full f).suffix h
  | fork h => exact kept_forkret.suffix h
  | @trap is js h _ ho ih =>
    have hnil : owes eff js = owes eff [] := ho
    refine kept_append hnil ih ?_
    rw [List.append_nil]
    exact kept_yield.suffix h

/-- The first instruction belongs to a call, to a new process or to the last interrupt. -/
theorem Shape.head (h : Shape (i :: is)) : (∃ f : Call, i :: is <:+ f.full) ∨ i :: is = forkret ∨
    ∃ a js, i :: a <:+ yield ∧ is = a ++ js ∧ Shape js ∧ owes eff js = ∅ := by
  generalize hc : i :: is = code at h
  induction h generalizing i is with
  | call f h =>
    subst hc
    exact .inl ⟨f, h⟩
  | fork h =>
    subst hc
    refine .inr (.inl ?_)
    simpa [forkret, List.suffix_cons_iff] using h
  | @trap a js h hs ho ih =>
    cases a with
    | nil => exact ih hc
    | cons j a =>
      obtain ⟨rfl, rfl⟩ : i = j ∧ is = a ++ js := by simpa using hc
      exact .inr (.inr ⟨a, js, h, rfl, hs, ho⟩)

theorem Shape.nil : Shape [] := .fork (List.nil_suffix)

theorem Shape.tail (h : Shape (i :: is)) : Shape is := by
  rcases h.head with ⟨f, hf⟩ | hf | ⟨a, js, ha, rfl, hs, ho⟩
  · exact .call f ((List.suffix_cons i is).trans hf)
  · obtain rfl : is = [] := by simpa [forkret] using (List.cons.inj hf).2
    exact .nil
  · exact .trap ((List.suffix_cons i a).trans ha) hs ho

/-! ## What comes next -/

theorem Shape.test (h : Shape (.test l :: is)) : is = [.lock l, .release (.lk l)] := by
  rcases h.head with ⟨f, hf⟩ | hf | ⟨a, js, ha, -, -, -⟩
  · cases f <;> simp [Call.full, Call.code, Sleep.sleep, releasesleep, wakeup, holdingsleep,
      Sleep.kill, List.suffix_cons_iff] at hf
    obtain ⟨rfl, rfl⟩ := hf
    rfl
  · simp [forkret] at hf
  · simp [yield, List.suffix_cons_iff] at ha

theorem Shape.unlock (h : Shape (.unlock l :: is)) : is = wakeup l ++ [.release (.lk l)] := by
  rcases h.head with ⟨f, hf⟩ | hf | ⟨a, js, ha, -, -, -⟩
  · cases f <;> simp [Call.full, Call.code, Sleep.sleep, releasesleep, wakeup, holdingsleep,
      Sleep.kill, List.suffix_cons_iff] at hf
    obtain ⟨rfl, rfl⟩ := hf
    rfl
  · simp [forkret] at hf
  · simp [yield, List.suffix_cons_iff] at ha

theorem Shape.wakeup1 (h : Shape (.wakeup1 l :: is)) : is = [.release .ptable, .release (.lk l)] := by
  rcases h.head with ⟨f, hf⟩ | hf | ⟨a, js, ha, -, -, -⟩
  · cases f <;> simp [Call.full, Call.code, Sleep.sleep, releasesleep, wakeup, holdingsleep,
      Sleep.kill, List.suffix_cons_iff] at hf
    obtain ⟨rfl, rfl⟩ := hf
    rfl
  · simp [forkret] at hf
  · simp [yield, List.suffix_cons_iff] at ha

theorem Shape.sched (h : Shape (.sched :: is)) : ∃ js, is = .restore :: js := by
  rcases h.head with ⟨f, hf⟩ | hf | ⟨a, js, ha, rfl, -, -⟩
  · cases f <;> simp [Call.full, Call.code, Sleep.sleep, releasesleep, wakeup, holdingsleep,
      Sleep.kill, List.suffix_cons_iff] at hf
    exact ⟨_, hf⟩
  · simp [forkret] at hf
  · simp [yield, List.suffix_cons_iff] at ha
    subst ha
    exact ⟨_, rfl⟩

/-- The processor is given up right after the state is set. -/
theorem Shape.of_sched (h : Shape (i :: is)) : (∃ js, is = .sched :: js) ↔ i = .runnable ∨ ∃ l, i = .sleeping l := by
  rcases h.head with ⟨f, hf⟩ | hf | ⟨a, js, ha, rfl, hs, ho⟩
  · cases f <;> simp [Call.full, Call.code, Sleep.sleep, releasesleep, wakeup, holdingsleep,
      Sleep.kill, List.suffix_cons_iff] at hf
    all_goals repeat' rcases hf with ⟨rfl, rfl⟩ | hf
    all_goals simp_all
  · simp [forkret] at hf
    simp [hf]
  · -- what was interrupted holds no lock
    have hjs : ∀ x, js ≠ .sched :: x := by
      rintro x rfl
      rw [owes_none rfl, hs.kept.needs] at ho
      exact absurd ho (Finset.singleton_ne_empty _)
    simp [yield, List.suffix_cons_iff] at ha
    grind

theorem Shape.of_lock (h : Shape (i :: .lock l :: is)) : i = .test l := by
  rcases h.head with ⟨f, hf⟩ | hf | ⟨a, js, ha, hjs, hs, ho⟩
  · cases f <;> simp [Call.full, Call.code, Sleep.sleep, releasesleep, wakeup, holdingsleep,
      Sleep.kill, List.suffix_cons_iff] at hf
    exact hf.2.1 ▸ hf.1
  · simp [forkret] at hf
  · have hne : ∀ x, js ≠ .lock l :: x := by
      rintro x rfl
      have := hs.kept.needs
      rw [owes_none rfl] at ho
      rw [need, ho] at this
      exact absurd this (Finset.notMem_empty _)
    simp [yield, List.suffix_cons_iff] at ha
    grind

theorem Falls.owes (h : Falls l is) (hs : Shape is) : (owes eff is).Nonempty := by
  obtain ⟨js, rfl | rfl | rfl⟩ := h
  · have hg := (hs.tail.kept.owes_give rfl).2
    have := hs.kept.owes_take rfl
    exact ⟨.lk l, by rw [owes_cons, hg]; simp [eff, Eff.before]⟩
  · exact ⟨.lk l, by rw [(hs.kept.owes_give rfl).2]; exact Finset.mem_insert_self ..⟩
  · exact ⟨.ptable, by rw [owes_none rfl]; exact hs.kept.needs⟩

/-- The way to sleep starts at the test. -/
theorem Falls.cons (h : Falls l is) (hs : Shape (i :: is)) : Falls l (i :: is) := by
  have hne := h.owes hs.tail
  rcases hs.head with ⟨f, hf⟩ | hf | ⟨a, js, ha, hjs, hs', ho⟩
  · unfold Falls at h ⊢
    cases f <;> simp [Call.full, Call.code, Sleep.sleep, releasesleep, wakeup, holdingsleep,
      Sleep.kill, List.suffix_cons_iff] at hf
    all_goals repeat' rcases hf with ⟨rfl, rfl⟩ | hf
    all_goals simp_all
  · simp [forkret] at hf
    rw [hf.2] at hne
    simp at hne
  · unfold Falls at h ⊢
    simp [yield, List.suffix_cons_iff] at ha
    grind

end

end Xv6.Sleep
