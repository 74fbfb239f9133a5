import CCppProjects.Xv6.Ptable
/-
# kill, and the family tree

`Effect` is what a step does, `Moved` what most of them do: no process is made or ends. From it come the
invariant of the table (`Inv`) and that of the `killed` flags (`Unmarked`), which needs `Op.Clean`:
the search of `kill` does not look at `state` and nothing clears `killed` when a slot is taken, so

* `kill` marks an UNUSED slot whose `pid` is 0, or is left from a `fork` that failed;
* a process marked before its `fork` fails leaves its mark to the next one in the slot.
-/
namespace Xv6.Ptable

open Lts

variable {s s' : State} {op : Op} {i j np : Slot} {p q : Proc} {x : Int}

def Proc.Alive (p : Proc) : Prop := p.state = .SLEEPING ∨ p.state = .RUNNABLE ∨ p.state = .RUNNING

/-- The slot a `fork` under way has taken. -/
def Phase.child : Phase → Option Slot
  | .kalloc np | .copyuvm np | .made np => some np
  | .user | .wait => none

@[simp] theorem State.set_proc_self (s : State) (i : Slot) (p : Proc) : (s.set i p).proc i = p :=
  Function.update_self ..

@[simp] theorem State.set_nextpid (s : State) (i : Slot) (p : Proc) : (s.set i p).nextpid = s.nextpid := rfl

@[simp] theorem State.set_hit (s : State) (i : Slot) (p : Proc) : (s.set i p).hit = s.hit := rfl

@[simp] theorem State.set_waited (s : State) (i : Slot) (p : Proc) : (s.set i p).waited = s.waited := rfl

theorem State.set_proc_ne (hij : j ≠ i) : (s.set i p).proc j = s.proc j := Function.update_of_ne hij ..

theorem slot_ne {a b : ProcState} (hi : (s.proc i).state = a) (hj : (s.proc j).state = b) (hab : a ≠ b) : i ≠ j := by
  rintro rfl
  exact hab (hi.symm.trans hj)

theorem Proc.Alive.of_running (h : p.state = .RUNNING) : p.Alive := .inr (.inr h)

/-! ## first -/

variable {test : Proc → Bool}

theorem first_eq_none : first s test = none ↔ ∀ i, test (s.proc i) = false := by simp [first]

theorem first_spec (h : first s test = some i) : test (s.proc i) = true := by
  have := List.find?_some h
  exact this

theorem exists_first (test : Proc → Bool) (h : test (s.proc i) = true) : ∃ j, first s test = some j := by
  cases hf : first s test with
  | none =>
    rw [first_eq_none.1 hf i] at h
    cases h
  | some j => exact ⟨j, rfl⟩

/-! ## What a step does -/

/-- A process changes neither its identity nor what it does in `fork`, and is as alive as before. -/
structure Moved (p q : Proc) : Prop where
  pid : q.pid = p.pid
  parent : q.parent = p.parent
  child : q.phase.child = p.phase.child
  made : ∀ np, q.phase = .made np → p.phase = .made np
  state : q.state = p.state ∨ (p.Alive ∧ q.Alive)

theorem Moved.refl (p : Proc) : Moved p p := ⟨rfl, rfl, rfl, fun _ h => h, .inl rfl⟩

theorem Moved.alive_iff (h : Moved p q) : q.Alive ↔ p.Alive := by
  rcases h.state with h1 | h1
  · rw [Proc.Alive, h1, Proc.Alive]
  · exact ⟨fun _ => h1.1, fun _ => h1.2⟩

theorem Moved.eq_state (h : Moved p q) (hp : ¬ p.Alive) : q.state = p.state := h.state.resolve_right fun h => hp h.1

/-- One slot moves. -/
theorem moved_set (h : Moved (s.proc i) p) (j : Slot) : Moved (s.proc j) ((s.set i p).proc j) := by
  by_cases hj : j = i
  · subst hj
    rwa [State.set_proc_self]
  · rw [State.set_proc_ne hj]
    exact .refl _

theorem moved_wakeup1 (c : Option Chan) (j : Slot) : Moved (s.proc j) ((wakeup1 c s).proc j) := by
  rw [wakeup1]
  dsimp only
  split
  case isTrue h => exact ⟨rfl, rfl, rfl, fun _ h => h, .inr ⟨.inl h.1, .inr (.inl rfl)⟩⟩
  case isFalse => exact .refl _

/-- What `exit` of `i` leaves of the other processes: their children's parent is `init`. -/
structure Handed (i : Slot) (p q : Proc) : Prop where
  pid : q.pid = p.pid
  phase : q.phase = p.phase
  killed : q.killed = p.killed
  state : q.state = p.state ∨ (p.state = .SLEEPING ∧ q.state = .RUNNABLE)
  parent : q.parent = p.parent ∨ (p.parent = some i ∧ q.parent = some initproc)

/-- A step and its effect: most only move processes. -/
inductive Effect (s : State) : Op → State → Prop
  | moved {op : Op} {proc : Slot → Proc} : (∀ i, Moved (s.proc i) (proc i)) →
      (∀ i, ¬ (s.proc i).Alive → (proc i).killed = (s.proc i).killed) → Effect s op { s with proc := proc }
  | alloc {i np : Slot} : (s.proc i).state = .RUNNING → (s.proc i).phase = .user → (s.proc np).state = .UNUSED →
      Effect s (.fork i) (({ s.set np { s.proc np with state := .EMBRYO, pid := s.nextpid } with
        nextpid := s.nextpid + 1 } : State).setPhase i (.kalloc np))
  | fail {i np : Slot} {op : Op} : op = .kalloc i false ∨ op = .copyuvm i false → (s.proc i).phase.child = some np →
      (s.proc i).state = .RUNNING → Effect s op ((unalloc np s).setPhase i .user)
  | made {i np : Slot} : (s.proc i).phase = .copyuvm np → (s.proc i).state = .RUNNING →
      Effect s (.copyuvm i true) ((s.set np { s.proc np with parent := some i }).setPhase i (.made np))
  | born {i np : Slot} : (s.proc i).phase = .made np → (s.proc i).state = .RUNNING →
      Effect s (.runnable i) ((s.set np { s.proc np with state := .RUNNABLE }).setPhase i .user)
  | exited {i : Slot} : (s.proc i).state = .RUNNING → (s.proc i).phase = .user → i ≠ initproc →
      Effect s (.exit i) (exit i s)
  | reaped {i j : Slot} : (s.proc i).state = .RUNNING → (s.proc i).phase.child = none → (s.proc j).parent = some i →
      (s.proc j).state = .ZOMBIE → Effect s (.wait i)
        { (s.set j { s.proc j with pid := 0, parent := none, killed := false, state := .UNUSED }).setPhase i .user with
          waited := if (s.proc j).pid = -1 then s.waited else (s.proc j).pid :: s.waited }
  | killed {pid : Int} {hit : List Int} : (∀ x ∈ s.hit, x ∈ hit) →
      (∀ i, (s.proc i).state ≠ .UNUSED → (s.proc i).pid = pid → pid ∈ hit) →
      Effect s (.kill pid) { (kill pid s).2 with hit := hit }

/-- One process moves. -/
theorem Effect.moved_one (hm : Moved (s.proc i) p) (hk : ¬ (s.proc i).Alive → p.killed = (s.proc i).killed) :
    Effect s op (s.set i p) := by
  refine .moved (moved_set hm) fun j hj => ?_
  by_cases hji : j = i
  · subst hji
    rw [Function.update_self]
    exact hk hj
  · rw [Function.update_of_ne hji]

theorem Effect.nothing : Effect s op s := .moved (fun _ => .refl _) fun _ _ => rfl

theorem fork_effect (h : Trans s (.fork i) s') : Effect s (.fork i) s' := by
  simp only [Trans, step] at h
  obtain ⟨hi, h⟩ := Option.ite_none_right_eq_some.1 h
  rw [allocproc] at h
  cases hf : first s fun p => p.state = .UNUSED with
  | none =>
    rw [hf] at h
    obtain rfl := Option.some.inj h
    exact .nothing
  | some np =>
    rw [hf] at h
    obtain rfl := Option.some.inj h
    exact .alloc hi.1 hi.2 (by simpa using first_spec hf)

/-- `wait` takes the first zombie among the children; without one it returns -1 or sleeps. -/
theorem wait_effect (h : Trans s (.wait i) s') : Effect s (.wait i) s' := by
  simp only [Trans, step] at h
  obtain ⟨hi, h⟩ := Option.ite_none_right_eq_some.1 h
  have hchild : (s.proc i).phase.child = none := by rcases hi.2 with h1 | h1 <;> rw [h1] <;> rfl
  have halive : (s.proc i).Alive := .of_running hi.1
  rw [wait] at h
  cases hf : first s fun p => p.parent = some i ∧ p.state = .ZOMBIE with
  | some j =>
    rw [hf] at h
    obtain rfl := Option.some.inj h
    obtain ⟨h1, h2⟩ : (s.proc j).parent = some i ∧ (s.proc j).state = .ZOMBIE := by simpa using first_spec hf
    have hr := Effect.reaped hi.1 hchild h1 h2
    by_cases hpid : (s.proc j).pid = -1
    · rw [if_pos hpid] at hr ⊢
      exact hr
    · rw [if_neg hpid] at hr ⊢
      exact hr
  | none =>
    rw [hf] at h
    dsimp only at h
    split at h
    case h_1 r t heq =>
      split at heq
      case isTrue =>
        obtain ⟨hr, rfl⟩ := Prod.mk.inj heq
        obtain rfl : -1 = r := by simpa using hr
        obtain rfl := Option.some.inj h
        exact .moved_one ⟨rfl, rfl, hchild.symm, by simp, .inl rfl⟩ fun _ => rfl
      case isFalse => cases heq
    case h_2 t heq =>
      split at heq
      case isTrue => cases heq
      case isFalse =>
        obtain ⟨_, rfl⟩ := Prod.mk.inj heq
        obtain rfl := Option.some.inj h
        exact .moved_one ⟨rfl, rfl, hchild.symm, by simp, .inr ⟨halive, .inl rfl⟩⟩ fun _ => rfl

theorem kill_effect {pid : Int} (h : Trans s (.kill pid) s') : Effect s (.kill pid) s' := by
  obtain rfl := Option.some.inj h
  refine .killed (fun x hx => ?_) fun i hi hpid => ?_
  · split
    · exact List.mem_cons_of_mem _ hx
    · exact hx
  · obtain ⟨j, hj⟩ := exists_first (s := s) (i := i) (fun p => p.state ≠ .UNUSED ∧ p.pid = pid)
      (by simp [hi, hpid])
    rw [hj]
    simp

theorem step_effect (h : Trans s op s') : Effect s op s' := by
  cases op with
  | fork i => exact fork_effect h
  | kalloc i ok =>
    simp only [Trans, step] at h
    split at h
    case h_2 => cases h
    case h_1 np hph =>
      obtain ⟨hi, h⟩ := Option.ite_none_right_eq_some.1 h
      obtain rfl := Option.some.inj h
      cases ok with
      | false => exact .fail (.inl rfl) (by rw [hph]; rfl) hi
      | true => exact .moved_one ⟨rfl, rfl, by rw [hph]; rfl, by simp, .inl rfl⟩ fun _ => rfl
  | copyuvm i ok =>
    simp only [Trans, step] at h
    split at h
    case h_2 => cases h
    case h_1 np hph =>
      obtain ⟨hi, h⟩ := Option.ite_none_right_eq_some.1 h
      obtain rfl := Option.some.inj h
      cases ok with
      | false => exact .fail (.inr rfl) (by rw [hph]; rfl) hi
      | true => exact .made hph hi
  | runnable i =>
    simp only [Trans, step] at h
    split at h
    case h_2 => cases h
    case h_1 np hph =>
      obtain ⟨hi, h⟩ := Option.ite_none_right_eq_some.1 h
      obtain rfl := Option.some.inj h
      exact .born hph hi
  | exit i =>
    obtain ⟨hi, h⟩ := Option.ite_none_right_eq_some.1 h
    obtain rfl := Option.some.inj h
    exact .exited hi.1 hi.2.1 hi.2.2
  | wait i => exact wait_effect h
  | kill pid => exact kill_effect h
  | sleep i a =>
    obtain ⟨hi, h⟩ := Option.ite_none_right_eq_some.1 h
    obtain rfl := Option.some.inj h
    exact .moved_one ⟨rfl, rfl, rfl, fun _ h => h, .inr ⟨.of_running hi.1, .inl rfl⟩⟩ fun _ => rfl
  | wakeup a =>
    obtain rfl := Option.some.inj h
    refine .moved (moved_wakeup1 _) fun j _ => ?_
    split <;> rfl
  | yield i =>
    obtain ⟨hi, h⟩ := Option.ite_none_right_eq_some.1 h
    obtain rfl := Option.some.inj h
    exact .moved_one ⟨rfl, rfl, rfl, fun _ h => h, .inr ⟨.of_running hi.1, .inr (.inl rfl)⟩⟩ fun _ => rfl
  | sched i =>
    obtain ⟨hi, h⟩ := Option.ite_none_right_eq_some.1 h
    obtain rfl := Option.some.inj h
    exact .moved_one ⟨rfl, rfl, rfl, fun _ h => h, .inr ⟨.inr (.inl hi), .inr (.inr rfl)⟩⟩ fun _ => rfl
  | fault i =>
    obtain ⟨hi, h⟩ := Option.ite_none_right_eq_some.1 h
    obtain rfl := Option.some.inj h
    exact .moved_one ⟨rfl, rfl, rfl, fun _ h => h, .inl rfl⟩ fun hn => absurd (.of_running hi.1) hn

/-! ## exit -/

theorem Handed.refl (i : Slot) (p : Proc) : Handed i p p := ⟨rfl, rfl, rfl, .inl rfl, .inl rfl⟩

theorem Handed.trans {r : Proc} (h : Handed i p q) (h' : Handed i q r) : Handed i p r := by
  refine ⟨h'.pid.trans h.pid, h'.phase.trans h.phase, h'.killed.trans h.killed, ?_, ?_⟩
  · rcases h.state with h1 | h1
    · rw [← h1]
      exact h'.state
    · rcases h'.state with h2 | h2
      · exact .inr ⟨h1.1, h2.trans h1.2⟩
      · exact .inr ⟨h1.1, h2.2⟩
  · rcases h'.parent with h1 | h1
    · rw [h1]
      exact h.parent
    · rcases h.parent with h2 | h2
      · exact .inr ⟨h2 ▸ h1.1, h1.2⟩
      · exact .inr ⟨h2.1, h1.2⟩

theorem Handed.parent_ne (h : Handed i p q) (hi : i ≠ initproc) (hp : p.parent ≠ some i) : q.parent ≠ some i := by
  rcases h.parent with h1 | h1
  · rwa [h1]
  · rw [h1.2]
    exact fun e => hi (Option.some.inj e).symm

theorem Handed.alive_iff (h : Handed i p q) : q.Alive ↔ p.Alive := by
  rcases h.state with h1 | h1
  · rw [Proc.Alive, h1, Proc.Alive]
  · simp [Proc.Alive, h1.1, h1.2]

theorem handed_wakeup1 (i : Slot) (c : Option Chan) (k : Slot) : Handed i (s.proc k) ((wakeup1 c s).proc k) := by
  rw [wakeup1]
  dsimp only
  split
  case isTrue h => exact ⟨rfl, rfl, rfl, .inr ⟨h.1, rfl⟩, .inl rfl⟩
  case isFalse => exact .refl i _

theorem abandon_spec (hi : i ≠ initproc) (s : State) (j k : Slot) :
    Handed i (s.proc k) ((abandon i s j).proc k) ∧ ((abandon i s j).proc j).parent ≠ some i := by
  rw [abandon]
  by_cases hj : (s.proc j).parent = some i
  · rw [if_pos hj]
    have hset : ∀ k, Handed i (s.proc k) ((s.set j { s.proc j with parent := some initproc }).proc k) := fun k => by
      by_cases hk : k = j
      · subst hk
        rw [State.set_proc_self]
        exact ⟨rfl, rfl, rfl, .inl rfl, .inr ⟨hj, rfl⟩⟩
      · rw [State.set_proc_ne hk]
        exact .refl i _
    have hne : ((s.set j { s.proc j with parent := some initproc }).proc j).parent ≠ some i := by
      rw [State.set_proc_self]
      exact fun e => hi (Option.some.inj e).symm
    dsimp only
    split
    · exact ⟨(hset k).trans (handed_wakeup1 i _ k), (handed_wakeup1 i _ j).parent_ne hi hne⟩
    · exact ⟨hset k, hne⟩
  · rw [if_neg hj]
    exact ⟨.refl i _, hj⟩

theorem foldl_abandon_spec (hi : i ≠ initproc) {l : List Slot} {s : State} (k : Slot) :
    Handed i (s.proc k) ((l.foldl (abandon i) s).proc k) ∧
    (k ∈ l → ((l.foldl (abandon i) s).proc k).parent ≠ some i) := by
  induction l generalizing s with
  | nil => exact ⟨.refl i _, by simp⟩
  | cons j l ih =>
    obtain ⟨h1, h2⟩ := abandon_spec hi s j k
    obtain ⟨h3, h4⟩ := ih (s := abandon i s j)
    refine ⟨h1.trans h3, fun hk => ?_⟩
    rcases List.mem_cons.1 hk with rfl | hk
    · exact h3.parent_ne hi h2
    · exact h4 hk

@[simp] theorem foldl_abandon_rest {l : List Slot} {s : State} : (l.foldl (abandon i) s).nextpid = s.nextpid ∧
    (l.foldl (abandon i) s).hit = s.hit ∧ (l.foldl (abandon i) s).waited = s.waited := by
  induction l generalizing s with
  | nil => exact ⟨rfl, rfl, rfl⟩
  | cons j l ih =>
    have hj : (abandon i s j).nextpid = s.nextpid ∧ (abandon i s j).hit = s.hit ∧
      (abandon i s j).waited = s.waited := by
      rw [abandon]
      dsimp only
      split
      · split <;> exact ⟨rfl, rfl, rfl⟩
      · exact ⟨rfl, rfl, rfl⟩
    exact ⟨ih.1.trans hj.1, ih.2.1.trans hj.2.1, ih.2.2.trans hj.2.2⟩

/-- After `exit` of `i` nobody has `i` as its parent, and `i` is a zombie. -/
theorem exit_spec (hi : i ≠ initproc) (s : State) : ((exit i s).proc i).state = .ZOMBIE ∧
    (∀ k, ∃ q, Handed i (s.proc k) q ∧ q.parent ≠ some i ∧
      (exit i s).proc k = if k = i then { q with state := .ZOMBIE } else q) ∧
    (exit i s).nextpid = s.nextpid ∧ (exit i s).hit = s.hit ∧ (exit i s).waited = s.waited := by
  rw [exit]
  dsimp only
  generalize hs1 : wakeup1 ((s.proc i).parent.map .proc) s = s1
  have h1 : ∀ k, Handed i (s.proc k) (s1.proc k) := fun k => hs1 ▸ handed_wakeup1 i _ k
  have h2 := fun k => foldl_abandon_spec (l := List.finRange NPROC) (s := s1) hi k
  obtain ⟨h3, h4, h5⟩ := foldl_abandon_rest (i := i) (l := List.finRange NPROC) (s := s1)
  refine ⟨by rw [State.set_proc_self], fun k => ?_, ?_, ?_, ?_⟩
  · refine ⟨_, (h1 k).trans (h2 k).1, (h2 k).2 (List.mem_finRange k), ?_⟩
    by_cases hk : k = i
    · subst hk
      rw [State.set_proc_self, if_pos rfl]
    · rw [State.set_proc_ne hk, if_neg hk]
  · rw [State.set_nextpid, h3, ← hs1, wakeup1]
  · rw [State.set_hit, h4, ← hs1, wakeup1]
  · rw [State.set_waited, h5, ← hs1, wakeup1]

/-! ## The table -/

structure Inv (s : State) : Prop where
  fresh : 0 < s.nextpid
  lt : ∀ i, (s.proc i).pid < s.nextpid
  used : ∀ i, (s.proc i).state ≠ .UNUSED → 0 < (s.proc i).pid
  uniq : ∀ i j, (s.proc i).pid = (s.proc j).pid → (s.proc i).pid = 0 ∨ i = j
  child : ∀ i np, (s.proc i).phase.child = some np → (s.proc i).Alive ∧ (s.proc np).state = .EMBRYO
  one : ∀ i j np, (s.proc i).phase.child = some np → (s.proc j).phase.child = some np → i = j
  made : ∀ i np, (s.proc i).phase = .made np → (s.proc np).parent = some i
  tree : ∀ i, (s.proc i).Alive ∨ (s.proc i).state = .ZOMBIE → i ≠ initproc →
    ∃ p, (s.proc i).parent = some p ∧ (s.proc p).Alive
  init : (s.proc initproc).Alive
  waited : ∀ x ∈ s.waited, 0 < x ∧ x < s.nextpid ∧ ∀ i, (s.proc i).pid ≠ x
  once : s.waited.Nodup

/-- Moves keep the table. -/
theorem Inv.moved {proc : Slot → Proc} {hit : List Int} (h : Inv s) (hm : ∀ i, Moved (s.proc i) (proc i)) :
    Inv { s with proc := proc, hit := hit } := by
  refine ⟨h.fresh, fun i => ?_, fun i hi => ?_, fun i j hij => ?_, fun i np hn => ?_, fun i j np h1 h2 => ?_,
    fun i np hn => ?_, fun i hi hne => ?_, (hm _).alive_iff.2 h.init, fun x hx => ?_, h.once⟩
  · exact (hm i).pid ▸ h.lt i
  · rw [(hm i).pid]
    refine h.used i fun hu => hi ?_
    exact ((hm i).eq_state (by simp [Proc.Alive, hu])).trans hu
  · rw [(hm i).pid, (hm j).pid] at hij
    rw [(hm i).pid]
    exact h.uniq i j hij
  · obtain ⟨h1, h2⟩ := h.child i np ((hm i).child ▸ hn)
    exact ⟨(hm i).alive_iff.2 h1, ((hm np).eq_state (by simp [Proc.Alive, h2])).trans h2⟩
  · exact h.one i j np ((hm i).child ▸ h1) ((hm j).child ▸ h2)
  · exact (hm np).parent.trans (h.made i np ((hm i).made np hn))
  · have hi' : (s.proc i).Alive ∨ (s.proc i).state = .ZOMBIE := by
      rcases hi with hi | hi
      · exact .inl ((hm i).alive_iff.1 hi)
      · by_cases ha : (s.proc i).Alive
        · exact .inl ha
        · exact .inr (((hm i).eq_state ha).symm.trans hi)
    obtain ⟨p, h1, h2⟩ := h.tree i hi' hne
    exact ⟨p, (hm i).parent.trans h1, (hm p).alive_iff.2 h2⟩
  · obtain ⟨h1, h2, h3⟩ := h.waited x hx
    exact ⟨h1, h2, fun i => (hm i).pid ▸ h3 i⟩

theorem State.set_setPhase_proc (hne : i ≠ np) (ph : Phase) (k : Slot) : ((s.set np p).setPhase i ph).proc k =
    if k = i then { s.proc i with phase := ph } else if k = np then p else s.proc k := by
  rw [State.setPhase, State.set_proc_ne hne]
  by_cases hki : k = i
  · subst hki
    rw [if_pos rfl, State.set_proc_self]
  · rw [if_neg hki, State.set_proc_ne hki]
    by_cases hkn : k = np
    · subst hkn
      rw [if_pos rfl, State.set_proc_self]
    · rw [if_neg hkn, State.set_proc_ne hkn]

/-- One stage of `fork` by `i`: the slot `np` it has or takes changes to `q`. -/
structure Forked (s : State) (i np : Slot) (ph : Phase) (q : Proc) (t : State) : Prop where
  proc : ∀ k, t.proc k = if k = i then { s.proc i with phase := ph } else if k = np then q else s.proc k
  running : (s.proc i).state = .RUNNING
  taken : (s.proc np).state = .UNUSED ∨ (s.proc np).state = .EMBRYO
  sole : ∀ j, (s.proc j).phase.child = some np → j = i
  pid : (q.pid = (s.proc np).pid ∧ t.nextpid = s.nextpid ∧ (s.proc np).state = .EMBRYO) ∨
    (q.pid = s.nextpid ∧ t.nextpid = s.nextpid + 1)
  kept : q.phase = (s.proc np).phase
  state : (ph.child = some np ∧ q.state = .EMBRYO) ∨
    (ph.child = none ∧ (q.state = .UNUSED ∨ (q.state = .RUNNABLE ∧ q.parent = some i)))
  made : ∀ m, ph = .made m → q.parent = some i
  waited : t.waited = s.waited

theorem Inv.forked {ph : Phase} {t : State} (h : Inv s) (hf : Forked s i np ph q t) : Inv t := by
  have hdead : ¬ (s.proc np).Alive := by
    rcases hf.taken with h1 | h1 <;> simp [Proc.Alive, h1]
  have hrun : (s.proc i).Alive := .of_running hf.running
  have hne : np ≠ i := fun e => hdead (e ▸ hrun)
  have hself : t.proc np = q := by rw [hf.proc, if_neg hne, if_pos rfl]
  -- all but `np` keep everything but the phase of `i`
  have hrest : ∀ k, k ≠ np → (t.proc k).state = (s.proc k).state ∧ (t.proc k).pid = (s.proc k).pid ∧
      (t.proc k).parent = (s.proc k).parent := fun k hk => by
    rw [hf.proc, if_neg hk]
    split
    case isTrue e => exact ⟨by rw [e], by rw [e], by rw [e]⟩
    case isFalse => exact ⟨rfl, rfl, rfl⟩
  have halive : ∀ k, (s.proc k).Alive → (t.proc k).Alive := fun k hk => by
    rw [Proc.Alive, (hrest k fun e => hdead (e ▸ hk)).1]
    exact hk
  have hnext : s.nextpid ≤ t.nextpid := by
    rcases hf.pid with h1 | h1 <;> omega
  have hchild : ∀ k m, (t.proc k).phase.child = some m → (k = i ∧ ph.child = some m) ∨
      (k ≠ i ∧ m ≠ np ∧ (s.proc k).phase.child = some m) := fun k m hk => by
    rw [hf.proc] at hk
    by_cases hki : k = i
    · rw [if_pos hki] at hk
      exact .inl ⟨hki, hk⟩
    · have hk' : (s.proc k).phase.child = some m := by
        rw [if_neg hki] at hk
        split at hk
        case isTrue e => rw [e, ← hf.kept, hk]
        case isFalse => exact hk
      exact .inr ⟨hki, fun e => hki (hf.sole k (e ▸ hk')), hk'⟩
  have hph : ∀ m, ph.child = some m → m = np ∧ q.state = .EMBRYO := fun m hm => by
    rcases hf.state with h1 | h1
    · exact ⟨Option.some.inj (hm.symm.trans h1.1), h1.2⟩
    · rw [h1.1] at hm
      cases hm
  refine ⟨by have := h.fresh; omega, fun k => ?_, fun k hk => ?_, fun k l hkl => ?_, fun k m hn => ?_,
    fun k l m hk hl => ?_, fun k m hn => ?_, fun k hk hki => ?_, halive _ h.init, fun x hx => ?_, hf.waited ▸ h.once⟩
  · by_cases hk : k = np
    · rw [hk, hself]
      have := h.lt np
      rcases hf.pid with h1 | h1 <;> omega
    · have := h.lt k
      have := (hrest k hk).2.1
      omega
  · by_cases hkn : k = np
    · rw [hkn, hself]
      rcases hf.pid with ⟨h1, _, h3⟩ | h1
      · exact h1 ▸ h.used np (by simp [h3])
      · have := h.fresh
        omega
    · rw [(hrest k hkn).2.1]
      exact h.used k ((hrest k hkn).1 ▸ hk)
  · -- the new pid is above all others
    have huniq := h.uniq k l
    have h1 := h.lt k
    have h2 := h.lt l
    by_cases hk : k = np <;> by_cases hl : l = np
    · exact .inr (hk.trans hl.symm)
    · rw [hk, hself, (hrest l hl).2.1] at hkl
      rw [hk, hself]
      rw [hk] at huniq
      rcases hf.pid with ⟨h3, _⟩ | ⟨h3, _⟩
      · rw [h3] at hkl ⊢
        exact huniq hkl
      · omega
    · rw [hl, hself, (hrest k hk).2.1] at hkl
      rw [(hrest k hk).2.1]
      rw [hl] at huniq
      rcases hf.pid with ⟨h3, _⟩ | ⟨h3, _⟩
      · rw [h3] at hkl
        exact (huniq hkl).imp_right fun e => e.trans hl.symm
      · omega
    · rw [(hrest k hk).2.1, (hrest l hl).2.1] at hkl
      rw [(hrest k hk).2.1]
      exact huniq hkl
  · rcases hchild k m hn with ⟨rfl, h1⟩ | ⟨_, hm, h1⟩
    · obtain ⟨rfl, h2⟩ := hph m h1
      exact ⟨halive k hrun, by rw [hself, h2]⟩
    · obtain ⟨h2, h3⟩ := h.child k m h1
      exact ⟨halive k h2, (hrest m hm).1.trans h3⟩
  · rcases hchild k m hk with ⟨rfl, h1⟩ | ⟨_, hm, h1⟩ <;> rcases hchild l m hl with ⟨rfl, h2⟩ | ⟨_, hm', h2⟩
    · rfl
    · exact absurd (hph m h1).1 hm'
    · exact absurd (hph m h2).1 hm
    · exact h.one k l m h1 h2
  · rcases hchild k m (by rw [hn]; rfl) with ⟨rfl, h1⟩ | ⟨hk, hm, _⟩
    · rw [hf.proc, if_pos rfl] at hn
      rw [(hph m h1).1, hself]
      exact hf.made m hn
    · have hkn : k ≠ np := by
        rintro rfl
        rw [hself, hf.kept] at hn
        exact hdead (h.child k m (by rw [hn]; rfl)).1
      rw [hf.proc, if_neg hk, if_neg hkn] at hn
      exact (hrest m hm).2.2.trans (h.made k m hn)
  · by_cases hkn : k = np
    · rw [hkn, hself] at hk ⊢
      refine ⟨i, ?_, halive i hrun⟩
      rcases hf.state with ⟨_, h1⟩ | ⟨_, h1 | h1⟩
      · simp [Proc.Alive, h1] at hk
      · simp [Proc.Alive, h1] at hk
      · exact h1.2
    · rw [Proc.Alive, (hrest k hkn).1] at hk
      obtain ⟨p, h1, h2⟩ := h.tree k hk hki
      exact ⟨p, (hrest k hkn).2.2.trans h1, halive p h2⟩
  · rw [hf.waited] at hx
    obtain ⟨h1, h2, h3⟩ := h.waited x hx
    refine ⟨h1, by omega, fun k => ?_⟩
    by_cases hk : k = np
    · rw [hk, hself]
      rcases hf.pid with ⟨h4, _⟩ | h4
      · rw [h4]
        exact h3 np
      · omega
    · rw [(hrest k hk).2.1]
      exact h3 k

theorem Inv.exited (h : Inv s) (hr : (s.proc i).state = .RUNNING) (hph : (s.proc i).phase = .user) (hi : i ≠ initproc) :
    Inv (exit i s) := by
  obtain ⟨_, hproc, hnext, _, hwait⟩ := exit_spec hi s
  generalize exit i s = t at *
  have hrun : (s.proc i).Alive := .of_running hr
  have hsame : ∀ k, (t.proc k).pid = (s.proc k).pid ∧ (t.proc k).phase = (s.proc k).phase := fun k => by
    obtain ⟨q, hq, _, heq⟩ := hproc k
    rw [heq]
    split <;> exact ⟨hq.pid, hq.phase⟩
  have hrest : ∀ k, k ≠ i → ∃ q, Handed i (s.proc k) q ∧ q.parent ≠ some i ∧ t.proc k = q := fun k hk => by
    obtain ⟨q, hq, hne, heq⟩ := hproc k
    exact ⟨q, hq, hne, by rw [heq, if_neg hk]⟩
  have halive : ∀ k, k ≠ i → ((s.proc k).Alive ↔ (t.proc k).Alive) := fun k hk => by
    obtain ⟨q, hq, _, heq⟩ := hrest k hk
    rw [heq]
    exact hq.alive_iff.symm
  -- nobody waits for `i` in `fork`
  have hnot : ∀ m, (s.proc i).phase.child ≠ some m := fun m => by
    rw [hph]
    exact (Option.some_ne_none m).symm
  refine ⟨hnext ▸ h.fresh, fun k => ?_, fun k hk => ?_, fun k l hkl => ?_, fun k m hn => ?_, fun k l m hk hl => ?_,
    fun k m hn => ?_, fun k hk hki => ?_, (halive _ hi.symm).1 h.init, fun x hx => ?_, hwait ▸ h.once⟩
  · rw [(hsame k).1, hnext]
    exact h.lt k
  · rw [(hsame k).1]
    refine h.used k fun hu => ?_
    have hki : k ≠ i := slot_ne hu hr (by decide)
    obtain ⟨q, hq, _, heq⟩ := hrest k hki
    rw [heq] at hk
    rcases hq.state with h1 | h1
    · exact hk (h1.trans hu)
    · rw [h1.1] at hu
      cases hu
  · rw [(hsame k).1, (hsame l).1] at hkl
    rw [(hsame k).1]
    exact h.uniq k l hkl
  · rw [(hsame k).2] at hn
    have hki : k ≠ i := by
      rintro rfl
      exact hnot m hn
    obtain ⟨h1, h2⟩ := h.child k m hn
    have hmi : m ≠ i := slot_ne h2 hr (by decide)
    obtain ⟨q, hq, _, heq⟩ := hrest m hmi
    refine ⟨(halive k hki).1 h1, ?_⟩
    rw [heq]
    rcases hq.state with h3 | h3
    · exact h3.trans h2
    · rw [h3.1] at h2
      cases h2
  · rw [(hsame k).2] at hk
    rw [(hsame l).2] at hl
    exact h.one k l m hk hl
  · rw [(hsame k).2] at hn
    have hki : k ≠ i := by
      rintro rfl
      exact hnot m (by rw [hn]; rfl)
    obtain ⟨q, hq, _, heq⟩ := hproc m
    have hparent : q.parent = some k := by
      rcases hq.parent with h1 | h1
      · exact h1.trans (h.made k m hn)
      · exact absurd (Option.some.inj ((h.made k m hn).symm.trans h1.1)) hki
    rw [heq]
    split <;> exact hparent
  · obtain ⟨q, hq, hne, heq⟩ := hproc k
    have hk' : (s.proc k).Alive ∨ (s.proc k).state = .ZOMBIE := by
      by_cases hke : k = i
      · exact .inl (hke ▸ hrun)
      · rcases hk with hk | hk
        · exact .inl ((halive k hke).2 hk)
        · rw [heq, if_neg hke] at hk
          rcases hq.state with h1 | h1
          · exact .inr (h1.symm.trans hk)
          · exact .inl (.inl h1.1)
    obtain ⟨p, h1, h2⟩ := h.tree k hk' hki
    have hparent : (t.proc k).parent = q.parent := by
      rw [heq]
      split <;> rfl
    rw [hparent]
    rcases hq.parent with h3 | h3
    · refine ⟨p, h3.trans h1, (halive p ?_).1 h2⟩
      rintro rfl
      exact hne (h3.trans h1)
    · exact ⟨initproc, h3.2, (halive _ hi.symm).1 h.init⟩
  · rw [hwait] at hx
    obtain ⟨h1, h2, h3⟩ := h.waited x hx
    exact ⟨h1, hnext ▸ h2, fun k => (hsame k).1 ▸ h3 k⟩

theorem Inv.reaped {t : State} (h : Inv s) (hr : (s.proc i).state = .RUNNING)
    (hj : (s.proc j).state = .ZOMBIE)
    (hproc : ∀ k, t.proc k = if k = i then { s.proc i with phase := .user } else if k = j then
      { s.proc j with pid := 0, parent := none, killed := false, state := .UNUSED } else s.proc k)
    (hnext : t.nextpid = s.nextpid) (hwait : t.waited = (s.proc j).pid :: s.waited) : Inv t := by
  have hdead : ¬ (s.proc j).Alive := by simp [Proc.Alive, hj]
  have hrun : (s.proc i).Alive := .of_running hr
  have hij : j ≠ i := fun e => hdead (e ▸ hrun)
  have hself : t.proc j = { s.proc j with pid := 0, parent := none, killed := false, state := .UNUSED } := by
    rw [hproc, if_neg hij, if_pos rfl]
  have hrest : ∀ k, k ≠ j → (t.proc k).state = (s.proc k).state ∧ (t.proc k).pid = (s.proc k).pid ∧
      (t.proc k).parent = (s.proc k).parent := fun k hk => by
    rw [hproc, if_neg hk]
    split
    case isTrue e => exact ⟨by rw [e], by rw [e], by rw [e]⟩
    case isFalse => exact ⟨rfl, rfl, rfl⟩
  have halive : ∀ k, (s.proc k).Alive → (t.proc k).Alive := fun k hk => by
    rw [Proc.Alive, (hrest k fun e => hdead (e ▸ hk)).1]
    exact hk
  have hphase : ∀ k, (t.proc k).phase = (s.proc k).phase ∨ (t.proc k).phase = .user := fun k => by
    rw [hproc]
    by_cases hk : k = i
    · exact .inr (by rw [if_pos hk])
    · rw [if_neg hk]
      split
      case isTrue e => exact .inl (by rw [e])
      case isFalse => exact .inl rfl
  have hchild : ∀ k m, (t.proc k).phase.child = some m → (s.proc k).phase.child = some m := fun k m hk => by
    rcases hphase k with h1 | h1
    · rwa [← h1]
    · rw [h1] at hk
      cases hk
  have hpid : 0 < (s.proc j).pid := h.used j (by simp [hj])
  refine ⟨hnext ▸ h.fresh, fun k => ?_, fun k hk => ?_, fun k l hkl => ?_, fun k m hn => ?_,
    fun k l m hk hl => h.one k l m (hchild k m hk) (hchild l m hl), fun k m hn => ?_,
    fun k hk hki => ?_, halive _ h.init,
    fun x hx => ?_, ?_⟩
  · rw [hnext]
    by_cases hk : k = j
    · rw [hk, hself]
      exact h.fresh
    · exact (hrest k hk).2.1 ▸ h.lt k
  · have hkj : k ≠ j := by
      rintro rfl
      rw [hself] at hk
      exact hk rfl
    rw [(hrest k hkj).2.1]
    exact h.used k ((hrest k hkj).1 ▸ hk)
  · by_cases hk : k = j <;> by_cases hl : l = j
    · exact .inr (hk.trans hl.symm)
    · exact .inl (by rw [hk, hself])
    · exact .inl (by rw [hkl, hl, hself])
    · rw [(hrest k hk).2.1, (hrest l hl).2.1] at hkl
      rw [(hrest k hk).2.1]
      exact h.uniq k l hkl
  · obtain ⟨h1, h2⟩ := h.child k m (hchild k m hn)
    have hmj : m ≠ j := slot_ne h2 hj (by decide)
    exact ⟨halive k h1, (hrest m hmj).1.trans h2⟩
  · have hn' : (s.proc k).phase = .made m := by
      rcases hphase k with h1 | h1
      · exact h1.symm.trans hn
      · rw [h1] at hn
        cases hn
    have h2 := (h.child k m (by rw [hn']; rfl)).2
    have hmj : m ≠ j := slot_ne h2 hj (by decide)
    exact (hrest m hmj).2.2.trans (h.made k m hn')
  · have hkj : k ≠ j := by
      rintro rfl
      rw [hself] at hk
      rcases hk with (hk | hk | hk) | hk <;> cases hk
    rw [Proc.Alive, (hrest k hkj).1] at hk
    obtain ⟨p, h1, h2⟩ := h.tree k hk hki
    exact ⟨p, (hrest k hkj).2.2.trans h1, halive p h2⟩
  · rw [hwait] at hx
    have hout : ∀ k, (t.proc k).pid = 0 ∨ (k ≠ j ∧ (t.proc k).pid = (s.proc k).pid) := fun k => by
      by_cases hk : k = j
      · exact .inl (by rw [hk, hself])
      · exact .inr ⟨hk, (hrest k hk).2.1⟩
    rcases List.mem_cons.1 hx with rfl | hx
    · refine ⟨hpid, hnext ▸ h.lt j, fun k he => ?_⟩
      rcases hout k with h1 | ⟨h1, h2⟩
      · omega
      · rcases h.uniq k j (h2.symm.trans he) with h3 | h3
        · omega
        · exact h1 h3
    · obtain ⟨h1, h2, h3⟩ := h.waited x hx
      refine ⟨h1, hnext ▸ h2, fun k he => ?_⟩
      rcases hout k with h4 | h4
      · omega
      · exact h3 k (h4.2.symm.trans he)
  · rw [hwait]
    exact List.nodup_cons.2 ⟨fun hm => (h.waited _ hm).2.2 j rfl, h.once⟩

/-! ## kill -/

theorem kill_eq (pid : Int) (s : State) : (∃ i, (s.proc i).pid = pid ∧ kill pid s = (0, s.set i { s.proc i with
      killed := true, state := if (s.proc i).state = .SLEEPING then .RUNNABLE else (s.proc i).state })) ∨
    ((∀ i, (s.proc i).pid ≠ pid) ∧ kill pid s = (-1, s)) := by
  rw [kill]
  cases hf : first s fun p => p.pid = pid with
  | some i => exact .inl ⟨i, by simpa using first_spec hf, rfl⟩
  | none => exact .inr ⟨by simpa using first_eq_none.1 hf, rfl⟩

theorem moved_kill (pid : Int) (s : State) (k : Slot) : Moved (s.proc k) ((kill pid s).2.proc k) := by
  rcases kill_eq pid s with ⟨i, _, h⟩ | ⟨_, h⟩
  · have hm : Moved (s.proc i) { s.proc i with
        killed := true, state := if (s.proc i).state = .SLEEPING then .RUNNABLE else (s.proc i).state } := by
      refine ⟨rfl, rfl, rfl, fun _ h => h, ?_⟩
      dsimp only
      split
      case isTrue hs => exact .inr ⟨.inl hs, .inr (.inl rfl)⟩
      case isFalse => exact .inl rfl
    rw [h]
    exact moved_set hm k
  · rw [h]
    exact .refl _

theorem kill_rest (pid : Int) (s : State) : (kill pid s).2.nextpid = s.nextpid ∧ (kill pid s).2.waited = s.waited := by
  rcases kill_eq pid s with ⟨i, _, h⟩ | ⟨_, h⟩ <;> rw [h] <;> exact ⟨rfl, rfl⟩

/-- Every step keeps the table. -/
theorem Inv.step (h : Inv s) (hstep : Trans s op s') : Inv s' := by
  cases step_effect hstep with
  | moved hm _ => exact h.moved hm
  | @alloc i np hr hph hu =>
    have hne : i ≠ np := slot_ne hr hu (by decide)
    refine h.forked ⟨State.set_setPhase_proc hne (.kalloc np), hr, .inl hu, fun j hj => ?_, .inr ⟨rfl, rfl⟩, rfl,
      .inl ⟨rfl, rfl⟩, by simp, rfl⟩
    rw [(h.child j np hj).2] at hu
    cases hu
  | @fail i np _ _ hc hr =>
    obtain ⟨_, he⟩ := h.child i np hc
    have hne : i ≠ np := slot_ne hr he (by decide)
    exact h.forked ⟨State.set_setPhase_proc hne .user, hr, .inr he, fun j hj => h.one j i np hj hc, .inl ⟨rfl, rfl, he⟩,
      rfl, .inr ⟨rfl, .inl rfl⟩, by simp, rfl⟩
  | @made i np hph hr =>
    have hc : (s.proc i).phase.child = some np := by rw [hph]; rfl
    obtain ⟨_, he⟩ := h.child i np hc
    have hne : i ≠ np := slot_ne hr he (by decide)
    exact h.forked ⟨State.set_setPhase_proc hne (.made np), hr, .inr he, fun j hj => h.one j i np hj hc,
      .inl ⟨rfl, rfl, he⟩, rfl, .inl ⟨rfl, he⟩, fun _ _ => rfl, rfl⟩
  | @born i np hph hr =>
    have hc : (s.proc i).phase.child = some np := by rw [hph]; rfl
    obtain ⟨_, he⟩ := h.child i np hc
    have hne : i ≠ np := slot_ne hr he (by decide)
    exact h.forked ⟨State.set_setPhase_proc hne .user, hr, .inr he, fun j hj => h.one j i np hj hc,
      .inl ⟨rfl, rfl, he⟩, rfl, .inr ⟨rfl, .inr ⟨rfl, h.made i np hph⟩⟩, by simp, rfl⟩
  | exited hr hph hi => exact h.exited hr hph hi
  | @reaped i j hr _ _ hz =>
    have hne : i ≠ j := slot_ne hr hz (by decide)
    have hpid : (s.proc j).pid ≠ -1 := by
      have := h.used j (by simp [hz])
      omega
    exact h.reaped hr hz (State.set_setPhase_proc hne .user) rfl (if_neg hpid)
  | @killed pid hit _ _ =>
    obtain ⟨h1, h2⟩ := kill_rest pid s
    have hk : Inv { s with proc := (kill pid s).2.proc, hit := hit } := h.moved (moved_kill pid s)
    rwa [← h1, ← h2] at hk

theorem inv_init : Inv State.init := by
  have hproc : ∀ i, State.init.proc i = if i = initproc then ⟨.RUNNABLE, 1, none, false, none, .user⟩ else
      ⟨.UNUSED, 0, none, false, none, .user⟩ := fun _ => rfl
  have hinit : State.init.proc initproc = ⟨.RUNNABLE, 1, none, false, none, .user⟩ := by rw [hproc, if_pos rfl]
  have hrest : ∀ i, i ≠ initproc → State.init.proc i = ⟨.UNUSED, 0, none, false, none, .user⟩ := fun i hi => by
    rw [hproc, if_neg hi]
  have hphase : ∀ i, (State.init.proc i).phase = .user := fun i => by
    rw [hproc]
    split <;> rfl
  have hnext : State.init.nextpid = 2 := rfl
  refine ⟨by decide, fun i => ?_, fun i hi => ?_, fun i j hij => ?_, fun i np hn => ?_, fun i j np hn => ?_,
    fun i np hn => ?_, fun i hi hne => ?_, ?_, by simp [State.init], by simp [State.init]⟩
  · by_cases hi : i = initproc
    · rw [hi, hinit, hnext]
      decide
    · rw [hrest i hi, hnext]
      decide
  · by_cases hie : i = initproc
    · rw [hie, hinit]
      decide
    · rw [hrest i hie] at hi
      exact absurd rfl hi
  · by_cases hi : i = initproc
    · by_cases hj : j = initproc
      · exact .inr (hi.trans hj.symm)
      · rw [hi, hinit, hrest j hj] at hij
        exact absurd hij (by decide)
    · exact .inl (by rw [hrest i hi])
  · rw [hphase] at hn
    cases hn
  · rw [hphase] at hn
    cases hn
  · rw [hphase] at hn
    cases hn
  · rw [hrest i hne, Proc.Alive] at hi
    simp at hi
  · rw [hinit]
    exact .inr (.inl rfl)

/-! ## The claims of the table -/

/-- Nobody is the child of an empty slot or of a zombie. -/
def Tree (s : State) : Prop := ∀ i, (s.proc i).Alive ∨ (s.proc i).state = .ZOMBIE → i ≠ initproc →
  ∃ p, (s.proc i).parent = some p ∧ (s.proc p).state ≠ .UNUSED ∧ (s.proc p).state ≠ .ZOMBIE

/-- `kill` marks the process that has the pid and changes no other, or fails and changes nothing. -/
def KillOk (s : State) (pid : Int) : Prop :=
  (∃ i, (s.proc i).state ≠ .UNUSED ∧ (s.proc i).pid = pid ∧ (kill pid s).1 = 0 ∧ ((kill pid s).2.proc i).killed = true ∧
    ∀ j, j ≠ i → (kill pid s).2.proc j = s.proc j) ∨
  ((∀ i, (s.proc i).state ≠ .UNUSED → (s.proc i).pid ≠ pid) ∧ kill pid s = (-1, s))

/-- `kill` is not given the pid in an empty slot, and no `fork` fails once its child has been marked. -/
def Op.Clean (s : State) : Op → Prop
  | .kill pid => ∀ i, (s.proc i).state = .UNUSED → (s.proc i).pid ≠ pid
  | .kalloc i false | .copyuvm i false => ∀ np, (s.proc i).phase.child = some np → (s.proc np).killed = false
  | _ => True

instance (s : State) (op : Op) : Decidable (op.Clean s) := by
  unfold Op.Clean
  split <;> infer_instance

/-- Marks below RUNNABLE: an empty slot has none, a new process only its own. -/
structure Unmarked (s : State) : Prop where
  unused : ∀ i, (s.proc i).state = .UNUSED → (s.proc i).killed = false
  embryo : ∀ i, (s.proc i).state = .EMBRYO → (s.proc i).killed = true → (s.proc i).pid ∈ s.hit

/-- `kill` does what it should exactly when no empty slot has the pid. -/
theorem Inv.killOk_iff (h : Inv s) (pid : Int) :
    KillOk s pid ↔ ∀ i, (s.proc i).state = .UNUSED → (s.proc i).pid ≠ pid := by
  constructor
  · rintro (⟨j, hj, hpid, _⟩ | ⟨_, hfail⟩) i hi he
    · rcases h.uniq j i (hpid.trans he.symm) with h1 | rfl
      · have := h.used j hj
        omega
      · exact hj hi
    · rcases kill_eq pid s with ⟨_, _, hk⟩ | ⟨hne, _⟩
      · rw [hfail] at hk
        exact absurd (Prod.mk.inj hk).1 (by decide)
      · exact hne i he
  · intro hu
    rcases kill_eq pid s with ⟨i, hpid, hk⟩ | ⟨hne, hk⟩
    · refine .inl ⟨i, fun hi => hu i hi hpid, hpid, by rw [hk], ?_, fun j hj => ?_⟩
      · rw [hk]
        simp
      · rw [hk]
        exact State.set_proc_ne hj
    · exact .inr ⟨fun i _ => hne i, hk⟩

/-- A running process and the slot `np` change. -/
theorem Unmarked.change {t : State} {ph : Phase} (h : Unmarked s) (hr : (s.proc i).state = .RUNNING)
    (hproc : ∀ k, t.proc k = if k = i then { s.proc i with phase := ph } else if k = np then q else s.proc k)
    (hhit : t.hit = s.hit) (hu : q.state = .UNUSED → q.killed = false)
    (he : q.state = .EMBRYO → q.killed = true → q.pid ∈ s.hit) : Unmarked t := by
  have hcases : ∀ k, (t.proc k).state = .RUNNING ∨ t.proc k = q ∨ t.proc k = s.proc k := fun k => by
    rw [hproc]
    by_cases hki : k = i
    · rw [if_pos hki]
      exact .inl hr
    · rw [if_neg hki]
      split
      · exact .inr (.inl rfl)
      · exact .inr (.inr rfl)
  refine ⟨fun k hk => ?_, fun k hk hm => ?_⟩
  · rcases hcases k with h1 | h1 | h1
    · rw [h1] at hk
      cases hk
    · rw [h1] at hk ⊢
      exact hu hk
    · rw [h1] at hk ⊢
      exact h.unused k hk
  · rw [hhit]
    rcases hcases k with h1 | h1 | h1
    · rw [h1] at hk
      cases hk
    · rw [h1] at hk hm ⊢
      exact he hk hm
    · rw [h1] at hk hm ⊢
      exact h.embryo k hk hm

/-- The marks stay where they belong when the step is clean. -/
theorem Unmarked.step (h : Unmarked s) (hinv : Inv s) (hstep : Trans s op s') (hc : op.Clean s) : Unmarked s' := by
  cases step_effect hstep with
  | @moved _ proc hm hk =>
    have hold : ∀ i, ¬ (proc i).Alive → (proc i).state = (s.proc i).state ∧ (proc i).killed = (s.proc i).killed :=
      fun i hi => by
        have hdead := mt (hm i).alive_iff.2 hi
        exact ⟨(hm i).eq_state hdead, hk i hdead⟩
    refine ⟨fun i hi => ?_, fun i hi hmark => ?_⟩
    · obtain ⟨h1, h2⟩ := hold i (by simp [Proc.Alive, show (proc i).state = .UNUSED from hi])
      exact h2.trans (h.unused i (h1.symm.trans hi))
    · obtain ⟨h1, h2⟩ := hold i (by simp [Proc.Alive, show (proc i).state = .EMBRYO from hi])
      exact (hm i).pid ▸ h.embryo i (h1.symm.trans hi) (h2.symm.trans hmark)
  | @alloc i np hr hph hu =>
    refine h.change hr (State.set_setPhase_proc (slot_ne hr hu (by decide)) (.kalloc np)) rfl (by simp) fun _ hm => ?_
    have hmark : (s.proc np).killed = true := hm
    rw [h.unused np hu] at hmark
    cases hmark
  | @fail i np _ hop hch hr =>
    have he := (hinv.child i np hch).2
    have hmark : (s.proc np).killed = false := by
      rcases hop with rfl | rfl <;> exact hc np hch
    exact h.change hr (State.set_setPhase_proc (slot_ne hr he (by decide)) .user) rfl (fun _ => hmark) (by simp)
  | @made i np hph hr =>
    have he := (hinv.child i np (by rw [hph]; rfl)).2
    exact h.change hr (State.set_setPhase_proc (slot_ne hr he (by decide)) (.made np)) rfl (by simp [he])
      fun _ hm => h.embryo np he hm
  | @born i np hph hr =>
    have he := (hinv.child i np (by rw [hph]; rfl)).2
    exact h.change hr (State.set_setPhase_proc (slot_ne hr he (by decide)) .user) rfl (by simp) (by simp)
  | @exited i hr hph hi =>
    obtain ⟨hz, hproc, _, hhit, _⟩ := exit_spec hi s
    generalize exit i s = t at *
    have hold : ∀ k, (t.proc k).state = .UNUSED ∨ (t.proc k).state = .EMBRYO → (t.proc k).state = (s.proc k).state ∧
        (t.proc k).killed = (s.proc k).killed ∧ (t.proc k).pid = (s.proc k).pid := fun k hk => by
      have hki : k ≠ i := by
        rintro rfl
        rw [hz] at hk
        rcases hk with hk | hk <;> cases hk
      obtain ⟨q, hq, _, heq⟩ := hproc k
      rw [if_neg hki] at heq
      rw [heq] at hk ⊢
      refine ⟨hq.state.resolve_right fun h1 => ?_, hq.killed, hq.pid⟩
      rw [h1.2] at hk
      rcases hk with hk | hk <;> cases hk
    refine ⟨fun k hk => ?_, fun k hk hm => ?_⟩
    · obtain ⟨h1, h2, _⟩ := hold k (.inl hk)
      exact h2.trans (h.unused k (h1.symm.trans hk))
    · obtain ⟨h1, h2, h3⟩ := hold k (.inr hk)
      rw [h3, hhit]
      exact h.embryo k (h1.symm.trans hk) (h2.symm.trans hm)
  | @reaped i j hr _ _ hz =>
    exact h.change hr (State.set_setPhase_proc (slot_ne hr hz (by decide)) .user) rfl (fun _ => rfl) (by simp)
  | @killed pid hit hsub hmem =>
    rcases kill_eq pid s with ⟨i, hpid, hk⟩ | ⟨_, hk⟩
    · have hm := fun k => (moved_kill pid s k).state
      have hpids := fun k => (moved_kill pid s k).pid
      have hother : ∀ k, k ≠ i → (kill pid s).2.proc k = s.proc k := fun k hki => by
        rw [hk]
        exact State.set_proc_ne hki
      refine ⟨fun k hks => ?_, fun k hks hmark => ?_⟩
      · have hold : (s.proc k).state = .UNUSED := by
          rcases hm k with h1 | ⟨_, h1⟩
          · exact h1.symm.trans hks
          · exact absurd h1 (by simp [Proc.Alive, show ((kill pid s).2.proc k).state = .UNUSED from hks])
        have hki : k ≠ i := fun e => hc k hold (e ▸ hpid)
        exact (congrArg Proc.killed (hother k hki)).trans (h.unused k hold)
      · have hold : (s.proc k).state = .EMBRYO := by
          rcases hm k with h1 | ⟨_, h1⟩
          · exact h1.symm.trans hks
          · exact absurd h1 (by simp [Proc.Alive, show ((kill pid s).2.proc k).state = .EMBRYO from hks])
        change ((kill pid s).2.proc k).pid ∈ hit
        rw [hpids k]
        by_cases hki : k = i
        · rw [hki, hpid]
          exact hmem i (by rw [← hki, hold]; decide) hpid
        · exact hsub _ (h.embryo k hold ((congrArg Proc.killed (hother k hki)).symm.trans hmark))
    · rw [hk]
      exact ⟨h.unused, fun i hi hm => hsub _ (h.embryo i hi hm)⟩

/-- **The process table.** In every run the family tree holds, no child is waited for twice, and `kill` is right
exactly when its pid is not in an empty slot; when no step goes wrong, a new process has only its own mark. -/
theorem table_sound {ops : List Op} (hr : Run Trans State.init ops s) :
    Tree s ∧ s.waited.Nodup ∧ (∀ pid, KillOk s pid ↔ ∀ i, (s.proc i).state = .UNUSED → (s.proc i).pid ≠ pid) ∧
      (Run (On (fun s op => op.Clean s) Trans) State.init ops s →
        ∀ np, (s.proc np).state = .EMBRYO → (s.proc np).killed = true → (s.proc np).pid ∈ s.hit) := by
  have hinv : Inv s := hr.inv (fun _ _ _ h hst => h.step hst) inv_init
  refine ⟨fun i hi hne => ?_, hinv.once, hinv.killOk_iff, fun hclean => ?_⟩
  · obtain ⟨p, h1, h2⟩ := hinv.tree i hi hne
    refine ⟨p, h1, ?_, ?_⟩ <;> rcases h2 with h2 | h2 | h2 <;> rw [h2] <;> decide
  · have hboth : Inv s ∧ Unmarked s := by
      refine hclean.inv (I := fun s => Inv s ∧ Unmarked s)
        (fun _ _ _ h hst => ⟨h.1.step hst.2, h.2.step h.1 hst.2 hst.1⟩)
        ⟨inv_init, ⟨fun i _ => ?_, fun i hi _ => ?_⟩⟩
      · simp only [State.init]
        split <;> rfl
      · simp only [State.init] at hi
        split at hi <;> cases hi
    exact hboth.2.embryo

/-- A child that is killed, exits and is waited for, and another one that is killed before it can run. -/
def exChildren : List Op :=
  [.sched 0, .fork 0, .kalloc 0 true, .copyuvm 0 true, .kill 2, .runnable 0, .sched 1, .exit 1, .wait 0,
    .fork 0, .kalloc 0 true, .copyuvm 0 true, .kill 3]

theorem table_sound_children : ∃ s, Run (On (fun s op => op.Clean s) Trans) State.init exChildren s ∧
    Tree s ∧ s.waited = [2] ∧
    (s.proc 1).state = .EMBRYO ∧ (s.proc 1).killed = true ∧ (s.proc 1).pid ∈ s.hit := by
  have hx : (exChildren.foldlM step State.init).map (fun s => (s.waited, (s.proc 1).state, (s.proc 1).killed)) =
      some ([2], .EMBRYO, true) := by decide +kernel
  have hclean : along step (fun s op => decide (op.Clean s)) State.init exChildren = true := by decide +kernel
  obtain ⟨s, hs, hval⟩ := Option.map_eq_some_iff.1 hx
  obtain ⟨hwaited, hval⟩ := Prod.mk.inj hval
  obtain ⟨hembryo, hmark⟩ := Prod.mk.inj hval
  have hrun : Run Trans State.init exChildren s := .of_foldlM hs
  have hon : Run (On (fun s op => op.Clean s) Trans) State.init exChildren s :=
    hrun.on fun pre op t hp hr => of_decide_eq_true
      (Steps.of_along (R := Trans) (fun _ _ _ h => h) hclean pre op t hp hr)
  obtain ⟨htree, -, -, hhit⟩ := table_sound hrun
  exact ⟨s, hon, htree, hwaited, hembryo, hmark, hhit hon 1 hembryo hmark⟩

/-- `kill(0)` returns 0 though no process has the pid 0, and the next child is born marked. -/
theorem kill_reaches_unused : (kill 0 State.init).1 = 0 ∧ ¬ KillOk State.init 0 ∧
    ∃ s, Run Trans State.init [.kill 0, .sched 0, .fork 0, .kalloc 0 true, .copyuvm 0 true] s ∧
      (s.proc 1).state = .EMBRYO ∧ (s.proc 1).killed = true ∧ s.hit = [] := by
  refine ⟨by decide +kernel, fun hok => ?_, ?_⟩
  · exact (inv_init.killOk_iff 0).1 hok 1 rfl rfl
  · have h : ([.kill 0, .sched 0, .fork 0, .kalloc 0 true, .copyuvm 0 true].foldlM step State.init).map
        (fun s => ((s.proc 1).state, (s.proc 1).killed, s.hit)) = some (.EMBRYO, true, []) := by
      decide +kernel
    obtain ⟨s, hs, hval⟩ := Option.map_eq_some_iff.1 h
    obtain ⟨h1, h2⟩ := Prod.mk.inj hval
    obtain ⟨h2, h3⟩ := Prod.mk.inj h2
    exact ⟨s, Run.of_foldlM hs, h1, h2, h3⟩

end Xv6.Ptable
