import CCppProjects.Xv6.Log
import Mathlib.Data.Finset.Card
import Mathlib.Data.List.Nodup
/-
# Log reservations (log.c: begin_op, end_op, log_write)

Any number of operations run between `begin_op` and `end_op` and call `log_write` in any interleaving. The
tests of `log_write` (log.c:217-220) come before it takes the lock, so they are a step of their own.

| here | there |
|---|---|
| `Op` | a process between `begin_op` and `end_op`; `foot` are the blocks it has called `log_write` on |
| `Op.call` | the block of a `log_write` that has passed its tests and not yet taken `log.lock` |
| `State.lh` | `log.lh.block[0..n-1]` |
| `State.since` | every block recorded since the last commit, each call once more |
| a label that `next` refuses | a process that sleeps in `begin_op` |
-/
namespace Xv6.Log

open Lts

structure Op where
  pid : Nat
  foot : List Nat
  call : Option Nat
  deriving DecidableEq, Repr

structure State where
  lh : List Nat
  outstanding : Int
  committing : Bool
  ops : List Op
  since : List Nat
  panicked : Bool
  deriving DecidableEq, Repr

inductive Act
  | beginOp (pid : Nat)
  | test (pid b : Nat)
  | record (pid b : Nat)
  | endOp (pid : Nat)
  | commit
  | wake
  deriving DecidableEq, Repr

def idle : State := { lh := [], outstanding := 0, committing := false, ops := [], since := [], panicked := false }

/-- The operation of a process, changed. -/
def setOp (pid : Nat) (f : Op → Op) (ops : List Op) : List Op := ops.map fun o => if o.pid = pid then f o else o

/-- `begin_op` does not sleep (log.c:129-131). -/
def State.admits (s : State) : Prop :=
  s.committing = false ∧ ¬ (s.lh.length + (s.outstanding + 1) * MAXOPBLOCKS > (LOGSIZE : Int))

instance (s : State) : Decidable s.admits := inferInstanceAs (Decidable (_ ∧ _))

/-- The tests of `log_write` that panic (log.c:217-220). -/
def State.refuses (L : Layout) (s : State) : Prop :=
  LOGSIZE ≤ s.lh.length ∨ L.size - 1 ≤ s.lh.length ∨ s.outstanding < 1

instance (L : Layout) (s : State) : Decidable (s.refuses L) := inferInstanceAs (Decidable (_ ∨ _))

/-- An operation that has logged fewer than MAXOPBLOCKS blocks may log any, another one only those. -/
def Op.allows (o : Op) (b : Nat) : Prop := o.call = none ∧ (b ∈ o.foot ∨ o.foot.length < MAXOPBLOCKS)

instance (o : Op) (b : Nat) : Decidable (o.allows b) := inferInstanceAs (Decidable (_ ∧ _))

def Op.enter (b : Nat) (o : Op) : Op := { o with foot := if b ∈ o.foot then o.foot else b :: o.foot, call := some b }

def Op.leave (o : Op) : Op := { o with call := none }

def State.op? (s : State) (pid : Nat) : Option Op := s.ops.find? fun o => o.pid = pid

/-- One step of one process. -/
def State.next (L : Layout) (s : State) (a : Act) : Option State :=
  if s.panicked then none else
  match a with
  | .beginOp pid =>
    if s.op? pid = none ∧ s.admits then
      some { s with outstanding := s.outstanding + 1, ops := { pid, foot := [], call := none } :: s.ops }
    else none
  | .test pid b => match s.op? pid with
    | some o =>
      if o.allows b then
        some (if s.refuses L then { s with panicked := true } else { s with ops := setOp pid (Op.enter b) s.ops })
      else none
    | none => none
  | .record pid b => match s.op? pid with
    | some o =>
      if o.call = some b then
        some { s with
          lh := if b ∈ s.lh then s.lh else s.lh ++ [b]
          ops := setOp pid Op.leave s.ops
          since := s.since ++ [b] }
      else none
    | none => none
  | .endOp pid => match s.op? pid with
    | some o =>
      if o.call = none then
        let outstanding := s.outstanding - 1
        let ops := s.ops.eraseP fun o => o.pid = pid
        some (if s.committing then { s with outstanding, ops, panicked := true }
          else { s with outstanding, ops, committing := outstanding = 0 })
      else none
    | none => none
  | .commit => if s.committing ∧ s.lh ≠ [] then some { s with lh := [], since := [] } else none
  | .wake => if s.committing ∧ s.lh = [] then some { s with committing := false } else none

def Does (L : Layout) (s : State) (a : Act) (t : State) : Prop := s.next L a = some t

/-- No panic, and no more blocks than the log has room for behind its header. -/
def Sound (L : Layout) (s : State) : Prop := s.panicked = false ∧ s.lh.length ≤ L.size - 1

/-- The distinct blocks recorded since the last commit. -/
def State.logged (s : State) : Nat := s.since.toFinset.card

/-- Fewer distinct blocks than the log holds have been recorded when `log_write` is entered, and again, unless
the block is one of them, when it takes the lock. -/
def Roomy (L : Layout) (s : State) : Act → Prop
  | .test _ _ => s.logged < L.size - 1
  | .record _ b => b ∈ s.since ∨ s.logged < L.size - 1
  | _ => True

instance (L : Layout) (s : State) (a : Act) : Decidable (Roomy L s a) := by
  cases a <;> unfold Roomy <;> infer_instance

/-! ## What a step can do -/

section Steps

variable {L : Layout} {s t : State} {a : Act} {o : Op} {pid b : Nat}

theorem op?_some (h : s.op? pid = some o) : o ∈ s.ops ∧ o.pid = pid :=
  ⟨List.mem_of_find?_eq_some h, by simpa using List.find?_some h⟩

theorem op?_none (h : s.op? pid = none) : ∀ o ∈ s.ops, o.pid ≠ pid := by
  simpa [State.op?] using h

theorem does_beginOp (h : Does L s (.beginOp pid) t) : s.panicked = false ∧ s.op? pid = none ∧ s.admits ∧
    t = { s with outstanding := s.outstanding + 1, ops := { pid, foot := [], call := none } :: s.ops } := by
  simp only [Does, State.next] at h
  split at h
  · cases h
  · next hp =>
    split at h
    · next hc => exact ⟨by simpa using hp, hc.1, hc.2, by simpa using h.symm⟩
    · cases h

theorem does_test (h : Does L s (.test pid b) t) : s.panicked = false ∧ ∃ o, s.op? pid = some o ∧ o.allows b ∧
    ((s.refuses L ∧ t = { s with panicked := true }) ∨
      (¬ s.refuses L ∧ t = { s with ops := setOp pid (Op.enter b) s.ops })) := by
  simp only [Does, State.next] at h
  split at h
  · cases h
  · next hp =>
    split at h
    · next o ho =>
      split at h
      · next hc =>
        refine ⟨by simpa using hp, o, ho, hc, ?_⟩
        by_cases hr : s.refuses L
        · exact .inl ⟨hr, by simpa [hr] using h.symm⟩
        · exact .inr ⟨hr, by simpa [hr] using h.symm⟩
      · cases h
    · cases h

theorem does_record (h : Does L s (.record pid b) t) : s.panicked = false ∧ ∃ o, s.op? pid = some o ∧ o.call = some b ∧
    t = { s with
      lh := if b ∈ s.lh then s.lh else s.lh ++ [b]
      ops := setOp pid Op.leave s.ops
      since := s.since ++ [b] } := by
  simp only [Does, State.next] at h
  split at h
  · cases h
  · next hp =>
    split at h
    · next o ho =>
      split at h
      · next hc => exact ⟨by simpa using hp, o, ho, hc, by simpa using h.symm⟩
      · cases h
    · cases h

theorem does_endOp (h : Does L s (.endOp pid) t) : s.panicked = false ∧ ∃ o, s.op? pid = some o ∧ o.call = none ∧
    t = (if s.committing then
        { s with outstanding := s.outstanding - 1, ops := s.ops.eraseP fun o => o.pid = pid, panicked := true }
      else { s with
        outstanding := s.outstanding - 1
        ops := s.ops.eraseP fun o => o.pid = pid
        committing := s.outstanding - 1 = 0 }) := by
  simp only [Does, State.next] at h
  split at h
  · cases h
  · next hp =>
    split at h
    · next o ho =>
      split at h
      · next hc => exact ⟨by simpa using hp, o, ho, hc, by simpa using h.symm⟩
      · cases h
    · cases h

theorem does_commit (h : Does L s .commit t) : s.panicked = false ∧ s.committing = true ∧
    t = { s with lh := [], since := [] } := by
  simp only [Does, State.next] at h
  split at h
  · cases h
  · next hp =>
    split at h
    · next hc => exact ⟨by simpa using hp, hc.1, by simpa using h.symm⟩
    · cases h

theorem does_wake (h : Does L s .wake t) : s.panicked = false ∧ s.committing = true ∧
    t = { s with committing := false } := by
  simp only [Does, State.next] at h
  split at h
  · cases h
  · next hp =>
    split at h
    · next hc => exact ⟨by simpa using hp, hc.1, by simpa using h.symm⟩
    · cases h

theorem does_det {t' : State} (h : Does L s a t) (h' : Does L s a t') : t = t' :=
  Option.some.inj (h.symm.trans h')

end Steps

/-! ## Reservations -/

/-- The blocks an operation may still add to the log. -/
def Op.spare (lh : List Nat) (o : Op) : Nat := MAXOPBLOCKS - (o.foot.filter fun b => b ∈ lh).length

def spares (lh : List Nat) (ops : List Op) : Nat := (ops.map fun o => o.spare lh).sum

/-- An operation within its reservation. -/
structure Op.Ok (o : Op) : Prop where
  bound : o.foot.length ≤ MAXOPBLOCKS
  call : ∀ b, o.call = some b → b ∈ o.foot

/-- `log.outstanding` counts the operations, the header lists what was recorded since the last commit, and
there is room in LOGSIZE for all that the operations may still add. -/
structure Reserved (s : State) : Prop where
  outstanding : s.outstanding = s.ops.length
  quiet : s.committing = true → s.ops = []
  pids : (s.ops.map Op.pid).Nodup
  ops : ∀ o ∈ s.ops, o.Ok
  nodup : s.lh.Nodup
  lists : ∀ b, b ∈ s.lh ↔ b ∈ s.since
  room : s.lh.length + spares s.lh s.ops ≤ LOGSIZE

section Reserved

variable {L : Layout} {s t : State} {a : Act} {o p : Op} {pid b : Nat} {lh lh' : List Nat} {ops : List Op} {f : Op → Op}

@[simp] theorem spares_nil : spares lh [] = 0 := rfl

@[simp] theorem spares_cons : spares lh (o :: ops) = o.spare lh + spares lh ops := by
  simp [spares]

theorem Op.spare_le : o.spare lh ≤ MAXOPBLOCKS := Nat.sub_le ..

theorem spares_le : spares lh ops ≤ ops.length * MAXOPBLOCKS := by
  induction ops with
  | nil => simp
  | cons o ops ih =>
    have : o.spare lh ≤ MAXOPBLOCKS := Op.spare_le
    rw [spares_cons, List.length_cons, Nat.succ_mul]
    omega

@[simp] theorem setOp_length : (setOp pid f ops).length = ops.length := by
  simp [setOp]

theorem setOp_pids (hf : ∀ o, (f o).pid = o.pid) : (setOp pid f ops).map Op.pid = ops.map Op.pid := by
  simp only [setOp, List.map_map]
  apply List.map_congr_left
  intro o _
  by_cases ho : o.pid = pid <;> simp [ho, hf]

theorem forall_setOp {P : Op → Prop} (h : ∀ o ∈ ops, P o) (hf : ∀ o ∈ ops, o.pid = pid → P (f o)) :
    ∀ o ∈ setOp pid f ops, P o := by
  intro x hx
  obtain ⟨o, ho, rfl⟩ := List.mem_map.1 hx
  by_cases hp : o.pid = pid
  · simpa [hp] using hf o ho hp
  · simpa [hp] using h o ho

/-- A process runs one operation at a time. -/
theorem op_unique (hn : (ops.map Op.pid).Nodup) (ho : o ∈ ops) (hp : p ∈ ops) (h : o.pid = p.pid) : o = p :=
  List.inj_on_of_nodup_map hn ho hp h

/-- More blocks named or more of them in the log leave no more to spare. -/
theorem Op.spare_anti (hf : o.foot.Sublist p.foot) (hl : ∀ b ∈ lh, b ∈ lh') : p.spare lh' ≤ o.spare lh := by
  apply Nat.sub_le_sub_left
  calc (o.foot.filter fun b => b ∈ lh).length
      ≤ (o.foot.filter fun b => b ∈ lh').length := by
        apply List.Sublist.length_le
        apply List.monotone_filter_right
        intro b hb
        simpa using hl b (by simpa using hb)
    _ ≤ (p.foot.filter fun b => b ∈ lh').length := (hf.filter _).length_le

/-- The operation that named a block has one less to spare once the block is in the log. -/
theorem Op.spare_record (ho : o.Ok) (hb : b ∈ o.foot) (hn : b ∉ lh) : o.spare (lh ++ [b]) + 1 ≤ o.spare lh := by
  have hlt : (o.foot.filter fun b => b ∈ lh).length < (o.foot.filter fun c => c ∈ lh ++ [b]).length := by
    rw [← List.countP_eq_length_filter, ← List.countP_eq_length_filter]
    obtain ⟨as, bs, hfoot⟩ := List.append_of_mem hb
    have h1 := List.countP_mono_left (l := as) (p := fun c => decide (c ∈ lh))
      (q := fun c => decide (c ∈ lh ++ [b])) (by simp +contextual)
    have h2 := List.countP_mono_left (l := bs) (p := fun c => decide (c ∈ lh))
      (q := fun c => decide (c ∈ lh ++ [b])) (by simp +contextual)
    rw [hfoot, List.countP_append, List.countP_append, List.countP_cons_of_neg (by simpa using hn),
      List.countP_cons_of_pos (by simp)]
    omega
  have hle : (o.foot.filter fun c => c ∈ lh ++ [b]).length ≤ o.foot.length := List.length_filter_le ..
  have := ho.bound
  unfold Op.spare
  omega

theorem spares_setOp (hf : ∀ o : Op, o.foot.Sublist (f o).foot) : spares lh (setOp pid f ops) ≤ spares lh ops := by
  induction ops with
  | nil => simp [setOp]
  | cons o ops ih =>
    have ho : (if o.pid = pid then f o else o).spare lh ≤ o.spare lh := by
      split
      · exact Op.spare_anti (hf o) fun _ h => h
      · exact Nat.le_refl _
    rw [setOp, List.map_cons, ← setOp, spares_cons, spares_cons]
    omega

theorem spares_grow (hl : ∀ b ∈ lh, b ∈ lh') : spares lh' ops ≤ spares lh ops := by
  induction ops with
  | nil => simp
  | cons o ops ih =>
    have := Op.spare_anti (o := o) (p := o) (.refl _) hl
    simp only [spares_cons]
    omega

theorem spares_record (hops : ∀ o ∈ ops, o.Ok) (ho : o ∈ ops) (hb : b ∈ o.foot) (hn : b ∉ lh) :
    spares (lh ++ [b]) ops + 1 ≤ spares lh ops := by
  induction ops with
  | nil => simp at ho
  | cons p ops ih =>
    have hgrow : ∀ c ∈ lh, c ∈ lh ++ [b] := fun c hc => by simp [hc]
    simp only [spares_cons]
    rcases List.mem_cons.1 ho with rfl | ho
    · have h1 := Op.spare_record (hops o (by simp)) hb hn
      have h2 : spares (lh ++ [b]) ops ≤ spares lh ops := spares_grow hgrow
      omega
    · have h1 := Op.spare_anti (o := p) (p := p) (.refl _) hgrow
      have h2 := ih (fun q hq => hops q (by simp [hq])) ho
      omega

theorem spares_erase {q : Op → Bool} : spares lh (ops.eraseP q) ≤ spares lh ops := by
  induction ops with
  | nil => simp
  | cons o ops ih =>
    by_cases hq : q o = true
    · simp [List.eraseP_cons_of_pos hq]
    · rw [List.eraseP_cons_of_neg hq, spares_cons, spares_cons]
      omega

/-- A run begins with nothing reserved. -/
theorem reserved_idle : Reserved idle :=
  ⟨rfl, fun _ => rfl, .nil, by simp [idle], .nil, by simp [idle], by simp [idle]⟩

/-- Every step keeps within the reservations, whatever it panics with. -/
theorem reserved_step (hi : Reserved s) (h : Does L s a t) : Reserved t := by
  cases a with
  | beginOp pid =>
    obtain ⟨-, hfree, ⟨hquiet, hroom⟩, rfl⟩ := does_beginOp h
    refine ⟨?_, ?_, ?_, ?_, hi.nodup, hi.lists, ?_⟩
    · simp [hi.outstanding]
    · simp [hquiet]
    · rw [List.map_cons, List.nodup_cons]
      refine ⟨fun hm => ?_, hi.pids⟩
      obtain ⟨o, ho, hp⟩ := List.mem_map.1 hm
      exact op?_none hfree o ho hp
    · intro o ho
      rcases List.mem_cons.1 ho with rfl | ho
      · exact ⟨Nat.zero_le _, by simp⟩
      · exact hi.ops o ho
    · have hle : spares s.lh s.ops ≤ s.ops.length * MAXOPBLOCKS := spares_le
      have hnew : Op.spare s.lh { pid, foot := [], call := none } = MAXOPBLOCKS := rfl
      rw [hi.outstanding] at hroom
      rw [spares_cons, hnew]
      push_cast [LOGSIZE, MAXOPBLOCKS] at *
      omega
  | test pid b =>
    obtain ⟨-, o, ho, hallow, hcase⟩ := does_test h
    obtain ⟨hmem, hpid⟩ := op?_some ho
    rcases hcase with ⟨-, rfl⟩ | ⟨-, rfl⟩
    · exact ⟨hi.outstanding, hi.quiet, hi.pids, hi.ops, hi.nodup, hi.lists, hi.room⟩
    · refine ⟨?_, ?_, ?_, ?_, hi.nodup, hi.lists, ?_⟩
      · simp [hi.outstanding]
      · intro hc
        simp [hi.quiet hc, setOp]
      · rw [setOp_pids (by intro o; rfl)]
        exact hi.pids
      · apply forall_setOp hi.ops
        intro p hp hpp
        obtain rfl : p = o := op_unique hi.pids hp hmem (hpp.trans hpid.symm)
        have hb := (hi.ops p hp).bound
        constructor
        · simp only [Op.enter]
          split
          · exact hb
          · next hn =>
          rw [List.length_cons]
          exact hallow.2.resolve_left hn
        · intro c hc
          obtain rfl : b = c := by simpa [Op.enter] using hc
          simp only [Op.enter]
          split <;> simp_all
      · refine Nat.le_trans (Nat.add_le_add_left (spares_setOp fun o => ?_) _) hi.room
        simp only [Op.enter]
        split
        · exact .refl _
        · exact List.sublist_cons_self ..
  | record pid b =>
    obtain ⟨-, o, ho, hcall, rfl⟩ := does_record h
    obtain ⟨hmem, hpid⟩ := op?_some ho
    refine ⟨?_, ?_, ?_, ?_, ?_, ?_, ?_⟩
    · simp [hi.outstanding]
    · intro hc
      simp [hi.quiet hc, setOp]
    · rw [setOp_pids (by intro o; rfl)]
      exact hi.pids
    · apply forall_setOp hi.ops
      intro p hp _
      exact ⟨(hi.ops p hp).bound, by simp [Op.leave]⟩
    · split
      · exact hi.nodup
      · next hn => simpa [List.nodup_append, hi.nodup] using fun c hc (hcb : c = b) => hn (hcb ▸ hc)
    · intro c
      by_cases hb : b ∈ s.lh
      · have := (hi.lists b).1 hb
        simp only [hb, if_true, hi.lists, List.mem_append, List.mem_singleton]
        constructor
        · exact .inl
        · rintro (hc | rfl)
          · exact hc
          · exact this
      · simp [hb, hi.lists]
    · have hleave : ∀ lh, spares lh (setOp pid Op.leave s.ops) ≤ spares lh s.ops :=
        fun lh => spares_setOp fun o => .refl _
      have hroom := hi.room
      by_cases hb : b ∈ s.lh
      · have := hleave s.lh
        simp only [hb, if_true]
        omega
      · have h1 := spares_record hi.ops hmem ((hi.ops o hmem).call b hcall) hb
        have h2 := hleave (s.lh ++ [b])
        simp only [hb, if_false, List.length_append, List.length_singleton]
        omega
  | endOp pid =>
    obtain ⟨-, o, ho, -, rfl⟩ := does_endOp h
    obtain ⟨hmem, hpid⟩ := op?_some ho
    have hlen : (s.ops.eraseP fun o => o.pid = pid).length = s.ops.length - 1 :=
      List.length_eraseP_of_mem hmem (by simpa using hpid)
    have hpos : 0 < s.ops.length := List.length_pos_of_mem hmem
    have hsub : (s.ops.eraseP fun o => o.pid = pid).Sublist s.ops := List.eraseP_sublist
    have hpids := hi.pids.sublist (hsub.map Op.pid)
    have hroom : s.lh.length + spares s.lh (s.ops.eraseP fun o => o.pid = pid) ≤ LOGSIZE :=
      Nat.le_trans (Nat.add_le_add_left spares_erase _) hi.room
    have hout := hi.outstanding
    split
    · next hc =>
      -- nothing runs while the log commits
      rw [hi.quiet hc] at hmem
      cases hmem
    · refine ⟨?_, ?_, hpids, fun p hp => hi.ops p (hsub.subset hp), hi.nodup, hi.lists, hroom⟩
      · simp only [hlen, hout]
        omega
      · intro hz
        apply List.length_eq_zero_iff.1
        rw [hlen]
        simp only [decide_eq_true_eq] at hz
        omega
  | commit =>
    obtain ⟨-, hc, rfl⟩ := does_commit h
    have hops := hi.quiet hc
    exact ⟨hi.outstanding, hi.quiet, hi.pids, hi.ops, .nil, by simp, by simp [hops]⟩
  | wake =>
    obtain ⟨-, -, rfl⟩ := does_wake h
    exact ⟨hi.outstanding, by simp, hi.pids, hi.ops, hi.nodup, hi.lists, hi.room⟩

/-- The header array is never overrun: in every run, whatever else happens, at most LOGSIZE blocks are listed. -/
theorem header_bounded {as : List Act} (h : Run (Does L) idle as t) : t.lh.length ≤ LOGSIZE := by
  have hi := Run.inv (I := Reserved) (fun _ _ _ hs hd => reserved_step hs hd) h reserved_idle
  exact Nat.le_trans (Nat.le_add_right ..) hi.room

theorem Reserved.logged (hi : Reserved s) : s.logged = s.lh.length := by
  rw [State.logged, show s.since.toFinset = s.lh.toFinset from by ext b; simp [hi.lists],
    List.toFinset_card_of_nodup hi.nodup]

/-- A step with room for its block neither panics nor overfills the log. -/
theorem sound_step (hi : Reserved s) (hq : Sound mkfsLog s) (hr : Roomy mkfsLog s a)
    (h : Does mkfsLog s a t) : Sound mkfsLog t := by
  cases a with
  | beginOp pid =>
    obtain ⟨-, -, -, rfl⟩ := does_beginOp h
    exact hq
  | test pid b =>
    obtain ⟨-, o, ho, -, hcase⟩ := does_test h
    rcases hcase with ⟨hrefuse, -⟩ | ⟨-, rfl⟩
    · exfalso
      have hpos : 0 < s.ops.length := List.length_pos_of_mem (op?_some ho).1
      have hlt : s.lh.length < mkfsLog.size - 1 := hi.logged ▸ hr
      have hsize : mkfsLog.size = LOGSIZE := rfl
      rcases hrefuse with h | h | h
      · omega
      · omega
      · rw [hi.outstanding] at h
        omega
    · exact hq
  | record pid b =>
    obtain ⟨-, o, -, -, rfl⟩ := does_record h
    refine ⟨hq.1, ?_⟩
    by_cases hb : b ∈ s.lh
    · simpa [hb] using hq.2
    · have hlt : s.logged < mkfsLog.size - 1 := hr.resolve_left fun hs => hb ((hi.lists b).2 hs)
      rw [hi.logged] at hlt
      simp only [hb, if_false, List.length_append, List.length_singleton]
      exact hlt
  | endOp pid =>
    obtain ⟨-, o, ho, -, rfl⟩ := does_endOp h
    split
    · next hc =>
      have hmem := (op?_some ho).1
      rw [hi.quiet hc] at hmem
      cases hmem
    · exact hq
  | commit =>
    obtain ⟨-, -, rfl⟩ := does_commit h
    exact ⟨hq.1, Nat.zero_le _⟩
  | wake =>
    obtain ⟨-, -, rfl⟩ := does_wake h
    exact hq

/-- Without room, `log_write` panics at its tests or fills one block more than there is on disk. -/
theorem unsound_step (hi : Reserved s) (hr : ¬ Roomy mkfsLog s a) (h : Does mkfsLog s a t) : ¬ Sound mkfsLog t := by
  intro hq
  cases a with
  | test pid b =>
    obtain ⟨-, o, -, -, hcase⟩ := does_test h
    have hge : mkfsLog.size - 1 ≤ s.lh.length := by simpa [Roomy, hi.logged] using hr
    rcases hcase with ⟨-, rfl⟩ | ⟨hn, -⟩
    · cases hq.1
    · exact hn (.inr (.inl hge))
  | record pid b =>
    obtain ⟨-, o, -, -, rfl⟩ := does_record h
    obtain ⟨hb, hge⟩ : b ∉ s.since ∧ mkfsLog.size - 1 ≤ s.lh.length := by simpa [Roomy, hi.logged] using hr
    have hle := hq.2
    simp only [hi.lists, hb, if_false, List.length_append, List.length_singleton] at hle
    omega
  | beginOp pid => exact hr trivial
  | endOp pid => exact hr trivial
  | commit => exact hr trivial
  | wake => exact hr trivial

end Reserved

/-- **Log reservation.** On an image made by mkfs, in every interleaving of operations of at most MAXOPBLOCKS
blocks each, no `log_write` panics and the log never overflows exactly when every call finds room behind the
header: fewer than `nlog - 1` distinct blocks recorded since the last commit when it is entered, and again,
unless its block is one of them, when it takes the lock. -/
theorem reservation_sufficient_iff {as : List Act} {t : State} (h : Run (Does mkfsLog) idle as t) :
    AtAll (Does mkfsLog) (Sound mkfsLog) idle as ↔ Steps (Does mkfsLog) (Roomy mkfsLog) idle as := by
  refine atAll_iff_steps (I := fun s => Reserved s ∧ Sound mkfsLog s) ?_ ?_ (fun s hi => hi.2) ?_ h
    ⟨reserved_idle, rfl, by decide⟩
  · intro s a t t' h h'
    exact does_det h h'
  · intro s a t hi hr hd
    exact ⟨reserved_step hi.1 hd, sound_step hi.1 hi.2 hr hd⟩
  · intro s a t hi hr hd
    exact unsound_step hi.1 hr hd

/-- Operation `pid` logs the block `b`. -/
def logs (pid b : Nat) : List Act := [.test pid b, .record pid b]

/-- Three operations at once, which log blocks of their own and some of each other's, with calls in the middle of
each other; the last to end commits, and a fourth begins. -/
def threeShared : List Act :=
  [.beginOp 1, .beginOp 2, .beginOp 3] ++ logs 1 40 ++ logs 2 50 ++
    [.test 3 60, .test 1 41, .record 3 60, .record 1 41] ++
    logs 2 40 ++ logs 3 41 ++ [.endOp 1] ++ logs 2 51 ++ logs 3 61 ++ [.endOp 3] ++ logs 2 61 ++
    [.endOp 2, .commit, .wake] ++
    [.beginOp 4] ++ logs 4 40

theorem reservation_sufficient_iff_three : AtAll (Does mkfsLog) (Sound mkfsLog) idle threeShared := by
  have hrun : ∃ t, threeShared.foldlM (State.next mkfsLog) idle = some t ∧ t.lh = [40] := by
    refine ⟨(threeShared.foldlM (State.next mkfsLog) idle).getD idle, ?_, ?_⟩ <;> decide +kernel
  obtain ⟨t, ht, -⟩ := hrun
  apply (reservation_sufficient_iff (Run.of_foldlM ht)).2
  have hroomy : along (State.next mkfsLog) (fun s a => decide (Roomy mkfsLog s a)) idle threeShared = true := by
    decide +kernel
  intro pre a u hp hr
  exact of_decide_eq_true (Steps.of_along (R := Does mkfsLog) (fun _ _ _ h => h) hroomy pre a u hp hr)

/-- Three operations of ten blocks each, running together. -/
def threeFull : List Act :=
  [.beginOp 1, .beginOp 2, .beginOp 3] ++
    (List.range 10).flatMap fun i => logs 1 (100 + i) ++ logs 2 (200 + i) ++
    (if i < 9 then logs 3 (300 + i) else [.test 3 309])

/-- They are all admitted, and the last call of the third one panics. -/
theorem reservation_not_always : ¬ ∀ as t, Run (Does mkfsLog) idle as t → Sound mkfsLog t := by
  intro h
  have hrun : ∃ t, threeFull.foldlM (State.next mkfsLog) idle = some t ∧ t.panicked = true := by
    refine ⟨(threeFull.foldlM (State.next mkfsLog) idle).getD idle, ?_, ?_⟩ <;> decide +kernel
  obtain ⟨t, ht, hp⟩ := hrun
  have := (h _ _ (Run.of_foldlM ht)).1
  rw [hp] at this
  cases this

end Xv6.Log
