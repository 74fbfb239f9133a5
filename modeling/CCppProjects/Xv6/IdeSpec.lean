import CCppProjects.Xv6.Ide
import Mathlib.Data.Fintype.Card
/-
# The driver serves its queue

| here | what |
| --- | --- |
| `Inv`    | the queue, the drive and the processes in `iderw`, between any two steps |
| `Serial` | with it, all calls made, commands executed and calls returned so far |

The requests are served in the order of the calls, each once, and each call returns what a disk in memory
would have given it at its turn (`ide_serial`). The invariant that carries it: while a request is in the queue
its process holds the buffer's lock and stays in `iderw`, so nobody changes the buffer.
-/
namespace Xv6.Ide

open Log Bio Lts

/-- The request at the head of the queue is being executed, or executed with `fault`. -/
inductive Driven (d : Content) : List Req → Drive → Content → List (Option (Option Block)) → Prop
  | idle : Driven d [] .idle d []
  | busy (r : Req) (rs : List Req) : Driven d (r :: rs) (.busy (cmd r.x)) d []
  | done (r : Req) (rs : List Req) (fault : Option (Option Block)) :
      Driven d (r :: rs) (.done ((cmd r.x).exec d fault).2) ((cmd r.x).exec d fault).1 [fault]

/-- A request in the queue: the buffer is as it was at the call, locked by the process that waits for it. -/
structure Pending (s : State) (r : Req) : Prop where
  same : s.buf r.b = r.x
  locked : r.x.lock = some r.pid
  called : ∃ a, s.call r.pid = some (r.b, a)
  todo : (r.x.valid && !r.x.dirty) = false

structure Inv (d : Content) (pend : List Req) (faults : List (Option (Option Block))) (s : State) : Prop where
  linked : Queue.Linked s.qnext s.idequeue (pend.map Req.b)
  pending : ∀ r ∈ pend, Pending s r
  driven : Driven d pend s.drive s.content faults
  locked : ∀ (p : Nat) (b : Ix) (a : Bool), s.call p = some (b, a) → (s.buf b).lock = some p
  served : ∀ (p : Nat) (b : Ix) (a : Bool), s.call p = some (b, a) → (∀ r ∈ pend, r.pid ≠ p) →
    a = false ∧ ((s.buf b).valid && !(s.buf b).dirty) = true

variable {d : Content} {pend : List Req} {faults : List (Option (Option Block))} {s t : State}
    {p : Nat} {b : Ix} {a : Bool}

/-- A process waits for one buffer. -/
theorem Inv.buffer (h : Inv d pend faults s) {r : Req} (hr : r ∈ pend) {a : Bool}
    (hc : s.call r.pid = some (b, a)) : r.b = b := by
  obtain ⟨a', ha⟩ := (h.pending r hr).called
  rw [ha] at hc
  cases hc
  rfl

/-- The requests are of different processes. -/
theorem Inv.eq_of_pid (h : Inv d pend faults s) {r r' : Req} (hr : r ∈ pend) (hr' : r' ∈ pend)
    (hp : r.pid = r'.pid) : r = r' := by
  have h1 := h.pending r hr
  have h2 := h.pending r' hr'
  obtain ⟨a, ha⟩ := h2.called
  have hb : r.b = r'.b := h.buffer hr (hp ▸ ha)
  have hx : r.x = r'.x := by rw [← h1.same, ← h2.same, hb]
  cases r
  cases r'
  simp only at hp hb hx
  rw [hp, hb, hx]

/-- What the calls of process `p` that were served have not returned yet. -/
def unreturned (pend : List Req) (s : State) (p : Nat) : List Req :=
  match s.call p with
  | some (b, _) => if pend.any (·.pid == p) then [] else [⟨p, b, s.buf b⟩]
  | none => []

theorem unreturned_congr {pend' : List Req} (hc : (t.call p).map Prod.fst = (s.call p).map Prod.fst)
    (hp : pend'.any (·.pid == p) = pend.any (·.pid == p)) (hb : ∀ b a, s.call p = some (b, a) → t.buf b = s.buf b) :
    unreturned pend' t p = unreturned pend s p := by
  unfold unreturned
  cases hs : s.call p with
  | none =>
    rw [hs] at hc
    rw [Option.map_eq_none_iff.1 hc]
  | some c =>
    rw [hs] at hc
    obtain ⟨c', hc', he⟩ := Option.map_eq_some_iff.1 hc
    obtain ⟨b, a⟩ := c
    obtain ⟨b', a'⟩ := c'
    cases he
    rw [hc']
    simp only [hp, hb b a hs]

theorem called_congr (hfst : (t.call p).map Prod.fst = (s.call p).map Prod.fst) (h : ∃ a, s.call p = some (b, a)) :
    ∃ a, t.call p = some (b, a) := by
  obtain ⟨a, ha⟩ := h
  rw [ha] at hfst
  obtain ⟨⟨c, a'⟩, hc, he⟩ := Option.map_eq_some_iff.1 hfst
  cases he
  exact ⟨a', hc⟩

/-! ## Steps that leave the queue alone -/

/-- Nobody is in `iderw` for `b`. -/
def Free (s : State) (b : Ix) : Prop := ∀ p a, s.call p ≠ some (b, a)

theorem Inv.free (h : Inv d pend faults s) (hc : s.call p = none) (hl : (s.buf b).lock ∈ [none, some p]) :
    Free s b := by
  intro q a hq
  have hlock := h.locked q b a hq
  rw [hlock] at hl
  obtain rfl : q = p := by simpa using hl
  rw [hc] at hq
  cases hq

/-- A buffer nobody waits for may change. -/
theorem Inv.edit (h : Inv d pend faults s) (hf : Free s b) (x : Buf) :
    Inv d pend faults (s.set b x) ∧ ∀ p, unreturned pend (s.set b x) p = unreturned pend s p := by
  have hbuf : ∀ p c a, s.call p = some (c, a) → (s.set b x).buf c = s.buf c := by
    intro p c a hc
    refine Function.update_of_ne ?_ _ _
    rintro rfl
    exact hf p a hc
  refine ⟨⟨h.linked, fun r hr => ?_, h.driven, fun p c a hc => ?_, fun p c a hc hn => ?_⟩,
    fun p => unreturned_congr rfl rfl (hbuf p)⟩
  · obtain ⟨hs, hl, ⟨a, hc⟩, ht⟩ := h.pending r hr
    exact ⟨(hbuf _ _ _ hc).trans hs, hl, ⟨a, hc⟩, ht⟩
  · rw [hbuf p c a hc]
    exact h.locked p c a hc
  · rw [hbuf p c a hc]
    exact h.served p c a hc hn

/-- A process may be woken at any time. -/
theorem Inv.kill (h : Inv d pend faults s) (p : Nat) :
    Inv d pend faults (s.setCall p ((s.call p).map fun c => (c.1, false))) ∧
      ∀ q, unreturned pend (s.setCall p ((s.call p).map fun c => (c.1, false))) q = unreturned pend s q := by
  let t := s.setCall p ((s.call p).map fun c => (c.1, false))
  have hcall : ∀ q, (t.call q).map Prod.fst = (s.call q).map Prod.fst := by
    intro q
    by_cases hq : q = p
    · subst hq
      change (Function.update s.call q _ q).map Prod.fst = _
      rw [Function.update_self, Option.map_map]
      rfl
    · change (Function.update s.call p _ q).map Prod.fst = _
      rw [Function.update_of_ne hq]
  have hof : ∀ q c a, t.call q = some (c, a) → ∃ a', s.call q = some (c, a') ∧ (a = a' ∨ a = false) := by
    intro q c a hc
    by_cases hq : q = p
    · subst hq
      change Function.update s.call q _ q = _ at hc
      rw [Function.update_self] at hc
      obtain ⟨⟨c', a'⟩, hs, he⟩ := Option.map_eq_some_iff.1 hc
      cases he
      exact ⟨a', hs, .inr rfl⟩
    · change Function.update s.call p _ q = _ at hc
      rw [Function.update_of_ne hq] at hc
      exact ⟨a, hc, .inl rfl⟩
  refine ⟨⟨h.linked, fun r hr => ?_, h.driven, fun q c a hc => ?_, fun q c a hc hn => ?_⟩,
    fun q => unreturned_congr (hcall q) rfl fun _ _ _ => rfl⟩
  · obtain ⟨hs, hl, hc, ht⟩ := h.pending r hr
    exact ⟨hs, hl, called_congr (hcall r.pid) hc, ht⟩
  · obtain ⟨a', ha', -⟩ := hof q c a hc
    exact h.locked q c a' ha'
  · obtain ⟨a', ha', hor⟩ := hof q c a hc
    obtain ⟨hf, hv⟩ := h.served q c a' ha' hn
    refine ⟨?_, hv⟩
    rcases hor with rfl | rfl
    · exact hf
    · rfl

/-- The drive executes the command at the head. -/
theorem Inv.disk (h : Inv d pend faults s) {c : Cmd} (hd : s.drive = .busy c) (fault : Option (Option Block)) :
    Inv d pend (faults ++ [fault])
    { s with content := (c.exec s.content fault).1, drive := .done (c.exec s.content fault).2 } := by
  refine ⟨h.linked, fun r hr => ?_, ?_, h.locked, h.served⟩
  · obtain ⟨h1, h2, h3, h4⟩ := h.pending r hr
    exact ⟨h1, h2, h3, h4⟩
  · have hdriven := h.driven
    rw [hd] at hdriven
    dsimp only
    generalize s.content = content at hdriven ⊢
    cases hdriven with
    | busy r rs => exact .done r rs fault

/-! ## The interrupt -/

/-- What the handler leaves in the buffer of the request at the head. -/
theorem rw_handler (d : Content) (fault : Option (Option Block)) (x : Buf) :
    { (if x.dirty then x else { x with data := ((cmd x).exec d fault).2.getD x.data }) with valid := true, dirty := false } =
      (rw d fault x).2 := by
  unfold rw
  cases x.dirty <;> rfl

theorem rw_content (d : Content) (fault : Option (Option Block)) (x : Buf) :
    ((cmd x).exec d fault).1 = (rw d fault x).1 := by
  unfold rw cmd
  cases x.dirty <;> rfl

theorem rw_flags (d : Content) (fault : Option (Option Block)) (x : Buf) :
    ((rw d fault x).2.valid && !(rw d fault x).2.dirty) = true ∧ (rw d fault x).2.lock = x.lock := by
  unfold rw
  cases x.dirty <;> exact ⟨rfl, rfl⟩

/-- `idestart` with an idle drive. -/
theorem idestart_eq (h : idestart b s = some t) : t = { s with drive := .busy (cmd (s.buf b)) } ∧
    s.drive = .idle ∧ (s.buf b).blockno < FSSIZE := by
  unfold idestart at h
  split at h
  · cases h
  · rename_i hlt
    cases hd : s.drive with
    | idle =>
      rw [hd] at h
      exact ⟨(Option.some.inj h).symm, rfl, Nat.lt_of_not_le hlt⟩
    | busy c =>
      rw [hd] at h
      cases h
    | done r =>
      rw [hd] at h
      cases h

theorem startNext_cases (h : startNext s = some t) :
    (s.idequeue = none ∧ t = s) ∨ ∃ b, s.idequeue = some b ∧ t = { s with drive := .busy (cmd (s.buf b)) } := by
  unfold startNext at h
  cases hq : s.idequeue with
  | none =>
    rw [hq] at h
    exact .inl ⟨rfl, (Option.some.inj h).symm⟩
  | some b =>
    rw [hq] at h
    refine .inr ⟨b, rfl, ?_⟩
    rw [← hq]
    exact (idestart_eq h).1

/-- The queue without its head `b`, whose buffer is now `x`, before the next command is given. -/
def State.finish (b : Ix) (x : Buf) (s : State) : State :=
  ({ s with idequeue := s.qnext b, drive := .idle }.set b x).wakeup b

theorem finish_self (s : State) (b : Ix) (x : Buf) : (s.finish b x).buf b = x := Function.update_self ..

theorem finish_ne {c : Ix} {x : Buf} (h : c ≠ b) : (s.finish b x).buf c = s.buf c := Function.update_of_ne h ..

theorem finish_fst (s : State) (b : Ix) (x : Buf) (q : Nat) :
    ((s.finish b x).call q).map Prod.fst = (s.call q).map Prod.fst := by
  change ((s.call q).map _).map Prod.fst = _
  rw [Option.map_map]
  congr 1
  funext c
  by_cases hc : c.1 = b <;> simp [hc]

/-- Those who wait for the head are awake, the others as they were. -/
theorem finish_call {c : Ix} {x : Buf} (h : (s.finish b x).call p = some (c, a)) :
    ∃ a', s.call p = some (c, a') ∧ (c ≠ b → a = a') ∧ (c = b → a = false) := by
  obtain ⟨⟨c', a'⟩, hs, he⟩ := Option.map_eq_some_iff.1 h
  by_cases hb : c' = b
  · simp only [hb, if_true] at he
    cases he
    exact ⟨a', hb ▸ hs, fun hne => absurd rfl hne, fun _ => rfl⟩
  · simp only [hb, if_false] at he
    cases he
    exact ⟨a, hs, fun _ => rfl, fun h => absurd h hb⟩

section

variable {r : Req} {rs : List Req} {x : Buf}

/-- The head's buffer and process are those of no other request. -/
theorem Inv.apart (h : Inv d (r :: rs) faults s) {r' : Req} (hr' : r' ∈ rs) : r'.b ≠ r.b ∧ r'.pid ≠ r.pid := by
  have hnodup := h.linked.nodup
  rw [List.map_cons, List.nodup_cons] at hnodup
  have hne : r'.b ≠ r.b := fun he => hnodup.1 (he ▸ List.mem_map_of_mem hr')
  refine ⟨hne, fun he => hne ?_⟩
  rw [h.eq_of_pid (List.mem_cons_of_mem _ hr') List.mem_cons_self he]

theorem Inv.finish_pending (h : Inv d (r :: rs) faults s) {r' : Req} (hr' : r' ∈ rs) : Pending (s.finish r.b x) r' := by
  obtain ⟨h1, h2, h3, h4⟩ := h.pending r' (List.mem_cons_of_mem _ hr')
  exact ⟨(finish_ne (h.apart hr').1).trans h1, h2, called_congr (finish_fst ..) h3, h4⟩

theorem Inv.finish_locked (h : Inv d (r :: rs) faults s) (hx : x.lock = r.x.lock) {q : Nat} {c : Ix}
    (hc : (s.finish r.b x).call q = some (c, a)) : ((s.finish r.b x).buf c).lock = some q := by
  obtain ⟨a', ha', -⟩ := finish_call hc
  have hlock := h.locked q c a' ha'
  by_cases hb : c = r.b
  · subst hb
    rw [finish_self, hx, ← (h.pending r List.mem_cons_self).same]
    exact hlock
  · rw [finish_ne hb]
    exact hlock

theorem Inv.finish_served (h : Inv d (r :: rs) faults s) (hx : (x.valid && !x.dirty) = true) {q : Nat} {c : Ix}
    (hc : (s.finish r.b x).call q = some (c, a)) (hn : ∀ r' ∈ rs, r'.pid ≠ q) :
    a = false ∧ (((s.finish r.b x).buf c).valid && !((s.finish r.b x).buf c).dirty) = true := by
  obtain ⟨a', ha', h1, h2⟩ := finish_call hc
  by_cases hb : c = r.b
  · subst hb
    exact ⟨h2 rfl, by rw [finish_self]; exact hx⟩
  · have hq : ∀ r' ∈ r :: rs, r'.pid ≠ q := by
      intro r' hr' he
      rcases List.mem_cons.1 hr' with rfl | hr'
      · exact hb (h.buffer List.mem_cons_self (he ▸ ha')).symm
      · exact hn r' hr' he
    obtain ⟨hf, hv⟩ := h.served q c a' ha' hq
    exact ⟨(h1 hb).trans hf, by rw [finish_ne hb]; exact hv⟩

theorem Inv.finish_unreturned (h : Inv d (r :: rs) faults s) (q : Nat) :
    unreturned rs (s.finish r.b x) q = unreturned (r :: rs) s q ++ if r.pid = q then [{ r with x := x }] else [] := by
  obtain ⟨hsame, hlock, hcalled, -⟩ := h.pending r List.mem_cons_self
  by_cases hq : r.pid = q
  · -- the call just served
    subst hq
    have hany : rs.any (·.pid == r.pid) = false := by
      simp only [List.any_eq_false, beq_iff_eq]
      exact fun r' hr' => (h.apart hr').2
    obtain ⟨a, hcall⟩ := hcalled
    have hold : unreturned (r :: rs) s r.pid = [] := by simp [unreturned, hcall]
    obtain ⟨a', hcall'⟩ := called_congr (finish_fst s r.b x r.pid) ⟨a, hcall⟩
    rw [hold, if_pos rfl, List.nil_append, unreturned, hcall']
    simp only [hany, finish_self]
    rfl
  · rw [if_neg hq, List.append_nil]
    have hany : (r :: rs).any (·.pid == q) = rs.any (·.pid == q) := by simp [hq]
    refine unreturned_congr (finish_fst ..) hany.symm fun c a' hc => finish_ne ?_
    rintro rfl
    -- the buffer is locked by the process whose call was served
    have hlocked := h.locked q _ a' hc
    rw [hsame, hlock] at hlocked
    exact hq (Option.some.inj hlocked)

/-- With the drive idle the next command is that of the new head. -/
theorem startNext_driven (ht : startNext s = some t) (hidle : s.drive = .idle) (hcontent : s.content = d)
    (hlinked : Queue.Linked s.qnext s.idequeue (rs.map Req.b)) (hsame : ∀ r ∈ rs, s.buf r.b = r.x) :
    t = { s with drive := t.drive } ∧ Driven d rs t.drive t.content [] := by
  rcases startNext_cases ht with ⟨hnone, rfl⟩ | ⟨b, hsome, rfl⟩
  · refine ⟨rfl, ?_⟩
    cases rs with
    | nil =>
      rw [hidle, hcontent]
      exact .idle
    | cons r rs => exact absurd (hlinked.1.symm.trans hnone) (by simp)
  · refine ⟨rfl, ?_⟩
    cases rs with
    | nil => exact absurd (hsome.symm.trans hlinked) (by simp)
    | cons r rs =>
      obtain rfl : b = r.b := Option.some.inj (hsome.symm.trans hlinked.1)
      change Driven _ _ (.busy (cmd (s.buf r.b))) s.content _
      rw [hcontent, hsame r List.mem_cons_self]
      exact .busy r rs

/-- An interrupt comes when the command of the head has been executed. -/
theorem Inv.ideintr_eq (h : Inv d (r :: rs) faults s) (ht : ideintr s = some t) : ∃ fault, faults = [fault] ∧
    s.content = (rw d fault r.x).1 ∧ startNext (s.finish r.b (rw d fault r.x).2) = some t := by
  unfold ideintr at ht
  rw [h.linked.1] at ht
  dsimp only at ht
  have hdriven := h.driven
  cases hd : s.drive with
  | idle =>
    rw [hd] at ht
    cases ht
  | busy c =>
    rw [hd] at ht
    cases ht
  | done reply =>
    rw [hd] at ht hdriven
    dsimp only at ht
    generalize hcontent : s.content = content at hdriven
    cases hdriven with
    | done _ _ fault =>
      rw [(h.pending r List.mem_cons_self).same, rw_handler d fault r.x] at ht
      exact ⟨fault, rfl, rw_content .., ht⟩

/-- The handler takes the request at the head out of the queue, done, and starts the next. -/
theorem Inv.intr (h : Inv d (r :: rs) faults s) (ht : ideintr s = some t) :
    ∃ fault, faults = [fault] ∧ Inv (rw d fault r.x).1 rs [] t ∧
      ∀ p, unreturned rs t p = unreturned (r :: rs) s p ++
      if r.pid = p then [{ r with x := (rw d fault r.x).2 }] else [] := by
  obtain ⟨fault, hfault, hcontent, hnext⟩ := h.ideintr_eq ht
  have hlinked : Queue.Linked (s.finish r.b (rw d fault r.x).2).qnext
    (s.finish r.b (rw d fault r.x).2).idequeue (rs.map Req.b) :=
    h.linked.2
  obtain ⟨heq, hdriven⟩ := startNext_driven hnext rfl hcontent hlinked fun r' hr' => (h.finish_pending hr').same
  rw [heq] at hdriven ⊢
  refine ⟨fault, hfault, ⟨hlinked, fun r' hr' => ?_, hdriven, fun q c a hc => ?_, fun q c a hc => ?_⟩,
    h.finish_unreturned⟩
  · obtain ⟨h1, h2, h3, h4⟩ := h.finish_pending (x := (rw d fault r.x).2) hr'
    exact ⟨h1, h2, h3, h4⟩
  · exact h.finish_locked (rw_flags d fault r.x).2 hc
  · exact h.finish_served (rw_flags d fault r.x).1 hc

end

/-! ## Calls and returns -/

/-- A request is not done before it is served. -/
theorem Inv.todo (h : Inv d pend faults s) (hc : s.call p = some (b, a)) :
    ((s.buf b).valid && !(s.buf b).dirty) = true ↔ ∀ r ∈ pend, r.pid ≠ p := by
  constructor
  · rintro hv r hr rfl
    have hb := h.buffer hr hc
    obtain ⟨h1, -, -, h4⟩ := h.pending r hr
    rw [← hb, h1, h4] at hv
    cases hv
  · intro hn
    exact (h.served p b a hc hn).2

theorem unreturned_eq (hc : s.call p = some (b, a)) :
    unreturned pend s p = if ∀ r ∈ pend, r.pid ≠ p then [⟨p, b, s.buf b⟩] else [] := by
  rw [unreturned, hc]
  by_cases hn : ∀ r ∈ pend, r.pid ≠ p
  · rw [if_pos hn]
    have : pend.any (·.pid == p) = false := by simpa using hn
    simp [this]
  · rw [if_neg hn]
    have : pend.any (·.pid == p) = true := by
      push Not at hn
      simpa using hn
    simp [this]

/-- A process that goes on in `iderw` returns what was left in its buffer when its request was served, or sleeps. -/
theorem Inv.await (h : Inv d pend faults s) (hc : s.call p = some (b, a)) :
    Inv d pend faults (await p b s).1 ∧ ∀ q, unreturned pend s q =
      ((if (await p b s).2 then [⟨p, b, s.buf b⟩] else []).filter fun r : Req => r.pid == q) ++
        unreturned pend (await p b s).1 q := by
  have htodo := h.todo hc
  unfold Ide.await
  by_cases hv : ((s.buf b).valid && !(s.buf b).dirty) = true
  · have hn := htodo.1 hv
    rw [if_pos hv]
    have hcall : ∀ q, q ≠ p → (s.setCall p none).call q = s.call q := fun q hq => Function.update_of_ne hq _ _
    have hself : (s.setCall p none).call p = none := Function.update_self ..
    refine ⟨⟨h.linked, fun r hr => ?_, h.driven, fun q c a' hq => ?_, fun q c a' hq hnq => ?_⟩, fun q => ?_⟩
    · obtain ⟨h1, h2, h3, h4⟩ := h.pending r hr
      exact ⟨h1, h2, by rw [hcall _ (hn r hr)]; exact h3, h4⟩
    · by_cases hqp : q = p
      · rw [hqp, hself] at hq
        cases hq
      · rw [hcall q hqp] at hq
        exact h.locked q c a' hq
    · by_cases hqp : q = p
      · rw [hqp, hself] at hq
        cases hq
      · rw [hcall q hqp] at hq
        exact h.served q c a' hq hnq
    · by_cases hqp : q = p
      · subst hqp
        rw [unreturned_eq hc, if_pos hn, unreturned, hself]
        simp
      · rw [if_pos rfl, List.filter_cons_of_neg (by simpa using Ne.symm hqp)]
        have hu : unreturned pend (s.setCall p none) q = unreturned pend s q :=
          unreturned_congr (by rw [hcall q hqp]) rfl fun _ _ _ => rfl
        exact hu.symm
  · rw [if_neg hv]
    have hcall : ∀ q, q ≠ p → (s.setCall p (some (b, true))).call q = s.call q :=
      fun q hq => Function.update_of_ne hq _ _
    have hself : (s.setCall p (some (b, true))).call p = some (b, true) := Function.update_self ..
    refine ⟨⟨h.linked, fun r hr => ?_, h.driven, fun q c a' hq => ?_, fun q c a' hq hnq => ?_⟩, fun q => ?_⟩
    · obtain ⟨h1, h2, ⟨a', h3⟩, h4⟩ := h.pending r hr
      refine ⟨h1, h2, ?_, h4⟩
      by_cases hqp : r.pid = p
      · rw [hqp] at h3 ⊢
        rw [hc] at h3
        cases h3
        exact ⟨true, hself⟩
      · exact ⟨a', (hcall _ hqp).trans h3⟩
    · by_cases hqp : q = p
      · subst hqp
        rw [hself] at hq
        cases hq
        exact h.locked q b a hc
      · rw [hcall q hqp] at hq
        exact h.locked q c a' hq
    · by_cases hqp : q = p
      · subst hqp
        exact absurd (htodo.2 hnq) hv
      · rw [hcall q hqp] at hq
        exact h.served q c a' hq hnq
    · have hu : unreturned pend (s.setCall p (some (b, true))) q = unreturned pend s q := by
        refine unreturned_congr ?_ rfl fun _ _ _ => rfl
        by_cases hqp : q = p
        · rw [hqp, hself, hc]
          rfl
        · rw [hcall q hqp]
      exact hu.symm

theorem enqueue_spec {q : List Ix} (hq : Queue.Linked s.qnext s.idequeue q) (hb : b ∉ q) :
    ∃ qnext idequeue, enqueue b s = some { s with qnext := qnext, idequeue := idequeue } ∧
      Queue.Linked qnext idequeue (q ++ [b]) ∧ (idequeue = some b ↔ q = []) := by
  have hn : ∀ c ∈ q, Function.update s.qnext b none c = s.qnext c := by
    rintro c hc
    refine Function.update_of_ne ?_ _ _
    rintro rfl
    exact hb hc
  have hq' := hq.congr hn
  have hself : Function.update s.qnext b none b = none := Function.update_self ..
  have hlen : q.length ≤ NBUF := by
    have := hq.nodup.length_le_card
    rwa [Fintype.card_fin] at this
  unfold enqueue
  dsimp only
  rw [Queue.lastLink_eq none hq' hlen]
  rcases List.eq_nil_or_concat q with rfl | ⟨q, c, rfl⟩
  · exact ⟨_, _, rfl, ⟨rfl, hself⟩, by simp⟩
  · rw [List.concat_eq_append] at *
    rw [List.getLast?_concat]
    refine ⟨_, _, rfl, hq'.append hb hself, ?_⟩
    constructor
    · intro hi
      have hhead : s.idequeue = (q ++ [c]).head? := by
        cases q with
        | nil => exact hq.1
        | cons e q => exact hq.1
      rw [hi] at hhead
      exact absurd (List.mem_of_head? hhead.symm) hb
    · intro hnil
      simp at hnil

/-- A call puts its request behind the others. -/
theorem Inv.iderw (h : Inv d pend faults s) (hc : s.call p = none) {u : State} {ret : Bool}
    (ht : iderw p b s = some (u, ret)) :
    ret = false ∧ Inv d (pend ++ [⟨p, b, s.buf b⟩]) faults u ∧
      ∀ q, unreturned (pend ++ [⟨p, b, s.buf b⟩]) u q = unreturned pend s q := by
  unfold Ide.iderw at ht
  by_cases hl : (s.buf b).lock ≠ some p
  · rw [if_pos hl] at ht
    cases ht
  rw [if_neg hl] at ht
  rw [not_not] at hl
  by_cases hv : ((s.buf b).valid && !(s.buf b).dirty) = true
  · rw [if_pos hv] at ht
    cases ht
  rw [if_neg hv] at ht
  by_cases hdev : ((s.buf b).dev ≠ 0 && !s.havedisk1) = true
  · rw [if_pos hdev] at ht
    cases ht
  rw [if_neg hdev] at ht
  have hnew : ∀ r ∈ pend, r.b ≠ b ∧ r.pid ≠ p := by
    intro r hr
    obtain ⟨h1, h2, ⟨a, h3⟩, -⟩ := h.pending r hr
    have hpid : r.pid ≠ p := by
      intro he
      rw [he, hc] at h3
      cases h3
    refine ⟨fun he => hpid ?_, hpid⟩
    rw [← h1, he, hl] at h2
    exact (Option.some.inj h2).symm
  have hb : b ∉ pend.map Req.b := by
    intro hm
    obtain ⟨r, hr, he⟩ := List.mem_map.1 hm
    exact (hnew r hr).1 he
  obtain ⟨qnext, idequeue, henq, hlinked, hfirst⟩ := enqueue_spec h.linked hb
  rw [henq, Option.bind_some] at ht
  obtain ⟨w, hw, hu⟩ := Option.map_eq_some_iff.1 ht
  -- the drive is started for the only request
  have hstart : ∃ drive, w = { s with qnext := qnext, idequeue := idequeue, drive := drive } ∧
      Driven d (pend ++ [⟨p, b, s.buf b⟩]) drive s.content faults := by
    have hdriven := h.driven
    by_cases hnil : pend = []
    · subst hnil
      rw [if_pos (hfirst.2 rfl)] at hw
      obtain ⟨rfl, hidle, -⟩ := idestart_eq hw
      change s.drive = .idle at hidle
      rw [hidle] at hdriven
      refine ⟨_, rfl, ?_⟩
      generalize s.content = content at hdriven ⊢
      cases hdriven
      exact .busy ⟨p, b, s.buf b⟩ []
    · rw [if_neg (fun hi => hnil (List.map_eq_nil_iff.1 (hfirst.1 hi)))] at hw
      refine ⟨s.drive, (Option.some.inj hw).symm, ?_⟩
      generalize s.content = content at hdriven ⊢
      generalize s.drive = drive at hdriven ⊢
      cases hdriven with
      | idle => exact absurd rfl hnil
      | busy r rs => exact .busy r (rs ++ _)
      | done r rs fault => exact .done r (rs ++ _) fault
  obtain ⟨drive, rfl, hdriven⟩ := hstart
  have hawait : Ide.await p b { s with qnext := qnext, idequeue := idequeue, drive := drive } =
      (State.setCall { s with qnext := qnext, idequeue := idequeue, drive := drive } p (some (b, true)),
      false) := if_neg hv
  rw [hawait] at hu
  cases hu
  have hcall : ∀ q, q ≠ p → Function.update s.call p (some (b, true)) q = s.call q :=
    fun q hq => Function.update_of_ne hq _ _
  have hself : Function.update s.call p (some (b, true)) p = some (b, true) := Function.update_self ..
  refine ⟨rfl, ⟨?_, fun r hr => ?_, hdriven, fun q c a hq => ?_, fun q c a hq hn => ?_⟩, fun q => ?_⟩
  · rw [List.map_append]
    exact hlinked
  · rcases List.mem_append.1 hr with hr | hr
    · obtain ⟨h1, h2, h3, h4⟩ := h.pending r hr
      refine ⟨h1, h2, ?_, h4⟩
      change ∃ a, Function.update s.call p (some (b, true)) r.pid = some (r.b, a)
      rw [hcall _ (hnew r hr).2]
      exact h3
    · obtain rfl := List.mem_singleton.1 hr
      exact ⟨rfl, hl, ⟨true, hself⟩, by simpa using hv⟩
  · change Function.update s.call p (some (b, true)) q = some (c, a) at hq
    by_cases hqp : q = p
    · subst hqp
      rw [hself] at hq
      cases hq
      exact hl
    · rw [hcall q hqp] at hq
      exact h.locked q c a hq
  · change Function.update s.call p (some (b, true)) q = some (c, a) at hq
    by_cases hqp : q = p
    · exact absurd hqp.symm (hn ⟨p, b, s.buf b⟩ (by simp))
    · rw [hcall q hqp] at hq
      exact h.served q c a hq fun r hr => hn r (List.mem_append_left _ hr)
  · by_cases hqp : q = p
    · subst hqp
      have h1 : unreturned pend s q = [] := by
        rw [unreturned, hc]
      rw [h1, unreturned_eq (b := b) (a := true) hself, if_neg]
      exact fun hn => hn ⟨q, b, s.buf b⟩ (by simp) rfl
    · refine unreturned_congr ?_ ?_ fun _ _ _ => rfl
      · change (Function.update s.call p (some (b, true)) q).map _ = _
        rw [hcall q hqp]
      · rw [List.any_append]
        simp [Ne.symm hqp]

/-! ## Runs -/

def called (ls : List (Act × Seen)) : List Req := ls.flatMap fun l => l.2.called

def faulted (ls : List (Act × Seen)) : List (Option (Option Block)) := ls.flatMap fun l => l.2.faults

def returned (ls : List (Act × Seen)) : List Req := ls.flatMap fun l => l.2.returned

/-- All that has happened so far: the requests `done`, with the errors the drive reported, and those in the queue. -/
structure Served (d : Content) (done : List (Req × Option (Option Block))) (pend : List Req)
    (faults : List (Option (Option Block))) (ls : List (Act × Seen)) (s : State) : Prop where
  inv : Inv (after d done) pend faults s
  calls : called ls = done.map Prod.fst ++ pend
  errors : faulted ls = done.map Prod.snd ++ faults
  returns : ∀ p, (returned ls).filter (·.pid == p) ++ unreturned pend s p = (results d done).filter (·.pid == p)

/-- A step that leaves the queue alone. -/
theorem Served.quiet {done : List (Req × Option (Option Block))} {ls : List (Act × Seen)}
    (h : Served d done pend faults ls s)
    {a : Act} (hi : Inv (after d done) pend faults t ∧ ∀ p, unreturned pend t p = unreturned pend s p) :
    Served d done pend faults (ls ++ [(a, .none)]) t := by
  refine ⟨hi.1, ?_, ?_, fun p => ?_⟩
  · rw [← h.calls]
    simp [called, Seen.none]
  · rw [← h.errors]
    simp [faulted, Seen.none]
  · rw [hi.2, ← h.returns]
    simp [returned, Seen.none]

theorem Served.step {done : List (Req × Option (Option Block))} {ls : List (Act × Seen)}
    (h : Served d done pend faults ls s)
    {l : Act × Seen} (hs : Step s l t) : ∃ done' pend' faults', Served d done' pend' faults' (ls ++ [l]) t := by
  obtain ⟨act, seen⟩ := l
  unfold Step at hs
  cases act with
  | lock p b =>
    simp only [next] at hs
    split at hs
    · rename_i hg
      cases hs
      exact ⟨_, _, _, h.quiet (h.inv.edit (h.inv.free hg.1 (by simp [hg.2])) _)⟩
    · cases hs
  | unlock p b =>
    simp only [next] at hs
    split at hs
    · rename_i hg
      cases hs
      exact ⟨_, _, _, h.quiet (h.inv.edit (h.inv.free hg.1 (by simp [hg.2])) _)⟩
    · cases hs
  | edit p b x =>
    simp only [next] at hs
    split at hs
    · rename_i hg
      cases hs
      exact ⟨_, _, _, h.quiet (h.inv.edit (h.inv.free hg.1 hg.2) _)⟩
    · cases hs
  | kill p =>
    cases hs
    exact ⟨_, _, _, h.quiet (h.inv.kill p)⟩
  | iderw p b =>
    simp only [next] at hs
    split at hs
    · rename_i hc
      obtain ⟨⟨u, ret⟩, hu, hs⟩ := Option.map_eq_some_iff.1 hs
      cases hs
      obtain ⟨rfl, hinv, hun⟩ := h.inv.iderw hc hu
      refine ⟨done, _, faults, hinv, ?_, ?_, fun q => ?_⟩
      · rw [← List.append_assoc, ← h.calls]
        simp [called]
      · rw [← h.errors]
        simp [faulted]
      · rw [hun, ← h.returns]
        simp [returned]
    · cases hs
  | run p =>
    simp only [next] at hs
    split at hs
    · rename_i b hc
      cases hs
      obtain ⟨hinv, hun⟩ := h.inv.await hc
      refine ⟨done, pend, faults, hinv, ?_, ?_, fun q => ?_⟩
      · rw [← h.calls]
        simp [called]
      · rw [← h.errors]
        simp [faulted]
      · rw [← h.returns, hun q]
        simp [returned]
    · cases hs
  | disk fault =>
    simp only [next] at hs
    split at hs
    · rename_i c hd
      cases hs
      refine ⟨done, pend, _, h.inv.disk hd fault, ?_, ?_, fun q => ?_⟩
      · rw [← h.calls]
        simp [called]
      · rw [← List.append_assoc, ← h.errors]
        simp [faulted]
      · rw [← h.returns]
        simp [returned]
        rfl
    · cases hs
  | intr =>
    simp only [next] at hs
    obtain ⟨u, hu, hs⟩ := Option.map_eq_some_iff.1 hs
    cases hs
    cases pend with
    | nil =>
      have hnone : s.idequeue = none := h.inv.linked
      unfold ideintr at hu
      rw [hnone] at hu
      cases hu
      exact ⟨_, _, _, h.quiet ⟨h.inv, fun _ => rfl⟩⟩
    | cons r rs =>
      obtain ⟨fault, rfl, hinv, hun⟩ := h.inv.intr hu
      refine ⟨done ++ [(r, fault)], rs, [], ?_, ?_, ?_, fun q => ?_⟩
      · rw [after_concat]
        exact hinv
      · have hcalls := h.calls
        simp only [called, List.flatMap_append, List.map_append, List.append_assoc] at hcalls ⊢
        rw [hcalls]
        simp [Seen.none]
      · have herrors := h.errors
        simp only [faulted, List.flatMap_append, List.map_append] at herrors ⊢
        rw [herrors]
        simp [Seen.none]
      · rw [hun, results_concat, List.filter_append, ← h.returns, List.append_assoc]
        by_cases hq : r.pid = q
        · simp [hq, returned, Seen.none]
        · simp [hq, returned, Seen.none]

theorem served_init (havedisk1 : Bool) (content : Content) : Served content [] [] [] [] (init havedisk1 content) := by
  refine ⟨⟨rfl, fun r hr => ?_, .idle, fun p b a hc => ?_, fun p b a hc => ?_⟩, rfl, rfl, fun _ => rfl⟩
  · cases hr
  · cases hc
  · cases hc

theorem Served.run {done : List (Req × Option (Option Block))} {ls ls' : List (Act × Seen)}
    (h : Served d done pend faults ls s)
    (hrun : Run Step s ls' t) : ∃ done' pend' faults', Served d done' pend' faults' (ls ++ ls') t := by
  induction hrun generalizing done pend faults ls with
  | nil => exact ⟨done, pend, faults, by rwa [List.append_nil]⟩
  | @cons s u t l ls' hs _ ih =>
    obtain ⟨done1, pend1, faults1, h1⟩ := h.step hs
    obtain ⟨done2, pend2, faults2, h2⟩ := ih h1
    exact ⟨done2, pend2, faults2, by rwa [List.append_assoc] at h2⟩

/-- The handler is never stuck: the blocks asked for are on the disk. -/
theorem Inv.goes (h : Inv d pend faults s) (hne : pend ≠ []) (hblock : ∀ r ∈ pend, r.x.blockno < FSSIZE) :
    (∃ t, Step s (.intr, .none) t) ∨ ∀ fault, ∃ t, Step s (.disk fault, ⟨[], [fault], []⟩) t := by
  obtain ⟨r, rs, rfl⟩ := List.exists_cons_of_ne_nil hne
  have hdriven := h.driven
  cases hd : s.drive with
  | idle =>
    rw [hd] at hdriven
    cases hdriven
  | busy c =>
    refine .inr fun fault =>
      ⟨{ s with content := (c.exec s.content fault).1, drive := .done (c.exec s.content fault).2 }, ?_⟩
    simp only [Step, next, hd]
  | done reply =>
    obtain ⟨hq, hlinked⟩ := h.linked
    obtain ⟨hsame, -, -, -⟩ := h.pending r List.mem_cons_self
    have hnodup := h.linked.nodup
    rw [List.map_cons, List.nodup_cons] at hnodup
    have hstart : ∀ u : State, u.idequeue = s.qnext r.b → u.drive = .idle → (∀ c, c ≠ r.b → u.buf c = s.buf c) →
        (startNext u).isSome := by
      intro u hu hidle hbuf
      cases rs with
      | nil =>
        rw [startNext, hu, show s.qnext r.b = none from hlinked]
        rfl
      | cons r' rs =>
        have hr' : r'.b ≠ r.b := fun he => hnodup.1 (he ▸ by simp)
        have hblk : (u.buf r'.b).blockno < FSSIZE := by
          rw [hbuf _ hr', (h.pending r' (by simp)).same]
          exact hblock r' (by simp)
        rw [startNext, hu, hlinked.1]
        simp only [idestart, if_neg (Nat.not_le.2 hblk), hidle]
        rfl
    left
    have hsome : (ideintr s).isSome := by
      rw [ideintr, hq]
      simp only [hd]
      exact hstart _ rfl rfl fun c hc => Function.update_of_ne hc _ _
    obtain ⟨t, ht⟩ := Option.isSome_iff_exists.1 hsome
    exact ⟨t, by simp only [Step, next, ht, Option.map_some]⟩

/-- After the steps `ls`, with the requests `done` served and `pend` in the queue. -/
structure Serial (d : Content) (ls : List (Act × Seen)) (done : List (Req × Option (Option Block))) (pend : List Req)
    (s : State) : Prop where
  calls : called ls = done.map Prod.fst ++ pend
  errors : done.map Prod.snd <+: faulted ls
  queue : Queue.Linked s.qnext s.idequeue (pend.map Req.b)
  content : (∀ reply, s.drive ≠ .done reply) → s.content = after d done
  returns : ∀ p, (returned ls).filter (·.pid == p) ++ unreturned pend s p = (results d done).filter (·.pid == p)
  asleep : ∀ p b, s.call p = some (b, true) → ∃ r ∈ pend, r.pid = p
  goes : pend ≠ [] → (∀ r ∈ pend, r.x.blockno < FSSIZE) →
    (∃ t, Step s (.intr, .none) t) ∨ ∀ fault, ∃ t, Step s (.disk fault, ⟨[], [fault], []⟩) t

/-- **The driver is a disk that serves one request after another.** After any steps of any processes, of the
drive and of the interrupt handler: the requests were served in the order of the calls, each once; what the
calls of each process have returned is what they leave in a disk in memory, served in that order; the disk
holds what they leave there, but for a command that is executed and not yet handled; who sleeps has a request in the
queue; and the queue always moves on. -/
theorem ide_serial {havedisk1 : Bool} {content : Content} {ls : List (Act × Seen)} {s : State}
    (h : Run Step (init havedisk1 content) ls s) : ∃ done pend, Serial content ls done pend s := by
  obtain ⟨done, pend, faults, hs⟩ := (served_init havedisk1 content).run h
  rw [List.nil_append] at hs
  refine ⟨done, pend, hs.calls, ⟨faults, hs.errors.symm⟩, hs.inv.linked, fun hd => ?_,
    hs.returns, fun p b hc => ?_, hs.inv.goes⟩
  · have hdriven := hs.inv.driven
    generalize s.content = c at hdriven ⊢
    generalize s.drive = drive at hdriven hd
    cases hdriven with
    | idle => rfl
    | busy r rs => rfl
    | done r rs fault => exact absurd rfl (hd _)
  · by_contra hn
    push Not at hn
    cases (hs.inv.served p b true hc hn).1

/-- Process 1 writes block 7, process 2 reads it through another buffer while the disk is busy. -/
def twoRequests (data : Block) : List (Act × Seen) :=
  let a : Ix := ⟨3, by decide⟩
  let b : Ix := ⟨5, by decide⟩
  let x : Buf := { dev := 1, blockno := 7, dirty := true, data := data, lock := some 1 }
  let y : Buf := { dev := 1, blockno := 7, lock := some 2 }
  [(.lock 1 a, .none), (.edit 1 a x, .none), (.lock 2 b, .none), (.edit 2 b y, .none),
    (.iderw 1 a, ⟨[⟨1, a, x⟩], [], []⟩), (.iderw 2 b, ⟨[⟨2, b, y⟩], [], []⟩),
    (.disk none, ⟨[], [none], []⟩), (.intr, .none),
    (.disk none, ⟨[], [none], []⟩), (.intr, .none),
    (.run 2, ⟨[], [], [⟨2, b, { y with valid := true, data := data }⟩]⟩)]

theorem ide_serial_two : ∃ s done pend, Run Step (init true fun _ _ => 0) (twoRequests fun _ => 9) s ∧
    Serial (fun _ _ => 0) (twoRequests fun _ => 9) done pend s := by
  have hrun : ∃ s, Run Step (init true fun _ _ => 0) (twoRequests fun _ => 9) s :=
    ⟨_, .cons rfl (.cons rfl (.cons rfl (.cons rfl (.cons rfl (.cons rfl (.cons rfl (.cons rfl (.cons rfl (.cons rfl
      (.cons rfl (.nil _)))))))))))⟩
  obtain ⟨s, hs⟩ := hrun
  obtain ⟨done, pend, h⟩ := ide_serial hs
  exact ⟨s, done, pend, hs, h⟩

end Xv6.Ide
