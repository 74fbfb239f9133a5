import Mathlib.Data.Fintype.Card
import CCppProjects.Xv6.Bio
/-
# The buffer cache's invariant

`Inv L s t`: the cache `s` stands for the store `t`. A block's contents are in its one valid buffer; what
is only there is pinned, by `B_DIRTY` or by the process that has it locked, and everything else is on
disk as well (`kept`). `refcnt` counts the processes that have the buffer, wait for it or are about
to give it back, so that a buffer with `refcnt` 0 is nobody's.
-/
namespace Xv6.Bio

open Log Links

variable {L : LogDev} {s s' : Bcache} {t : Store}

/-! ## The invariant -/

@[simp] theorem Bcache.set_self (s : Bcache) (b : Ix) (x : Buf) : (s.set b x).buf b = x := Function.update_self ..

@[simp] theorem Bcache.set_of_ne (s : Bcache) {a b : Ix} (h : a ≠ b) (x : Buf) : (s.set b x).buf a = s.buf a :=
  Function.update_of_ne h ..

/-- The processes `refcnt` counts. -/
def Bcache.users (s : Bcache) (b : Ix) : Nat :=
  (if (s.buf b).lock.isSome then 1 else 0) + s.waits.countP (·.b == b) + s.rels.countP (·.2 == b)

structure Inv (L : LogDev) (s : Bcache) (t : Store) : Prop where
  ring : ∃ l : List Ix, Cyclic s.next s.prev none (l.map some) ∧ ∀ b, b ∈ l
  refs : ∀ b, (s.buf b).refcnt = s.users b
  unnamed : ∀ b, (s.buf b).dev = 0 → (s.buf b).valid = false ∧ (s.buf b).refcnt = 0
  unique : ∀ a b, (s.buf a).dev ≠ 0 → (s.buf a).block = (s.buf b).block → a = b
  dirty : ∀ b, (s.buf b).dirty = true → (s.buf b).valid = true
  locked : ∀ b, (s.buf b).lock.isSome = true → (s.buf b).valid = true
  data : ∀ b, (s.buf b).valid = true → (s.buf b).data = t (s.buf b).block
  kept : ∀ k : Nat × Nat, k.1 ≠ 0 → s.disk k = t k ∨
    ∃ b, (s.buf b).block = k ∧ (s.buf b).valid = true ∧ ((s.buf b).dirty = true ∨ (s.buf b).lock.isSome = true)
  waits : ∀ w ∈ s.waits, (s.buf w.b).block = (w.dev, w.blockno)
  lh : s.lh.length ≤ L.size - 1 ∧ ∀ b ∈ s.lh, Home L.toLayout b

theorem countP_eraseP {α : Type} {q : α → Bool} {f : α → Bool} {a : α} {l : List α} (h : l.find? f = some a) :
    l.countP q = (l.eraseP f).countP q + if q a then 1 else 0 := by
  induction l with
  | nil => cases h
  | cons b l ih =>
    rw [List.find?_cons] at h
    cases hf : f b with
    | true =>
      rw [hf] at h
      cases h
      rw [List.eraseP_cons_of_pos hf, List.countP_cons]
    | false =>
      rw [hf] at h
      rw [List.eraseP_cons_of_neg (by simp [hf]), List.countP_cons, List.countP_cons, ih h]
      omega

theorem users_zero {b : Ix} (h : s.users b = 0) :
    (s.buf b).lock = none ∧ (∀ w ∈ s.waits, w.b ≠ b) ∧ ∀ r ∈ s.rels, r.2 ≠ b := by
  unfold Bcache.users at h
  have h1 : s.waits.countP (·.b == b) = 0 := by omega
  have h2 : s.rels.countP (·.2 == b) = 0 := by omega
  refine ⟨?_, fun w hw => ?_, fun r hr => ?_⟩
  · cases hl : (s.buf b).lock with
    | none => rfl
    | some p =>
      rw [hl] at h
      simp at h
  · simpa using List.countP_eq_zero.1 h1 w hw
  · simpa using List.countP_eq_zero.1 h2 r hr

/-- A buffer somebody uses is assigned. -/
theorem Inv.dev_ne {b : Ix} (h : Inv L s t) (hu : 0 < s.users b) : (s.buf b).dev ≠ 0 := by
  intro h0
  have := (h.unnamed b h0).2
  rw [h.refs b] at this
  omega

theorem users_of_lock {b : Ix} (h : (s.buf b).lock.isSome = true) : 0 < s.users b := by
  unfold Bcache.users
  rw [if_pos h]
  omega

/-- Unless it is dirty or locked, a valid buffer agrees with the disk. -/
theorem Inv.clean {b : Ix} (h : Inv L s t) (hdev : (s.buf b).dev ≠ 0) (hd : (s.buf b).dirty = false)
    (hl : (s.buf b).lock = none) : s.disk (s.buf b).block = t (s.buf b).block := by
  refine (h.kept (s.buf b).block hdev).resolve_right ?_
  rintro ⟨a, ha, _, hp⟩
  obtain rfl := h.unique b a hdev ha.symm
  simp [hd, hl] at hp

/-- An invalid one has its block on disk. -/
theorem Inv.unread {b : Ix} (h : Inv L s t) (hdev : (s.buf b).dev ≠ 0) (hv : (s.buf b).valid = false) :
    s.disk (s.buf b).block = t (s.buf b).block := by
  refine h.clean hdev ?_ ?_
  · by_contra hd
    simp [h.dirty b (by simpa using hd)] at hv
  · by_contra hl
    simp [h.locked b (Option.isSome_iff_ne_none.2 hl)] at hv

/-- A step that changes one assigned buffer and what the store and the disk have of its block. -/
theorem Inv.change {b : Ix} {x : Buf} {t' : Store} (h : Inv L s t) (hbuf : s'.buf = Function.update s.buf b x)
    (hblock : x.block = (s.buf b).block) (hdev : (s.buf b).dev ≠ 0) (hn : s'.next = s.next) (hp : s'.prev = s.prev)
    (hrefs : x.refcnt = s'.users b) (husers : ∀ a, a ≠ b → s'.users a = s.users a)
    (hdirty : x.dirty = true → x.valid = true) (hlocked : x.lock.isSome = true → x.valid = true)
    (hdata : x.valid = true → x.data = t' x.block)
    (ht : ∀ k, k ≠ (s.buf b).block → t' k = t k) (hdisk : ∀ k, k ≠ (s.buf b).block → s'.disk k = s.disk k)
    (hkept : s'.disk (s.buf b).block = t' (s.buf b).block ∨ x.valid = true ∧ (x.dirty = true ∨ x.lock.isSome = true))
    (hwaits : ∀ w ∈ s'.waits, w ∈ s.waits ∨ w.b = b ∧ (s.buf b).block = (w.dev, w.blockno))
    (hlh : s'.lh.length ≤ L.size - 1 ∧ ∀ b ∈ s'.lh, Home L.toLayout b) : Inv L s' t' := by
  have hself : s'.buf b = x := by rw [hbuf, Function.update_self]
  have hother : ∀ a, a ≠ b → s'.buf a = s.buf a := fun a ha => by rw [hbuf, Function.update_of_ne ha]
  have hblk : ∀ a, (s'.buf a).block = (s.buf a).block := by
    intro a
    by_cases ha : a = b
    · rw [ha, hself, hblock]
    · rw [hother a ha]
  have hd : ∀ a, (s'.buf a).dev = (s.buf a).dev := fun a => congrArg Prod.fst (hblk a)
  constructor
  · rw [hn, hp]
    exact h.ring
  · intro a
    by_cases ha : a = b
    · rw [ha, hself, hrefs]
    · rw [hother a ha, husers a ha, h.refs a]
  · intro a h0
    rw [hd a] at h0
    by_cases ha : a = b
    · exact absurd (ha ▸ h0) hdev
    · rw [hother a ha]
      exact h.unnamed a h0
  · intro a c ha hac
    rw [hd a] at ha
    rw [hblk a, hblk c] at hac
    exact h.unique a c ha hac
  · intro a
    by_cases ha : a = b
    · rw [ha, hself]
      exact hdirty
    · rw [hother a ha]
      exact h.dirty a
  · intro a
    by_cases ha : a = b
    · rw [ha, hself]
      exact hlocked
    · rw [hother a ha]
      exact h.locked a
  · intro a hv
    by_cases ha : a = b
    · rw [ha, hself] at hv ⊢
      exact hdata hv
    · rw [hother a ha] at hv ⊢
      rw [h.data a hv, ht]
      intro hk
      have hne : (s.buf a).dev ≠ 0 := fun h0 => by simp [(h.unnamed a h0).1] at hv
      exact ha (h.unique a b hne hk)
  · intro k hk
    by_cases hkb : k = (s.buf b).block
    · subst hkb
      rcases hkept with hkept | ⟨h1, h2⟩
      · exact .inl hkept
      · exact .inr ⟨b, hblk b, by rw [hself]; exact h1, by rw [hself]; exact h2⟩
    · rcases h.kept k hk with hk | ⟨a, h1, h2, h3⟩
      · exact .inl (by rw [hdisk k hkb, ht k hkb, hk])
      · have ha : a ≠ b := by
          rintro rfl
          exact hkb h1.symm
        exact .inr ⟨a, by rw [hblk a, h1], by rw [hother a ha]; exact h2, by rw [hother a ha]; exact h3⟩
  · intro w hw
    rw [hblk]
    rcases hwaits w hw with hw | ⟨h1, h2⟩
    · exact h.waits w hw
    · rw [h1, h2]
  · exact hlh

/-! ## The steps -/

/-- Buffer `b` is locked by `p` for block `k`, and its contents are pinned or on disk. -/
structure Holds (s : Bcache) (p : Nat) (b : Ix) (k : Nat × Nat) : Prop where
  lock : (s.buf b).lock = some p
  block : (s.buf b).block = k
  clean : (s.buf b).dirty = true ∨ (s.buf b).data = s.disk k

theorem users_same {b : Ix} {x : Buf} (hbuf : s'.buf = Function.update s.buf b x) (hl : x.lock = (s.buf b).lock)
    (hw : s'.waits = s.waits) (hr : s'.rels = s.rels) (a : Ix) : s'.users a = s.users a := by
  have : (s'.buf a).lock = (s.buf a).lock := by
    rw [hbuf]
    by_cases ha : a = b
    · rw [ha, Function.update_self, hl]
    · rw [Function.update_of_ne ha]
  rw [Bcache.users, this, hw, hr, Bcache.users]

/-- A change of a locked buffer by the process that has it. -/
theorem Inv.edit {b : Ix} {x : Buf} {t' : Store} (h : Inv L s t) (hlk : (s.buf b).lock.isSome = true)
    (hbuf : s'.buf = Function.update s.buf b x) (hx : x.block = (s.buf b).block ∧ x.lock = (s.buf b).lock ∧
      x.refcnt = (s.buf b).refcnt ∧ x.valid = true)
    (hs : s'.next = s.next ∧ s'.prev = s.prev ∧ s'.waits = s.waits ∧ s'.rels = s.rels)
    (hdata : x.data = t' x.block) (ht : ∀ k, k ≠ (s.buf b).block → t' k = t k)
    (hdisk : ∀ k, k ≠ (s.buf b).block → s'.disk k = s.disk k)
    (hlh : s'.lh.length ≤ L.size - 1 ∧ ∀ b ∈ s'.lh, Home L.toLayout b) : Inv L s' t' := by
  obtain ⟨h1, h2, h3, h4⟩ := hx
  obtain ⟨g1, g2, g3, g4⟩ := hs
  refine h.change hbuf h1 (h.dev_ne (users_of_lock hlk)) g1 g2 ?_ (fun a _ => users_same hbuf h2 g3 g4 a)
    (fun _ => h4) (fun _ => h4) (fun _ => hdata) ht hdisk (.inr ⟨h4, .inr (h2 ▸ hlk)⟩) (fun w hw => .inl (g3 ▸ hw)) hlh
  rw [h3, users_same hbuf h2 g3 g4, h.refs b]

theorem modify_inv {p : Nat} {b : Ix} {d : Block} (h : Inv L s t) (hs : modify p b d s = some s') :
    Inv L s' (Function.update t (s.buf b).block d) ∧ (s.buf b).lock = some p ∧
      s' = s.set b { s.buf b with data := d } := by
  unfold modify at hs
  split at hs
  · rename_i hl
    cases hs
    have hlk : (s.buf b).lock.isSome = true := by rw [hl]; rfl
    refine ⟨h.edit hlk rfl ⟨rfl, rfl, rfl, h.locked b hlk⟩ ⟨rfl, rfl, rfl, rfl⟩ ?_ ?_ (fun _ _ => rfl) h.lh, hl, rfl⟩
    · exact (Function.update_self (f := t) (s.buf b).block d).symm
    · exact fun k hk => Function.update_of_ne hk _ _
  · cases hs

theorem logWrite_inv {p : Nat} {b : Ix} (h : Inv L s t) (hhome : Home L.toLayout (s.buf b).blockno)
    (hs : logWrite L p b s = some s') : Inv L s' t := by
  unfold logWrite at hs
  split at hs
  · rename_i hc
    obtain ⟨hl, _, hsize⟩ := hc
    cases hs
    have hlk : (s.buf b).lock.isSome = true := by rw [hl]; rfl
    have hv := h.locked b hlk
    refine h.edit hlk rfl ⟨rfl, rfl, rfl, hv⟩ ⟨rfl, rfl, rfl, rfl⟩ (h.data b hv) (fun _ _ => rfl) (fun _ _ => rfl) ?_
    simp only [Bcache.set]
    split
    · exact h.lh
    · refine ⟨by simp; omega, fun c hc => ?_⟩
      rcases List.mem_append.1 hc with hc | hc
      · exact h.lh.2 c hc
      · rw [List.mem_singleton.1 hc]
        exact hhome
  · cases hs

theorem bwrite_inv {p : Nat} {b : Ix} (h : Inv L s t) (hs : bwrite p b s = some s') :
    Inv L s' t ∧ s'.lh = s.lh ∧ (∀ a, a ≠ b → s'.buf a = s.buf a) ∧ Holds s' p b (s.buf b).block ∧
      ∀ k, k ≠ (s.buf b).block → s'.disk k = s.disk k := by
  unfold bwrite at hs
  split at hs
  · rename_i hl
    have hlk : (s.buf b).lock.isSome = true := by rw [hl]; rfl
    have hv := h.locked b hlk
    simp only [iderw, Bcache.set, Function.update_self, if_true, Function.update_idem, Option.some.injEq] at hs
    subst hs
    have hdisk : ∀ k, k ≠ (s.buf b).block → Function.update s.disk (s.buf b).block (s.buf b).data k = s.disk k :=
      fun k hk => Function.update_of_ne hk _ _
    refine ⟨h.edit hlk rfl ⟨rfl, rfl, rfl, rfl⟩ ⟨rfl, rfl, rfl, rfl⟩ (h.data b hv) (fun _ _ => rfl) hdisk h.lh, rfl,
      fun a ha => Function.update_of_ne ha _ _, ⟨?_, ?_, .inr ?_⟩, hdisk⟩
    · simp [hl]
    · simp [Buf.block]
    · simp [Buf.block]
  · cases hs

theorem unlock_inv {p : Nat} {b : Ix} (h : Inv L s t)
    (hclean : (s.buf b).dirty = true ∨ (s.buf b).data = s.disk (s.buf b).block) (hs : unlock p b s = some s') :
    Inv L s' t ∧ s' = { s with rels := (p, b) :: s.rels }.set b { s.buf b with lock := none } := by
  unfold unlock at hs
  split at hs
  · rename_i hl
    have hlk : (s.buf b).lock.isSome = true := by rw [hl]; rfl
    have hv := h.locked b hlk
    cases hs
    refine ⟨h.change (b := b) rfl rfl (h.dev_ne (users_of_lock hlk)) rfl rfl ?_ ?_ ?_ ?_ ?_ ?_ ?_ ?_ ?_ h.lh, rfl⟩
    · have := h.refs b
      rw [Bcache.users, if_pos hlk] at this
      simp [Bcache.users, Bcache.set]
      omega
    · intro a ha
      simp [Bcache.users, Bcache.set, Function.update_of_ne ha, ha.symm]
    · exact fun _ => hv
    · exact fun _ => hv
    · exact fun _ => h.data b hv
    · exact fun _ _ => rfl
    · exact fun _ _ => rfl
    · rcases hclean with hd | hd
      · exact .inr ⟨hv, .inl hd⟩
      · exact .inl (hd.symm.trans (h.data b hv))
    · exact fun w hw => .inl hw
  · cases hs

section
variable {next prev : Node → Node} {l : List Ix} (hl : Cyclic next prev none (l.map some))
include hl

theorem cycle_nodup : l.Nodup := (List.nodup_cons.1 hl.nodup).2.of_map some

theorem cycle_length : (l.map some).length ≤ NBUF := by
  have := (cycle_nodup hl).length_le_card
  rwa [Fintype.card_fin, ← List.length_map (f := some)] at this

theorem scan_buffers (f : Ix → Bool) : (scan next none (fun n => n.any f) NBUF (next none)).join = l.find? f ∧
    (scan prev none (fun n => n.any f) NBUF (prev none)).join = l.reverse.find? f := by
  have hmap : ∀ l : List Ix, ((l.map some).find? fun n : Node => n.any f).join = l.find? f := by
    intro l
    have hf : (fun n : Node => n.any f) ∘ some = f := by
      ext b
      simp
    rw [List.find?_map, hf]
    cases l.find? f <;> rfl
  rw [hl.scan_next (cycle_length hl), hl.scan_prev (cycle_length hl), ← List.map_reverse]
  exact ⟨hmap l, hmap l.reverse⟩

end

/-- `bget` finds the block's buffer. -/
theorem Inv.cached_some {dev blockno : Nat} {b : Ix} (h : Inv L s t) (hc : cached dev blockno s = some b) :
    (s.buf b).block = (dev, blockno) := by
  obtain ⟨l, hl, _⟩ := h.ring
  rw [cached, (scan_buffers hl _).1] at hc
  have := List.find?_some hc
  simp only [Bool.and_eq_true, beq_iff_eq] at this
  exact Prod.ext this.1 this.2

theorem Inv.cached_none {dev blockno : Nat} (h : Inv L s t) (hc : cached dev blockno s = none) (b : Ix) :
    (s.buf b).block ≠ (dev, blockno) := by
  obtain ⟨l, hl, hall⟩ := h.ring
  rw [cached, (scan_buffers hl _).1] at hc
  have := List.find?_eq_none.1 hc b (hall b)
  rintro hb
  rw [Buf.block, Prod.mk.injEq] at hb
  simp [hb] at this

/-- What it recycles nobody uses. -/
theorem Inv.unused_some {b : Ix} (h : Inv L s t) (hc : unused s = some b) :
    s.users b = 0 ∧ (s.buf b).dirty = false := by
  obtain ⟨l, hl, _⟩ := h.ring
  rw [unused, (scan_buffers hl _).2] at hc
  have := List.find?_some hc
  simp only [Bool.and_eq_true, beq_iff_eq, Bool.not_eq_true'] at this
  exact ⟨(h.refs b).symm.trans this.1, this.2⟩

/-- A buffer that nobody uses gets another block. -/
theorem Inv.recycle {b : Ix} {dev blockno : Nat} {w : Wait} (h : Inv L s t) (hdev : dev ≠ 0) (hu : s.users b = 0)
    (hd : (s.buf b).dirty = false) (hnew : ∀ a, (s.buf a).block ≠ (dev, blockno)) (hw : w.b = b)
    (hwb : (w.dev, w.blockno) = (dev, blockno)) :
    Inv L ({ s with waits := w :: s.waits }.set b
      { s.buf b with dev := dev, blockno := blockno, valid := false, dirty := false, refcnt := 1 }) t := by
  obtain ⟨hlock, hwaits, hrels⟩ := users_zero hu
  generalize hs' : ({ s with waits := w :: s.waits }.set b
      { s.buf b with dev := dev, blockno := blockno, valid := false, dirty := false, refcnt := 1 }) = s'
  have hself : s'.buf b =
    { s.buf b with dev := dev, blockno := blockno, valid := false, dirty := false, refcnt := 1 } := by
    rw [← hs', Bcache.set_self]
  have hother : ∀ a, a ≠ b → s'.buf a = s.buf a := fun a ha => by rw [← hs', Bcache.set_of_ne _ ha]
  have hblk : (s'.buf b).block = (dev, blockno) := by rw [hself]; rfl
  have hne : ∀ a, a ≠ b → (s'.buf a).block ≠ (s'.buf b).block := by
    intro a ha
    rw [hblk, hother a ha]
    exact hnew a
  constructor
  · rw [← hs']
    exact h.ring
  · intro a
    by_cases ha : a = b
    · subst ha
      rw [Bcache.users] at hu
      have h1 : s.waits.countP (·.b == a) = 0 := by omega
      have h2 : s.rels.countP (·.2 == a) = 0 := by omega
      rw [hself, ← hs']
      simp [Bcache.users, Bcache.set, hw, hlock, -List.countP_eq_zero, h1, h2]
    · rw [hother a ha, h.refs a, ← hs']
      simp [Bcache.users, Bcache.set, ha, hw, Ne.symm ha]
  · intro a h0
    by_cases ha : a = b
    · rw [ha, hself] at h0
      exact absurd h0 hdev
    · rw [hother a ha] at h0 ⊢
      exact h.unnamed a h0
  · intro a c ha hac
    by_cases hab : a = b
    · by_cases hcb : c = b
      · rw [hab, hcb]
      · exact absurd (hab ▸ hac).symm (hne c hcb)
    · by_cases hcb : c = b
      · exact absurd (hcb ▸ hac) (hne a hab)
      · rw [hother a hab] at ha hac
        rw [hother c hcb] at hac
        exact h.unique a c ha hac
  · intro a
    by_cases ha : a = b
    · simp [ha, hself]
    · rw [hother a ha]
      exact h.dirty a
  · intro a
    by_cases ha : a = b
    · simp [ha, hself, hlock]
    · rw [hother a ha]
      exact h.locked a
  · intro a
    by_cases ha : a = b
    · simp [ha, hself]
    · rw [hother a ha]
      exact h.data a
  · intro k hk
    rcases h.kept k hk with h1 | ⟨a, h1, h2, h3⟩
    · exact .inl (by rw [← hs']; exact h1)
    · have ha : a ≠ b := by
        rintro rfl
        simp [hd, hlock] at h3
      exact .inr ⟨a, by rw [hother a ha]; exact ⟨h1, h2, h3⟩⟩
  · intro v hv
    rw [← hs'] at hv
    rcases List.mem_cons.1 hv with rfl | hv
    · rw [hw, hblk, hwb]
    · rw [hother _ (hwaits v hv)]
      exact h.waits v hv
  · rw [← hs']
    exact h.lh

theorem bget_inv {p dev blockno : Nat} (h : Inv L s t) (hdev : dev ≠ 0) (hs : bget p dev blockno s = some s') :
    Inv L s' t ∧ s'.disk = s.disk ∧ s'.lh = s.lh ∧ ∃ b, s'.waits = ⟨p, b, dev, blockno⟩ :: s.waits ∧
      (∀ a, a ≠ b → s'.buf a = s.buf a) ∧ (s'.buf b).lock = (s.buf b).lock := by
  unfold bget at hs
  cases hc : cached dev blockno s with
  | some b =>
    rw [hc] at hs
    cases hs
    have hb := h.cached_some hc
    have hd : (s.buf b).dev ≠ 0 := by
      rw [show (s.buf b).dev = dev from congrArg Prod.fst hb]
      exact hdev
    refine ⟨h.change (b := b) rfl rfl hd rfl rfl ?_ ?_ (h.dirty b) (h.locked b) (h.data b) (fun _ _ => rfl)
      (fun _ _ => rfl) ?_ ?_ h.lh, rfl, rfl, b, rfl, fun a ha => Bcache.set_of_ne _ ha _, ?_⟩
    · have := h.refs b
      simp only [Bcache.users] at this
      simp [Bcache.users, Bcache.set]
      omega
    · intro a ha
      simp [Bcache.users, Bcache.set, ha, ha.symm]
    · rcases h.kept (s.buf b).block hd with hk | ⟨a, h1, h2, h3⟩
      · exact .inl hk
      · obtain rfl := h.unique b a hd h1.symm
        exact .inr ⟨h2, h3⟩
    · intro w hw
      rcases List.mem_cons.1 hw with rfl | hw
      · exact .inr ⟨rfl, hb⟩
      · exact .inl hw
    · simp
  | none =>
    rw [hc] at hs
    cases hu : unused s with
    | none =>
      rw [hu] at hs
      cases hs
    | some b =>
      rw [hu] at hs
      cases hs
      obtain ⟨h0, hd⟩ := h.unused_some hu
      exact ⟨h.recycle hdev h0 hd (h.cached_none hc) rfl rfl, rfl, rfl, b, rfl,
        fun a ha => Bcache.set_of_ne _ ha _, by simp⟩

/-- **`bread`** comes back with the block's contents. -/
theorem acquire_inv {p : Nat} {b : Ix} (h : Inv L s t) (hs : acquire p s = some (b, s')) :
    Inv L s' t ∧ s'.disk = s.disk ∧ s'.lh = s.lh ∧ ∃ w, s.waits.find? (·.pid == p) = some w ∧ w.b = b ∧
      Holds s' p b (w.dev, w.blockno) ∧ (s.buf b).lock = none ∧ ∀ a, a ≠ b → s'.buf a = s.buf a := by
  unfold acquire at hs
  cases hw : s.waits.find? (·.pid == p) with
  | none =>
    rw [hw] at hs
    cases hs
  | some w =>
    rw [hw] at hs
    dsimp only at hs
    split at hs
    · cases hs
    rename_i hl
    replace hl : (s.buf w.b).lock = none := by simpa using hl
    have hmem := List.mem_of_find?_eq_some hw
    have hblk := h.waits w hmem
    have hpos : 0 < s.users w.b := by
      have : 0 < s.waits.countP (·.b == w.b) := List.countP_pos_iff.2 ⟨w, hmem, by simp⟩
      rw [Bcache.users]
      omega
    have hdev := h.dev_ne hpos
    rw [Bcache.set_self] at hs
    -- the buffer once it is locked and read
    have hstep : ∀ x : Buf, x.block = (s.buf w.b).block → x.lock = some p → x.refcnt = (s.buf w.b).refcnt →
        x.valid = true → x.data = t x.block → (x.dirty = true ∨ x.data = s.disk x.block) →
        s' = { s with waits := s.waits.eraseP (·.pid == p) }.set w.b x →
        Inv L s' t ∧ s'.disk = s.disk ∧ s'.lh = s.lh ∧ Holds s' p w.b (w.dev, w.blockno) ∧
          ∀ a, a ≠ w.b → s'.buf a = s.buf a := by
      rintro x h1 h2 h3 h4 h5 h6 rfl
      refine ⟨h.change (b := w.b) rfl h1 hdev rfl rfl ?_ ?_ (fun _ => h4) (fun _ => h4) (fun _ => h5) (fun _ _ => rfl)
        (fun _ _ => rfl) (.inr ⟨h4, .inr (by rw [h2]; rfl)⟩) ?_ h.lh, rfl, rfl, ⟨?_, ?_, ?_⟩,
        fun a ha => Bcache.set_of_ne _ ha _⟩
      · rw [h3, h.refs w.b, Bcache.users, Bcache.users, countP_eraseP hw]
        simp [Bcache.set, hl, h2]
        omega
      · intro a ha
        rw [Bcache.users, Bcache.users, countP_eraseP hw]
        simp [Bcache.set, ha, Ne.symm ha]
      · intro v hv
        exact .inl (List.mem_of_mem_eraseP hv)
      · rw [Bcache.set_self, h2]
      · rw [Bcache.set_self, h1, hblk]
      · rw [Bcache.set_self, ← hblk, ← h1]
        exact h6
    cases hv : (s.buf w.b).valid with
    | true =>
      simp only [hv, if_true, Option.some.injEq, Prod.mk.injEq] at hs
      obtain ⟨rfl, hs⟩ := hs
      have hclean : (s.buf w.b).dirty = true ∨ (s.buf w.b).data = s.disk (s.buf w.b).block := by
        cases hd : (s.buf w.b).dirty with
        | true => exact .inl rfl
        | false => exact .inr ((h.data w.b hv).trans (h.clean hdev hd hl).symm)
      obtain ⟨g1, g2, g3, g4, g5⟩ := hstep { s.buf w.b with lock := some p, valid := true } rfl rfl rfl rfl
        (h.data w.b hv) hclean hs.symm
      exact ⟨g1, g2, g3, w, rfl, rfl, g4, hl, g5⟩
    | false =>
      have hd : (s.buf w.b).dirty = false := by
        by_contra hd
        simp [h.dirty w.b (by simpa using hd)] at hv
      simp only [hv, iderw, Bcache.set, Function.update_self, hd, Bool.false_eq_true, if_false, Option.map_some,
        Option.some.injEq, Prod.mk.injEq, Function.update_idem] at hs
      obtain ⟨rfl, hs⟩ := hs
      obtain ⟨g1, g2, g3, g4, g5⟩ := hstep
        { s.buf w.b with lock := some p, valid := true, data := s.disk (s.buf w.b).block, dirty := false }
        rfl rfl rfl rfl
        (h.unread hdev hv) (.inr rfl) hs.symm
      exact ⟨g1, g2, g3, w, rfl, rfl, g4, hl, g5⟩

/-- A change of the list alone. -/
theorem Inv.relink {next prev : Node → Node} (h : Inv L s t)
    (hring : ∃ l : List Ix, Cyclic next prev none (l.map some) ∧ ∀ b, b ∈ l) :
    Inv L { s with next := next, prev := prev } t :=
  ⟨hring, h.refs, h.unnamed, h.unique, h.dirty, h.locked, h.data, h.kept, h.waits, h.lh⟩

/-- `brelse` moves the buffer to the front. -/
theorem Inv.front (h : Inv L s t) (b : Ix) : Inv L (push b (unlink b s)) t := by
  obtain ⟨l, hl, hall⟩ := h.ring
  obtain ⟨xs, ys, rfl⟩ := List.append_of_mem (hall b)
  rw [List.map_append, List.map_cons] at hl
  have hne : s.next (some b) ≠ some b := by
    intro he
    have hm := (Path.append_iff.1 hl.path).2.next_mem
    rw [he] at hm
    have hn := (List.nodup_cons.1 hl.nodup).2
    rcases List.mem_append.1 hm with hm | hm
    · exact (List.nodup_cons.1 (List.nodup_append.1 hn).2.1).1 hm
    · simp at hm
  have hout := hl.unlink
  rw [← List.map_append] at hout
  have hb : some b ∉ none :: (xs ++ ys).map some := by
    have hn := (List.nodup_cons.1 hl.nodup).2
    rw [← List.map_cons, ← List.map_append] at hn
    have := (List.nodup_middle.1 (hn.of_map some))
    simpa using (List.nodup_cons.1 this).1
  refine h.relink (s := s) ⟨b :: (xs ++ ys), ?_, fun a => ?_⟩
  · -- `b->prev` and `head.next` are read after a neighbour's pointer was written
    have h1 : Function.update s.prev (s.next (some b)) (s.prev (some b)) (some b) = s.prev (some b) :=
      Function.update_of_ne hne.symm _ _
    have h2 : ∀ (f : Node → Node) (n : Node), Function.update f (some b) n none = f none := fun f n =>
      Function.update_of_ne (by simp) _ _
    simpa only [push, unlink, h1, h2, List.map_cons] using hout.push hb
  · have := hall a
    simp only [List.mem_append, List.mem_cons] at this ⊢
    tauto

theorem unref_inv {p : Nat} (h : Inv L s t) (hs : unref p s = some s') :
    Inv L s' t ∧ s'.disk = s.disk ∧ s'.lh = s.lh ∧ ∃ r, s.rels.find? (·.1 == p) = some r ∧
      ∀ a, a ≠ r.2 → s'.buf a = s.buf a := by
  unfold unref at hs
  cases hr : s.rels.find? (·.1 == p) with
  | none =>
    rw [hr] at hs
    cases hs
  | some r =>
    rw [hr] at hs
    have hmem := List.mem_of_find?_eq_some hr
    have hpos : 0 < s.users r.2 := by
      have : 0 < s.rels.countP (·.2 == r.2) := List.countP_pos_iff.2 ⟨r, hmem, by simp⟩
      rw [Bcache.users]
      omega
    have hdev := h.dev_ne hpos
    have hdrop : Inv L ({ s with rels := s.rels.eraseP (·.1 == p) }.set r.2
        { s.buf r.2 with refcnt := (s.buf r.2).refcnt - 1 }) t := by
      refine h.change (b := r.2) rfl rfl hdev rfl rfl ?_ ?_ (h.dirty r.2) (h.locked r.2) (h.data r.2) (fun _ _ => rfl)
        (fun _ _ => rfl) ?_ (fun w hw => .inl hw) h.lh
      · have := h.refs r.2
        rw [Bcache.users, countP_eraseP hr] at this
        simp [Bcache.users, Bcache.set] at this ⊢
        omega
      · intro a ha
        rw [Bcache.users, Bcache.users, countP_eraseP hr]
        simp [Bcache.set, ha, Ne.symm ha]
      · rcases h.kept (s.buf r.2).block hdev with hk | ⟨a, h1, h2, h3⟩
        · exact .inl hk
        · obtain rfl := h.unique r.2 a hdev h1.symm
          exact .inr ⟨h2, h3⟩
    have hother : ∀ a, a ≠ r.2 → ({ s with rels := s.rels.eraseP (·.1 == p) }.set r.2
        { s.buf r.2 with refcnt := (s.buf r.2).refcnt - 1 }).buf a = s.buf a := fun a ha => Bcache.set_of_ne _ ha _
    dsimp only at hs
    split at hs
    · cases hs
      exact ⟨hdrop.front r.2, rfl, rfl, r, rfl, hother⟩
    · cases hs
      exact ⟨hdrop, rfl, rfl, r, rfl, hother⟩

end Xv6.Bio
