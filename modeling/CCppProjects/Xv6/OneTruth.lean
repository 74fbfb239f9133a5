import Mathlib.Data.List.GetD
import CCppProjects.Lib.Run
import CCppProjects.Xv6.BioSpec
/-
# One truth per block

`commit` is `bread`, `bwrite` and `brelse` by one process: what it copies into the log comes back out of
it (`commit_eq`), so no block outside the log changes. A run keeps the invariant as long as its processes
save what they changed before they give a buffer back, and log no block of the log itself.
-/
namespace Xv6.Bio

open Log Links Lts

variable {L : LogDev} {s s' : Bcache} {t : Store}

/-! ## `commit` -/

theorem Inv.holds_data {p : Nat} {b : Ix} {k : Nat × Nat} (h : Inv L s t) (hb : Holds s p b k) :
    (s.buf b).data = t k := by
  rw [h.data b (h.locked b (by rw [hb.lock]; rfl)), hb.block]

theorem bread_spec {p dev blockno : Nat} {b : Ix} (h : Inv L s t) (hdev : dev ≠ 0)
    (hs : bread p dev blockno s = some (b, s')) :
    Inv L s' t ∧ Holds s' p b (dev, blockno) ∧ s'.lh = s.lh ∧ s'.disk = s.disk ∧
      ∀ a, (s.buf a).lock.isSome = true → a ≠ b ∧ s'.buf a = s.buf a := by
  obtain ⟨u, hu, hs⟩ := Option.bind_eq_some_iff.1 hs
  obtain ⟨h1, hd1, hl1, c, hw, hb1, hlock⟩ := bget_inv h hdev hu
  obtain ⟨h2, hd2, hl2, w, hfind, hwb, hh, hfree, hb2⟩ := acquire_inv h1 hs
  obtain rfl : w = ⟨p, c, dev, blockno⟩ := by
    rw [hw, List.find?_cons_of_pos (by simp)] at hfind
    exact (Option.some.inj hfind).symm
  obtain rfl : c = b := hwb
  refine ⟨h2, hh, hl2.trans hl1, hd2.trans hd1, fun a ha => ?_⟩
  have hne : a ≠ c := by
    rintro rfl
    rw [hlock] at hfree
    rw [hfree] at ha
    cases ha
  exact ⟨hne, (hb2 a hne).trans (hb1 a hne)⟩

theorem brelse_spec {p : Nat} {b : Ix} {k : Nat × Nat} (h : Inv L s t) (hb : Holds s p b k)
    (hs : brelse p b s = some s') :
    Inv L s' t ∧ s'.lh = s.lh ∧ s'.disk = s.disk ∧ ∀ a, a ≠ b → s'.buf a = s.buf a := by
  obtain ⟨u, hu, hs⟩ := Option.bind_eq_some_iff.1 hs
  obtain ⟨h1, rfl⟩ := unlock_inv h (by rw [hb.block]; exact hb.clean) hu
  obtain ⟨h2, hd, hl, r, hr, hb2⟩ := unref_inv h1 hs
  obtain rfl : r = (p, b) := by
    rw [Bcache.set, List.find?_cons_of_pos (by simp)] at hr
    exact (Option.some.inj hr).symm
  exact ⟨h2, hl, hd, fun a ha => (hb2 a ha).trans (Bcache.set_of_ne _ ha _)⟩

/-- A locked buffer is overwritten and written to disk. -/
theorem overwrite_spec {p : Nat} {b : Ix} {k : Nat × Nat} {d : Block} {u : Bcache} (h : Inv L s t) (hb : Holds s p b k)
    (hs : modify p b d s = some u) (hs' : bwrite p b u = some s') :
    Inv L s' (Function.update t k d) ∧ Holds s' p b k ∧ s'.lh = s.lh ∧ (∀ a, a ≠ b → s'.buf a = s.buf a) ∧
      ∀ j, j ≠ k → s'.disk j = s.disk j := by
  obtain ⟨h1, _, rfl⟩ := modify_inv h hs
  obtain ⟨h2, hl, hb2, hh, hd⟩ := bwrite_inv h1 hs'
  have hblk : ((s.set b { s.buf b with data := d }).buf b).block = k := by
    rw [Bcache.set_self, ← hb.block]
    rfl
  rw [hblk] at hh hd
  rw [hb.block] at h2
  exact ⟨h2, hh, hl, fun a ha => (hb2 a ha).trans (Bcache.set_of_ne _ ha _), hd⟩

/-- Block `k` gets what block `j` has. -/
def Store.copy (t : Store) (k j : Nat × Nat) : Store := Function.update t k (t j)

/-- One round of `write_log` or `install_trans` once both buffers are locked: `a` gets what `b` has. -/
theorem copy_spec {p : Nat} {a b : Ix} {k j : Nat × Nat} {u v w : Bcache} (h : Inv L s t) (ha : Holds s p a k)
    (hb : Holds s p b j) (hab : a ≠ b) (h1 : modify p a (s.buf b).data s = some u) (h2 : bwrite p a u = some v)
    (h3 : brelse p b v = some w) (h4 : brelse p a w = some s') : Inv L s' (t.copy k j) ∧ s'.lh = s.lh := by
  obtain ⟨i1, g1, l1, f1, d1⟩ := overwrite_spec h ha h1 h2
  rw [h.holds_data hb] at i1
  -- the other buffer is what it was
  have hkj : j ≠ k := by
    rintro rfl
    have hdev : (s.buf a).dev ≠ 0 := h.dev_ne (users_of_lock (by rw [ha.lock]; rfl))
    exact hab (h.unique a b hdev (ha.block.trans hb.block.symm))
  have hbv : Holds v p b j := by
    refine ⟨?_, ?_, ?_⟩
    · rw [f1 b hab.symm, hb.lock]
    · rw [f1 b hab.symm, hb.block]
    · rw [f1 b hab.symm, d1 j hkj]
      exact hb.clean
  obtain ⟨i2, l2, d2, f2⟩ := brelse_spec i1 hbv h3
  have haw : Holds w p a k := by
    refine ⟨?_, ?_, ?_⟩
    · rw [f2 a hab, g1.lock]
    · rw [f2 a hab, g1.block]
    · rw [f2 a hab, d2]
      exact g1.clean
  obtain ⟨i3, l3, _, _⟩ := brelse_spec i2 haw h4
  exact ⟨i3, l3.trans (l2.trans l1)⟩

/-- Two blocks are read, one after the other. -/
theorem bread_two {p dev blockno blockno' : Nat} {a b : Ix} {u : Bcache} (h : Inv L s t) (hdev : dev ≠ 0)
    (h1 : bread p dev blockno s = some (a, u)) (h2 : bread p dev blockno' u = some (b, s')) :
    Inv L s' t ∧ Holds s' p a (dev, blockno) ∧ Holds s' p b (dev, blockno') ∧ a ≠ b ∧ s'.lh = s.lh := by
  obtain ⟨i1, g1, l1, _, _⟩ := bread_spec h hdev h1
  obtain ⟨i2, g2, l2, d2, f2⟩ := bread_spec i1 hdev h2
  obtain ⟨hne, hbuf⟩ := f2 a (by rw [g1.lock]; rfl)
  refine ⟨i2, ⟨?_, ?_, ?_⟩, g2, hne, l2.trans l1⟩
  · rw [hbuf, g1.lock]
  · rw [hbuf, g1.block]
  · rw [hbuf, d2]
    exact g1.clean

/-- What `write_log` does to the blocks. -/
def logCopy (L : LogDev) : List Nat → Nat → Store → Store
  | [], _, t => t
  | blockno :: lh, tail, t => logCopy L lh (tail + 1) (t.copy (L.dev, L.start + tail + 1) (L.dev, blockno))

/-- What `install_trans` does. -/
def homeCopy (L : LogDev) : List Nat → Nat → Store → Store
  | [], _, t => t
  | blockno :: lh, tail, t => homeCopy L lh (tail + 1) (t.copy (L.dev, blockno) (L.dev, L.start + tail + 1))

theorem writeLog_spec {p : Nat} (hdev : L.dev ≠ 0) : ∀ {lh : List Nat} {tail : Nat} {s s' : Bcache} {t : Store},
    Inv L s t → writeLog L p lh tail s = some s' → Inv L s' (logCopy L lh tail t) ∧ s'.lh = s.lh
  | [], tail, s, s', t, h, hs => by
    cases hs
    exact ⟨h, rfl⟩
  | blockno :: lh, tail, s, s', t, h, hs => by
    obtain ⟨⟨a, s1⟩, h1, hs⟩ := Option.bind_eq_some_iff.1 hs
    obtain ⟨⟨b, s2⟩, h2, hs⟩ := Option.bind_eq_some_iff.1 hs
    obtain ⟨s3, h3, hs⟩ := Option.bind_eq_some_iff.1 hs
    obtain ⟨s4, h4, hs⟩ := Option.bind_eq_some_iff.1 hs
    obtain ⟨s5, h5, hs⟩ := Option.bind_eq_some_iff.1 hs
    obtain ⟨s6, h6, hs⟩ := Option.bind_eq_some_iff.1 hs
    obtain ⟨i2, ga, gb, hab, l2⟩ := bread_two h hdev h1 h2
    obtain ⟨i6, l6⟩ := copy_spec i2 ga gb hab h3 h4 h5 h6
    obtain ⟨i7, l7⟩ := writeLog_spec hdev i6 hs
    exact ⟨i7, l7.trans (l6.trans l2)⟩

theorem installTrans_spec {p : Nat} (hdev : L.dev ≠ 0) : ∀ {lh : List Nat} {tail : Nat} {s s' : Bcache} {t : Store},
    Inv L s t → installTrans L p lh tail s = some s' → Inv L s' (homeCopy L lh tail t) ∧ s'.lh = s.lh
  | [], tail, s, s', t, h, hs => by
    cases hs
    exact ⟨h, rfl⟩
  | blockno :: lh, tail, s, s', t, h, hs => by
    obtain ⟨⟨a, s1⟩, h1, hs⟩ := Option.bind_eq_some_iff.1 hs
    obtain ⟨⟨b, s2⟩, h2, hs⟩ := Option.bind_eq_some_iff.1 hs
    obtain ⟨s3, h3, hs⟩ := Option.bind_eq_some_iff.1 hs
    obtain ⟨s4, h4, hs⟩ := Option.bind_eq_some_iff.1 hs
    obtain ⟨s5, h5, hs⟩ := Option.bind_eq_some_iff.1 hs
    obtain ⟨s6, h6, hs⟩ := Option.bind_eq_some_iff.1 hs
    obtain ⟨i2, ga, gb, hab, l2⟩ := bread_two h hdev h1 h2
    obtain ⟨i6, l6⟩ := copy_spec i2 gb ga hab.symm h3 h4 h5 h6
    obtain ⟨i7, l7⟩ := installTrans_spec hdev i6 hs
    exact ⟨i7, l7.trans (l6.trans l2)⟩

theorem writeHead_spec {p : Nat} (hdev : L.dev ≠ 0) (h : Inv L s t) (hs : writeHead L p s = some s') :
    Inv L s' (Function.update t (L.dev, L.start) (headBlock s.lh (t (L.dev, L.start)))) ∧ s'.lh = s.lh := by
  obtain ⟨⟨b, s1⟩, h1, hs⟩ := Option.bind_eq_some_iff.1 hs
  obtain ⟨s2, h2, hs⟩ := Option.bind_eq_some_iff.1 hs
  obtain ⟨s3, h3, hs⟩ := Option.bind_eq_some_iff.1 hs
  obtain ⟨i1, g1, l1, _, _⟩ := bread_spec h hdev h1
  obtain ⟨i3, g3, l3, _, _⟩ := overwrite_spec i1 g1 h2 h3
  obtain ⟨i4, l4, _, _⟩ := brelse_spec i3 g3 hs
  rw [i1.holds_data g1, l1] at i4
  exact ⟨i4, l4.trans (l3.trans l1)⟩

theorem homeCopy_eq : ∀ {lh : List Nat} {tail : Nat} {t : Store},
    (∀ i (hi : i < lh.length), t (L.dev, L.start + (tail + i) + 1) = t (L.dev, lh[i])) → homeCopy L lh tail t = t
  | [], _, _, _ => rfl
  | blockno :: lh, tail, t, h => by
    have h0 : t.copy (L.dev, blockno) (L.dev, L.start + tail + 1) = t := by
      rw [Store.copy, show t (L.dev, L.start + tail + 1) = t (L.dev, blockno) from h 0 (by simp),
        Function.update_eq_self]
    rw [homeCopy, h0]
    refine homeCopy_eq fun i hi => ?_
    have := h (i + 1) (by simpa using hi)
    rwa [show tail + (i + 1) = tail + 1 + i by omega] at this

section
variable {lh : List Nat} (hhome : ∀ b ∈ lh, Home L.toLayout b)
include hhome

theorem logCopy_apply {tail : Nat} {t : Store} (hlen : tail + lh.length ≤ L.size - 1) (k : Nat × Nat) :
    logCopy L lh tail t k = if k.1 = L.dev ∧ L.start + tail < k.2 ∧ k.2 ≤ L.start + tail + lh.length then
      t (L.dev, lh.getD (k.2 - L.start - tail - 1) 0) else t k := by
  induction lh generalizing tail t with
  | nil =>
    rw [if_neg]
    · rfl
    · rw [List.length_nil]
      omega
  | cons blockno lh ih =>
    rw [List.length_cons] at hlen ⊢
    rw [logCopy, ih (fun b hb => hhome b (List.mem_cons_of_mem _ hb)) (by omega)]
    -- the log block written first is no home block
    have hne : ∀ b ∈ lh, (L.dev, b) ≠ (L.dev, L.start + tail + 1) := by
      intro b hb he
      have hb := hhome b (List.mem_cons_of_mem _ hb)
      rw [Prod.mk.injEq] at he
      simp only [Home] at hb
      omega
    by_cases hk : k = (L.dev, L.start + tail + 1)
    · subst hk
      rw [if_neg (by omega), if_pos (by refine ⟨rfl, ?_, ?_⟩ <;> dsimp only <;> omega),
        Store.copy, Function.update_self]
      congr 2
      rw [show L.start + tail + 1 - L.start - tail - 1 = 0 by omega, List.getD_cons_zero]
    · have hcopy : t.copy (L.dev, L.start + tail + 1) (L.dev, blockno) k = t k := Function.update_of_ne hk _ _
      by_cases hr : k.1 = L.dev ∧ L.start + (tail + 1) < k.2 ∧ k.2 ≤ L.start + (tail + 1) + lh.length
      · have hi : k.2 - L.start - (tail + 1) - 1 < lh.length := by omega
        rw [if_pos hr, if_pos (by omega), List.getD_eq_getElem _ _ hi, Store.copy,
          Function.update_of_ne (hne _ (List.getElem_mem hi)),
          show k.2 - L.start - tail - 1 = k.2 - L.start - (tail + 1) - 1 + 1 by omega, List.getD_cons_succ,
          List.getD_eq_getElem _ _ hi]
      · rw [if_neg hr, if_neg, hcopy]
        rintro ⟨h1, h2, h3⟩
        refine hk (Prod.ext h1 ?_)
        dsimp only
        omega

/-- `write_log`, `write_head`, `install_trans` and `write_head` change the log's own blocks only. -/
theorem commit_eq {t : Store} (hne : lh ≠ []) (hlen : lh.length ≤ L.size - 1) {t1 t2 : Store}
    (h1 : t1 = logCopy L lh 0 t)
    (h2 : t2 = homeCopy L lh 0 (Function.update t1 (L.dev, L.start) (headBlock lh (t1 (L.dev, L.start))))) :
    Function.update t2 (L.dev, L.start) (headBlock [] (t2 (L.dev, L.start))) = t.commit L lh := by
  have ht1 : ∀ k, t1 k = if k.1 = L.dev ∧ L.start < k.2 ∧ k.2 ≤ L.start + lh.length then
      t (L.dev, lh.getD (k.2 - L.start - 1) 0) else t k := by
    intro k
    rw [h1, logCopy_apply hhome (by omega)]
    rfl
  have hpos : 0 < lh.length := List.length_pos_of_ne_nil hne
  have hst : t1 (L.dev, L.start) = t (L.dev, L.start) := by
    rw [ht1, if_neg]
    simp
  rw [homeCopy_eq] at h2
  · rw [h2, Function.update_self, Function.update_idem, hst]
    ext1 k
    unfold Store.commit
    by_cases hk : k = (L.dev, L.start)
    · subst hk
      simp [hne]
    · rw [Function.update_of_ne hk, ht1]
      by_cases hd : k.1 = L.dev
      · have hs : k.2 ≠ L.start := fun h => hk (Prod.ext hd h)
        simp [hne, hd, hs]
      · simp [hd]
  · intro i hi
    have hb := hhome lh[i] (List.getElem_mem hi)
    simp only [Home] at hb
    rw [Function.update_of_ne (by simp; omega), Function.update_of_ne (by simp; omega), ht1, ht1,
      if_pos (by refine ⟨rfl, ?_, ?_⟩ <;> dsimp only <;> omega), if_neg (by dsimp only; omega)]
    congr 2
    have : L.start + (0 + i) + 1 - L.start - 1 = i := by omega
    rw [this, List.getD_eq_getElem _ _ hi]

end

theorem Inv.clear (h : Inv L s t) : Inv L { s with lh := [] } t :=
  ⟨h.ring, h.refs, h.unnamed, h.unique, h.dirty, h.locked, h.data, h.kept, h.waits, by simp⟩

/-- **`commit`** leaves every block outside the log as it is. -/
theorem commit_inv {p : Nat} (hdev : L.dev ≠ 0) (h : Inv L s t) (hs : commit L p s = some s') :
    Inv L s' (t.commit L s.lh) := by
  unfold commit at hs
  split at hs
  · rename_i hpos
    obtain ⟨s1, h1, hs⟩ := Option.bind_eq_some_iff.1 hs
    obtain ⟨s2, h2, hs⟩ := Option.bind_eq_some_iff.1 hs
    obtain ⟨s3, h3, hs⟩ := Option.bind_eq_some_iff.1 hs
    obtain ⟨i1, l1⟩ := writeLog_spec hdev h h1
    obtain ⟨i2, l2⟩ := writeHead_spec hdev i1 h2
    obtain ⟨i3, l3⟩ := installTrans_spec hdev i2 h3
    obtain ⟨i4, _⟩ := writeHead_spec hdev i3.clear hs
    rw [l1] at i4
    rw [l2, l1] at i4
    rwa [← commit_eq h.lh.2 (List.ne_nil_of_length_pos hpos) h.lh.1 rfl rfl]
  · rename_i hpos
    cases hs
    have : s.lh = [] := List.eq_nil_of_length_eq_zero (by omega)
    have ht : t.commit L s.lh = t := by
      ext1 k
      simp [Store.commit, this]
    rwa [ht]

/-! ## Runs -/

theorem push_ring {b : Ix} {l : List Ix} (hl : Cyclic s.next s.prev none (l.map some)) (hb : b ∉ l) :
    Cyclic (push b s).next (push b s).prev none ((b :: l).map some) := by
  have h2 : ∀ (f : Node → Node) (n : Node), Function.update f (some b) n none = f none := fun f n =>
    Function.update_of_ne (by simp) _ _
  simpa only [push, h2, List.map_cons] using hl.push (b := some b) (by simpa using hb)

theorem foldl_push (bs : List Ix) : ∀ {s : Bcache} {l : List Ix}, Cyclic s.next s.prev none (l.map some) →
    (bs.reverse ++ l).Nodup → ∃ next prev, bs.foldl (fun s b => push b s) s = { s with next := next, prev := prev } ∧
      Cyclic next prev none ((bs.reverse ++ l).map some) := by
  induction bs with
  | nil => exact fun hl _ => ⟨_, _, rfl, hl⟩
  | cons b bs ih =>
    intro s l hl hn
    rw [List.reverse_cons, List.append_assoc] at hn ⊢
    have hb : b ∉ l := (List.nodup_cons.1 (List.nodup_append.1 hn).2.1).1
    obtain ⟨next, prev, h1, h2⟩ := ih (push_ring hl hb) hn
    exact ⟨next, prev, h1, h2⟩

theorem binit_inv (disk : Nat × Nat → Block) : Inv L (binit disk) disk := by
  obtain ⟨next, prev, h1, h2⟩ := foldl_push (List.finRange NBUF) (l := [])
    (s :=
    { buf := fun _ => {}, next := fun _ => none, prev := fun _ => none, disk := disk, lh := [], waits := [], rels := [] })
    (.nil rfl rfl) (by simpa using List.nodup_finRange NBUF)
  rw [binit, h1]
  exact ⟨⟨_, h2, by simp⟩, fun _ => rfl, fun _ _ => ⟨rfl, rfl⟩, fun _ _ h => absurd rfl h, by simp, by simp, by simp,
    fun _ _ => .inl rfl, by simp, by simp⟩

/-- Device numbers other than 0. -/
def NonZero (_ : Bcache × Store) (l : Nat × Act) : Prop :=
  match l.2 with
  | .bget dev _ => dev ≠ 0
  | _ => True

/-- A buffer is given back with `B_DIRTY` set or with what the disk has: a process that changed it has
called `log_write` or `bwrite` since. -/
def Saved (x : Bcache × Store) (l : Nat × Act) : Prop :=
  match l.2 with
  | .unlock b => (x.1.buf b).dirty = true ∨ (x.1.buf b).data = x.1.disk (x.1.buf b).block
  | _ => True

/-- The log's own blocks are not logged. -/
def Outside (L : LogDev) (x : Bcache × Store) (l : Nat × Act) : Prop :=
  match l.2 with
  | .logWrite b => Home L.toLayout (x.1.buf b).blockno
  | _ => True

theorem step_inv (hdev : L.dev ≠ 0) {x y : Bcache × Store} {l : Nat × Act} (h : Inv L x.1 x.2) (hz : NonZero x l)
    (hsaved : Saved x l) (hout : Outside L x l) (hs : Trans L x l y) : Inv L y.1 y.2 := by
  obtain ⟨s, hstep, rfl⟩ := Option.map_eq_some_iff.1 hs
  obtain ⟨p, a⟩ := l
  cases a with
  | acquire =>
    obtain ⟨⟨b, u⟩, hu, rfl⟩ := Option.map_eq_some_iff.1 hstep
    exact (acquire_inv h hu).1
  | unref => exact (unref_inv h hstep).1
  | bget dev blockno =>
    simp only [step] at hstep
    split at hstep
    · cases hstep
    · exact (bget_inv h hz hstep).1
  | modify b d =>
    simp only [step] at hstep
    split at hstep
    · cases hstep
    · exact (modify_inv h hstep).1
  | logWrite b =>
    simp only [step] at hstep
    split at hstep
    · cases hstep
    · exact logWrite_inv h hout hstep
  | bwrite b =>
    simp only [step] at hstep
    split at hstep
    · cases hstep
    · exact (bwrite_inv h hstep).1
  | unlock b =>
    simp only [step] at hstep
    split at hstep
    · cases hstep
    · exact (unlock_inv h hsaved hstep).1
  | commit =>
    simp only [step] at hstep
    split at hstep
    · cases hstep
    · exact commit_inv hdev h hstep

/-- The cache holds one truth per block: `bread` returns it, whether it is called now or is in
`acquiresleep` for the block `w` says. -/
structure OneTruth (s : Bcache) (t : Store) : Prop where
  unique : ∀ a b, (s.buf a).dev ≠ 0 → (s.buf a).block = (s.buf b).block → a = b
  ring : ∃ l : List Ix, Cyclic s.next s.prev none (l.map some) ∧ l.length = NBUF ∧ ∀ b, b ∈ l
  bread : ∀ p dev blockno b s', dev ≠ 0 → bread p dev blockno s = some (b, s') →
    (s'.buf b).block = (dev, blockno) ∧ (s'.buf b).data = t (dev, blockno)
  woken : ∀ p w b s', s.waits.find? (·.pid == p) = some w → acquire p s = some (b, s') →
    (s'.buf b).block = (w.dev, w.blockno) ∧ (s'.buf b).data = t (w.dev, w.blockno)

theorem Inv.oneTruth (h : Inv L s t) : OneTruth s t where
  unique := h.unique
  ring := by
    obtain ⟨l, hl, hall⟩ := h.ring
    refine ⟨l, hl, Nat.le_antisymm ?_ ?_, hall⟩
    · rw [← List.length_map (f := some)]
      exact cycle_length hl
    · have := (List.nodup_finRange NBUF).length_le_of_subset fun b _ => hall b
      rwa [List.length_finRange] at this
  bread p dev blockno b s' hdev hs := by
    obtain ⟨h', hb, _⟩ := bread_spec h hdev hs
    exact ⟨hb.block, h'.holds_data hb⟩
  woken p w b s' hw hs := by
    obtain ⟨h', _, _, v, hv, _, hb, _⟩ := acquire_inv h hs
    obtain rfl : w = v := Option.some.inj (hw.symm.trans hv)
    exact ⟨hb.block, h'.holds_data hb⟩

/-- **One truth per block**, throughout every run whose processes save what they changed before they give
a buffer back and leave the log's own blocks to `commit`. -/
theorem one_truth (hdev : L.dev ≠ 0) {disk : Nat × Nat → Block} {ls : List (Nat × Act)}
    (hs : Steps (Trans L) (fun x l => NonZero x l ∧ Saved x l ∧ Outside L x l) (binit disk, disk) ls) :
    AtAll (Trans L) (fun x => OneTruth x.1 x.2) (binit disk, disk) ls :=
  atAll_of_steps (I := fun x => Inv L x.1 x.2) (fun _ _ _ h hl ht => step_inv hdev h hl.1 hl.2.1 hl.2.2 ht)
    (fun _ h => h.oneTruth) (binit_inv disk) hs

/-! ## Small runs for the closed statements -/

/-- A log of 30 blocks from block 2 on, on device 1. -/
def exLog : LogDev := ⟨⟨2, 30⟩, 1⟩

/-- Block `n` is full of `n`. -/
def exDisk : Nat × Nat → Block := fun k _ => k.2

def exIx (n : Nat) : Ix := ⟨n % NBUF, Nat.mod_lt _ (by decide)⟩

/-- `bread` and `brelse` by process 1. -/
def exBread (blockno : Nat) : List (Nat × Act) := [(1, .bget 1 blockno), (1, .acquire)]
def exBrelse (b : Nat) : List (Nat × Act) := [(1, .unlock (exIx b)), (1, .unref)]

/-- A block read into buffer `b`, filled with `v` and handed to `log_write`. -/
def exLogged (blockno b v : Nat) : List (Nat × Act) :=
  exBread blockno ++ [(1, .modify (exIx b) fun _ => v), (1, .logWrite (exIx b))] ++ exBrelse b

/-- The steps meet the conditions, `brelse` by way of `B_DIRTY`. -/
def exChecks (out : Bool) (x : Bcache × Store) (l : Nat × Act) : Bool :=
  match l.2 with
  | .bget dev _ => dev != 0
  | .unlock b => (x.1.buf b).dirty
  | .logWrite b => !out || decide (Home exLog.toLayout (x.1.buf b).blockno)
  | _ => true

theorem exChecks_iff {out : Bool} {x : Bcache × Store} {l : Nat × Act} (h : exChecks out x l = true) :
    NonZero x l ∧ Saved x l ∧ (out = true → Outside exLog x l) := by
  obtain ⟨p, a⟩ := l
  cases a with
  | logWrite b =>
    refine ⟨trivial, trivial, fun ho => ?_⟩
    simpa [exChecks, Outside, ho] using h
  | bget dev blockno => exact ⟨by simpa [exChecks, NonZero] using h, trivial, fun _ => trivial⟩
  | unlock b => exact ⟨trivial, .inl h, fun _ => trivial⟩
  | _ => exact ⟨trivial, trivial, fun _ => trivial⟩

theorem exSteps {out : Bool} {ls : List (Nat × Act)}
    (h : along (next exLog) (exChecks out) (binit exDisk, exDisk) ls = true) :
    Steps (Trans exLog) (fun x l => NonZero x l ∧ Saved x l ∧ (out = true → Outside exLog x l))
    (binit exDisk, exDisk) ls := by
  intro pre l x hp hr
  exact exChecks_iff (Steps.of_along (R := Trans exLog) (fun _ _ _ h => h) h pre l x hp hr)

/-- What the run of `ls` leaves, and whether a `bread` of `blockno` then returns `v` in its first word. -/
def exReturns (ls : List (Nat × Act)) (blockno v : Nat) : Bool :=
  (ls.foldlM (next exLog) (binit exDisk, exDisk)).any fun x =>
    (bread 1 1 blockno x.1).any (fun r => (r.2.buf r.1).data 0 == v) && x.2 (1, blockno) 0 == 7

theorem exReturns_run {ls : List (Nat × Act)} {blockno v : Nat} (h : exReturns ls blockno v = true) :
    ∃ x, Run (Trans exLog) (binit exDisk, exDisk) ls x ∧ x.2 (1, blockno) 0 = 7 ∧
      ∃ b s', bread 1 1 blockno x.1 = some (b, s') ∧ (s'.buf b).data 0 = v := by
  obtain ⟨x, hx, h⟩ := (Option.any_eq_true _ _).1 h
  rw [Bool.and_eq_true, beq_iff_eq] at h
  obtain ⟨⟨b, s'⟩, hb, hv⟩ := (Option.any_eq_true _ _).1 h.1
  exact ⟨x, Run.of_foldlM hx, h.2, b, s', hb, by simpa using hv⟩

/-- A block changed and logged, committed and read again. -/
theorem one_truth_commit : ∃ x, Run (Trans exLog) (binit exDisk, exDisk) (exLogged 50 0 7 ++ [(1, .commit)]) x ∧
    x.2 (1, 50) 0 = 7 ∧ OneTruth x.1 x.2 := by
  have hc : along (next exLog) (exChecks true) (binit exDisk, exDisk) (exLogged 50 0 7 ++ [(1, .commit)]) = true := by
    decide +kernel
  have hr : exReturns (exLogged 50 0 7 ++ [(1, .commit)]) 50 7 = true := by decide +kernel
  obtain ⟨x, hrun, hx, _⟩ := exReturns_run hr
  have hall := one_truth (L := exLog) (by decide) fun pre l y hp hy =>
    let ⟨h1, h2, h3⟩ := exSteps hc pre l y hp hy
    ⟨h1, h2, h3 rfl⟩
  exact ⟨x, hrun, hx, hall _ x (List.prefix_refl _) hrun⟩

/-- A block changed and given back is gone once its buffer is recycled; and a group that logs a block of the
log itself, number 5, commits another block's contents to block 51. -/
theorem one_truth_not_always :
    (¬ ∀ (L : LogDev) (disk : Nat × Nat → Block) (ls : List (Nat × Act)), L.dev ≠ 0 →
      Steps (Trans L) NonZero (binit disk, disk) ls →
      AtAll (Trans L) (fun x => OneTruth x.1 x.2) (binit disk, disk) ls) ∧
    ¬ ∀ (L : LogDev) (disk : Nat × Nat → Block) (ls : List (Nat × Act)), L.dev ≠ 0 →
      Steps (Trans L) (fun x l => NonZero x l ∧ Saved x l) (binit disk, disk) ls →
      AtAll (Trans L) (fun x => OneTruth x.1 x.2) (binit disk, disk) ls := by
  constructor
  · intro h
    let ls := exBread 50 ++ [(1, .modify (exIx 0) fun _ => 7)] ++ exBrelse 0 ++
      (List.range NBUF).flatMap fun n => exBread (60 + n) ++ exBrelse (n + 1)
    have hr : exReturns ls 50 50 = true := by decide +kernel
    obtain ⟨x, hrun, hx, b, s', hb, hv⟩ := exReturns_run hr
    have hz : Steps (Trans exLog) NonZero (binit exDisk, exDisk) ls := by
      refine .of_labels fun l hl _ => ?_
      have hall : ∀ l ∈ ls, (match l.2 with | .bget dev _ => dev != 0 | _ => true) = true := by decide +kernel
      have := hall l hl
      obtain ⟨p, a⟩ := l
      cases a <;> simp_all [NonZero]
    have := ((h exLog exDisk ls (by decide) hz _ x (List.prefix_refl _) hrun).bread 1 1 50 b s' (by decide) hb).2
    rw [this, hx] at hv
    cases hv
  · intro h
    let ls := exLogged 50 0 6 ++ exLogged 5 1 8 ++ exLogged 51 2 7 ++ [(1, .commit)]
    have hc : along (next exLog) (exChecks false) (binit exDisk, exDisk) ls = true := by decide +kernel
    have hr : exReturns ls 51 8 = true := by decide +kernel
    obtain ⟨x, hrun, hx, b, s', hb, hv⟩ := exReturns_run hr
    have := ((h exLog exDisk ls (by decide) (fun pre l y hp hy =>
      let ⟨h1, h2, _⟩ := exSteps hc pre l y hp hy
      ⟨h1, h2⟩) _ x (List.prefix_refl _) hrun).bread 1 1 51 b s' (by decide) hb).2
    rw [this, hx] at hv
    cases hv

end Xv6.Bio
