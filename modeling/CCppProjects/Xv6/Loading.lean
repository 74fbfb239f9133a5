import CCppProjects.Xv6.Overflow
/-
# Growing by rounds

`allocuvm` maps its pages one after another: a page swapped out from the seventeenth on, a frame, a slot (`Round`).
It ends with as many rounds as there are pages, or with a round that finds no memory (`allocuvmLoop_rounds`). `exec`
does nothing to the table under construction but such rounds and bytes written to its pages, so a property that these
keep holds of the image it comes to (`Loading.exec`).
-/
namespace Xv6

variable {c : Cfg} {w : Tbl}

/-! ## `allocuvm` -/

/-- The swap-out before page `v` is mapped (vm.c:235). -/
def makeRoom (c : Cfg) (w : Tbl) (v : Nat) (x : Ctx) : K Ctx :=
  if x.tracked c && decide (MAX_PSYC_PAGES ≤ v) then swapToFile c w x else pure x

/-- Page `v` is mapped, and recorded if the process is tracked. -/
def Round (c : Cfg) (w : Tbl) (v : Nat) (x u : Ctx) : Prop :=
  ∃ y z, makeRoom c w v x = .ok y ∧ allocPage w v y = .ok (.done, z) ∧
    (if z.tracked c then recordPage c w v z else pure z) = .ok u

/-- The rounds for the pages from `a` up to `b`. -/
inductive Rounds (c : Cfg) (w : Tbl) : Nat → Nat → Ctx → Ctx → Prop
  | nil (v : Nat) (x : Ctx) : Rounds c w v v x x
  | cons {v b : Nat} {x y z : Ctx} : Round c w v x y → Rounds c w (v + 1) b y z → Rounds c w v b x z

/-- A round for page `v` that finds no frame, or no page for its table: what is above `oldsz` is unmapped again. -/
def Fails (c : Cfg) (w : Tbl) (oldsz newsz v : Nat) (x x' : Ctx) : Prop :=
  ∃ y r z s, makeRoom c w v x = .ok y ∧ allocPage w v y = .ok (r, z) ∧
    deallocuvm c w newsz oldsz false (z.emit [.growFailed w (v - pgUp oldsz)]) = .ok s ∧
    ((r = .noFrame ∧ x' = s.2) ∨ ∃ mem k, r = .noTable mem ∧ kfree c mem s.2.kmem = .ok k ∧ x' = s.2.setKmem k)

theorem Rounds.le {a b : Nat} {x y : Ctx} (h : Rounds c w a b x y) : a ≤ b := by
  induction h with
  | nil => exact Nat.le_refl _
  | cons _ _ ih => omega

/-- What every round keeps. -/
theorem Rounds.inv {I : Nat → Ctx → Prop} {a b : Nat} {x y : Ctx} (h : Rounds c w a b x y)
    (hI : ∀ v x u, v < b → I v x → Round c w v x u → I (v + 1) u) (hx : I a x) : I b y := by
  induction h with
  | nil => exact hx
  | cons hr hrest ih => exact ih hI (hI _ _ _ hrest.le hx hr)

theorem allocuvmLoop_rounds {oldsz newsz : Nat} : ∀ (n v : Nat) {x x' : Ctx} {b : Bool}, v ≤ pgUp newsz →
    pgUp newsz ≤ v + n → allocuvmLoop c w oldsz newsz n v x = .ok (b, x') →
    (b = true ∧ Rounds c w v (pgUp newsz) x x') ∨
      (b = false ∧ ∃ u y, v ≤ u ∧ u < pgUp newsz ∧ Rounds c w v u x y ∧ Fails c w oldsz newsz u y x')
  | 0, v, x, x', b, hv, hn, h => by
    cases h
    obtain rfl : v = pgUp newsz := by omega
    exact .inl ⟨rfl, .nil _ _⟩
  | n + 1, v, x, x', b, hv, hn, h => by
    rw [allocuvmLoop] at h
    by_cases hle : newsz ≤ v * PGSIZE
    · rw [if_pos hle] at h
      cases h
      obtain rfl : v = pgUp newsz := by
        have : ¬ v < pgUp newsz := by rw [lt_pgUp]; omega
        omega
      exact .inl ⟨rfl, .nil _ _⟩
    rw [if_neg hle] at h
    have hvp : v < pgUp newsz := lt_pgUp.2 (by omega)
    obtain ⟨y, hy, h⟩ := bind_ok h
    obtain ⟨⟨r, z⟩, hz, h⟩ := bind_ok h
    cases r with
    | noFrame =>
      obtain ⟨s, hs, h⟩ := bind_ok h
      cases h
      exact .inr ⟨rfl, v, x, Nat.le_refl _, hvp, .nil _ _, y, _, z, s, hy, hz, hs, .inl ⟨rfl, rfl⟩⟩
    | noTable mem =>
      obtain ⟨s, hs, h⟩ := bind_ok h
      obtain ⟨k, hk, h⟩ := lift_bind_ok h
      cases h
      exact .inr ⟨rfl, v, x, Nat.le_refl _, hvp, .nil _ _, y, _, z, s, hy, hz, hs, .inr ⟨mem, k, rfl, hk, rfl⟩⟩
    | done =>
      obtain ⟨u, hu, h⟩ := bind_ok h
      have hround : Round c w v x u := ⟨y, z, hy, hz, hu⟩
      rcases allocuvmLoop_rounds n (v + 1) hvp (by omega) h with ⟨hb, hr⟩ | ⟨hb, u', y', hvu, hup, hr, hf⟩
      · exact .inl ⟨hb, .cons hround hr⟩
      · exact .inr ⟨hb, u', y', by omega, hup, .cons hround hr, hf⟩

/-- `allocuvm` refuses, maps every page, or gives up at one. -/
theorem allocuvm_rounds {oldsz newsz r : Nat} {x x' : Ctx} (h : allocuvm c w oldsz newsz x = .ok (r, x')) :
    (r = 0 ∧ KERNBASE ≤ newsz ∧ x' = x) ∨
      (newsz < KERNBASE ∧ r = max oldsz newsz ∧ Rounds c w (pgUp oldsz) (pgUp r) x x') ∨
      (newsz < KERNBASE ∧ oldsz ≤ newsz ∧ r = 0 ∧ ∃ v y, pgUp oldsz ≤ v ∧ v < pgUp newsz ∧
      Rounds c w (pgUp oldsz) v x y ∧
        Fails c w oldsz newsz v y x') := by
  unfold allocuvm at h
  by_cases hk : KERNBASE ≤ newsz
  · rw [if_pos hk] at h
    cases h
    exact .inl ⟨rfl, hk, rfl⟩
  rw [if_neg hk] at h
  by_cases hlt : newsz < oldsz
  · rw [if_pos hlt] at h
    cases h
    refine .inr (.inl ⟨by omega, by omega, .nil _ _⟩)
  rw [if_neg hlt] at h
  have hmono := pgUp_mono (show oldsz ≤ newsz by omega)
  obtain ⟨⟨b, y⟩, hy, h⟩ := bind_ok h
  obtain ⟨rfl, rfl⟩ := Prod.mk.inj (Except.ok.inj h)
  rcases allocuvmLoop_rounds _ _ hmono (by omega) hy with ⟨rfl, hr⟩ | ⟨rfl, hr⟩
  · exact .inr (.inl ⟨by omega, by rw [if_pos rfl]; omega, by rw [if_pos rfl]; exact hr⟩)
  · exact .inr (.inr ⟨by omega, by omega, rfl, hr⟩)

/-! ## `exec` -/

/-- A property of the table under construction, its pages `n` and what they hold. -/
structure Loading (c : Cfg) (I : Nat → Mem → Ctx → Prop) : Prop where
  round : ∀ {n m x u}, n < USERPAGES → I n m x → Round c .other n x u →
    I (n + 1) (Function.update m n (some zeroPage)) u
  poke : ∀ {n m x va e b}, va < KERNBASE → I n m x → walkpgdir c x.other (va / PGSIZE) = some e →
    va / PGSIZE < n ∨ e.P = true → I n (m.set va b) (x.setData (setByte x.data e.addr va b))
  noUser : ∀ {n m x va e}, va < KERNBASE → I n m x → walkpgdir c x.other (va / PGSIZE) = some e →
    I n m (x.setTbl .other (x.other.setPte (va / PGSIZE) { e with U := false }))
  emit : ∀ {n m x}, I n m x → I n m (x.emit [.endOp])

namespace Loading

variable {I : Nat → Mem → Ctx → Prop} {n : Nat} {m : Mem} {x x' : Ctx}

theorem rounds (hI : Loading c I) {a b : Nat} (h : Rounds c .other a b x x') (hb : b ≤ USERPAGES) :
    ∀ {m : Mem} {newsz : Nat}, pgUp newsz = b → I a m x → I b (m.grow a newsz) x' := by
  induction h with
  | nil v x =>
    intro m newsz hn hm
    rw [grow_id (by have : ¬ v < pgUp newsz := by omega
                    rw [lt_pgUp] at this
                    omega)]
    exact hm
  | cons hr hrest ih =>
    intro m newsz hn hm
    have hv := hrest.le
    rw [← grow_update (lt_pgUp.1 (by omega))]
    exact ih hb hn (hI.round (by omega) hm hr)

theorem loaduvm (hI : Loading c I) : ∀ (bs : List UInt8) (va : Nat) {m : Mem} {x x' : Ctx},
    va + bs.length ≤ n * PGSIZE →
    n ≤ USERPAGES → I n m x → Xv6.loaduvm c va bs x = .ok x' → I n (m.write va bs) x'
  | [], _, _, _, _, _, _, hm, h => by
    cases h
    exact hm
  | b :: bs, va, m, x, x', hle, hn, hm, h => by
    rw [List.length_cons] at hle
    rw [Xv6.loaduvm] at h
    split at h
    · cases h
    · next e he =>
      have hpage : va / PGSIZE < n := by
        rw [Nat.div_lt_iff_lt_mul (by decide)]
        omega
      have hva : va < KERNBASE := by simp only [KERNBASE, PGSIZE, USERPAGES] at *; omega
      exact hI.loaduvm bs (va + 1) (by omega) hn (hI.poke hva hm he (.inl hpage)) h

theorem copyout (hI : Loading c I) : ∀ (bs : List UInt8) (va : Nat) {m : Mem} {x x' : Ctx}, I n m x →
    Xv6.copyout c va bs x = .ok (true, x') → I n (m.write va bs) x'
  | [], _, _, _, _, hm, h => by
    cases h
    exact hm
  | b :: bs, va, m, x, x', hm, h => by
    rw [Xv6.copyout] at h
    obtain ⟨r, hr, h⟩ := lift_bind_ok h
    cases r with
    | none => cases h
    | some f =>
      obtain ⟨hv, rfl, hP⟩ := uva2ka_ok hr
      have hva : va < KERNBASE := by simp only [KERNBASE, PGSIZE, USERPAGES] at *; omega
      have hmod : (va + 1) % UINT = va + 1 := Nat.mod_eq_of_lt (by simp only [KERNBASE, UINT] at *; omega)
      have he : walkpgdir c x.other (va / PGSIZE) = some (x.other.pte (va / PGSIZE)) := by
        unfold uva2ka at hr
        split at hr
        · cases hr
        · next e he => rw [he, (walkpgdir_user hv he).1]
      rw [hmod] at h
      exact hI.copyout bs (va + 1) (hI.poke hva hm he (.inr hP)) h

theorem pushArgs (hI : Loading c I) : ∀ (args : List (List UInt8)) (sp : Nat) (ptrs : List Nat) {m : Mem} {x x' : Ctx}
    {q : Nat × List Nat}, I n m x → Xv6.pushArgs c args sp ptrs x = .ok (some q, x') →
    I n (refStrings args sp ptrs m).2.2 x' ∧ (refStrings args sp ptrs m).1 = q.1 ∧ (refStrings args sp ptrs m).2.1 = q.2
  | [], _, _, _, _, _, _, hm, h => by
    cases h
    exact ⟨hm, rfl, rfl⟩
  | arg :: args, sp, ptrs, m, x, x', q, hm, h => by
    rw [Xv6.pushArgs] at h
    split at h
    · cases h
    · obtain ⟨⟨ok, y⟩, hy, h⟩ := bind_ok h
      cases ok with
      | false => cases h
      | true => exact hI.pushArgs args _ _ (hI.copyout _ _ hm hy) h

theorem pgUp_le {sz : Nat} (h : sz < KERNBASE) : pgUp sz ≤ USERPAGES := by
  simp only [pgUp, PGSIZE, KERNBASE, USERPAGES] at *
  omega

/-- Where the loop over the program headers ends well it has built the image, of the planned size. -/
theorem loadSegments (hI : Loading c I) : ∀ (phs : List Segment) (sz : Nat) {sz' : Nat} {m : Mem} {x x' : Ctx},
    sz < KERNBASE → I (pgUp sz) m x → Xv6.loadSegments c phs sz x = .ok (some sz', x') →
    I (pgUp sz') (refSegments phs ⟨m, sz⟩).mem x' ∧ (refSegments phs ⟨m, sz⟩).sz = sz' ∧ sz' < KERNBASE ∧
      loadPlan phs sz = (true, sz')
  | [], sz, sz', m, x, x', hsz, hm, h => by
    cases h
    exact ⟨hm, rfl, hsz, rfl⟩
  | ph :: phs, sz, sz', m, x, x', hsz, hm, h => by
    rw [Xv6.loadSegments] at h
    by_cases h1 : (!ph.readOk) = true
    · rw [if_pos h1] at h
      cases h
    rw [if_neg h1] at h
    by_cases h2 : (!ph.load) = true
    · rw [if_pos h2] at h
      have hskip : loadPlan (ph :: phs) sz = loadPlan phs sz := by rw [loadPlan, if_neg h1, if_pos h2]
      rw [hskip, refSegments, if_pos h2]
      exact hI.loadSegments phs sz hsz hm h
    rw [if_neg h2] at h
    by_cases h3 : ph.memsz < ph.filesz
    · rw [if_pos h3] at h
      cases h
    rw [if_neg h3] at h
    by_cases h4 : ph.vaddr + ph.memsz < ph.vaddr
    · rw [if_pos h4] at h
      cases h
    rw [if_neg h4] at h
    obtain ⟨⟨sz1, y⟩, hy, h⟩ := bind_ok h
    dsimp only at h
    by_cases h0 : sz1 = 0
    · rw [if_pos h0] at h
      cases h
    rw [if_neg h0] at h
    by_cases h5 : ph.vaddr.toNat % PGSIZE ≠ 0
    · rw [if_pos h5] at h
      cases h
    rw [if_neg h5] at h
    obtain ⟨z, hz, h⟩ := bind_ok h
    by_cases h6 : ph.bytes.length < ph.filesz.toNat
    · rw [if_pos h6] at h
      cases h
    rw [if_neg h6] at h
    obtain ⟨hlt, hsz1⟩ := allocuvm_size hy h0
    have hsz1lt : sz1 < KERNBASE := by omega
    -- the pages, then the bytes
    have hym : I (pgUp sz1) (m.grow (pgUp sz) (ph.vaddr + ph.memsz).toNat) y := by
      rcases allocuvm_rounds hy with ⟨hr, -, -⟩ | ⟨-, -, hr⟩ | ⟨-, -, hr, -⟩
      · exact absurd hr h0
      · by_cases hge : sz ≤ (ph.vaddr + ph.memsz).toNat
        · exact hI.rounds hr (pgUp_le hsz1lt) (by rw [hsz1, Nat.max_eq_right hge]) hm
        · have hsame : sz1 = sz := by omega
          rw [grow_eq_id (by omega), id_eq]
          rw [hsame] at hr ⊢
          cases hr with
          | nil => exact hm
          | cons _ hrest => exact absurd hrest.le (by omega)
      · exact absurd hr h0
    have hend := segment_end h3 h4
    have hzm := hI.loaduvm (ph.bytes.take ph.filesz.toNat) ph.vaddr.toNat (by
      have h1 : (ph.bytes.take ph.filesz.toNat).length ≤ ph.filesz.toNat := by simp
      have h2 : sz1 ≤ pgUp sz1 * PGSIZE := by
        have : ¬ pgUp sz1 < pgUp sz1 := Nat.lt_irrefl _
        rw [lt_pgUp] at this
        omega
      omega) (pgUp_le hsz1lt) hym hz
    obtain ⟨i1, i2, i3, i4⟩ := hI.loadSegments phs sz1 hsz1lt hzm h
    have href : refSegments (ph :: phs) ⟨m, sz⟩ = refSegments phs ⟨(m.grow (pgUp sz) (ph.vaddr + ph.memsz).toNat).write
        ph.vaddr.toNat (ph.bytes.take ph.filesz.toNat), sz1⟩ := by
      rw [refSegments, if_neg h2, hsz1]
    refine ⟨href ▸ i1, href ▸ i2, i3, ?_⟩
    rw [loadPlan_load h1 h2 h3 h4 hlt, ← hsz1, if_neg (by simp only [h0, h5, h6, or_self, not_false_eq_true])]
    exact i4

theorem pgUp_mul (n : Nat) : pgUp (n * PGSIZE) = n := by
  simp only [pgUp, PGSIZE]
  omega

theorem execStack (hI : Loading c I) {argv : List (List UInt8)} {sz top : Nat} (hm : I (pgUp sz) m x)
    (h : Xv6.execStack c argv sz x = .ok (some top, x')) :
    I (pgUp sz + 2) (refStack argv sz m) x' ∧ top = pgUp sz * PGSIZE + 2 * PGSIZE ∧ top < KERNBASE := by
  unfold Xv6.execStack at h
  have htop : pgUp (pgUp sz * PGSIZE + 2 * PGSIZE) = pgUp sz + 2 := by rw [← Nat.add_mul, pgUp_mul]
  obtain ⟨⟨sz1, y⟩, hy, h⟩ := bind_ok h
  dsimp only at h
  by_cases h0 : sz1 = 0
  · rw [if_pos h0] at h
    cases h
  rw [if_neg h0] at h
  obtain ⟨hlt, hsz1⟩ := allocuvm_size hy h0
  rw [Nat.max_eq_right (Nat.le_add_right _ _)] at hsz1
  subst hsz1
  have hym : I (pgUp sz + 2) (m.grow (pgUp (pgUp sz * PGSIZE)) (pgUp sz * PGSIZE + 2 * PGSIZE)) y := by
    rcases allocuvm_rounds hy with ⟨hr, -, -⟩ | ⟨-, -, hr⟩ | ⟨-, -, hr, -⟩
    · exact absurd hr h0
    · rw [htop] at hr
      refine hI.rounds hr ?_ htop (by rw [pgUp_mul]; exact hm)
      rw [← htop]
      exact pgUp_le hlt
    · exact absurd hr h0
  obtain ⟨z, hz, h⟩ := bind_ok h
  have hzm : I (pgUp sz + 2) (m.grow (pgUp (pgUp sz * PGSIZE)) (pgUp sz * PGSIZE + 2 * PGSIZE)) z := by
    unfold clearpteu at hz
    split at hz
    · cases hz
    · next e he =>
      cases hz
      exact hI.noUser (by omega) hym he
  obtain ⟨⟨q, u⟩, hu, h⟩ := bind_ok h
  cases q with
  | none => cases h
  | some q =>
    obtain ⟨⟨ok, v⟩, hv, h⟩ := bind_ok h
    cases ok with
    | false => cases h
    | true =>
      cases h
      obtain ⟨hum, e1, e2⟩ := hI.pushArgs argv _ [] hzm hu
      refine ⟨?_, rfl, hlt⟩
      rw [refStack, e1, e2]
      exact hI.copyout _ _ hum hv

/-- **Where `exec` succeeds it has built the image** of as many pages as planned, before it commits to it. -/
theorem exec (hI : Loading c I) {file : Option Image} {argv : List (List UInt8)} (hpag : c.paging = true)
    (h0 : ∀ y, setupkvm c ((x.emit [.beginOp]).setProc (initPagesData x.proc)) = .ok (true, y) → I 0 Mem.none y)
    (h : Xv6.exec c file argv x = .ok (true, x')) : ∃ img v, file = some img ∧ img.elfOk = true ∧
      I (execPages img) (refExec img argv).mem v ∧ execCommit c (execPages img * PGSIZE) v = .ok x' := by
  simp only [Xv6.exec] at h
  cases file with
  | none => cases h
  | some img =>
    dsimp only at h
    rw [if_pos hpag] at h
    have hbad : ∀ {pgdir ip : Bool} {y : Ctx}, (do let x ← execBad c x.proc pgdir ip y; pure (false, x)) ≠
      .ok (true, x') := by
      intro pgdir ip y h
      obtain ⟨z, -, h⟩ := bind_ok h
      cases h
    split at h
    · next helf =>
      unfold execImage at h
      obtain ⟨⟨ok, y⟩, hy, h⟩ := bind_ok h
      cases ok with
      | false => exact absurd h hbad
      | true =>
        obtain ⟨⟨r, z⟩, hz, h⟩ := bind_ok h
        cases r with
        | none => exact absurd h hbad
        | some sz =>
          obtain ⟨hzm, hsz, -, hplan⟩ := hI.loadSegments img.segs 0 (by decide) (h0 y hy) hz
          obtain ⟨⟨r, v⟩, hv, h⟩ := bind_ok h
          cases r with
          | none => exact absurd h hbad
          | some top =>
            obtain ⟨hvm, rfl, hlt⟩ := hI.execStack (hI.emit hzm) hv
            obtain ⟨u, hu, h⟩ := bind_ok h
            cases h
            have hpages : execPages img = pgUp sz + 2 := by
              rw [execPages, if_neg (by simp [helf]), hplan]
              exact if_pos (by simpa using hlt)
            refine ⟨img, v, rfl, helf, ?_, ?_⟩
            · rw [hpages, refExec, hsz]
              exact hvm
            · rw [hpages, Nat.add_mul]
              exact hu
    · exact absurd h hbad

end Loading

/-- Where `exec` fails it goes through `bad:` from a state on the way to the new image. -/
theorem Follows.exec_fails {may : Move → Prop} {R : Proc → Proc → Prop} (hR : Follows c may R)
    (hs : may .swap) (hr : may .record)
    {file : Option Image} {argv : List (List UInt8)} {x x' : Ctx} (hpag : c.paging = true)
    (h : exec c file argv x = .ok (false, x')) :
    x'.proc = x.proc ∨ ∃ y pgdir ip, R (initPagesData x.proc) y.proc ∧ execBad c x.proc pgdir ip y = .ok x' := by
  simp only [exec] at h
  cases file with
  | none =>
    cases h
    exact .inl rfl
  | some img =>
    dsimp only at h
    rw [if_pos hpag] at h
    refine .inr ?_
    have hbad : ∀ {pgdir ip : Bool} {y : Ctx}, R (initPagesData x.proc) y.proc →
        (do let x ← execBad c x.proc pgdir ip y; pure (false, x)) = .ok (false, x') →
        ∃ y pgdir ip, R (initPagesData x.proc) y.proc ∧ execBad c x.proc pgdir ip y = .ok x' := by
      intro pgdir ip y hy h
      obtain ⟨z, hz, h⟩ := bind_ok h
      cases h
      exact ⟨y, pgdir, ip, hy, hz⟩
    split at h
    · unfold execImage at h
      obtain ⟨⟨ok, y⟩, hy, h⟩ := bind_ok h
      have hyR : R (initPagesData x.proc) y.proc := hR.setupkvm _ _ hy
      cases ok with
      | false => exact hbad hyR h
      | true =>
        obtain ⟨⟨r, z⟩, hz, h⟩ := bind_ok h
        have hzR : R (initPagesData x.proc) z.proc := hR.trans hyR (hR.loadSegments hs hr _ _ _ _ hz)
        cases r with
        | none => exact hbad hzR h
        | some sz =>
          obtain ⟨⟨r, v⟩, hv, h⟩ := bind_ok h
          have hvR : R (initPagesData x.proc) v.proc := hR.trans hzR (hR.execStack hs hr _ _ _ _ hv)
          cases r with
          | none => exact hbad hvR h
          | some top =>
            obtain ⟨u, -, h⟩ := bind_ok h
            cases h
    · exact hbad (hR.refl _) h

end Xv6
