import CCppProjects.Xv6.Overflow
/-
# The swap file of a child

`fork` copies the first `numberOfPagedOut` slots of the swap file (proc.c:268-272), whichever slots are in use. A
slot's bytes arrive when the loop gets to it, both files hold it whole, and `writei` takes it; `copyuvm` carries the
mark of a page over when the page is present. `Copyable` is all of that, for the pages that are out.
-/
namespace Xv6

variable {c : Cfg}

/-! ## Writing a slot -/

theorem writei_some {fl : SwapFile} {off n : Nat} (h1 : off ≤ fl.size) (h2 : off + n ≤ MAXFILEBYTES)
    (src : Nat → UInt8) :
    writei fl off n src = some ⟨max fl.size (off + n), fun a => if off ≤ a ∧
    a < off + n then src (a - off) else fl.byte a⟩ :=
  if_neg (by omega)

theorem writei_none {fl : SwapFile} {off n : Nat} (h : fl.size < off ∨ MAXFILEBYTES < off + n) (src : Nat → UInt8) :
    writei fl off n src = none := if_pos h

/-- What the chunks of `filewrite` come to when none is refused. -/
theorem filewriteLoop_full (src : Nat → UInt8) {base n : Nat} (hmax : base + n ≤ MAXFILEBYTES) : ∀ (fuel i : Nat)
    (fl : SwapFile), i ≤ n → n ≤ i + fuel → base + i ≤ fl.size →
    (filewriteLoop src base n fuel i fl).1.size = max fl.size (base + n) ∧
      ∀ a, (filewriteLoop src base n fuel i fl).1.byte a = if base + i ≤ a ∧
      a < base + n then src (a - base) else fl.byte a
  | 0, i, fl, hi, hn, hfl => by
    obtain rfl : i = n := by omega
    refine ⟨?_, fun a => ?_⟩
    · show fl.size = _
      omega
    · rw [if_neg (by omega)]
      rfl
  | fuel + 1, i, fl, hi, hn, hfl => by
    rw [filewriteLoop]
    split
    · next hlt =>
      have hF : 0 < FILEMAX := by decide
      have hc : min (n - i) FILEMAX ≤ n - i := Nat.min_le_left _ _
      have hpos : 0 < min (n - i) FILEMAX := by omega
      dsimp only
      generalize min (n - i) FILEMAX = n1 at hc hpos
      rw [writei_some hfl (by omega)]
      obtain ⟨hsize, hbyte⟩ := filewriteLoop_full src hmax fuel (i + n1) ⟨max fl.size (base + i + n1), fun a =>
        if base + i ≤ a ∧ a < base + i + n1 then src (i + (a - (base + i))) else fl.byte a⟩ (by omega) (by omega)
        (by dsimp only; omega)
      refine ⟨?_, fun a => ?_⟩
      · refine hsize.trans ?_
        dsimp only
        omega
      · refine (hbyte a).trans ?_
        dsimp only
        by_cases h1 : base + (i + n1) ≤ a ∧ a < base + n
        · rw [if_pos h1, if_pos (by omega)]
        · rw [if_neg h1]
          by_cases h2 : base + i ≤ a ∧ a < base + i + n1
          · rw [if_pos h2, if_pos (by omega), show i + (a - (base + i)) = a - base by omega]
          · rw [if_neg h2, if_neg (by omega)]
    · next hge =>
      refine ⟨?_, fun a => ?_⟩
      · show fl.size = _
        omega
      · rw [if_neg (by omega)]

/-- A page as the bytes `filewrite` takes. -/
def pageBytes (buffer : PageData) (a : Nat) : UInt8 := if h : a < PGSIZE then buffer ⟨a, h⟩ else 0

theorem writeToSwapFile_full (off : Nat) (fl : SwapFile) (buffer : PageData) (h1 : off ≤ fl.size)
    (h2 : off + PGSIZE ≤ MAXFILEBYTES) : (writeToSwapFile buffer off fl).1.size = max fl.size (off + PGSIZE) ∧
      ∀ a, (writeToSwapFile buffer off fl).1.byte a =
        if off ≤ a ∧ a < off + PGSIZE then pageBytes buffer (a - off) else fl.byte a :=
  filewriteLoop_full (pageBytes buffer) h2 PGSIZE 0 fl (Nat.zero_le _) (Nat.le_add_left _ _) h1

theorem writeToSwapFile_past {off : Nat} {fl : SwapFile} (buffer : PageData) (h : fl.size < off) :
    (writeToSwapFile buffer off fl).1 = fl := by
  show (filewriteLoop _ off PGSIZE (4095 + 1) 0 fl).1 = fl
  rw [filewriteLoop, if_pos (by decide)]
  dsimp only
  rw [Nat.add_zero, writei_none (.inl h)]

/-- A slot of which only the first chunk fits under `MAXFILE * BSIZE`. -/
theorem writeToSwapFile_chunk {off : Nat} {fl : SwapFile} (buffer : PageData) (h1 : off ≤ fl.size)
    (h2 : off + FILEMAX ≤ MAXFILEBYTES) (h3 : MAXFILEBYTES < off + (FILEMAX + FILEMAX)) :
    (writeToSwapFile buffer off fl).1 = ⟨max fl.size (off + FILEMAX), fun a =>
      if off ≤ a ∧ a < off + FILEMAX then pageBytes buffer (0 + (a - off)) else fl.byte a⟩ := by
  show (filewriteLoop (pageBytes buffer) off PGSIZE (4094 + 1 + 1) 0 fl).1 = _
  have hm : min (PGSIZE - 0) FILEMAX = FILEMAX := by decide
  have hm' : min (PGSIZE - (0 + FILEMAX)) FILEMAX = FILEMAX := by decide
  rw [filewriteLoop, if_pos (by decide)]
  dsimp only
  rw [hm, Nat.add_zero, writei_some h1 h2]
  dsimp only
  rw [filewriteLoop, if_pos (by decide)]
  dsimp only
  rw [hm', writei_none (.inr (by omega))]

/-! ## The loop of `fork` -/

/-- As much of a swap file as fits under `MAXFILE * BSIZE` in whole chunks. -/
def COPYMAX : Nat := 17 * PGSIZE + FILEMAX

/-- The first `i` slots are copied, as far as the parent's file has them. -/
structure Copied (src dst : SwapFile) (i : Nat) : Prop where
  size : dst.size = min (i * PGSIZE) COPYMAX
  bytes : ∀ a < dst.size, a < src.size → dst.byte a = src.byte a

theorem Copied.slot {src dst : SwapFile} {i : Nat} (h : Copied src dst i) (buffer : PageData) :
    Copied src (writeToSwapFile (readFromSwapFile src (some (i * PGSIZE)) buffer) (i * PGSIZE) dst).1 (i + 1) := by
  have hread : ∀ a, a < PGSIZE → i * PGSIZE + a < src.size →
      pageBytes (readFromSwapFile src (some (i * PGSIZE)) buffer) a = src.byte (i * PGSIZE + a) := by
    intro a ha hs
    rw [pageBytes, dif_pos ha]
    exact if_pos hs
  generalize readFromSwapFile src (some (i * PGSIZE)) buffer = page at hread
  have hsize := h.size
  have hconst : COPYMAX = 71168 ∧ MAXFILEBYTES = 71680 ∧ FILEMAX = 1536 ∧ PGSIZE = 4096 := by decide
  obtain ⟨hC, hM, hF, hP⟩ := hconst
  have hi : i * PGSIZE = i * 4096 := by rw [hP]
  by_cases h1 : i ≤ 16
  · obtain ⟨hs, hb⟩ := writeToSwapFile_full (i * PGSIZE) dst page (by omega) (by omega)
    refine ⟨?_, fun a ha hsrc => ?_⟩
    · rw [hi, hC] at hsize
      rw [hs, hsize, hP, hC]
      clear * - h1
      omega
    rw [hb]
    split
    · next hin => rw [hread _ (by omega) (by omega), show i * PGSIZE + (a - i * PGSIZE) = a by omega]
    · exact h.bytes a (by omega) hsrc
  · by_cases h2 : i = 17
    · subst h2
      rw [writeToSwapFile_chunk page (by omega) (by omega) (by omega)]
      refine ⟨?_, fun a ha hsrc => ?_⟩
      · dsimp only
        rw [hsize, hC, hP, hF]
        omega
      dsimp only at ha ⊢
      split
      · next hin => rw [Nat.zero_add, hread _ (by omega) (by omega), show 17 * PGSIZE + (a - 17 * PGSIZE) = a by omega]
      · exact h.bytes a (by omega) hsrc
    · rw [writeToSwapFile_past page (by omega)]
      refine ⟨?_, h.bytes⟩
      rw [hsize, hC, hP]
      omega

theorem copySwapLoop_copied {src : SwapFile} : ∀ (n i : Nat) (buffer : PageData) (dst : SwapFile) (es : List Event),
    Copied src dst i → Copied src (copySwapLoop src n i buffer dst es).2.1 (i + n)
  | 0, _, _, _, _, h => h
  | n + 1, i, buffer, dst, es, h => by
    rw [show i + (n + 1) = i + 1 + n by omega]
    exact copySwapLoop_copied n (i + 1) _ _ _ (h.slot buffer)

/-! ## The marks of `copyuvm` -/

/-- The table says that page `v` is paged out. -/
def Pgdir.Marks (t : Pgdir) (v : Nat) : Prop := (t.pde (v / NPTENTRIES)).isSome = true ∧ (t.pte v).PG = true

theorem isPgOn_true {va : Nat} {p : Proc} : isPgOn c va p = .ok true ↔ va / PGSIZE < USERPAGES ∧
    p.pgdir.Marks (va / PGSIZE) := by
  unfold isPgOn walkpgdir Pgdir.Marks
  cases hd : p.pgdir.pde (va / PGSIZE / NPTENTRIES) with
  | none => simp
  | some f =>
    by_cases hv : va / PGSIZE < USERPAGES
    · simp [hv]
    · simp [hv, kernelPte]

theorem walkpgdirAlloc_marks {k k' : Kmem} {t t' : Pgdir} {v : Nat}
    (h : walkpgdirAlloc k t v = some (k', t')) (u : Nat) :
    (t'.pde (v / NPTENTRIES)).isSome = true ∧ (t'.Marks u ↔ t.Marks u) := by
  unfold walkpgdirAlloc at h
  split at h
  · next f hf =>
    obtain ⟨rfl, rfl⟩ : k = k' ∧ t = t' := by simpa using h
    exact ⟨by simp [hf], Iff.rfl⟩
  · next hn =>
    split at h
    · cases h
    · obtain ⟨rfl, rfl⟩ := Prod.mk.inj (Option.some.inj h)
      refine ⟨by simp, ?_⟩
      by_cases hu : u / NPTENTRIES = v / NPTENTRIES
      · simp [Pgdir.Marks, hu, hn]
      · simp [Pgdir.Marks, hu]

theorem setupkvmLoop_pte : ∀ {ds : List Nat} {k k' : Kmem} {t t' : Pgdir} {b : Bool},
    setupkvmLoop ds k t = (b, k', t') → t'.pte = t.pte
  | [], _, _, _, _, _, h => by
    cases h
    rfl
  | d :: ds, k, k', t, t', b, h => by
    rw [setupkvmLoop] at h
    split at h
    · cases h
      rfl
    · exact (setupkvmLoop_pte h).trans rfl

theorem setupkvm_pte {x x' : Ctx} (h : setupkvm c x = .ok (true, x')) : x'.other.pte = fun _ => {} := by
  unfold setupkvm at h
  split at h
  · cases h
  · split at h
    · next hl =>
      cases h
      exact setupkvmLoop_pte hl
    · obtain ⟨y, hy, h⟩ := bind_ok h
      cases h

/-- `copyuvm` after the first `v` pages of the parent, which was `p`. -/
structure MarksTo (p : Proc) (x : Ctx) (v : Nat) : Prop where
  proc : x.proc = { p with pgdir := x.proc.pgdir }
  pde : x.proc.pgdir.pde = p.pgdir.pde
  flags : ∀ u, (x.proc.pgdir.pte u).P = (p.pgdir.pte u).P ∧ (x.proc.pgdir.pte u).PG = (p.pgdir.pte u).PG
  child : ∀ u, x.other.Marks u ↔ u < v ∧ p.pgdir.Marks u ∧ (p.pgdir.pte u).P = true

theorem sharePage_marks {v : Nat} {p : Proc} {x x' : Ctx} (hd : (p.pgdir.pde (v / NPTENTRIES)).isSome = true)
    (hP : (p.pgdir.pte v).P = true) (hm : MarksTo p x v)
    (h : sharePage c v (x.proc.pgdir.pte v) x = .ok (true, x')) : MarksTo p x' (v + 1) := by
  obtain ⟨hb, -⟩ | ⟨k, o, k', -, hw, -, -, rfl⟩ := sharePage_cases h
  · cases hb
  have hshare : (x.proc.pgdir.pte v).shared.P = (p.pgdir.pte v).P ∧
      (x.proc.pgdir.pte v).shared.PG = (p.pgdir.pte v).PG := by
    rw [← (hm.flags v).1, ← (hm.flags v).2]
    unfold Pte.shared
    split <;> exact ⟨rfl, rfl⟩
  refine ⟨?_, hm.pde, fun u => ?_, fun u => ?_⟩
  · show ({ x.proc with pgdir := _ } : Proc) = _
    rw [hm.proc]
    rfl
  · show ((x.proc.pgdir.setPte v _).pte u).P = _ ∧ ((x.proc.pgdir.setPte v _).pte u).PG = _
    rw [Pgdir.pte_setPte]
    split
    · next hu =>
      subst hu
      exact hshare
    · exact hm.flags u
  · show (o.setPte v _).Marks u ↔ _
    obtain ⟨hov, -⟩ := walkpgdirAlloc_marks hw v
    obtain ⟨-, hou⟩ := walkpgdirAlloc_marks hw u
    unfold Pgdir.Marks at hou ⊢
    rw [Pgdir.pde_setPte, Pgdir.pte_setPte]
    by_cases hu : u = v
    · subst hu
      simp [hov, hd, hP, (hm.flags u).2]
    · have : u < v + 1 ↔ u < v := by omega
      rw [if_neg hu, hou, this]
      exact hm.child u

theorem copyuvmLoop_marks {p : Proc} {sz : Nat} (hsz : sz ≤ KERNBASE) : ∀ (n v : Nat) (x x' : Ctx), v ≤ pgUp sz →
    pgUp sz ≤ v + n → MarksTo p x v → copyuvmLoop c sz n v x = .ok (true, x') → MarksTo p x' (pgUp sz)
  | 0, v, x, x', hv, hn, hm, h => by
    cases h
    obtain rfl : v = pgUp sz := by omega
    exact hm
  | n + 1, v, x, x', hv, hn, hm, h => by
    rw [copyuvmLoop] at h
    by_cases hle : sz ≤ v * PGSIZE
    · rw [if_pos hle] at h
      cases h
      obtain rfl : v = pgUp sz := by
        have : ¬ v < pgUp sz := by rw [lt_pgUp]; omega
        omega
      exact hm
    rw [if_neg hle] at h
    have hlt : v * PGSIZE < sz := by omega
    have hvp : v + 1 ≤ pgUp sz := lt_pgUp.2 hlt
    split at h
    · cases h
    next e he =>
    obtain ⟨rfl, hd⟩ := walkpgdir_user (lt_USERPAGES hsz hlt) he
    rw [hm.pde] at hd
    split at h
    · next hP =>
      obtain ⟨⟨ok, y⟩, hy, h⟩ := bind_ok h
      cases ok with
      | false => cases h
      | true =>
        have hmy := sharePage_marks hd ((hm.flags v).1.symm.trans hP) hm hy
        exact copyuvmLoop_marks hsz n (v + 1) y x' hvp (by omega) hmy h
    · next hP =>
      split at h
      · -- the entry is skipped: the child's stays empty
        refine copyuvmLoop_marks hsz n (v + 1) x x' hvp (by omega) ⟨hm.proc, hm.pde, hm.flags, fun u => ?_⟩ h
        rw [hm.child u]
        refine ⟨fun hu => ⟨by omega, hu.2⟩, fun hu => ⟨?_, hu.2⟩⟩
        have hne : u ≠ v := by
          rintro rfl
          exact hP ((hm.flags u).1.trans hu.2.2)
        omega
      · cases h

/-- The child's table marks the pages below `sz` that are present and marked in the parent's. -/
theorem copyuvm_marks {sz : Nat} (hsz : sz ≤ KERNBASE) {x x' : Ctx} (h : copyuvm c sz x = .ok (true, x')) :
    MarksTo x.proc x' (pgUp sz) := by
  unfold copyuvm at h
  obtain ⟨⟨ok, y⟩, hy, h⟩ := bind_ok h
  cases ok with
  | false => cases h
  | true =>
    obtain ⟨hyp, -⟩ := setupkvm_same hy
    have hm0 : MarksTo x.proc y 0 := by
      refine ⟨by rw [hyp], by rw [hyp], fun u => by rw [hyp]; exact ⟨rfl, rfl⟩, fun u => ?_⟩
      simp [Pgdir.Marks, setupkvm_pte hy]
    obtain ⟨⟨ok, z⟩, hz, h⟩ := bind_ok h
    cases ok with
    | false =>
      obtain ⟨w, hw, h⟩ := bind_ok h
      cases h
    | true =>
      cases h
      exact copyuvmLoop_marks hsz _ 0 y x' (Nat.zero_le _) (by omega) hm0 hz

/-! ## fork -/

/-- Page `pg` is at offset `f` of the swap file. -/
def Page.OutAt (pg : Page) (f : Nat) : Prop := pg.isAllocated = true ∧ pg.isInRAM = false ∧ pg.fileOffset = some f

/-- The page at `f` lies in both files, with the same bytes. -/
structure SameSlot (src dst : SwapFile) (f : Nat) : Prop where
  inSrc : f + PGSIZE ≤ src.size
  inDst : f + PGSIZE ≤ dst.size
  byte : ∀ a < PGSIZE, dst.byte (f + a) = src.byte (f + a)

/-- `writeToSwapFile` of a page at `off` succeeds. -/
def SwapFile.Takes (fl : SwapFile) (off : Nat) : Prop := off ≤ fl.size ∧ off + PGSIZE ≤ MAXFILEBYTES

/-- The child `q` has what its parent `p` has on file. -/
structure SwapCopied (c : Cfg) (p q : Proc) : Prop where
  slots : ∀ pg ∈ p.pages, ∀ f, pg.OutAt f →
    (∃ src dst, p.swapFile = some src ∧ q.swapFile = some dst ∧ SameSlot src dst f) ∧ isPgOn c pg.vAddress q = .ok true
  next : ∃ dst, q.swapFile = some dst ∧ dst.Takes (getFreeFileOffset q).1

/-- How much of the parent's swap file the loop copies. -/
def Proc.copied (p : Proc) : Nat := min (p.numberOfPagedOut * PGSIZE) COPYMAX

/-- Every page that is out lies in the part that is copied and in the parent's file, and is present and marked in the
parent's table; the next offset is in the part that is copied. -/
structure Copyable (c : Cfg) (p : Proc) : Prop where
  slots : ∀ pg ∈ p.pages, ∀ f, pg.OutAt f → f + PGSIZE ≤ p.copied ∧
    (∃ src, p.swapFile = some src ∧ f + PGSIZE ≤ src.size) ∧
    isPgOn c pg.vAddress p = .ok true ∧ (p.pgdir.pte (pg.vAddress / PGSIZE)).P = true ∧ pg.vAddress / PGSIZE < pgUp p.sz
  next : (getFreeFileOffset p).1 ≤ p.copied ∧ (getFreeFileOffset p).1 + PGSIZE ≤ MAXFILEBYTES

/-- No process has the next pid yet. -/
theorem pid_kept (c : Cfg) : Kept c fun n p => p.pid ≤ n - 1 where
  mono h := h.trans (by omega)
  follows _ := (pid_follows c).keeping fun _ _ hq hp => hq.le.trans hp
  shrink _ h := h
  size _ _ h := h
  init h := h
  restore _ hp := hp
  create h := h
  alloc _ _ _ _ _ := Nat.le_refl _
  copies _ hnp h := by
    rcases h with ⟨-, rfl⟩ | ⟨src, buffer, -, rfl⟩
    · exact hnp
    · exact hnp
  state _ h := h
  undone _ _ _ := Nat.le_refl _
  noStack _ := Nat.le_refl _
  exit _ _ _ h _ := h
  reaped _ := Nat.zero_le _
  tick hp h := by
    obtain ⟨ps, t, a, rfl, -⟩ := tick_cases h
    exact hp
  unused _ := Nat.zero_le _

theorem getFreeFileOffset_fst (p : Proc) : (getFreeFileOffset p).1 = (p.offsetQueue.getD 0 none).getD p.fileOffset := by
  unfold getFreeFileOffset removeOffsetQueue
  cases p.offsetQueue.getD 0 none <;> rfl

/-- The child's file. -/
theorem Copies.file {p np q : Proc} (h : Copies p np q) : ∃ dst, q.swapFile = some dst ∧ dst.size = p.copied ∧
    ∀ src, p.swapFile = some src → ∀ a < dst.size, a < src.size → dst.byte a = src.byte a := by
  rcases h with ⟨h0, rfl⟩ | ⟨src, buffer, hsrc, rfl⟩
  · refine ⟨⟨0, fun _ => 0⟩, rfl, ?_, fun _ _ a ha => absurd ha (Nat.not_lt_zero a)⟩
    rw [Proc.copied, h0, Nat.zero_mul, Nat.zero_min]
  · have h0 : Copied src ⟨0, fun _ => 0⟩ 0 :=
      ⟨by rw [Nat.zero_mul, Nat.zero_min], fun a ha => absurd ha (Nat.not_lt_zero a)⟩
    have hc := copySwapLoop_copied p.numberOfPagedOut 0 buffer _ [] h0
    rw [Nat.zero_add] at hc
    refine ⟨_, rfl, hc.size, fun src' hsrc' => ?_⟩
    obtain rfl := Option.some.inj (hsrc.symm.trans hsrc')
    exact hc.bytes

theorem SameSlot.of_copy {src dst : SwapFile} {f n : Nat} (hsize : dst.size = n) (hb : ∀ a < dst.size, a < src.size →
    dst.byte a = src.byte a) : SameSlot src dst f ↔ f + PGSIZE ≤ n ∧ f + PGSIZE ≤ src.size := by
  constructor
  · exact fun h => ⟨hsize ▸ h.inDst, h.inSrc⟩
  · rintro ⟨hd, hs⟩
    exact ⟨hs, hsize ▸ hd, fun a ha => hb _ (by omega) (by omega)⟩

/-- A tracked child is made of `copyuvm`'s table and of what `fork` copies. -/
theorem fork_child {i j : Nat} {p q : Proc} {m m' : Machine} {es : List Event} (hpag : c.paging = true)
    (hnext : DEF_PROCS < m.nextpid) (hsz : p.sz ≤ KERNBASE) (hf : fork c i p m = .ok (some j, es, m'))
    (hq : m'.proc[j]? = some q) : ∃ y np np', MarksTo p y (pgUp p.sz) ∧ Copies y.proc np np' ∧ np.pgdir = y.other ∧
      q = { np' with state := .RUNNABLE } := by
  simp only [fork] at hf
  split at hf
  · cases hf
  next q0 hq0 =>
  split at hf
  · cases hf
  next kstack k hk =>
  obtain ⟨b, y, hy, ⟨rfl, np', z, hz, ho, rfl, rfl⟩ | ⟨_, _, _, ho, _⟩⟩ := forkInto_cases hf
  · have htracked : (c.paging && decide (DEF_PROCS < (allocproc c m.nextpid kstack q0).pid)) = true := by
      rw [hpag, Bool.true_and]
      exact decide_eq_true hnext
    rw [if_pos htracked] at hz
    obtain ⟨hcop, -, -⟩ := copySwapFile_cases hz
    refine ⟨y, _, np', copyuvm_marks hsz hy, hcop, rfl, ?_⟩
    rw [Option.some.inj ho] at hq
    have hlen := (List.getElem?_eq_some_iff.1 hq).1
    simp only [Machine.setProc, List.length_set] at hlen
    exact (Option.some.inj ((List.getElem?_set_self hlen).symm.trans hq)).symm
  · cases ho

theorem Copies.next {p np q : Proc} (h : Copies p np q) : (getFreeFileOffset q).1 = (getFreeFileOffset p).1 := by
  rw [getFreeFileOffset_fst, getFreeFileOffset_fst]
  rcases h with ⟨-, rfl⟩ | ⟨src, buffer, -, rfl⟩
  · rfl
  · rfl

theorem Copies.pgdir {p np q : Proc} (h : Copies p np q) : q.pgdir = np.pgdir := by
  rcases h with ⟨-, rfl⟩ | ⟨src, buffer, -, rfl⟩
  · rfl
  · rfl

/-- **What `fork` copies of a swap file.** After a `fork` in any state reached from `userinit` on, the child has what
its parent has on file exactly when the pages that are out are all in the part that is copied. -/
theorem fork_copies_swap {k : Kmem} {data : Nat → PageData} {init : List UInt8} {m0 m m' : Machine} {ls : List Label}
    {i j : Nat} {p q : Proc} {es : List Event} (hpag : c.paging = true) (hb : boot c k data init = .ok m0)
    (hrun : Lts.Run (Trans c) m0 ls m) (hp : m.proc[i]? = some p) (hpid : DEF_PROCS < p.pid)
    (hf : fork c i p m = .ok (some j, es, m')) (hq : m'.proc[j]? = some q) : SwapCopied c p q ↔ Copyable c p := by
  have hmem := List.mem_of_getElem? hp
  have hsz : p.sz ≤ KERNBASE := (sizes_below hb hrun p hmem).le
  have hnext : DEF_PROCS < m.nextpid := by
    have := (pid_kept c).run hb hrun p hmem
    omega
  obtain ⟨y, np, np', hm, hcop, hpg, rfl⟩ := fork_child hpag hnext hsz hf hq
  -- the parent's record is the one it had
  have hpy : ∀ {β : Type} (g : Proc → β), (∀ p t, g { p with pgdir := t } = g p) → g y.proc = g p := by
    intro β g hg
    rw [hm.proc, hg]
  obtain ⟨dst, hdst, hsize, hbytes⟩ := hcop.file
  rw [hpy Proc.copied fun _ _ => rfl] at hsize
  rw [hpy Proc.swapFile fun _ _ => rfl] at hbytes
  have hnext : (getFreeFileOffset { np' with state := .RUNNABLE }).1 = (getFreeFileOffset p).1 := by
    rw [← hpy (fun p => (getFreeFileOffset p).1)
      fun _ _ => by rw [getFreeFileOffset_fst, getFreeFileOffset_fst], ← hcop.next,
      getFreeFileOffset_fst, getFreeFileOffset_fst]
  have hmark : ∀ va, isPgOn c va { np' with state := .RUNNABLE } = .ok true ↔ isPgOn c va p = .ok true ∧
      (p.pgdir.pte (va / PGSIZE)).P = true ∧ va / PGSIZE < pgUp p.sz := by
    intro va
    rw [isPgOn_true, isPgOn_true, show ({ np' with state := .RUNNABLE } : Proc).pgdir =
      y.other from hcop.pgdir.trans hpg, hm.child]
    tauto
  constructor
  · rintro ⟨hslots, dst', hdst', htakes⟩
    obtain rfl := Option.some.inj (hdst.symm.trans hdst')
    refine ⟨fun pg hpgm f hout => ?_, ?_, ?_⟩
    · obtain ⟨⟨src, dst', hsrc, hdst', hsame⟩, hon⟩ := hslots pg hpgm f hout
      obtain rfl := Option.some.inj (hdst.symm.trans hdst')
      obtain ⟨hfd, hfs⟩ := (SameSlot.of_copy hsize (hbytes src hsrc)).1 hsame
      exact ⟨hfd, ⟨src, hsrc, hfs⟩, (hmark _).1 hon⟩
    · rw [← hnext, ← hsize]
      exact htakes.1
    · rw [← hnext]
      exact htakes.2
  · rintro ⟨hslots, hoff, hmax⟩
    refine ⟨fun pg hpgm f hout => ?_, dst, hdst, ?_, ?_⟩
    · obtain ⟨hfd, ⟨src, hsrc, hfs⟩, hon⟩ := hslots pg hpgm f hout
      exact ⟨⟨src, dst, hsrc, hdst, (SameSlot.of_copy hsize (hbytes src hsrc)).2 ⟨hfd, hfs⟩⟩, (hmark _).2 hon⟩
    · rw [hnext, hsize]
      exact hoff
    · rw [hnext]
      exact hmax

instance (c : Cfg) (p : Proc) : Decidable (Copyable c p) :=
  decidable_of_iff ((∀ pg ∈ p.pages, ∀ f ∈ pg.fileOffset, pg.isAllocated = true → pg.isInRAM = false →
      f + PGSIZE ≤ p.copied ∧ (∃ src ∈ p.swapFile, f + PGSIZE ≤ src.size) ∧ isPgOn c pg.vAddress p = .ok true ∧
        (p.pgdir.pte (pg.vAddress / PGSIZE)).P = true ∧ pg.vAddress / PGSIZE < pgUp p.sz) ∧
    (getFreeFileOffset p).1 ≤ p.copied ∧ (getFreeFileOffset p).1 + PGSIZE ≤ MAXFILEBYTES)
  ⟨fun h => ⟨fun pg hpg f hout => h.1 pg hpg f hout.2.2 hout.1 hout.2.1, h.2⟩,
    fun h => ⟨fun pg hpg f hf ha hr => h.slots pg hpg f ⟨ha, hr, hf⟩, h.next⟩⟩

/-- The third process forks: whether it may, and whether a page of it that is out lies past the end of the
child's file. -/
def exFork (m : Machine) : Option (Bool × Bool) :=
  (m.proc[2]?).bind fun p => match fork (exCfg .SCFIFO) 2 p m with
    | .ok (some j, _, m') => (m'.proc[j]?).map fun q => (decide (DEF_PROCS < p.pid ∧ Copyable (exCfg .SCFIFO) p),
      p.pages.any fun pg => pg.isAllocated && !pg.isInRAM && pg.fileOffset.any fun f =>
        decide (DEF_PROCS < p.pid) && q.swapFile.all fun dst => decide (dst.size < f + PGSIZE))
    | _ => none

theorem exFork_spec {m : Machine} {b : Bool × Bool} (h : exFork m = some b) : ∃ p j es m' q, m.proc[2]? = some p ∧
    fork (exCfg .SCFIFO) 2 p m = .ok (some j, es, m') ∧ m'.proc[j]? = some q ∧
    (b.1 = true → DEF_PROCS < p.pid ∧ Copyable (exCfg .SCFIFO) p) ∧
    (b.2 = true → DEF_PROCS < p.pid ∧ ¬ SwapCopied (exCfg .SCFIFO) p q) := by
  obtain ⟨p, hp, h⟩ := Option.bind_eq_some_iff.1 h
  split at h
  · next j es m' hf =>
    obtain ⟨q, hq, rfl⟩ := Option.map_eq_some_iff.1 h
    refine ⟨p, j, es, m', q, hp, hf, hq, fun hb => of_decide_eq_true hb, fun hb => ?_⟩
    obtain ⟨pg, hpg, hb⟩ := List.any_eq_true.1 hb
    simp only [Bool.and_eq_true, Bool.not_eq_true'] at hb
    obtain ⟨⟨ha, hr⟩, hb⟩ := hb
    obtain ⟨f, hoff, hb⟩ := (Option.any_eq_true _ _).1 hb
    rw [Bool.and_eq_true, decide_eq_true_eq] at hb
    refine ⟨hb.1, fun hs => ?_⟩
    obtain ⟨⟨src, dst, -, hdst, hsame⟩, -⟩ := hs.slots pg hpg f ⟨ha, hr, hoff⟩
    rw [hdst, Option.all_some, decide_eq_true_eq] at hb
    have := hsame.inDst
    omega
  · cases h

/-- Two pages out, in the first two slots. -/
theorem fork_copies_swap_two : ∃ m0 ls m p q, Lts.Run (Trans (exCfg .SCFIFO)) m0 ls m ∧ p ∈ m.proc ∧
    SwapCopied (exCfg .SCFIFO) p q := by
  have hx : (bootRun .SCFIFO [.fork 0, .fork 0, .sbrk 2 (17 * 4096)]).any (fun s =>
      (exFork s.2.2).any fun b => b.1) = true := by decide +kernel
  obtain ⟨m0, ls, m, hb, hrun, hf⟩ := @bootRun_spec _ _ (fun _ m => (exFork m).any fun b => b.1) hx
  obtain ⟨b, hfork, hf⟩ := (Option.any_eq_true _ _).1 hf
  obtain ⟨p, j, es, m', q, hp, hfork, hq, hgood, -⟩ := exFork_spec hfork
  obtain ⟨hpid, hcopy⟩ := hgood hf
  exact ⟨m0, ls, m, p, q, hrun, List.mem_of_getElem? hp,
    (fork_copies_swap (by decide) hb hrun hp hpid hfork hq).2 hcopy⟩

/-- One page comes back before the `fork`: the other, in the second slot, is not copied. -/
theorem fork_copies_swap_hole : ¬ ∀ (c : Cfg) (k : Kmem) (data : Nat → PageData) (init : List UInt8) (m0 m m' : Machine)
    (ls : List Label) (i j : Nat) (p q : Proc) (es : List Event), c.paging = true → k.Ready c →
    boot c k data init = .ok m0 → Lts.Run (Trans c) m0 ls m → m.proc[i]? = some p → DEF_PROCS < p.pid →
    fork c i p m = .ok (some j, es, m') → m'.proc[j]? = some q → SwapCopied c p q := by
  intro h
  have hx : (bootRun .SCFIFO [.fork 0, .fork 0, .sbrk 2 (17 * 4096), .fork 2, .store 2 4096 8]).any (fun s =>
      (exFork s.2.2).any fun b => b.2) = true := by decide +kernel
  obtain ⟨m0, ls, m, hb, hrun, hf⟩ := @bootRun_spec _ _ (fun _ m => (exFork m).any fun b => b.2) hx
  obtain ⟨b, hfork, hf⟩ := (Option.any_eq_true _ _).1 hf
  obtain ⟨p, j, es, m', q, hp, hfork, hq, -, hbad⟩ := exFork_spec hfork
  obtain ⟨hpid, hcopy⟩ := hbad hf
  exact hcopy (h _ _ _ _ _ _ _ _ _ _ _ _ _ (by decide) (exKmem_ready _) hb hrun hp hpid hfork hq)

end Xv6
