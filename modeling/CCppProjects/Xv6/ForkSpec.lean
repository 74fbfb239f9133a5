import CCppProjects.Xv6.SwapSpec
/-
# Copy on write: what `copyuvm` and page faults do to memory

`copyuvm` gives the new table the frames of the process's own, all of them read-only in both, so the
new table shows what the own one shows. A write fault takes a process's page to a frame of its own
with the same content, or makes the page writeable where no other table maps its frame.
-/
namespace Xv6

open Share

variable {c : Cfg} {L : RefLaw c} {ks : List Nat} {ts : List Pgdir} {d : Prop}

/-! ## `copyuvm` -/

@[simp] theorem Pte.shared_P (e : Pte) : e.shared.P = e.P := by unfold Pte.shared; split <;> rfl
@[simp] theorem Pte.shared_PG (e : Pte) : e.shared.PG = e.PG := by unfold Pte.shared; split <;> rfl
@[simp] theorem Pte.shared_U (e : Pte) : e.shared.U = e.U := by unfold Pte.shared; split <;> rfl
@[simp] theorem Pte.shared_addr (e : Pte) : e.shared.addr = e.addr := by unfold Pte.shared; split <;> rfl
@[simp] theorem Pte.shared_W (e : Pte) : e.shared.W = false := by
  unfold Pte.shared
  split
  · rfl
  · rename_i h; simpa using h

theorem Pte.shared_C {e : Pte} (h : e.W = false → e.C = true) : e.shared.C = true := by
  unfold Pte.shared
  split
  · rfl
  · rename_i hW; exact h (by simpa using hW)

theorem Pte.shared_frame (e : Pte) : e.shared.frame = e.frame := by simp [Pte.frame]

/-- The parts of `sharePage`. -/
theorem sharePage_cases {v : Nat} {e : Pte} {x x' : Ctx} {b : Bool} (h : sharePage c v e x = .ok (b, x')) :
    (b = false ∧ x' = x.setTbl .own (x.proc.pgdir.setPte v e.shared)) ∨
      ∃ k t k', b = true ∧ walkpgdirAlloc x.kmem x.other v = some (k, t) ∧ (t.pte v).P = false ∧
        incRefCount c (e.addr * PGSIZE) k = .ok k' ∧
        x' = ((((x.setTbl .own (x.proc.pgdir.setPte v e.shared)).setKmem k).setTbl .other
          (t.setPte v { e.shared with addr := e.addr, P := true })).emit
            [.share (k.pageRefsNum e.addr)]).setKmem k' := by
  simp only [sharePage] at h
  obtain ⟨r, hr, h⟩ := lift_bind_ok h
  rcases mappages_cases hr with ⟨rfl, _⟩ | ⟨k, t, rfl, hw, hP⟩
  · cases h
    exact .inl ⟨rfl, rfl⟩
  · obtain ⟨k', hk', h⟩ := lift_bind_ok h
    cases h
    exact .inr ⟨k, t, k', rfl, hw, hP, hk', rfl⟩

/-- The first `v` pages of `o` are those of `t`. -/
def Pgdir.Copied (t o : Pgdir) (v : Nat) : Prop := ∀ u, o.frame u = if u < v then t.frame u else none

/-- Every page read-only before it is shared. -/
theorem MemOk.readOnly {x : Ctx} (hm : MemOk L ks ts False x) {v : Nat} (hv : v < USERPAGES)
    (hP : (x.proc.pgdir.pte v).P = true) :
    MemOk L ks ts False (x.setTbl .own (x.proc.pgdir.setPte v (x.proc.pgdir.pte v).shared)) := by
  obtain ⟨⟨sw, hI⟩, _, hu⟩ := hm
  have he := hI.entry _ (List.mem_cons_self ..) v hv
  rw [EntryOk, if_pos hP] at he
  refine ⟨⟨sw, hI.flags hP (by simpa using hP) (by simp) (by simp) (fun _ => Pte.shared_C he.2.2) ?_⟩, False.elim, hu⟩
  intro _ hW
  rw [Pte.shared_W] at hW
  cases hW

theorem sharePage_spec {v : Nat} (hv : v < USERPAGES) {x x' : Ctx} {b : Bool}
    (h : sharePage c v (x.proc.pgdir.pte v) x = .ok (b, x')) (hP : (x.proc.pgdir.pte v).P = true) :
    x'.proc.id = x.proc.id ∧ x.log <+: x'.log ∧ (FreeOk c x.kmem → FreeOk c x'.kmem) ∧ x'.data = x.data ∧
      x'.proc.pgdir.frame = x.proc.pgdir.frame ∧
      (Clean L ts x' → MemOk L ks ts False x → x.proc.pgdir.Copied x.other v →
        MemOk L ks ts False x' ∧ (b = true → x.proc.pgdir.Copied x'.other (v + 1))) := by
  have hfr : (x.proc.pgdir.setPte v (x.proc.pgdir.pte v).shared).frame = x.proc.pgdir.frame := by
    rw [Pgdir.frame_setPte _ hv, Pte.shared_frame, Pte.frame, if_pos hP, ← Pgdir.frame_of hv hP,
      Function.update_eq_self]
  rcases sharePage_cases h with ⟨rfl, rfl⟩ | ⟨k, t, k', rfl, hw, hPt, hk', rfl⟩
  · exact ⟨rfl, List.prefix_refl _, fun h => h, rfl, hfr,
      fun _ hm _ => ⟨hm.readOnly hv hP, fun hb => by cases hb⟩⟩
  refine ⟨rfl, List.prefix_append _ _, fun hf => ?_, rfl, hfr, fun hc hm hcop => ?_⟩
  · have := hf.walkpgdirAlloc hw
    unfold incRefCount at hk'
    split at hk'
    · cases hk'
    · cases hk'
      exact this
  have hro := hm.readOnly hv hP
  obtain ⟨⟨sw, hI⟩, _, hu⟩ := hro
  have hI : MemInv L x.kmem ks (x.other :: x.proc.pgdir.setPte v (x.proc.pgdir.pte v).shared :: ts) sw := hI.swap
  obtain ⟨hI, hfo, hpde, _, hrefs⟩ := hI.walkpgdirAlloc hv hw
  have hfv := Pgdir.frame_of hv hP
  obtain ⟨hok, hno⟩ := hI.user (x.proc.pgdir.setPte v (x.proc.pgdir.pte v).shared) (by simp) _ ⟨v, hfr ▸ hfv⟩
  rw [incRefCount_frame hok] at hk'
  have hOk : L.Ok ts (.share (k.pageRefsNum (x.proc.pgdir.pte v).addr)) := hc _ (by simp)
  have hnone : t.frame v = none := Pgdir.frame_eq_none.2 fun _ => hPt
  have hnm : ¬ Maps t.frame (x.proc.pgdir.pte v).addr := by
    rintro ⟨u, hu⟩
    rw [hfo, hcop u] at hu
    split at hu
    · rename_i hlt
      have := (hm.head .own).choose_spec.inj _ (List.mem_cons_self ..) u v _ hu hfv
      omega
    · cases hu
  have he : ({ (x.proc.pgdir.pte v).shared with addr := (x.proc.pgdir.pte v).addr, P := true } : Pte) =
      (x.proc.pgdir.pte v).shared := by
    unfold Pte.shared
    split <;> (rw [← hP])
  obtain ⟨hwrap, hI⟩ := hI.share (v := v) hnone hpde hnm (hfr ▸ hfv) (by simp [Pgdir.pte_setPte])
    (e := (x.proc.pgdir.pte v).shared) (by simp [Pgdir.pte_setPte]) hOk
  rw [Nat.mod_eq_of_lt hwrap] at hk'
  obtain rfl := Except.ok.inj hk'
  refine ⟨⟨⟨sw, ?_⟩, False.elim, hu⟩, fun _ u => ?_⟩
  · rw [he]
    exact hI.swap
  · show (t.setPte v _).frame u = _
    rw [Pgdir.frame_setPte _ hv, he, Pte.shared_frame, Function.update_apply, hfo, hcop u]
    by_cases huv : u = v
    · subst huv
      rw [if_pos rfl, if_pos (by omega), hfv, Pte.frame, if_pos hP]
    · have : (u < v + 1) ↔ (u < v) := by omega
      rw [if_neg huv]
      simp only [this]

theorem copyuvmLoop_spec {sz : Nat} (hsz : sz ≤ KERNBASE) : ∀ (n v : Nat) (x x' : Ctx) (b : Bool),
    v ≤ pgUp sz → pgUp sz ≤ v + n → copyuvmLoop c sz n v x = .ok (b, x') →
    x'.proc.id = x.proc.id ∧ x.log <+: x'.log ∧ (FreeOk c x.kmem → FreeOk c x'.kmem) ∧ x'.data = x.data ∧
      x'.proc.pgdir.frame = x.proc.pgdir.frame ∧
      (Clean L ts x' → MemOk L ks ts False x → x.proc.pgdir.Copied x.other v →
        MemOk L ks ts False x' ∧ (b = true → x.proc.pgdir.Copied x'.other (pgUp sz)))
  | 0, v, x, x', b, hv, hn, h => by
    cases h
    obtain rfl : v = pgUp sz := by omega
    exact ⟨rfl, List.prefix_refl _, fun h => h, rfl, rfl, fun _ hm hc => ⟨hm, fun _ => hc⟩⟩
  | n + 1, v, x, x', b, hv, hn, h => by
    rw [copyuvmLoop] at h
    by_cases hle : sz ≤ v * PGSIZE
    · rw [if_pos hle] at h
      cases h
      obtain rfl : v = pgUp sz := by
        have : ¬ v < pgUp sz := by rw [lt_pgUp]; omega
        omega
      exact ⟨rfl, List.prefix_refl _, fun h => h, rfl, rfl, fun _ hm hc => ⟨hm, fun _ => hc⟩⟩
    rw [if_neg hle] at h
    have hlt : v * PGSIZE < sz := by omega
    have hvu := lt_USERPAGES hsz hlt
    have hvp : v + 1 ≤ pgUp sz := lt_pgUp.2 hlt
    split at h
    · cases h
    rename_i e he
    obtain ⟨rfl, _⟩ := walkpgdir_user hvu he
    split at h
    · rename_i hP
      obtain ⟨⟨ok, y⟩, hy, h⟩ := bind_ok h
      obtain ⟨h1, h2, h3, h4, h5, h6⟩ := @sharePage_spec c L ks ts _ hvu _ _ _ hy hP
      cases ok with
      | false =>
        cases h
        exact ⟨h1, h2, h3, h4, h5, fun hc hm hcop => ⟨(h6 hc hm hcop).1, fun hb => by cases hb⟩⟩
      | true =>
        obtain ⟨g1, g2, g3, g4, g5, g6⟩ := copyuvmLoop_spec hsz n (v + 1) y x' b hvp (by omega) h
        refine ⟨g1.trans h1, h2.trans g2, fun hf => g3 (h3 hf), g4.trans h4, g5.trans h5, fun hc hm hcop => ?_⟩
        obtain ⟨hmy, hcy⟩ := h6 (hc.mono g2) hm hcop
        have hcy' : y.proc.pgdir.Copied y.other (v + 1) := fun u => by rw [h5]; exact hcy rfl u
        obtain ⟨hm', hc'⟩ := g6 hc hmy hcy'
        exact ⟨hm', fun hb u => by rw [hc' hb u, h5]⟩
    · split at h
      · rename_i hP hPG
        obtain ⟨g1, g2, g3, g4, g5, g6⟩ :=
          copyuvmLoop_spec hsz n (v + 1) x x' b hvp (by omega) h
        refine ⟨g1, g2, g3, g4, g5, fun hc hm hcop => ?_⟩
        -- a page that is not present has no `PTE_PG` either
        obtain ⟨sw, hI⟩ := hm.inv
        rw [hI.absent (List.mem_cons_self ..) hvu hP] at hPG
        exact absurd hPG (by decide)
      · cases h

/-- The new table shows what the process's own shows below `sz`. -/
theorem copyuvm_does {sz : Nat} (hsz : sz ≤ KERNBASE) {x x' : Ctx} {b : Bool} (ho : x.other = .empty)
    (h : copyuvm c sz x = .ok (b, x')) :
    Does L ks ts False (fun m => (m.1, if b then m.1.below sz else Mem.none)) x x' ∧
      (b = false → x'.other = .empty) := by
  unfold copyuvm at h
  obtain ⟨⟨ok, y⟩, hy, h⟩ := bind_ok h
  obtain ⟨hset, hoy⟩ : Does L ks ts False _ x y ∧ _ := setupkvm_does ho hy
  cases ok with
  | false =>
    cases h
    exact ⟨hset.congr fun m => by simp [Tbl.on], fun _ => hoy⟩
  | true =>
    obtain ⟨⟨ok, z⟩, hz, h⟩ := bind_ok h
    obtain ⟨g1, g2, g3, g4, g5, g6⟩ :=
      @copyuvmLoop_spec c L ks ts _ hsz _ _ _ _ _ (Nat.zero_le _) (by omega) hz
    have hcop : y.proc.pgdir.Copied y.other 0 := by
      intro u
      rw [if_neg (by omega), Pgdir.frame_eq_none]
      exact fun _ => by rw [hoy.2]
    -- the loop as a change of what the tables show
    have hloop : ok = true → Does L ks ts False (fun m => (m.1, m.1.below sz)) y z := by
      intro hok
      refine ⟨g1, g2, g3, fun hc hm => ?_⟩
      obtain ⟨hm', hc'⟩ := g6 hc hm hcop
      refine ⟨hm', Prod.ext ?_ ?_, fun t _ => by rw [g4]⟩
      · simp only [Ctx.mems, Ctx.mem, Ctx.tbl, g4, g5]
      · funext u
        simp only [Ctx.mems, Ctx.mem, Ctx.tbl, g4, Mem.below, view, hc' hok u, lt_pgUp]
        split <;> rfl
    cases ok with
    | true =>
      cases h
      exact ⟨(hset.trans (hloop rfl)).congr fun m => by simp [Tbl.on], fun hb => by cases hb⟩
    | false =>
      obtain ⟨q, hq, h⟩ := bind_ok h
      cases h
      have hfree : Does L ks ts False _ z x' := (freevm_does hq).1
      refine ⟨?_, fun _ => (@freevm_does c L ks ts False _ _ hq).2⟩
      have hz' : Does L ks ts False (fun m => (m.1, z.mem .other)) y z := by
        refine ⟨g1, g2, g3, fun hc hm => ?_⟩
        obtain ⟨hm', _⟩ := g6 hc hm hcop
        refine ⟨hm', Prod.ext ?_ rfl, fun t _ => by rw [g4]⟩
        simp only [Ctx.mems, Ctx.mem, Ctx.tbl, g4, g5]
      exact ((hset.trans hz').trans hfree).congr fun m => by simp [Tbl.on]

/-! ## The child's bookkeeping -/

theorem copySwapPages_cases {f : Nat} {np np' : Proc} {x x' : Ctx} (h : copySwapPages f np x = .ok (np', x')) :
    ∃ fl page es, np' = { np with swapFile := fl } ∧ x' = (x.setData (Function.update x.data f page)).emit es := by
  unfold copySwapPages at h
  split at h
  · cases h
    refine ⟨np.swapFile, x.data f, [], rfl, ?_⟩
    rw [Function.update_eq_self]
    simp [Ctx.setData, Ctx.emit]
  · split at h
    · cases h
    · cases h
      exact ⟨_, _, _, rfl, rfl⟩

/-- What `fork` copies of the parent's bookkeeping goes through a frame nobody sees. -/
theorem copySwapFile_does {np np' : Proc} {x x' : Ctx} (h : copySwapFile c np x = .ok (np', x')) :
    Does L ks ts d id x x' ∧ np'.id = np.id ∧ np'.pgdir = np.pgdir ∧ np'.pages = x.proc.pages ∧
      x'.proc = x.proc ∧ x'.other = x.other := by
  simp only [copySwapFile] at h
  split at h
  · cases h
  rename_i newPage k hk
  obtain ⟨⟨q, y⟩, hy, h⟩ := bind_ok h
  obtain ⟨k', hk', h⟩ := lift_bind_ok h
  cases h
  obtain ⟨fl, page, es, rfl, rfl⟩ := copySwapPages_cases hy
  refine ⟨⟨rfl, ?_, fun hf => ?_, fun _ hm => ?_⟩, rfl, rfl, rfl, rfl, rfl⟩
  · exact (List.prefix_append _ _).trans (List.prefix_append _ _)
  · exact (hf.kalloc hk).kfree (kalloc_lt hk) hk'
  · obtain ⟨f, hmem, hV, _, _, _, h1, h2, h3⟩ := hm.kalloc hk page
    obtain ⟨sw, hI⟩ := h1.inv
    have hk' : kfree c newPage k = .ok k' := hk'
    rw [hmem, kfree_kva hI.kernelOk] at hk'
    obtain rfl := Except.ok.inj hk'
    rw [hV]
    exact ⟨⟨⟨sw, hI.dropKernel⟩, fun hd v hv hP => hm.priv hd v hv hP, hm.pages⟩, h2, h3⟩

end Xv6
