import CCppProjects.Xv6.SwapSpec
/-
# What `exec` and `sbrk` do to memory

The new image is built in a table nobody else uses, so what `loaduvm` and `copyout` write shows
there only. When `exec` succeeds the table shows the image of the reference machine (`refExec`),
and when it fails the process's memory is what it was. `sbrk` does what the reference machine does,
or nothing.
-/
namespace Xv6

open Share

variable {c : Cfg} {L : RefLaw c} {ks : List Nat} {ts : List Pgdir} {d : Prop}

/-! ## One byte -/

theorem view_setByte {data : Nat → PageData} {t : Pgdir} (hi : Inj t.frame) {va f : Nat} {b : UInt8}
    (hf : t.frame (va / PGSIZE) = some f) :
    view (setByte data f va b) t.frame = Mem.set va b (view data t.frame) := by
  rw [setByte, view_update hi hf, Mem.set]
  simp [view, hf]

/-- A byte written to the page of `other` at `va`, or nowhere. -/
theorem setByte_does (hd : d) {x : Ctx} {va : Nat} {b : UInt8} (hva : va < KERNBASE) :
    Does L ks ts d (Tbl.other.on (Mem.set va b)) x
      (x.setData (setByte x.data (x.other.pte (va / PGSIZE)).addr va b)) := by
  refine ⟨rfl, List.prefix_refl _, fun h => h, fun _ hm => ?_⟩
  have hv : va / PGSIZE < USERPAGES := by simp only [KERNBASE, PGSIZE, USERPAGES] at *; omega
  obtain ⟨sw, hI⟩ := hm.head .other
  refine hm.step (w := .other) ⟨sw, hI⟩ (fun u _ => by rw [Ctx.setData_tbl]) (fun hd _ => hm.priv hd) hm.pages ?_
    fun t ht => ?_
  · by_cases hP : (x.other.pte (va / PGSIZE)).P = true
    · exact view_setByte (hI.inj _ (List.mem_cons_self ..)) (Pgdir.frame_of hv hP)
    -- where the page is absent the byte goes to frame 0, which no table maps
    · have h0 : x.other.pte (va / PGSIZE) = {} := hI.absent (List.mem_cons_self ..) hv hP
      have hn : x.mem .other (va / PGSIZE) = none := by
        rw [Ctx.mem, view, Pgdir.frame_eq_none.2 fun _ => by simpa [Ctx.tbl] using hP]
        rfl
      have hno : ¬ Maps x.other.frame 0 := by
        intro hmap
        have := (hI.user _ (List.mem_cons_self ..) 0 hmap).1.1
        have := c.hkend
        omega
      rw [h0, Mem.set, hn, Option.map_none, Function.update_eq_self_iff.2 hn.symm]
      exact view_update_of_not_maps hno _ _
  · refine view_update_of_not_maps (fun hmap => ?_) _ _
    by_cases hP : (x.other.pte (va / PGSIZE)).P = true
    · have hfr := Pgdir.frame_of hv hP
      have hone := hI.excl _ (List.mem_cons_self ..) _ _ hfr (hm.priv hd _ hv hP)
      have hself : Maps (x.tbl .other).frame (x.other.pte (va / PGSIZE)).addr := ⟨_, hfr⟩
      rw [frames_cons, cnt_cons, if_pos hself] at hone
      have := cnt_frames_pos ht hmap
      omega
    · have h0 : x.other.pte (va / PGSIZE) = {} := hI.absent (List.mem_cons_self ..) hv hP
      rw [h0] at hmap
      have := (hI.user t (List.mem_cons_of_mem _ ht) 0 hmap).1.1
      have := c.hkend
      omega

/-! ## `loaduvm`, `clearpteu` and `copyout` -/

theorem loaduvm_does (hd : d) : ∀ (bs : List UInt8) (va : Nat) (x x' : Ctx), va + bs.length ≤ KERNBASE →
    loaduvm c va bs x = .ok x' → Does L ks ts d (Tbl.other.on (Mem.write va bs)) x x'
  | [], va, x, x', _, h => by
    cases h
    exact (Does.refl x).congr fun m => (Tbl.on_id .other m).symm
  | b :: bs, va, x, x', hle, h => by
    rw [List.length_cons] at hle
    rw [loaduvm] at h
    split at h
    · cases h
    rename_i e he
    have hva : va < KERNBASE := by omega
    obtain ⟨rfl, _⟩ := walkpgdir_user (by simp only [KERNBASE, PGSIZE, USERPAGES] at *; omega) he
    refine ((setByte_does hd hva).trans (loaduvm_does hd bs (va + 1) _ x' (by omega) h)).congr fun m => ?_
    rw [Function.comp_apply, Tbl.on_on]
    rfl

theorem uva2ka_ok {t : Pgdir} {v f : Nat} (h : uva2ka c t v = .ok (some f)) :
    v < USERPAGES ∧ f = (t.pte v).addr ∧ (t.pte v).P = true := by
  unfold uva2ka at h
  split at h
  · cases h
  rename_i e he
  have he' := Except.ok.inj h
  split at he'
  · rename_i hPU
    rw [Bool.and_eq_true] at hPU
    have hv : v < USERPAGES := by
      by_contra hv
      unfold walkpgdir at he
      split at he
      · cases he
      · rw [if_neg hv] at he
        obtain rfl := Option.some.inj he
        cases hPU.2
    obtain ⟨rfl, _⟩ := walkpgdir_user hv he
    exact ⟨hv, (Option.some.inj he').symm, hPU.1⟩
  · cases he'

/-- A copy that ends well has written every byte; one that does not, some of them. -/
theorem copyout_does (hd : d) : ∀ (bs : List UInt8) (va : Nat) (x x' : Ctx) (b : Bool),
    copyout c va bs x = .ok (b, x') →
    ∃ n, Does L ks ts d (Tbl.other.on (Mem.write va (bs.take n))) x x' ∧ (b = true → bs.take n = bs) ∧
      x'.proc = x.proc
  | [], va, x, x', b, h => by
    cases h
    exact ⟨0, (Does.refl x).congr fun m => (Tbl.on_id .other m).symm, fun _ => rfl, rfl⟩
  | a :: bs, va, x, x', b, h => by
    rw [copyout] at h
    obtain ⟨r, hr, h⟩ := lift_bind_ok h
    cases r with
    | none =>
      cases h
      exact ⟨0, (Does.refl x).congr fun m => (Tbl.on_id .other m).symm, fun hb => (by cases hb), rfl⟩
    | some f =>
      obtain ⟨hv, rfl, hP⟩ := uva2ka_ok hr
      have hva : va < KERNBASE := by simp only [KERNBASE, PGSIZE, USERPAGES] at *; omega
      have hmod : (va + 1) % UINT = va + 1 := Nat.mod_eq_of_lt (by simp only [KERNBASE, UINT] at *; omega)
      rw [hmod] at h
      obtain ⟨n, hdo, hn, hp⟩ := copyout_does hd bs (va + 1) _ x' b h
      refine ⟨n + 1, ((setByte_does hd hva).trans hdo).congr fun m => ?_, fun hb => ?_, hp⟩
      · rw [Function.comp_apply, Tbl.on_on]
        rfl
      · rw [List.take_succ_cons, hn hb]

/-- `PTE_U` is nothing the tables show. -/
theorem clearpteu_does {va : Nat} (hva : va < KERNBASE) {x x' : Ctx} (h : clearpteu c va x = .ok x') :
    Does L ks ts d id x x' ∧ x'.proc = x.proc := by
  unfold clearpteu at h
  split at h
  · cases h
  rename_i e he
  have hv : va / PGSIZE < USERPAGES := by simp only [KERNBASE, PGSIZE, USERPAGES] at *; omega
  obtain ⟨rfl, _⟩ := walkpgdir_user hv he
  cases h
  refine ⟨⟨rfl, List.prefix_refl _, fun h => h, fun _ hm => ?_⟩, rfl⟩
  obtain ⟨sw, hI⟩ := hm.head .other
  by_cases hP : (x.other.pte (va / PGSIZE)).P = true
  · have hpres := hI.present (List.mem_cons_self ..) hv hP
    have hfr := Pgdir.frame_of hv hP
    have hI' := hI.flags (e := { x.other.pte (va / PGSIZE) with U := false }) hP hP rfl rfl hpres.2.2
      fun _ hW => hI.excl _ (List.mem_cons_self ..) _ _ hfr hW
    refine hm.step (w := .other) (g := id) ⟨sw, hI'⟩ (fun u hu => Ctx.tbl_setTbl_ne _ _ _ u hu)
      (fun hd _ u hu hPu => ?_) hm.pages ?_ fun _ _ => rfl
    · simp only [Ctx.setTbl_tbl, Pgdir.pte_setPte] at hPu ⊢
      split
      · exact hm.priv hd _ hv hP
      · rename_i hne
        rw [if_neg hne] at hPu
        exact hm.priv hd u hu hPu
    · rw [Ctx.mem, Ctx.setTbl_tbl, Pgdir.frame_setPte _ hv, Pte.frame, if_pos hP, ← hfr, Function.update_eq_self]
      rfl
  · have h0 : x.other.pte (va / PGSIZE) = {} := hI.absent (List.mem_cons_self ..) hv hP
    have hsame : x.other.setPte (va / PGSIZE) { x.other.pte (va / PGSIZE) with U := false } = x.other := by
      rw [Pgdir.setPte, Function.update_eq_self_iff.2]
      rw [h0]
    rw [show x.setTbl .other (x.other.setPte (va / PGSIZE) { x.other.pte (va / PGSIZE) with U := false }) = x by
      rw [hsame]; rfl]
    exact ⟨hm, rfl, fun _ _ => rfl⟩

/-! ## The image -/

/-- What happens to the table under construction when `exec` is about to give up. -/
def Spoils (L : RefLaw c) (ks : List Nat) (ts : List Pgdir) (d : Prop) (x x' : Ctx) : Prop :=
  ∃ g, Does L ks ts d (Tbl.other.on g) x x'

theorem Does.spoils {g : Mem → Mem} {x x' : Ctx} (h : Does L ks ts d (Tbl.other.on g) x x') :
    Spoils L ks ts d x x' := ⟨g, h⟩

theorem Spoils.refl (x : Ctx) : Spoils L ks ts d x x := ⟨id, (Does.refl x).congr fun m => (Tbl.on_id .other m).symm⟩

theorem Does.trans_spoils {g : Mem → Mem} {x y z : Ctx} (h : Does L ks ts d (Tbl.other.on g) x y)
    (h' : Spoils L ks ts d y z) : Spoils L ks ts d x z := by
  obtain ⟨g', h'⟩ := h'
  exact ⟨g' ∘ g, (h.trans h').congr fun m => by rw [Function.comp_apply, Tbl.on_on]⟩

/-- `none` is `goto bad`. -/
def Outcome {α : Type} (r : Option α) (bad : Prop) (good : α → Prop) : Prop :=
  match r with
  | none => bad
  | some a => good a

theorem segment_end {ph : Segment} (h : ¬ ph.memsz < ph.filesz) (h' : ¬ ph.vaddr + ph.memsz < ph.vaddr) :
    ph.vaddr.toNat + ph.filesz.toNat ≤ (ph.vaddr + ph.memsz).toNat := by
  rw [UInt32.lt_iff_toNat_lt] at h h'
  rw [UInt32.toNat_add] at h' ⊢
  have h1 := ph.vaddr.toNat_lt
  have h2 := ph.memsz.toNat_lt
  omega

theorem loadSegments_does (hd : d) : ∀ (phs : List Segment) (sz : Nat) (x x' : Ctx) (r : Option Nat),
    sz < KERNBASE → loadSegments c phs sz x = .ok (r, x') →
    Outcome r (Spoils L ks ts d x x') fun sz' =>
      Does L ks ts d (Tbl.other.on fun m => (refSegments phs ⟨m, sz⟩).mem) x x' ∧
        sz' < KERNBASE ∧ ∀ m, (refSegments phs ⟨m, sz⟩).sz = sz'
  | [], sz, x, x', r, hsz, h => by
    cases h
    exact ⟨(Does.refl x).congr fun m => (Tbl.on_id .other m).symm, hsz, fun _ => rfl⟩
  | ph :: phs, sz, x, x', r, hsz, h => by
    rw [loadSegments] at h
    by_cases h1 : (!ph.readOk) = true
    · rw [if_pos h1] at h
      cases h
      exact .refl x
    rw [if_neg h1] at h
    by_cases h2 : (!ph.load) = true
    · rw [if_pos h2] at h
      have ih := loadSegments_does hd phs sz x x' r hsz h
      simp only [refSegments, if_pos h2]
      exact ih
    rw [if_neg h2] at h
    by_cases h3 : ph.memsz < ph.filesz
    · rw [if_pos h3] at h
      cases h
      exact .refl x
    rw [if_neg h3] at h
    by_cases h4 : ph.vaddr + ph.memsz < ph.vaddr
    · rw [if_pos h4] at h
      cases h
      exact .refl x
    rw [if_neg h4] at h
    obtain ⟨⟨sz1, y⟩, hy, h'⟩ := bind_ok h
    clear h
    have hend := segment_end h3 h4
    rcases allocuvm_does (L := L) hd hy with ⟨rfl, _, rfl⟩ | ⟨rfl, _, hdo⟩ | ⟨rfl, hlt, hdo⟩
    · cases h'
      exact .refl _
    · cases h'
      exact hdo.spoils
    by_cases h0 : max sz (ph.vaddr + ph.memsz).toNat = 0
    · simp only [if_pos h0] at h'
      cases h'
      exact hdo.spoils
    simp only [if_neg h0] at h'
    by_cases h5 : ph.vaddr.toNat % PGSIZE ≠ 0
    · rw [if_pos h5] at h'
      cases h'
      exact hdo.spoils
    rw [if_neg h5] at h'
    obtain ⟨z, hz, h'⟩ := bind_ok h'
    have hlen : (ph.bytes.take ph.filesz.toNat).length ≤ ph.filesz.toNat := by simp
    have hload : Does L ks ts d _ y z := loaduvm_does hd _ _ _ _ (by omega) hz
    have hstep := (hdo.trans hload).congr (G := Tbl.other.on fun m =>
      (m.grow (pgUp sz) (ph.vaddr + ph.memsz).toNat).write ph.vaddr.toNat (ph.bytes.take ph.filesz.toNat))
      fun m => by rw [Function.comp_apply, Tbl.on_on]; rfl
    by_cases h6 : ph.bytes.length < ph.filesz.toNat
    · rw [if_pos h6] at h'
      cases h'
      exact hstep.spoils
    rw [if_neg h6] at h'
    have ih := loadSegments_does hd phs _ z x' r (by omega) h'
    cases r with
    | none => exact hstep.trans_spoils ih
    | some sz' =>
      obtain ⟨i1, i2, i3⟩ := ih
      refine ⟨(hstep.trans i1).congr fun m => ?_, i2, fun m => ?_⟩
      · rw [Function.comp_apply, Tbl.on_on]
        simp only [refSegments, if_neg h2]
        rfl
      · simp only [refSegments, if_neg h2]
        exact i3 _

theorem pushArgs_does (hd : d) : ∀ (args : List (List UInt8)) (sp : Nat) (ptrs : List Nat) (x x' : Ctx)
    (r : Option (Nat × List Nat)), pushArgs c args sp ptrs x = .ok (r, x') →
    Outcome r (Spoils L ks ts d x x') fun q =>
      Does L ks ts d (Tbl.other.on fun m => (refStrings args sp ptrs m).2.2) x x' ∧
        ∀ m, (refStrings args sp ptrs m).1 = q.1 ∧ (refStrings args sp ptrs m).2.1 = q.2
  | [], sp, ptrs, x, x', r, h => by
    cases h
    exact ⟨(Does.refl x).congr fun m => (Tbl.on_id .other m).symm, fun _ => ⟨rfl, rfl⟩⟩
  | arg :: args, sp, ptrs, x, x', r, h => by
    rw [pushArgs] at h
    by_cases h1 : MAXARG ≤ ptrs.length
    · rw [if_pos h1] at h
      cases h
      exact .refl x
    rw [if_neg h1] at h
    obtain ⟨⟨ok, y⟩, hy, h⟩ := bind_ok h
    obtain ⟨n, hdo, hn, _⟩ := copyout_does (L := L) hd _ _ _ _ _ hy
    cases ok with
    | false =>
      cases h
      exact hdo.spoils
    | true =>
      rw [hn rfl] at hdo
      have ih := pushArgs_does hd args _ _ y x' r h
      cases r with
      | none => exact hdo.trans_spoils ih
      | some q =>
        obtain ⟨i1, i2⟩ := ih
        refine ⟨(hdo.trans i1).congr fun m => ?_, fun m => i2 _⟩
        rw [Function.comp_apply, Tbl.on_on]
        rfl

theorem execStack_does (hd : d) {argv : List (List UInt8)} {sz : Nat} {x x' : Ctx} {r : Option Nat}
    (h : execStack c argv sz x = .ok (r, x')) :
    Outcome r (Spoils L ks ts d x x') fun top =>
      Does L ks ts d (Tbl.other.on (refStack argv sz)) x x' ∧ top = pgUp sz * PGSIZE + 2 * PGSIZE ∧
        top < KERNBASE := by
  unfold execStack at h
  obtain ⟨⟨sz1, y⟩, hy, h'⟩ := bind_ok h
  clear h
  rcases allocuvm_does (L := L) hd hy with ⟨rfl, _, rfl⟩ | ⟨rfl, _, hdo⟩ | ⟨rfl, hlt, hdo⟩
  · cases h'
    exact .refl _
  · cases h'
    exact hdo.spoils
  rw [show max (pgUp sz * PGSIZE) (pgUp sz * PGSIZE + 2 * PGSIZE) = pgUp sz * PGSIZE + 2 * PGSIZE by omega] at h'
  have h0 : ¬ pgUp sz * PGSIZE + 2 * PGSIZE = 0 := by simp only [PGSIZE]; omega
  simp only [if_neg h0] at h'
  obtain ⟨z, hz, h'⟩ := bind_ok h'
  obtain ⟨hclr, _⟩ : Does L ks ts d id y z ∧ _ := clearpteu_does (by omega) hz
  have hbase := hdo.trans hclr
  obtain ⟨⟨q, u⟩, hu, h'⟩ := bind_ok h'
  have hpush : Outcome q (Spoils L ks ts d z u) _ := pushArgs_does hd _ _ _ _ _ _ hu
  cases q with
  | none =>
    cases h'
    exact hbase.trans_spoils hpush
  | some q =>
    obtain ⟨i1, i2⟩ := hpush
    obtain ⟨⟨ok, v⟩, hv, h'⟩ := bind_ok h'
    obtain ⟨n, hcopy, hn, _⟩ := copyout_does (L := L) hd _ _ _ _ _ hv
    have hall := (hbase.trans i1).congr (G := Tbl.other.on fun m =>
      (refStrings argv (pgUp sz * PGSIZE + 2 * PGSIZE) []
        (m.grow (pgUp (pgUp sz * PGSIZE)) (pgUp sz * PGSIZE + 2 * PGSIZE))).2.2) fun m => by
      rw [Function.comp_apply, Function.comp_apply, id_eq, Tbl.on_on]
      rfl
    cases ok with
    | false =>
      cases h'
      exact hall.trans_spoils hcopy.spoils
    | true =>
      cases h'
      rw [hn rfl] at hcopy
      refine ⟨(hall.trans hcopy).congr fun m => ?_, rfl, hlt⟩
      rw [Function.comp_apply, Tbl.on_on]
      refine congrArg (Tbl.other.on · m) (funext fun m => ?_)
      obtain ⟨e1, e2⟩ := i2 (m.grow (pgUp (pgUp sz * PGSIZE)) (pgUp sz * PGSIZE + 2 * PGSIZE))
      simp only [Function.comp_apply, refStack, e1, e2]

/-! ## `exec` -/

theorem restoreFromBackup_does {b : Proc} (hb : b.UserPages) (x : Ctx) :
    Does L ks ts d id x (if c.paging then x.setProc (restoreFromBackup b x.proc) else x) := by
  split
  · refine .setProc x rfl (.refl _) fun _ pg hpg => ?_
    rw [restoreFromBackup] at hpg
    obtain ⟨i, hi, rfl⟩ := List.getElem_of_mem hpg
    rw [List.getElem_zipWith]
    have hi : i < b.pages.length := by
      rw [List.length_zipWith] at hi
      omega
    exact hb b.pages[i] (List.getElem_mem _)
  · exact .refl x

theorem Proc.id_sz {p q : Proc} (h : p.id = q.id) (sz : Nat) : { p with sz := sz }.id = { q with sz := sz }.id := by
  simp only [Proc.id, Prod.mk.injEq] at h ⊢
  simp [h]

theorem execBad_does {b : Proc} (hb : b.UserPages) {pgdir ip : Bool} {x x' : Ctx}
    (h : execBad c b pgdir ip x = .ok x') :
    Does L ks ts d (if pgdir then Tbl.other.on fun _ => Mem.none else id) x x' ∧
      x'.other = if pgdir then .empty else x.other := by
  simp only [execBad] at h
  obtain ⟨y, hy, h⟩ := bind_ok h
  cases h
  have hend : Does L ks ts d id y (if ip then y.emit [.endOp] else y) := by
    split
    · exact .emit y _
    · exact .refl y
  have hother : (if ip then y.emit [.endOp] else y).other = y.other := by split <;> rfl
  have hr : Does L ks ts d id x _ := restoreFromBackup_does hb x
  cases pgdir with
  | true =>
    obtain ⟨hf, ho⟩ := freevm_does (L := L) (d := d) hy
    exact ⟨(hr.trans hf).trans hend, hother.trans ho⟩
  | false =>
    cases hy
    refine ⟨hr.trans hend, hother.trans ?_⟩
    split <;> rfl

/-- The new table becomes the process's own and the old one goes. -/
theorem execCommit_spec {sz : Nat} {x x' : Ctx} (h : execCommit c sz x = .ok x') :
    x'.proc.id = { x.proc with sz := sz }.id ∧ x'.other = .empty ∧ x.log <+: x'.log ∧
      (FreeOk c x.kmem → FreeOk c x'.kmem) ∧
      (Clean L ts x' → MemOk L ks ts d x → MemOk L ks ts False x' ∧ x'.mem .own = x.mem .other ∧
        ∀ t ∈ ts, view x'.data t.frame = view x.data t.frame) := by
  simp only [execCommit] at h
  -- the two tables change places
  let y := (x.setProc { x.proc with pgdir := x.other, sz := sz }).setTbl .other x.proc.pgdir
  let z := if y.tracked c then (y.setProc (createSwapFile y.proc)).emit (removeSwapFileOps y.proc ++ [.beginOp, .endOp])
    else y
  obtain ⟨hf, ho⟩ : Does L ks ts False _ z x' ∧ _ := freevm_does h
  have hyz : Does L ks ts False id y z := by
    by_cases ht : y.tracked c = true
    · rw [show z = _ from if_pos ht]
      have h1 : Does L ks ts False id y (y.setProc (createSwapFile y.proc)) := .setProc y rfl (.refl _) fun h => h
      exact h1.trans (.emit _ _)
    · rw [show z = _ from if_neg ht]
      exact .refl y
  have hall := hyz.trans hf
  refine ⟨hall.same, ho, hall.log, hall.free, fun hc hm => ?_⟩
  have hy : MemOk L ks ts False y := by
    obtain ⟨sw, hI⟩ := hm.inv
    exact ⟨⟨sw, hI.swap⟩, False.elim, hm.pages⟩
  obtain ⟨h1, h2, h3⟩ := hall.mem hc hy
  exact ⟨h1, congrArg Prod.fst h2, h3⟩

theorem execImage_spec {b : Proc} (hb : b.UserPages) {img : Image} {argv : List (List UInt8)} {x x' : Ctx} {ok : Bool}
    (ho : x.other = .empty) (h : execImage c b img argv x = .ok (ok, x')) :
    x'.other = .empty ∧ if ok then Moves L ks ts (refExec img argv) x x' else Does L ks ts True id x x' := by
  unfold execImage at h
  obtain ⟨⟨ok1, y⟩, hy, h⟩ := bind_ok h
  obtain ⟨hset, hoy⟩ : Does L ks ts True _ x y ∧ _ := setupkvm_does ho hy
  -- the error exits with a table under construction
  have hbad : ∀ {g : Mem → Mem} {u ip}, Does L ks ts True (Tbl.other.on g) x u →
      execBad c b true ip u = .ok x' → x'.other = .empty ∧ Does L ks ts True id x x' := by
    intro g u ip hu hx
    obtain ⟨hf, hox⟩ : Does L ks ts True _ u x' ∧ _ := execBad_does hb hx
    refine ⟨hox, hu.same ▸ hf.same, hu.log.trans hf.log, fun h => hf.free (hu.free h), fun hc hm => ?_⟩
    obtain ⟨h1, h2, h3⟩ := (hu.trans hf).mem hc hm
    refine ⟨h1, h2.trans (Prod.ext rfl ?_), h3⟩
    show Mem.none = view x.data x.other.frame
    rw [ho, view_none Pgdir.frame_empty]
  cases ok1 with
  | false =>
    obtain ⟨z, hz, h⟩ := bind_ok h
    cases h
    obtain ⟨hf, hox⟩ : Does L ks ts True _ y x' ∧ _ := execBad_does hb hz
    refine ⟨hox.trans hoy, hset.same ▸ hf.same, hset.log.trans hf.log, fun h => hf.free (hset.free h), fun hc hm => ?_⟩
    obtain ⟨h1, h2, h3⟩ := (hset.trans hf).mem hc hm
    refine ⟨h1, h2.trans (Prod.ext rfl ?_), h3⟩
    show Mem.none = view x.data x.other.frame
    rw [ho, view_none Pgdir.frame_empty]
  | true =>
    obtain ⟨⟨r, u⟩, hu, h⟩ := bind_ok h
    have hload : Outcome r (Spoils L ks ts True _ u) _ := loadSegments_does True.intro _ _ _ _ _ (by decide) hu
    cases r with
    | none =>
      obtain ⟨z, hz, h⟩ := bind_ok h
      cases h
      obtain ⟨g, hg⟩ := hload
      exact hbad ((hset.trans hg).congr fun m => by rw [Function.comp_apply, Tbl.on_on]) hz
    | some sz =>
      obtain ⟨hload, hsz, hrsz⟩ := hload
      obtain ⟨⟨r, v⟩, hv, h⟩ := bind_ok h
      have hstack : Outcome r (Spoils L ks ts True _ v) _ := execStack_does True.intro hv
      have hseg := ((hset.trans hload).trans (Does.emit u [.endOp])).congr
        (G := Tbl.other.on fun _ => (refSegments img.segs ⟨Mem.none, 0⟩).mem) fun m => by
        rw [Function.comp_apply, Function.comp_apply, id_eq, Tbl.on_on]
        rfl
      cases r with
      | none =>
        obtain ⟨z, hz, h⟩ := bind_ok h
        cases h
        obtain ⟨g, hg⟩ := hstack
        exact hbad ((hseg.trans hg).congr fun m => by rw [Function.comp_apply, Tbl.on_on]) hz
      | some top =>
        obtain ⟨hstack, rfl, htop⟩ := hstack
        obtain ⟨z, hz, h⟩ := bind_ok h
        cases h
        have hnew := hseg.trans hstack
        obtain ⟨c1, c2, c3, c4, c5⟩ := execCommit_spec (L := L) (d := True) hz
        have href : refExec img argv = ⟨refStack argv sz (refSegments img.segs ⟨Mem.none, 0⟩).mem,
            pgUp sz * PGSIZE + 2 * PGSIZE⟩ := by rw [refExec, hrsz]
        refine ⟨c2, ?_, ?_, c2, hnew.log.trans c3, fun h => c4 (hnew.free h), fun hc hm => ?_⟩
        · rw [c1, href]
          exact Proc.id_sz hnew.same _
        · rw [href]
          exact Nat.le_of_lt htop
        · obtain ⟨h1, h2, h3⟩ := hnew.mem (hc.mono c3) hm
          obtain ⟨g1, g2, g3⟩ := c5 hc h1
          refine ⟨g1, ?_, fun t ht => (g3 t ht).trans (h3 t ht)⟩
          rw [g2, href]
          exact congrArg Prod.snd h2

/-- **`exec` builds the image of the reference machine**, or leaves memory alone. -/
theorem exec_spec {file : Option Image} {argv : List (List UInt8)} {x x' : Ctx} {ok : Bool} (hu : x.proc.UserPages)
    (ho : x.other = .empty) (h : exec c file argv x = .ok (ok, x')) :
    x'.other = .empty ∧
      if ok then ∃ img, file = some img ∧ Moves L ks ts (refExec img argv) x x' else Does L ks ts True id x x' := by
  simp only [exec] at h
  have hbegin : Does L ks ts True id x (x.emit [.beginOp]) := .emit x _
  cases file with
  | none =>
    cases h
    exact ⟨ho, hbegin.trans (.emit _ _)⟩
  | some img =>
    simp only at h
    have hinit : Does L ks ts True id (x.emit [.beginOp])
        (if c.paging then (x.emit [.beginOp]).setProc (initPagesData (x.emit [.beginOp]).proc) else x.emit
        [.beginOp]) := by
      split
      · refine .setProc _ rfl (.refl _) fun _ pg hpg => ?_
        simp only [initPagesData, List.mem_map] at hpg
        obtain ⟨_, _, rfl⟩ := hpg
        show 0 < KERNBASE
        decide
      · exact .refl _
    have hpre := hbegin.trans hinit
    have hopre : (if c.paging then (x.emit [.beginOp]).setProc (initPagesData (x.emit [.beginOp]).proc)
        else x.emit [.beginOp]).other = .empty := by split <;> exact ho
    split at h
    · obtain ⟨h1, h2⟩ := execImage_spec (L := L) hu hopre h
      refine ⟨h1, ?_⟩
      cases ok with
      | false => exact hpre.trans h2
      | true =>
        refine ⟨img, rfl, ?_, h2.le, h1, hpre.log.trans h2.log, fun h => h2.free (hpre.free h), fun hc hm => ?_⟩
        · exact h2.same.trans (Proc.id_sz hpre.same _)
        · obtain ⟨g1, _, g3⟩ := hpre.mem (hc.mono h2.log) hm
          obtain ⟨k1, k2, k3⟩ := h2.mem hc g1
          exact ⟨k1, k2, fun t ht => (k3 t ht).trans (g3 t ht)⟩
    · obtain ⟨z, hz, h⟩ := bind_ok h
      cases h
      obtain ⟨hf, hox⟩ : Does L ks ts True _ _ x' ∧ _ := execBad_does hu hz
      exact ⟨hox.trans hopre, hpre.trans hf⟩

/-! ## `sbrk` -/

/-- The fields of a process after its size was set. -/
theorem Does.sized {F : Mem × Mem → Mem × Mem} {x y : Ctx} (h : Does L ks ts True F x y) (ho : y.other = .empty)
    {sz : Nat} (hsz : sz ≤ KERNBASE) {m : Mem} (hF : (F x.mems).1 = m) :
    Moves L ks ts ⟨m, sz⟩ x (y.setProc { y.proc with sz := sz }) := by
  refine ⟨Proc.id_sz h.same sz, hsz, ho, h.log, h.free, fun hc hm => ?_⟩
  obtain ⟨h1, h2, h3⟩ := h.mem hc hm
  refine ⟨⟨h1.inv, False.elim, h1.pages⟩, ?_, h3⟩
  have := congrArg Prod.fst h2
  exact this.trans hF

/-- The same when the size stays. -/
theorem Does.unsized {F : Mem × Mem → Mem × Mem} {x y : Ctx} (h : Does L ks ts True F x y) (ho : y.other = .empty)
    (hsz : x.proc.sz ≤ KERNBASE) {m : Mem} (hF : (F x.mems).1 = m) : Moves L ks ts ⟨m, x.proc.sz⟩ x y := by
  have hy : y.proc.sz = x.proc.sz := by
    have := h.same
    simp only [Proc.id, Prod.mk.injEq] at this
    exact this.2.2.2.2.1
  have := h.sized ho hsz hF
  rw [← hy] at this ⊢
  exact this

/-- **`sbrk`** does what it says or nothing. -/
theorem growproc_moves {n : Int} {x x' : Ctx} {ok : Bool} (ho : x.other = .empty) (hsz : x.proc.sz ≤ KERNBASE)
    (habove : ∀ u, x.proc.sz ≤ u * PGSIZE → x.mem .own u = none) (h : growproc c n x = .ok (ok, x')) :
    Moves L ks ts (if ok || decide (n < 0) then refSbrk n ⟨x.mem .own, x.proc.sz⟩
    else ⟨x.mem .own, x.proc.sz⟩) x x' := by
  unfold growproc at h
  by_cases hpos : 0 < n
  · rw [if_pos hpos] at h
    obtain ⟨⟨sz, y⟩, hy, h'⟩ := bind_ok h
    clear h
    have hoy : y.other = .empty := (allocuvm_other hy).trans ho
    have hneg : ¬ n < 0 := by omega
    rcases allocuvm_does (L := L) trivial hy with ⟨rfl, _, rfl⟩ | ⟨rfl, _, hdo⟩ | ⟨rfl, hlt, hdo⟩
    · cases h'
      simp only [decide_eq_false hneg]
      exact (Does.refl _).moves ho hsz
    · cases h'
      simp only [decide_eq_false hneg]
      refine hdo.unsized hoy hsz (funext fun u => ?_)
      show Mem.cut _ _ (x.mem .own) u = _
      rw [Mem.cut]
      split
      · rename_i hu
        refine (habove u ?_).symm
        have : ¬ u < pgUp x.proc.sz := by omega
        rw [lt_pgUp] at this
        omega
      · rfl
    · have hrefs : refSbrk n ⟨x.mem .own, x.proc.sz⟩ =
          ⟨(x.mem .own).grow (pgUp x.proc.sz) (addInt x.proc.sz n), max x.proc.sz (addInt x.proc.sz n)⟩ := by
        simp only [refSbrk, if_pos hpos]
      by_cases h0 : max x.proc.sz (addInt x.proc.sz n) = 0
      · simp only [if_pos h0] at h'
        obtain ⟨rfl, rfl⟩ := Prod.mk.inj (Except.ok.inj h')
        simp only [decide_eq_false hneg]
        refine hdo.unsized hoy hsz ?_
        show Mem.grow _ _ (x.mem .own) = _
        rw [grow_eq_id (by omega)]
        rfl
      · simp only [if_neg h0] at h'
        obtain ⟨rfl, rfl⟩ := Prod.mk.inj (Except.ok.inj h')
        simp only [Bool.true_or, if_true, hrefs]
        exact hdo.sized hoy (by omega) rfl
  rw [if_neg hpos] at h
  by_cases hneg : n < 0
  · rw [if_pos hneg] at h
    obtain ⟨⟨sz, y⟩, hy, h'⟩ := bind_ok h
    clear h
    have hoy : y.other = .empty := ((deallocuvm_onlyPtes hy).other .other (by decide)).trans ho
    obtain ⟨hdo, hr⟩ := deallocuvm_does (L := L) (d := True) hsz hy
    replace hr : sz = min x.proc.sz (addInt x.proc.sz n) := hr
    have hrefs : refSbrk n ⟨x.mem .own, x.proc.sz⟩ = ⟨(x.mem .own).cut (pgUp (addInt x.proc.sz n)) x.proc.sz,
        if min x.proc.sz (addInt x.proc.sz n) = 0 then x.proc.sz else min x.proc.sz (addInt x.proc.sz n)⟩ := by
      simp only [refSbrk, if_neg hpos, if_pos hneg]
    have hcount : ∀ k, Does L ks ts True id x (x.setProc { x.proc with numberOfAllocatedPages := k }) :=
      fun k => .setProc x rfl (.refl _) fun h => h
    have hall := (hcount _).trans hdo
    simp only [decide_eq_true hneg, Bool.or_true, if_true, hrefs]
    by_cases h0 : sz = 0
    · simp only [if_pos h0] at h'
      obtain ⟨_, rfl⟩ := Prod.mk.inj (Except.ok.inj h')
      rw [if_pos (hr.symm.trans h0)]
      exact hall.unsized hoy hsz rfl
    · simp only [if_neg h0] at h'
      obtain ⟨_, rfl⟩ := Prod.mk.inj (Except.ok.inj h')
      rw [if_neg (fun h => h0 (hr.trans h)), ← hr]
      exact hall.sized hoy (by rw [hr]; omega) rfl
  · rw [if_neg hneg] at h
    cases h
    have : refSbrk n ⟨x.mem .own, x.proc.sz⟩ = ⟨x.mem .own, x.proc.sz⟩ := by
      simp only [refSbrk, if_neg hpos, if_neg hneg]
    rw [this, ite_self]
    exact (Does.refl _).moves ho hsz

end Xv6
