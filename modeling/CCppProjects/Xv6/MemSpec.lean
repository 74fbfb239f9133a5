import CCppProjects.Lib.Sat
import CCppProjects.Xv6.FreeList
import CCppProjects.Xv6.Memory
import CCppProjects.Xv6.Reference
/-
# What the memory functions do to memory

`Does F x x'` is the contract of a call that takes `x` to `x'`: it leaves the fields of `struct proc`
that are not the memory system's alone, adds to the record, keeps free frames in range and, when
nothing on the record is against the law, keeps `MemInv` and turns what the two tables at hand show
(`mems`) by `F`, while every other table goes on showing what it showed.
-/
namespace Xv6

open Share

theorem lift_ok {α : Type} {x : Ctx} {m : Except Halt α} {a : α} (h : x.lift m = .ok a) : m = .ok a := by
  cases m with
  | error e => cases h
  | ok b => cases h; rfl

theorem lift_bind_ok {α β : Type} {x : Ctx} {m : Except Halt α} {g : α → K β} {b : β}
    (h : x.lift m >>= g = .ok b) : ∃ a, m = .ok a ∧ g a = .ok b := by
  obtain ⟨a, ha, hb⟩ := bind_ok h
  exact ⟨a, lift_ok ha, hb⟩

@[simp] theorem Ctx.setKmem_kmem (x : Ctx) (k : Kmem) : (x.setKmem k).kmem = k := rfl
@[simp] theorem Ctx.setKmem_data (x : Ctx) (k : Kmem) : (x.setKmem k).data = x.data := rfl
@[simp] theorem Ctx.setKmem_proc (x : Ctx) (k : Kmem) : (x.setKmem k).proc = x.proc := rfl
@[simp] theorem Ctx.setKmem_other (x : Ctx) (k : Kmem) : (x.setKmem k).other = x.other := rfl
@[simp] theorem Ctx.setKmem_log (x : Ctx) (k : Kmem) : (x.setKmem k).log = x.log := rfl
@[simp] theorem Ctx.setData_kmem (x : Ctx) (d : Nat → PageData) : (x.setData d).kmem = x.kmem := rfl
@[simp] theorem Ctx.setData_data (x : Ctx) (d : Nat → PageData) : (x.setData d).data = d := rfl
@[simp] theorem Ctx.setData_proc (x : Ctx) (d : Nat → PageData) : (x.setData d).proc = x.proc := rfl
@[simp] theorem Ctx.setData_other (x : Ctx) (d : Nat → PageData) : (x.setData d).other = x.other := rfl
@[simp] theorem Ctx.setData_log (x : Ctx) (d : Nat → PageData) : (x.setData d).log = x.log := rfl
@[simp] theorem Ctx.setProc_kmem (x : Ctx) (p : Proc) : (x.setProc p).kmem = x.kmem := rfl
@[simp] theorem Ctx.setProc_data (x : Ctx) (p : Proc) : (x.setProc p).data = x.data := rfl
@[simp] theorem Ctx.setProc_proc (x : Ctx) (p : Proc) : (x.setProc p).proc = p := rfl
@[simp] theorem Ctx.setProc_other (x : Ctx) (p : Proc) : (x.setProc p).other = x.other := rfl
@[simp] theorem Ctx.setProc_log (x : Ctx) (p : Proc) : (x.setProc p).log = x.log := rfl
@[simp] theorem Ctx.emit_kmem (x : Ctx) (es : List Event) : (x.emit es).kmem = x.kmem := rfl
@[simp] theorem Ctx.emit_data (x : Ctx) (es : List Event) : (x.emit es).data = x.data := rfl
@[simp] theorem Ctx.emit_proc (x : Ctx) (es : List Event) : (x.emit es).proc = x.proc := rfl
@[simp] theorem Ctx.emit_other (x : Ctx) (es : List Event) : (x.emit es).other = x.other := rfl
@[simp] theorem Ctx.emit_log (x : Ctx) (es : List Event) : (x.emit es).log = x.log ++ es := rfl
@[simp] theorem Ctx.setTbl_kmem (x : Ctx) (w : Tbl) (t : Pgdir) : (x.setTbl w t).kmem = x.kmem := by cases w <;> rfl
@[simp] theorem Ctx.setTbl_data (x : Ctx) (w : Tbl) (t : Pgdir) : (x.setTbl w t).data = x.data := by cases w <;> rfl
@[simp] theorem Ctx.setTbl_log (x : Ctx) (w : Tbl) (t : Pgdir) : (x.setTbl w t).log = x.log := by cases w <;> rfl
@[simp] theorem Ctx.setKmem_tbl (x : Ctx) (k : Kmem) (w : Tbl) : (x.setKmem k).tbl w = x.tbl w := by cases w <;> rfl
@[simp] theorem Ctx.setData_tbl (x : Ctx) (d : Nat → PageData) (w : Tbl) : (x.setData d).tbl w = x.tbl w := by
  cases w <;> rfl
@[simp] theorem Ctx.emit_tbl (x : Ctx) (es : List Event) (w : Tbl) : (x.emit es).tbl w = x.tbl w := by
  cases w <;> rfl
@[simp] theorem Ctx.setTbl_tbl (x : Ctx) (w : Tbl) (t : Pgdir) : (x.setTbl w t).tbl w = t := by cases w <;> rfl

/-! ## The contract -/

/-- The fields of `struct proc` the memory functions leave alone. -/
def Proc.id (p : Proc) : Nat × ProcState × Option Nat × Bool × Nat × Option Nat × Option Fault :=
  (p.pid, p.state, p.parent, p.killed, p.sz, p.kstack, p.fault)

@[simp] theorem Ctx.setTbl_id (x : Ctx) (w : Tbl) (t : Pgdir) : (x.setTbl w t).proc.id = x.proc.id := by
  cases w <;> rfl

def Ctx.mem (x : Ctx) (w : Tbl) : Mem := view x.data (x.tbl w).frame

def Ctx.mems (x : Ctx) : Mem × Mem := (x.mem .own, x.mem .other)

/-- A change of what one of the tables shows. -/
def Tbl.on (g : Mem → Mem) : Tbl → Mem × Mem → Mem × Mem
  | .own, (a, b) => (g a, b)
  | .other, (a, b) => (a, g b)

/-- Every page of the table besides the process's own is writeable, so nobody else has it. -/
def Ctx.Private (x : Ctx) : Prop := ∀ v < USERPAGES, (x.other.pte v).P = true → (x.other.pte v).W = true

/-- The addresses in `pages[]` are the program's. -/
def Proc.UserPages (p : Proc) : Prop := ∀ pg ∈ p.pages, pg.vAddress < KERNBASE

def Ctx.tables (x : Ctx) (ts : List Pgdir) : List Pgdir := x.proc.pgdir :: x.other :: ts

variable {c : Cfg} (L : RefLaw c) (ks : List Nat) (ts : List Pgdir) (d : Prop)

/-- `MemInv` with the tables of all other processes in `ts`; under `d` the other table at hand is
private. -/
structure MemOk (x : Ctx) : Prop where
  inv : ∃ sw, MemInv L x.kmem ks (x.tables ts) sw
  priv : d → x.Private
  pages : x.proc.UserPages

/-- Nothing on the record is against the law. -/
def Clean (x : Ctx) : Prop := ∀ ev ∈ x.log, L.Ok ts ev

/-- The free frames are in range. -/
def FreeOk (c : Cfg) (k : Kmem) : Prop := ∀ f ∈ k.freelist, c.FrameOk f

structure Does (F : Mem × Mem → Mem × Mem) (x x' : Ctx) : Prop where
  same : x'.proc.id = x.proc.id
  log : x.log <+: x'.log
  free : FreeOk c x.kmem → FreeOk c x'.kmem
  mem : Clean L ts x' → MemOk L ks ts d x →
    MemOk L ks ts d x' ∧ x'.mems = F x.mems ∧ ∀ t ∈ ts, view x'.data t.frame = view x.data t.frame

variable {L ks ts d}

theorem Clean.mono {x x' : Ctx} (h : Clean L ts x') (hl : x.log <+: x'.log) : Clean L ts x :=
  fun ev hev => h ev (hl.subset hev)

theorem Does.refl (x : Ctx) : Does L ks ts d id x x :=
  ⟨rfl, List.prefix_refl _, fun h => h, fun _ h => ⟨h, rfl, fun _ _ => rfl⟩⟩

theorem Does.trans {F G : Mem × Mem → Mem × Mem} {x y z : Ctx} (h : Does L ks ts d F x y)
    (h' : Does L ks ts d G y z) : Does L ks ts d (G ∘ F) x z := by
  refine ⟨h'.same.trans h.same, h.log.trans h'.log, fun hf => h'.free (h.free hf), fun hc hm => ?_⟩
  obtain ⟨hy, hFy, hty⟩ := h.mem (hc.mono h'.log) hm
  obtain ⟨hz, hGz, htz⟩ := h'.mem hc hy
  exact ⟨hz, by rw [hGz, hFy]; rfl, fun t ht => (htz t ht).trans (hty t ht)⟩

theorem Does.congr {F G : Mem × Mem → Mem × Mem} {x y : Ctx} (h : Does L ks ts d F x y)
    (hFG : ∀ m, F m = G m) : Does L ks ts d G x y :=
  ⟨h.same, h.log, h.free, fun hc hm => by obtain ⟨h1, h2, h3⟩ := h.mem hc hm; exact ⟨h1, h2.trans (hFG _), h3⟩⟩

/-- Bookkeeping: the page table and the fields that stay are the same. -/
theorem Does.setProc (x : Ctx) {p : Proc} (hid : p.id = x.proc.id) (hw : x.proc.pgdir.Walked p.pgdir)
    (hu : x.proc.UserPages → p.UserPages) : Does L ks ts d id x (x.setProc p) := by
  refine ⟨hid, List.prefix_refl _, fun h => h, fun _ hm => ?_⟩
  obtain ⟨⟨sw, hI⟩, hd, hp⟩ := hm
  refine ⟨⟨⟨sw, hI.walked hw⟩, hd, hu hp⟩, ?_, fun _ _ => rfl⟩
  simp only [Ctx.mems, Ctx.mem, Ctx.tbl, Ctx.setProc_proc, Ctx.setProc_data, Ctx.setProc_other, hw.frame, id_eq]

theorem Does.emit (x : Ctx) (es : List Event) : Does L ks ts d id x (x.emit es) :=
  ⟨rfl, List.prefix_append _ _, fun h => h, fun _ hm => ⟨⟨hm.inv, hm.priv, hm.pages⟩, rfl, fun _ _ => rfl⟩⟩

/-- What a whole call of a process has done: its memory and size are `r`'s. -/
structure Moves (L : RefLaw c) (ks : List Nat) (ts : List Pgdir) (r : RefProc) (x x' : Ctx) : Prop where
  same : x'.proc.id = { x.proc with sz := r.sz }.id
  le : r.sz ≤ KERNBASE
  other : x'.other = .empty
  log : x.log <+: x'.log
  free : FreeOk c x.kmem → FreeOk c x'.kmem
  mem : Clean L ts x' → MemOk L ks ts True x →
    MemOk L ks ts False x' ∧ x'.mem .own = r.mem ∧ ∀ t ∈ ts, view x'.data t.frame = view x.data t.frame

theorem MemOk.mono {d' : Prop} {x : Ctx} (h : MemOk L ks ts d x) (hd : d' → d) : MemOk L ks ts d' x :=
  ⟨h.inv, fun h' => h.priv (hd h'), h.pages⟩

/-- A call that leaves the process's memory and size alone. -/
theorem Does.moves {x x' : Ctx} (h : Does L ks ts True id x x') (ho : x'.other = .empty) (hsz : x.proc.sz ≤ KERNBASE) :
    Moves L ks ts ⟨x.mem .own, x.proc.sz⟩ x x' := by
  refine ⟨h.same, hsz, ho, h.log, h.free, fun hc hm => ?_⟩
  obtain ⟨h1, h2, h3⟩ := h.mem hc hm
  exact ⟨h1.mono fun _ => trivial, congrArg Prod.fst h2, h3⟩

/-- The table a call works on comes first, the other one at hand next. -/
def Ctx.rest (x : Ctx) (ts : List Pgdir) : Tbl → List Pgdir
  | .own => x.other :: ts
  | .other => x.proc.pgdir :: ts

theorem MemOk.head {x : Ctx} (h : MemOk L ks ts d x) (w : Tbl) :
    ∃ sw, MemInv L x.kmem ks (x.tbl w :: x.rest ts w) sw := by
  obtain ⟨⟨sw, hI⟩, _, _⟩ := h
  cases w with
  | own => exact ⟨sw, hI⟩
  | other => exact ⟨sw, hI.swap⟩

theorem Ctx.tbl_setTbl_ne (x : Ctx) (w : Tbl) (t : Pgdir) (u : Tbl) (hu : u ≠ w) : (x.setTbl w t).tbl u = x.tbl u := by
  cases w <;> cases u <;> first | exact absurd rfl hu | rfl

/-- A change of table `w` and of the frames that every other table shows nothing of. -/
theorem MemOk.step {x x' : Ctx} (hm : MemOk L ks ts d x) {w : Tbl} {g : Mem → Mem}
    (hI : ∃ sw, MemInv L x'.kmem ks (x'.tbl w :: x.rest ts w) sw) (ho : ∀ u, u ≠ w → x'.tbl u = x.tbl u)
    (hp : d → w = .other → ∀ v < USERPAGES, ((x'.tbl w).pte v).P = true → ((x'.tbl w).pte v).W = true)
    (hu : x'.proc.UserPages) (hw : x'.mem w = g (x.mem w))
    (hr : ∀ t ∈ x.rest ts w, view x'.data t.frame = view x.data t.frame) :
    MemOk L ks ts d x' ∧ x'.mems = w.on g x.mems ∧ ∀ t ∈ ts, view x'.data t.frame = view x.data t.frame := by
  obtain ⟨sw, hI⟩ := hI
  cases w with
  | own =>
    have h1 : x'.other = x.other := ho .other (by decide)
    have h2 : x'.mem .other = x.mem .other := by
      rw [Ctx.mem, ho .other (by decide)]
      exact hr x.other (by simp [Ctx.rest])
    refine ⟨⟨⟨sw, ?_⟩, fun hd => ?_, hu⟩, ?_, fun t ht => hr t (by simp [Ctx.rest, ht])⟩
    · rw [Ctx.tables, h1]
      exact hI
    · rw [Ctx.Private, h1]
      exact hm.priv hd
    · simp only [Ctx.mems, Tbl.on, hw, h2]
  | other =>
    have h1 : x'.proc.pgdir = x.proc.pgdir := ho .own (by decide)
    have h2 : x'.mem .own = x.mem .own := by
      rw [Ctx.mem, ho .own (by decide)]
      exact hr x.proc.pgdir (by simp [Ctx.rest])
    refine ⟨⟨⟨sw, ?_⟩, fun hd => hp hd rfl, hu⟩, ?_, fun t ht => hr t (by simp [Ctx.rest, ht])⟩
    · rw [Ctx.tables, h1]
      exact hI.swap
    · simp only [Ctx.mems, Tbl.on, hw, h2]

@[simp] theorem Tbl.on_on (g h : Mem → Mem) (w : Tbl) (m : Mem × Mem) : w.on g (w.on h m) = w.on (g ∘ h) m := by
  cases w <;> rfl

theorem Tbl.on_congr {w : Tbl} {g h : Mem → Mem} {x : Ctx} (hgh : g (x.mem w) = h (x.mem w)) :
    w.on g x.mems = w.on h x.mems := by
  cases w <;> simp only [Ctx.mems, Tbl.on, hgh]

theorem Tbl.on_id (w : Tbl) (m : Mem × Mem) : w.on id m = m := by cases w <;> rfl

/-! ## `kfree` -/

theorem FreeOk.kfree {k k' : Kmem} {v : Nat} (h : FreeOk c k) (hv : v < UINT) (hk : Xv6.kfree c v k = .ok k') :
    FreeOk c k' := by
  obtain ⟨f, hf, _, hva, _⟩ := kfree_ok_inv hv hk
  rw [hva, kfree_kva hf] at hk
  cases hk
  unfold Kmem.drop
  split
  · intro g hg
    rcases List.mem_cons.1 hg with rfl | hg
    · exact hf
    · exact h g hg
  · exact h

theorem FreeOk.kalloc {k k' : Kmem} {r : Option Nat} (h : FreeOk c k) (hk : Xv6.kalloc k = (r, k')) :
    FreeOk c k' := by
  rcases kalloc_cases k with ⟨_, hn⟩ | ⟨f, rest, hl, hs⟩
  · rw [hn] at hk; cases hk; exact h
  · rw [hs] at hk; cases hk
    exact fun g hg => h g (by rw [hl]; exact List.mem_cons_of_mem _ hg)

theorem P2V_lt (a : Nat) : P2V a < UINT := Nat.mod_lt _ (by decide)

/-- The page at `v` freed: `kfree` of its frame and an empty entry. -/
theorem MemInv.unmap {k : Kmem} {t : Pgdir} {us : List Pgdir} {sw : Nat → Bool}
    (h : MemInv L k ks (t :: us) sw) {v f : Nat} (hv : t.frame v = some f) :
    MemInv L (k.drop f) ks (t.setPte v {} :: us) sw := by
  have hm : Maps t.frame f := ⟨v, hv⟩
  have hR := h.refs f (cnt_frames_pos (List.mem_cons_self ..) hm)
  rw [frames_cons, cnt_cons, if_pos hm] at hR
  unfold Kmem.drop
  split
  · rename_i h0
    refine h.clear hv (fun _ _ => rfl) (.inr ⟨rfl, ?_⟩) fun hpos => ?_
    · by_contra hne
      have := (L.unmap hR (by omega)).1
      omega
    · have := (L.unmap hR hpos).1
      omega
  · refine h.clear hv (fun g hg => ?_) (.inl rfl) fun hpos => ?_
    · rw [Kmem.setRefs_refs, if_neg hg]
    · rw [Kmem.setRefs_refs, if_pos rfl]
      exact (L.unmap hR hpos).2

/-! ## `deallocuvm` -/

theorem insertOffsetQueue_id {o : Option Nat} {p p' : Proc} (h : insertOffsetQueue o p = .ok p') :
    p'.id = p.id ∧ p'.pgdir = p.pgdir ∧ p'.pages = p.pages := by
  unfold insertOffsetQueue at h
  split at h
  · cases h; exact ⟨rfl, rfl, rfl⟩
  · cases h

theorem insert_id {i : Nat} {p p' : Proc} (h : insert i p = .ok p') :
    p'.id = p.id ∧ p'.pgdir = p.pgdir ∧ p'.pages = p.pages := by
  unfold insert at h
  split at h
  · cases h; exact ⟨rfl, rfl, rfl⟩
  · cases h

/-- One slot of `pages[]` written, at a user address. -/
theorem Proc.UserPages.set {p q : Proc} (h : p.UserPages) {i : Nat} {pg : Page} (hq : q.pages = p.pages.set i pg)
    (hpg : pg.vAddress < KERNBASE) : q.UserPages := by
  intro r hr
  rw [hq] at hr
  rcases List.mem_or_eq_of_mem_set hr with hr | rfl
  · exact h r hr
  · exact hpg

theorem deallocatePage_id {va : Nat} {p p' : Proc} (h : deallocatePage c va p = .ok p') :
    p'.id = p.id ∧ p'.pgdir = p.pgdir ∧ (p.UserPages → p'.UserPages) := by
  simp only [deallocatePage] at h
  cases hpg : p.pages[p.pages.findIdx fun pg => pg.isAllocated && pg.vAddress == va]? with
  | none => rw [hpg] at h; cases h
  | some pg =>
    rw [hpg] at h
    obtain ⟨q, hq, hr⟩ := bind_ok h
    obtain ⟨h1, h2, h3⟩ : q.id = p.id ∧ q.pgdir = p.pgdir ∧ q.pages = p.pages := by
      by_cases hR : pg.isInRAM = true
      · rw [if_pos hR] at hq
        cases hq
        exact ⟨rfl, rfl, rfl⟩
      · rw [if_neg hR] at hq
        exact insertOffsetQueue_id hq
    cases hr
    exact ⟨h1, h2, fun hu => hu.set (congrArg (List.set · _ _) h3) (show 0 < KERNBASE by decide)⟩

/-- What freeing one page can do: `q` is the process after `deallocatePage`, if that is called. -/
theorem freePage_cases {w : Tbl} {flag : Bool} {v : Nat} {x x' : Ctx} (h : freePage c w flag v x = .ok x') :
    ∃ q, (if x.tracked c && flag then deallocatePage c (v * PGSIZE) x.proc else .ok x.proc) = .ok q ∧
        ((((x.tbl w).pte v).P = true ∧ ∃ k, kfree c (P2V (((x.tbl w).pte v).addr * PGSIZE)) x.kmem = .ok k ∧
          x' = ((x.setProc q).setKmem k).setTbl w ((((x.setProc q).setKmem k).tbl w).setPte v {})) ∨
        ((x.tbl w).pte v).P = false ∧ ((x.tbl w).pte v).PG = true ∧ x.tracked c = true ∧
          x' = (x.setProc q).setTbl w (((x.setProc q).tbl w).setPte v {})) ∨
      ((x.tbl w).pte v).P = false ∧ (((x.tbl w).pte v).PG = true → x.tracked c = false) ∧ x' = x := by
  simp only [freePage] at h
  by_cases hP : ((x.tbl w).pte v).P = true
  · rw [if_pos hP] at h
    by_cases ha : ((x.tbl w).pte v).addr = 0
    · rw [if_pos ha] at h; cases h
    rw [if_neg ha] at h
    obtain ⟨q, hq, h⟩ := lift_bind_ok h
    obtain ⟨k, hk, h⟩ := lift_bind_ok h
    cases h
    exact ⟨q, .inl ⟨hq, .inl ⟨hP, k, hk, rfl⟩⟩⟩
  · rw [if_neg hP] at h
    rw [Bool.not_eq_true] at hP
    by_cases hPG : (x.tracked c && ((x.tbl w).pte v).PG) = true
    · rw [if_pos hPG] at h
      rw [Bool.and_eq_true] at hPG
      by_cases ha : ((x.tbl w).pte v).addr = 0
      · rw [if_pos ha] at h; cases h
      rw [if_neg ha] at h
      obtain ⟨q, hq, h⟩ := lift_bind_ok h
      cases h
      refine ⟨q, .inl ⟨?_, .inr ⟨hP, hPG.2, hPG.1, rfl⟩⟩⟩
      rw [hPG.1, Bool.true_and]
      exact hq
    · rw [if_neg hPG] at h
      cases h
      refine ⟨x.proc, .inr ⟨hP, fun hpg => ?_, rfl⟩⟩
      rw [hpg, Bool.and_true, Bool.not_eq_true] at hPG
      exact hPG

theorem Ctx.Private.clear {x : Ctx} (h : x.Private) (w : Tbl) (v : Nat) :
    (x.setTbl w ((x.tbl w).setPte v {})).Private := by
  cases w with
  | own => exact h
  | other =>
    intro u hu hP
    simp only [Ctx.setTbl, Ctx.tbl, Pgdir.pte_setPte] at hP ⊢
    split at hP
    · cases hP
    · rename_i hne
      rw [if_neg hne]
      exact h u hu hP

theorem Ctx.tbl_setProc {x : Ctx} {p : Proc} (hp : p.pgdir = x.proc.pgdir) (w : Tbl) :
    (x.setProc p).tbl w = x.tbl w := by
  cases w <;> simp [Ctx.tbl, hp]

theorem Mem.clear_eq {x : Ctx} {w : Tbl} {v : Nat} (hP : ((x.tbl w).pte v).P = false) :
    w.on (Mem.clear v) x.mems = x.mems := by
  have hn : (x.tbl w).frame v = .none := Pgdir.frame_eq_none.2 fun _ => hP
  have : Mem.clear v (x.mem w) = x.mem w := by
    rw [Mem.clear, Function.update_eq_self_iff, Ctx.mem, view, hn]
    rfl
  cases w <;> simp only [Tbl.on, Ctx.mems, this]

theorem freePage_does {w : Tbl} {flag : Bool} {v : Nat} {x x' : Ctx} (hv : v < USERPAGES)
    (h : freePage c w flag v x = .ok x') : Does L ks ts d (w.on (Mem.clear v)) x x' := by
  obtain ⟨q, ⟨hq, hx⟩ | ⟨hP, _, rfl⟩⟩ := freePage_cases h
  · obtain ⟨hid, hpg, hu⟩ : q.id = x.proc.id ∧ q.pgdir = x.proc.pgdir ∧ (x.proc.UserPages → q.UserPages) := by
      split at hq
      · exact deallocatePage_id hq
      · cases hq; exact ⟨rfl, rfl, fun h => h⟩
    rcases hx with ⟨hP, k, hk, rfl⟩ | ⟨hP, hPG, _, rfl⟩
    · refine ⟨by simp [hid], by simp, fun hf => by simpa using hf.kfree (P2V_lt _) hk, fun _ hm => ?_⟩
      obtain ⟨sw, hI⟩ := hm.head w
      have hfr := Pgdir.frame_of hv hP
      have hok := (hI.user _ (List.mem_cons_self ..) _ ⟨v, hfr⟩).1
      rw [show P2V (((x.tbl w).pte v).addr * PGSIZE) = kva ((x.tbl w).pte v).addr from rfl, kfree_kva hok] at hk
      obtain rfl : x.kmem.drop ((x.tbl w).pte v).addr = k := Except.ok.inj hk
      have htbl : ∀ u, ((x.setProc q).setKmem (x.kmem.drop ((x.tbl w).pte v).addr)).tbl u = x.tbl u :=
        fun u => by rw [Ctx.setKmem_tbl, Ctx.tbl_setProc hpg]
      refine hm.step (w := w) ?_ (fun u hu => (Ctx.tbl_setTbl_ne _ w _ u hu).trans (htbl u))
        (fun hd hw => ?_) ?_ ?_ (fun _ _ => by simp)
      · exact ⟨sw, by simpa [htbl] using hI.unmap hfr⟩
      · subst hw
        rw [htbl]
        exact (hm.priv hd).clear .other v
      · cases w <;> exact hu hm.pages
      · simp only [Ctx.mem, Ctx.setTbl_data, Ctx.setTbl_tbl, Ctx.setKmem_data, Ctx.setProc_data, htbl,
          Pgdir.frame_setPte _ hv]
        exact view_set ..
    · refine ⟨by simp [hid], by simp, fun hf => by simpa using hf, fun _ hm => ?_⟩
      -- a page that is not present has no `PTE_PG` either
      obtain ⟨sw, hI⟩ := hm.head w
      have he := hI.entry _ (List.mem_cons_self ..) v hv
      rw [EntryOk, if_neg (by simp [hP])] at he
      rw [he] at hPG
      exact absurd hPG (by decide)
  · exact ⟨rfl, List.prefix_refl _, fun h => h, fun _ hm => ⟨hm, (Mem.clear_eq hP).symm, fun _ _ => rfl⟩⟩

theorem lt_USERPAGES {v sz : Nat} (hsz : sz ≤ KERNBASE) (hv : v * PGSIZE < sz) : v < USERPAGES := by
  simp only [KERNBASE, PGSIZE, USERPAGES] at *; omega

theorem lt_pgUp {v sz : Nat} : v < pgUp sz ↔ v * PGSIZE < sz := by
  simp only [pgUp, PGSIZE]; omega

theorem deallocuvmLoop_does {w : Tbl} {oldsz : Nat} {flag : Bool} (hsz : oldsz ≤ KERNBASE) :
    ∀ (n v : Nat) (x x' : Ctx), pgUp oldsz ≤ v + n → deallocuvmLoop c w oldsz flag n v x = .ok x' →
      Does L ks ts d (w.on (Mem.cut v oldsz)) x x'
  | 0, v, x, x', hn, h => by
    cases h
    refine (Does.refl x).congr fun m => ?_
    have : Mem.cut v oldsz = id := by
      funext m u
      rw [Mem.cut, if_neg]
      · rfl
      · rintro ⟨h1, h2⟩
        rw [← lt_pgUp] at h2
        omega
    rw [this, Tbl.on_id]
    rfl
  | n + 1, v, x, x', hn, h => by
    rw [deallocuvmLoop] at h
    by_cases hv : oldsz ≤ v * PGSIZE
    · rw [if_pos hv] at h
      cases h
      refine (Does.refl x).congr fun m => ?_
      have : Mem.cut v oldsz = id := by
        funext m u
        rw [Mem.cut, if_neg]
        · rfl
        · rintro ⟨h1, h2⟩
          have := Nat.mul_le_mul_right PGSIZE h1
          omega
      rw [this, Tbl.on_id]
      rfl
    rw [if_neg hv] at h
    split at h
    · rename_i hno
      have hjump : v < (v / NPTENTRIES + 1) * NPTENTRIES := by simp only [NPTENTRIES]; omega
      have ih := deallocuvmLoop_does hsz n _ x x' (by omega) h
      refine ⟨ih.same, ih.log, ih.free, fun hc hm => ?_⟩
      obtain ⟨h1, h2, h3⟩ := ih.mem hc hm
      refine ⟨h1, h2.trans ?_, h3⟩
      -- the directory entry is absent, so none of its pages is present
      have hnone : ∀ u, v ≤ u → u < (v / NPTENTRIES + 1) * NPTENTRIES → u * PGSIZE < oldsz → x.mem w u = none := by
        intro u hvu hu husz
        obtain ⟨sw, hI⟩ := hm.head w
        have hd : u / NPTENTRIES = v / NPTENTRIES := by simp only [NPTENTRIES] at *; omega
        have := hI.pte_of_no_pde (lt_USERPAGES hsz husz) (hd ▸ hno)
        rw [Ctx.mem, view, Pgdir.frame_eq_none.2 fun _ => by rw [this]]
        rfl
      refine Tbl.on_congr (funext fun u => ?_)
      simp only [Mem.cut]
      by_cases hu : v ≤ u ∧ u * PGSIZE < oldsz
      · rw [if_pos hu]
        by_cases hu' : u < (v / NPTENTRIES + 1) * NPTENTRIES
        · rw [if_neg (by omega), hnone u hu.1 hu' hu.2]
        · rw [if_pos ⟨by omega, hu.2⟩]
      · rw [if_neg hu, if_neg (by omega)]
    · obtain ⟨y, hy, h⟩ := bind_ok h
      have h1 : Does L ks ts d (w.on (Mem.clear v)) x y :=
        freePage_does (lt_USERPAGES hsz (Nat.lt_of_not_le hv)) hy
      refine (h1.trans (deallocuvmLoop_does hsz n (v + 1) y x' (by omega) h)).congr fun m => ?_
      rw [Function.comp_apply, Tbl.on_on]
      congr 1
      funext m u
      simp only [Function.comp_apply, Mem.cut, Mem.clear, Function.update_apply]
      by_cases hu : u = v
      · subst hu
        rw [if_neg (by omega), if_pos rfl, if_pos ⟨Nat.le_refl _, by omega⟩]
      · have : (v + 1 ≤ u ∧ u * PGSIZE < oldsz) ↔ (v ≤ u ∧ u * PGSIZE < oldsz) := by omega
        simp only [this, if_neg hu]

theorem deallocuvm_does {w : Tbl} {oldsz newsz : Nat} {flag : Bool} (hsz : oldsz ≤ KERNBASE) {x x' : Ctx}
    {r : Nat} (h : deallocuvm c w oldsz newsz flag x = .ok (r, x')) :
    Does L ks ts d (w.on (Mem.cut (pgUp newsz) oldsz)) x x' ∧ r = min oldsz newsz := by
  unfold deallocuvm at h
  by_cases hle : oldsz ≤ newsz
  · rw [if_pos hle] at h
    obtain ⟨rfl, rfl⟩ := Prod.mk.inj (Except.ok.inj h)
    refine ⟨(Does.refl x).congr fun m => ?_, by omega⟩
    have : Mem.cut (pgUp newsz) oldsz = id := by
      funext m u
      rw [Mem.cut, if_neg]
      · rfl
      · rintro ⟨h1, h2⟩
        have : ¬ u < pgUp newsz := by omega
        rw [lt_pgUp] at this
        omega
    rw [this, Tbl.on_id]
    rfl
  · rw [if_neg hle] at h
    obtain ⟨y, hy, h⟩ := bind_ok h
    obtain ⟨rfl, rfl⟩ := Prod.mk.inj (Except.ok.inj h)
    exact ⟨deallocuvmLoop_does hsz _ _ x y (by omega) hy, by omega⟩

/-- Only entries of the table at hand change. -/
structure OnlyPtes (w : Tbl) (x x' : Ctx) : Prop where
  page : (x'.tbl w).page = (x.tbl w).page
  pde : (x'.tbl w).pde = (x.tbl w).pde
  other : ∀ u, u ≠ w → x'.tbl u = x.tbl u
  log : x'.log = x.log

theorem OnlyPtes.trans {w : Tbl} {x y z : Ctx} (h : OnlyPtes w x y) (h' : OnlyPtes w y z) : OnlyPtes w x z :=
  ⟨h'.page.trans h.page, h'.pde.trans h.pde, fun u hu => (h'.other u hu).trans (h.other u hu), h'.log.trans h.log⟩

theorem OnlyPtes.setPte {w : Tbl} {x : Ctx} (v : Nat) (e : Pte) : OnlyPtes w x (x.setTbl w ((x.tbl w).setPte v e)) :=
  ⟨by simp, by simp, x.tbl_setTbl_ne w _, by simp⟩

theorem OnlyPtes.of_tbl {w : Tbl} {x x' : Ctx} (h : ∀ u, x'.tbl u = x.tbl u) (hl : x'.log = x.log) :
    OnlyPtes w x x' :=
  ⟨by rw [h], by rw [h], fun u _ => h u, hl⟩

theorem freePage_onlyPtes {w : Tbl} {flag : Bool} {v : Nat} {x x' : Ctx} (h : freePage c w flag v x = .ok x') :
    OnlyPtes w x x' := by
  obtain ⟨q, ⟨hq, hx⟩ | ⟨_, _, rfl⟩⟩ := freePage_cases h
  · have hpg : q.pgdir = x.proc.pgdir := by
      split at hq
      · exact (deallocatePage_id hq).2.1
      · cases hq; rfl
    rcases hx with ⟨_, k, _, rfl⟩ | ⟨_, _, _, rfl⟩
    · have hk : OnlyPtes w x ((x.setProc q).setKmem k) :=
        .of_tbl (fun u => by rw [Ctx.setKmem_tbl, Ctx.tbl_setProc hpg]) rfl
      exact hk.trans (.setPte v {})
    · have hq : OnlyPtes w x (x.setProc q) := .of_tbl (fun u => Ctx.tbl_setProc hpg u) rfl
      exact hq.trans (.setPte v {})
  · exact .of_tbl (fun _ => rfl) rfl

theorem deallocuvmLoop_onlyPtes {w : Tbl} {oldsz : Nat} {flag : Bool} : ∀ (n v : Nat) (x x' : Ctx),
    deallocuvmLoop c w oldsz flag n v x = .ok x' → OnlyPtes w x x'
  | 0, v, x, x', h => by cases h; exact .of_tbl (fun _ => rfl) rfl
  | n + 1, v, x, x', h => by
    rw [deallocuvmLoop] at h
    by_cases hv : oldsz ≤ v * PGSIZE
    · rw [if_pos hv] at h
      cases h
      exact .of_tbl (fun _ => rfl) rfl
    rw [if_neg hv] at h
    split at h
    · exact deallocuvmLoop_onlyPtes n _ x x' h
    · obtain ⟨y, hy, h⟩ := bind_ok h
      exact (freePage_onlyPtes hy).trans (deallocuvmLoop_onlyPtes n _ y x' h)

theorem deallocuvm_onlyPtes {w : Tbl} {oldsz newsz r : Nat} {flag : Bool} {x x' : Ctx}
    (h : deallocuvm c w oldsz newsz flag x = .ok (r, x')) : OnlyPtes w x x' := by
  unfold deallocuvm at h
  split at h
  · cases h; exact .of_tbl (fun _ => rfl) rfl
  · obtain ⟨y, hy, h⟩ := bind_ok h
    cases h
    exact deallocuvmLoop_onlyPtes _ _ _ _ hy

/-! ## `freevm` and `setupkvm` -/

theorem freePdes_free (t : Pgdir) : ∀ (ds : List Nat) (k k' : Kmem), freePdes c ds t k = .ok k' →
    FreeOk c k → FreeOk c k'
  | [], k, k', h, hf => by cases h; exact hf
  | e :: ds, k, k', h, hf => by
    rw [freePdes] at h
    split at h
    · exact freePdes_free t ds k k' h hf
    · obtain ⟨k1, hk, h⟩ := bind_ok h
      exact freePdes_free t ds k1 k' h (hf.kfree (P2V_lt _) hk)

theorem MemInv.freePdes {us : List Pgdir} {sw : Nat → Bool} {ks : List Nat} (t : Pgdir) :
    ∀ (ds : List Nat) {k k' : Kmem}, MemInv L k (ds.filterMap t.pde ++ ks) us sw →
      Xv6.freePdes c ds t k = .ok k' → MemInv L k' ks us sw
  | [], k, k', hI, h => by cases h; exact hI
  | e :: ds, k, k', hI, h => by
    rw [Xv6.freePdes] at h
    split at h
    · rename_i hn
      rw [List.filterMap_cons_none hn] at hI
      exact MemInv.freePdes t ds hI h
    · rename_i f hf
      obtain ⟨k1, hk, h⟩ := bind_ok h
      rw [List.filterMap_cons_some hf, List.cons_append] at hI
      rw [show P2V (f * PGSIZE) = kva f from rfl, kfree_kva hI.kernelOk] at hk
      obtain rfl : k.drop f = k1 := Except.ok.inj hk
      exact MemInv.freePdes t ds hI.dropKernel h

/-- A table without pages gives its own frames back to the kernel. -/
theorem MemInv.dissolve {k : Kmem} {t : Pgdir} {us : List Pgdir} {sw : Nat → Bool}
    (h : MemInv L k ks (t :: us) sw) (hn : t.frame = fun _ => none) :
    MemInv L k (t.pages ++ ks) (.empty :: us) sw := by
  have hP : ∀ v < USERPAGES, (t.pte v).P = false := fun v hv => Pgdir.frame_eq_none.1 (congrFun hn v) hv
  refine h.table ?_ (fun v hv => ?_) fun v hv hPt _ => ?_
  · rw [Pgdir.pages_empty, List.append_nil]
    exact List.perm_append_comm
  · have he := h.entry t (by simp) v hv
    rw [EntryOk, if_neg (by simp [hP v hv])] at he
    rw [he]; rfl
  · rw [hP v hv] at hPt
    cases hPt

theorem Ctx.private_empty {x : Ctx} (h : x.other = .empty) : x.Private := by
  intro v _ hP
  rw [h] at hP
  cases hP

theorem view_eq_none {data : Nat → PageData} {t : Pgdir} (h : view data t.frame = Mem.none) :
    t.frame = fun _ => Option.none := by
  funext v
  have := congrFun h v
  cases hv : t.frame v with
  | none => rfl
  | some f =>
    rw [view, hv] at this
    cases this

theorem freevm_does {x x' : Ctx} (h : freevm c x = .ok x') :
    Does L ks ts d (Tbl.other.on fun _ => Mem.none) x x' ∧ x'.other = .empty := by
  unfold freevm at h
  split at h
  · cases h
  rename_i pg hpage
  obtain ⟨⟨r, y⟩, hy, h⟩ := bind_ok h
  obtain ⟨k1, hk1, h⟩ := lift_bind_ok h
  obtain ⟨k2, hk2, h⟩ := lift_bind_ok h
  cases h
  have hdo : Does L ks ts d (Tbl.other.on (Mem.cut (pgUp 0) KERNBASE)) x y := (deallocuvm_does (Nat.le_refl _) hy).1
  have hpg : (y.tbl .other).page = some pg := (deallocuvm_onlyPtes hy).page.trans hpage
  refine ⟨⟨hdo.same, hdo.log, fun hf => ?_, fun hc hm => ?_⟩, rfl⟩
  · exact (freePdes_free _ _ _ _ hk1 (hdo.free hf)).kfree (P2V_lt _) hk2
  obtain ⟨hy, hmem, hts⟩ := hdo.mem hc hm
  have hcut : Mem.cut (pgUp 0) KERNBASE (x.mem .other) = Mem.none := by
    funext u
    by_cases hu : u * PGSIZE < KERNBASE
    · rw [Mem.cut, if_pos ⟨by simp [pgUp, PGSIZE], hu⟩]; rfl
    · rw [Mem.cut, if_neg (by omega), Ctx.mem, view, Pgdir.frame_eq_none.2]
      · rfl
      · intro hlt
        simp only [USERPAGES, PGSIZE, KERNBASE] at *; omega
  have hview : view y.data y.other.frame = Mem.none := by
    have := congrArg Prod.snd hmem
    rw [Tbl.on_congr (h := fun _ => Mem.none) hcut] at this
    exact this
  have hn := view_eq_none hview
  obtain ⟨sw, hI⟩ := hy.head .other
  have hI := hI.dissolve hn
  have hI : MemInv L y.kmem ((List.range NPDENTRIES).filterMap y.other.pde ++ (pg :: ks))
    (.empty :: y.proc.pgdir :: ts) sw := by
    refine hI.perm ?_ (List.Perm.refl _)
    rw [Pgdir.pages, hpg, Option.toList_some, List.singleton_append, List.cons_append]
    exact List.perm_middle.symm
  have hI := hI.freePdes _ _ hk1
  rw [show P2V (pg * PGSIZE) = kva pg from rfl, kfree_kva hI.kernelOk] at hk2
  obtain rfl := Except.ok.inj hk2
  refine ⟨⟨⟨sw, hI.dropKernel.swap⟩, fun _ => Ctx.private_empty rfl, hy.pages⟩, ?_, fun t ht => hts t ht⟩
  have hown : y.mem .own = x.mem .own := congrArg Prod.fst hmem
  refine Prod.ext hown ?_
  show view y.data Pgdir.empty.frame = Mem.none
  rw [Pgdir.frame_empty]
  rfl

theorem freevm_log {x x' : Ctx} (h : freevm c x = .ok x') : x'.log = x.log := by
  unfold freevm at h
  split at h
  · cases h
  obtain ⟨⟨r, y⟩, hy, h⟩ := bind_ok h
  obtain ⟨k1, _, h⟩ := lift_bind_ok h
  obtain ⟨k2, _, h⟩ := lift_bind_ok h
  cases h
  exact (deallocuvm_onlyPtes hy).log

/-- The kernel part of a fresh table leaves the user entries alone. -/
theorem setupkvmLoop_spec : ∀ (ds : List Nat) {k k' : Kmem} {t t' : Pgdir} {b : Bool},
    setupkvmLoop ds k t = (b, k', t') → t'.page = t.page ∧ t'.pte = t.pte ∧ (FreeOk c k → FreeOk c k')
  | [], k, k', t, t', b, h => by
    cases h
    exact ⟨rfl, rfl, fun h => h⟩
  | e :: ds, k, k', t, t', b, h => by
    rw [setupkvmLoop] at h
    split at h
    · cases h
      exact ⟨rfl, rfl, fun h => h⟩
    · rename_i mem k1 hk
      obtain ⟨h1, h2, h3⟩ := setupkvmLoop_spec ds h
      exact ⟨h1, h2, fun hf => h3 (hf.kalloc hk)⟩

theorem MemInv.setupkvmLoop {us : List Pgdir} {sw : Nat → Bool} : ∀ (ds : List Nat) {k k' : Kmem} {t t' : Pgdir}
    {b : Bool}, ds.Nodup → (∀ e ∈ ds, e < NPDENTRIES ∧ t.pde e = none) → MemInv L k ks (t :: us) sw →
    Xv6.setupkvmLoop ds k t = (b, k', t') → MemInv L k' ks (t' :: us) sw
  | [], k, k', t, t', b, _, _, hI, h => by
    cases h
    exact hI
  | e :: ds, k, k', t, t', b, hnd, hds, hI, h => by
    rw [Xv6.setupkvmLoop] at h
    rw [List.nodup_cons] at hnd
    split at h
    · cases h
      exact hI
    · rename_i mem k1 hk
      have hds' : ∀ g ∈ ds, g < NPDENTRIES ∧
          Function.update t.pde e (some (V2P mem / PGSIZE)) g = none := by
        intro g hg
        refine ⟨(hds g (by simp [hg])).1, ?_⟩
        rw [Function.update_apply, if_neg (by rintro rfl; exact hnd.1 hg)]
        exact (hds g (by simp [hg])).2
      refine MemInv.setupkvmLoop ds hnd.2 hds' ?_ h
      obtain ⟨f, _, _, hV, _, _, hI⟩ := hI.kalloc hk
      rw [hV]
      refine hI.table ?_ (fun _ _ => rfl) fun v hv hP hs => ?_
      · have hpages : ({ t with pde := Function.update t.pde e (some f) } : Pgdir).pages.Perm (f :: t.pages) :=
          pages_update_pde (hds e (by simp)).1 (hds e (by simp)).2 rfl rfl
        exact (List.Perm.append_left ks hpages).trans List.perm_middle
      · simp only [Function.update_apply]
        split
        · rfl
        · exact hs

theorem kmapPdx_nodup : kmapPdx.Nodup := by decide

theorem kmapPdx_lt : ∀ e ∈ kmapPdx, e < NPDENTRIES := by decide

theorem view_none {data : Nat → PageData} {t : Pgdir} (h : t.frame = fun _ => Option.none) :
    view data t.frame = Mem.none := by
  rw [h]; rfl

/-- The directory page of a fresh table and the kernel's part of it. -/
theorem newTable_does {x : Ctx} (ho : x.other = .empty) {mem : Nat} {k k' : Kmem} {t : Pgdir} {b : Bool}
    (hk : Xv6.kalloc x.kmem = (some mem, k))
    (ht : setupkvmLoop kmapPdx k { Pgdir.empty with page := some (V2P mem / PGSIZE) } = (b, k', t)) :
    Does L ks ts d (Tbl.other.on fun _ => Mem.none) x ((x.setKmem k').setTbl .other t) := by
  obtain ⟨_, h2, h3⟩ := setupkvmLoop_spec (c := c) _ ht
  have hP : ∀ v, (t.pte v).P = false := fun v => by rw [h2]; rfl
  have hfr : t.frame = fun _ => none := by
    funext v
    exact Pgdir.frame_eq_none.2 fun _ => hP v
  refine ⟨rfl, List.prefix_refl _, fun hf => h3 (hf.kalloc hk),
    fun _ hm => ⟨⟨?_, fun _ v _ hPv => ?_, hm.pages⟩, Prod.ext rfl (view_none hfr), fun _ _ => rfl⟩⟩
  · obtain ⟨sw, hI⟩ := hm.head .other
    obtain ⟨f, _, _, hV, _, _, hI⟩ := hI.kalloc hk
    rw [hV] at ht
    refine ⟨sw, (MemInv.setupkvmLoop _ kmapPdx_nodup (fun e he => ⟨kmapPdx_lt e he, rfl⟩) (hI.table ?_
      (fun v _ => ?_) fun v _ hP _ => ?_) ht).swap⟩
    · rw [Ctx.tbl, ho, Pgdir.pages_empty, List.append_nil]
      have : ({ Pgdir.empty with page := some f } : Pgdir).pages = [f] := by simp [Pgdir.pages, Pgdir.empty]
      rw [this]
      exact List.perm_append_comm
    · rw [Ctx.tbl, ho]
    · rw [Ctx.tbl, ho] at hP
      cases hP
  · rw [show (((x.setKmem k').setTbl .other t).other.pte v).P = false from hP v] at hPv
    cases hPv

/-- A fresh table shows nothing. -/
theorem setupkvm_does {x x' : Ctx} {b : Bool} (ho : x.other = .empty) (h : setupkvm c x = .ok (b, x')) :
    Does L ks ts d (Tbl.other.on fun _ => Mem.none) x x' ∧
      (if b then x'.other.page.isSome = true ∧ x'.other.pte = fun _ => {} else x'.other = .empty) := by
  unfold setupkvm at h
  split at h
  · cases h
    refine ⟨⟨rfl, List.prefix_refl _, fun h => h, fun _ hm => ⟨hm, Prod.ext rfl ?_, fun _ _ => rfl⟩⟩, ho⟩
    exact view_none (by rw [Ctx.tbl, ho, Pgdir.frame_empty])
  · rename_i mem k1 hk
    split at h
    · rename_i k2 t ht
      cases h
      obtain ⟨h1, h2, _⟩ := setupkvmLoop_spec (c := c) _ ht
      exact ⟨newTable_does ho hk ht, by simp [Ctx.setTbl, h1, h2, Pgdir.empty]⟩
    · rename_i k2 t ht
      obtain ⟨y, hy, h⟩ := bind_ok h
      cases h
      have hn : Does L ks ts d _ x _ := newTable_does ho hk ht
      obtain ⟨hv, hoy⟩ : Does L ks ts d _ _ x' ∧ _ := freevm_does hy
      exact ⟨(hn.trans hv).congr fun m => by simp [Function.comp_def], hoy⟩

end Xv6
