import CCppProjects.Lib.Share
import CCppProjects.Xv6.Trap
import Mathlib.Tactic.Ring
/-
# Frames, tables and reference counts

`MemInv` is what ties the free list, the kernel's own frames, the page tables and the reference
counts together. The relation between a frame's count and the number of tables that map it is a
parameter (`RefLaw`), because it differs with what runs are asked about: it is an equation as long as
nothing is copied or swapped, bounds on both sides in a build without swapping, and a lower
bound in the builds with. The lemmas below are the changes the kernel makes, one table entry or
one frame at a time.
-/
namespace Xv6

open Share

/-- The user frames of a table. -/
def Pgdir.frame (t : Pgdir) (v : Nat) : Option Nat :=
  if v < USERPAGES ∧ (t.pte v).P = true then some (t.pte v).addr else none

/-- The frames a table itself lies in. -/
def Pgdir.pages (t : Pgdir) : List Nat := t.page.toList ++ (List.range NPDENTRIES).filterMap t.pde

def frames (ts : List Pgdir) : List (Nat → Option Nat) := ts.map Pgdir.frame

/-- How the count of a frame follows the number of tables that map it: `R b r n` for count `r`, `n`
tables and `b` the entries' `PTE_PG`; `Ok ts` the events it allows when the other tables are `ts`. -/
structure RefLaw (c : Cfg) where
  R : Bool → Nat → Nat → Prop
  Ok : List Pgdir → Event → Prop
  lt : ∀ {b r n}, R b r n → r < UINT
  fresh : R false 1 1
  share : ∀ {b r n ts}, R b r n → Ok ts (.share r) → n ≤ NPROC + 2 → r + 1 < UINT ∧ R b (r + 1) (n + 1)
  unmap : ∀ {b r n}, R b r (n + 1) → 0 < n → 0 < r ∧ R b (r - 1) n
  copied : ∀ {r n}, R false r (n + 1) → 0 < r
  lone : ∀ {n}, R false 1 (n + 1) → n = 0
  noPaging : ∀ {b r n}, c.paging = false → R b r n → b = false
  copy : ∀ {ts}, Ok ts .cowCopy → R false 2 1
  swapOut : ∀ {b r n e ts}, c.paging = true → R b r n → Ok ts (.swapOut r e) →
    e.PG = false ∧ (∀ t ∈ ts, ¬ Maps t.frame e.addr) ∧ (b = false → n = 1 → 0 < r ∧ R true (r - 1) 1)
  swapIn : ∀ {r n e d d' ts}, R true r (n + 1) → Ok ts (.swapIn e d d') → d = d' ∧ (0 < n → R true r n)

/-- One entry of a table: a page not present has no flag set either. -/
def EntryOk (sw : Nat → Bool) (t : Pgdir) (v : Nat) : Prop :=
  if (t.pte v).P = true then
    (t.pde (v / NPTENTRIES)).isSome = true ∧ (t.pte v).PG = sw (t.pte v).addr ∧
      ((t.pte v).W = false → (t.pte v).C = true)
  else t.pte v = {}

/-- The frames in use by the kernel: the free list, `ks` and the tables'. -/
def kernelFrames (k : Kmem) (ks : List Nat) (ts : List Pgdir) : List Nat :=
  k.freelist ++ (ks ++ ts.flatMap Pgdir.pages)

structure MemInv {c : Cfg} (L : RefLaw c) (k : Kmem) (ks : List Nat) (ts : List Pgdir) (sw : Nat → Bool) :
    Prop where
  few : ts.length ≤ NPROC + 2
  nodup : (kernelFrames k ks ts).Nodup
  frameOk : ∀ f ∈ kernelFrames k ks ts, c.FrameOk f
  user : ∀ t ∈ ts, ∀ f, Maps t.frame f → c.FrameOk f ∧ f ∉ kernelFrames k ks ts
  entry : ∀ t ∈ ts, ∀ v < USERPAGES, EntryOk sw t v
  inj : ∀ t ∈ ts, Inj t.frame
  excl : ∀ t ∈ ts, ∀ v f, t.frame v = some f → (t.pte v).W = true → cnt (frames ts) f = 1
  refs : ∀ f, 0 < cnt (frames ts) f → L.R (sw f) (k.pageRefsNum f) (cnt (frames ts) f)

/-! ## Small facts -/

theorem Pgdir.frame_eq_some {t : Pgdir} {v f : Nat} :
    t.frame v = some f ↔ v < USERPAGES ∧ (t.pte v).P = true ∧ (t.pte v).addr = f := by
  unfold Pgdir.frame
  split
  · rename_i h; simp [h]
  · rename_i h
    constructor
    · intro h'; cases h'
    · rintro ⟨h1, h2, _⟩; exact absurd ⟨h1, h2⟩ h

theorem Pgdir.frame_eq_none {t : Pgdir} {v : Nat} :
    t.frame v = none ↔ (v < USERPAGES → (t.pte v).P = false) := by
  unfold Pgdir.frame
  split
  · rename_i h; simp [h]
  · rename_i h
    simpa using h

theorem Pgdir.frame_of {t : Pgdir} {v : Nat} (hv : v < USERPAGES) (hP : (t.pte v).P = true) :
    t.frame v = some (t.pte v).addr := Pgdir.frame_eq_some.2 ⟨hv, hP, rfl⟩

/-- What an entry contributes to `frame`. -/
def Pte.frame (e : Pte) : Option Nat := if e.P = true then some e.addr else none

theorem Pgdir.frame_setPte (t : Pgdir) {v : Nat} (hv : v < USERPAGES) (e : Pte) :
    (t.setPte v e).frame = Function.update t.frame v e.frame := by
  funext u
  simp only [Pgdir.frame, Pgdir.setPte, Function.update_apply]
  by_cases hu : u = v
  · subst hu; simp [Pte.frame, hv]
  · simp [hu]

theorem Pgdir.frame_setPte_ge (t : Pgdir) {v : Nat} (hv : ¬ v < USERPAGES) (e : Pte) :
    (t.setPte v e).frame = t.frame := by
  funext u
  simp only [Pgdir.frame, Pgdir.setPte, Function.update_apply]
  by_cases hu : u = v
  · subst hu; simp [hv]
  · simp [hu]

@[simp] theorem Pgdir.pages_setPte (t : Pgdir) (v : Nat) (e : Pte) : (t.setPte v e).pages = t.pages := rfl

@[simp] theorem Pgdir.pde_setPte (t : Pgdir) (v : Nat) (e : Pte) : (t.setPte v e).pde = t.pde := rfl

@[simp] theorem Pgdir.page_setPte (t : Pgdir) (v : Nat) (e : Pte) : (t.setPte v e).page = t.page := rfl

theorem Pgdir.pte_setPte (t : Pgdir) (v u : Nat) (e : Pte) :
    (t.setPte v e).pte u = if u = v then e else t.pte u := by
  simp [Pgdir.setPte, Function.update_apply]

@[simp] theorem Pgdir.frame_empty : Pgdir.empty.frame = fun _ => none := by
  funext v; simp [Pgdir.frame, Pgdir.empty]

@[simp] theorem Pgdir.pages_empty : Pgdir.empty.pages = [] := by simp [Pgdir.pages, Pgdir.empty]

theorem frames_cons (t : Pgdir) (ts : List Pgdir) : frames (t :: ts) = t.frame :: frames ts := rfl

theorem cnt_frames_pos {ts : List Pgdir} {t : Pgdir} {f : Nat} (ht : t ∈ ts) (h : Maps t.frame f) :
    0 < cnt (frames ts) f := cnt_pos (List.mem_map_of_mem ht) h

theorem cnt_frames_eq_zero {ts : List Pgdir} {f : Nat} :
    cnt (frames ts) f = 0 ↔ ∀ t ∈ ts, ¬ Maps t.frame f := by
  simp [cnt_eq_zero, frames]

theorem kernelFrames_setPte (k : Kmem) (ks : List Nat) (t : Pgdir) (v : Nat) (e : Pte) (ts : List Pgdir) :
    kernelFrames k ks (t.setPte v e :: ts) = kernelFrames k ks (t :: ts) := rfl

/-- An entry is fine in a table that has got another one. -/
theorem EntryOk.setPte {sw : Nat → Bool} {t : Pgdir} {u v : Nat} {e : Pte} (h : EntryOk sw t u) (hne : u ≠ v) :
    EntryOk sw (t.setPte v e) u := by
  simpa [EntryOk, Pgdir.pte_setPte, hne] using h

/-- A page of a frame other than `f` does not depend on what `sw` says of `f`. -/
theorem EntryOk.update {sw : Nat → Bool} {t : Pgdir} {u f : Nat} (h : EntryOk sw t u) (b : Bool)
    (hne : (t.pte u).P = true → (t.pte u).addr ≠ f) : EntryOk (Function.update sw f b) t u := by
  unfold EntryOk at *
  split
  · rename_i hP
    rw [if_pos hP] at h
    rw [Function.update_apply, if_neg (hne hP)]
    exact h
  · rename_i hP
    rw [if_neg hP] at h
    exact h

variable {c : Cfg} {L : RefLaw c} {k : Kmem} {ks : List Nat} {t : Pgdir} {ts : List Pgdir} {sw : Nat → Bool}

theorem MemInv.present (h : MemInv L k ks ts sw) (ht : t ∈ ts) {v : Nat} (hv : v < USERPAGES)
    (hP : (t.pte v).P = true) :
    (t.pde (v / NPTENTRIES)).isSome = true ∧ (t.pte v).PG = sw (t.pte v).addr ∧
      ((t.pte v).W = false → (t.pte v).C = true) := by
  have := h.entry t ht v hv
  rwa [EntryOk, if_pos hP] at this

theorem MemInv.absent (h : MemInv L k ks ts sw) (ht : t ∈ ts) {v : Nat} (hv : v < USERPAGES)
    (hP : ¬ (t.pte v).P = true) : t.pte v = {} := by
  have := h.entry t ht v hv
  rwa [EntryOk, if_neg hP] at this

/-! ## The order of the tables and of the kernel's frames -/

theorem kernelFrames_perm {ks' : List Nat} {ts' : List Pgdir} (hk : ks.Perm ks') (ht : ts.Perm ts') :
    (kernelFrames k ks ts).Perm (kernelFrames k ks' ts') :=
  List.Perm.append_left _ (hk.append (ht.flatMap_right _))

theorem MemInv.perm (h : MemInv L k ks ts sw) {ks' : List Nat} {ts' : List Pgdir} (hk : ks.Perm ks')
    (ht : ts.Perm ts') : MemInv L k ks' ts' sw := by
  have hkf := kernelFrames_perm (k := k) hk ht
  have hc : ∀ f, cnt (frames ts') f = cnt (frames ts) f := fun f => (cnt_perm (ht.map _) f).symm
  refine ⟨ht.length_eq ▸ h.few, hkf.nodup_iff.1 h.nodup, ?_, ?_, ?_, ?_, ?_, ?_⟩
  · exact fun f hf => h.frameOk f (hkf.mem_iff.2 hf)
  · intro t htm f hf
    obtain ⟨h1, h2⟩ := h.user t (ht.mem_iff.2 htm) f hf
    exact ⟨h1, fun hm => h2 (hkf.mem_iff.2 hm)⟩
  · exact fun t htm => h.entry t (ht.mem_iff.2 htm)
  · exact fun t htm => h.inj t (ht.mem_iff.2 htm)
  · intro t htm v f hv hW
    rw [hc]
    exact h.excl t (ht.mem_iff.2 htm) v f hv hW
  · intro f hf
    rw [hc] at hf ⊢
    exact h.refs f hf

theorem MemInv.swap {t u : Pgdir} (h : MemInv L k ks (t :: u :: ts) sw) : MemInv L k ks (u :: t :: ts) sw :=
  h.perm (List.Perm.refl _) (List.Perm.swap ..)

theorem kernelFrames_empty (k : Kmem) (ks : List Nat) (ts : List Pgdir) :
    kernelFrames k ks (.empty :: ts) = kernelFrames k ks ts := by
  simp [kernelFrames]

theorem cnt_frames_empty (ts : List Pgdir) (f : Nat) : cnt (frames (.empty :: ts)) f = cnt (frames ts) f := by
  rw [frames_cons, Pgdir.frame_empty, cnt_empty]

/-- An empty table more. -/
theorem MemInv.addEmpty (h : MemInv L k ks ts sw) (hlen : ts.length < NPROC + 2) :
    MemInv L k ks (.empty :: ts) sw := by
  have hno : ∀ v f, (Pgdir.empty).frame v ≠ some f := by simp
  refine ⟨by rw [List.length_cons]; omega, by rw [kernelFrames_empty]; exact h.nodup,
    by rw [kernelFrames_empty]; exact h.frameOk, ?_, ?_, ?_, ?_, ?_⟩
  · rw [kernelFrames_empty]
    intro t ht f hf
    rcases List.mem_cons.1 ht with rfl | ht
    · obtain ⟨v, hv⟩ := hf
      exact absurd hv (hno v f)
    · exact h.user t ht f hf
  · intro t ht
    rcases List.mem_cons.1 ht with rfl | ht
    · intro v _
      rw [EntryOk, if_neg (by simp [Pgdir.empty])]
      rfl
    · exact h.entry t ht
  · intro t ht
    rcases List.mem_cons.1 ht with rfl | ht
    · exact fun v _ f hv _ => absurd hv (hno v f)
    · exact h.inj t ht
  · intro t ht v f hv hW
    rw [cnt_frames_empty]
    rcases List.mem_cons.1 ht with rfl | ht
    · exact absurd hv (hno v f)
    · exact h.excl t ht v f hv hW
  · intro f hf
    rw [cnt_frames_empty] at hf ⊢
    exact h.refs f hf

/-- An empty table less. -/
theorem MemInv.dropEmpty (h : MemInv L k ks (.empty :: ts) sw) : MemInv L k ks ts sw := by
  have hkf := kernelFrames_empty k ks ts
  refine ⟨Nat.le_of_succ_le h.few, hkf ▸ h.nodup, hkf ▸ h.frameOk,
    fun t ht f hf => hkf ▸ h.user t (List.mem_cons_of_mem _ ht) f hf,
    fun t ht => h.entry t (List.mem_cons_of_mem _ ht), fun t ht => h.inj t (List.mem_cons_of_mem _ ht),
    fun t ht v f hv hW => ?_, fun f hf => ?_⟩
  · rw [← cnt_frames_empty]
    exact h.excl t (List.mem_cons_of_mem _ ht) v f hv hW
  · rw [← cnt_frames_empty] at hf ⊢
    exact h.refs f hf

/-! ## Changes of one entry of the first table -/

/-- Other flags on a present page: `PTE_W` may come only where nobody else maps the frame. -/
theorem MemInv.flags (h : MemInv L k ks (t :: ts) sw) {v : Nat} {e : Pte} (hP : (t.pte v).P = true)
    (hP' : e.P = true) (ha : e.addr = (t.pte v).addr) (hPG : e.PG = (t.pte v).PG)
    (hC : e.W = false → e.C = true)
    (hW : v < USERPAGES → e.W = true → cnt (frames (t :: ts)) e.addr = 1) :
    MemInv L k ks (t.setPte v e :: ts) sw := by
  have hfr : (t.setPte v e).frame = t.frame := by
    by_cases hv : v < USERPAGES
    · rw [t.frame_setPte hv, Pte.frame, if_pos hP', ha, ← Pgdir.frame_of hv hP, Function.update_eq_self]
    · exact t.frame_setPte_ge hv e
  have hc : frames (t.setPte v e :: ts) = frames (t :: ts) := by rw [frames_cons, hfr, frames_cons]
  refine ⟨h.few, h.nodup, h.frameOk, ?_, ?_, ?_, ?_, ?_⟩
  · intro u hu f hf
    rcases List.mem_cons.1 hu with rfl | hu
    · exact h.user t (by simp) f (hfr ▸ hf)
    · exact h.user u (by simp [hu]) f hf
  · intro u hu w hw
    rcases List.mem_cons.1 hu with rfl | hu
    · by_cases hwv : w = v
      · subst hwv
        have := h.entry t (by simp) w hw
        unfold EntryOk at this ⊢
        rw [if_pos hP] at this
        simp only [Pgdir.pte_setPte, ↓reduceIte, if_pos hP', Pgdir.pde_setPte, hPG, ha]
        exact ⟨this.1, this.2.1, hC⟩
      · exact (h.entry t (by simp) w hw).setPte hwv
    · exact h.entry u (by simp [hu]) w hw
  · intro u hu
    rcases List.mem_cons.1 hu with rfl | hu
    · rw [hfr]; exact h.inj t (by simp)
    · exact h.inj u (by simp [hu])
  · intro u hu w f hf hWu
    rw [hc]
    rcases List.mem_cons.1 hu with rfl | hu
    · by_cases hwv : w = v
      · subst hwv
        obtain ⟨hlt, _, hadr⟩ := Pgdir.frame_eq_some.1 hf
        simp only [Pgdir.pte_setPte, ↓reduceIte] at hWu hadr
        rw [← hadr]
        exact hW hlt hWu
      · rw [hfr] at hf
        rw [Pgdir.pte_setPte, if_neg hwv] at hWu
        exact h.excl t (by simp) w f hf hWu
    · exact h.excl u (by simp [hu]) w f hf hWu
  · intro f hf
    rw [hc] at hf ⊢
    exact h.refs f hf

/-- The page at `v` goes: its frame keeps the references of the other tables, and may go on the
free list when there is none. -/
theorem MemInv.clear (h : MemInv L k ks (t :: ts) sw) {v f : Nat} (hv : t.frame v = some f) {k' : Kmem}
    (hother : ∀ g, g ≠ f → k'.pageRefsNum g = k.pageRefsNum g)
    (hfree : k'.freelist = k.freelist ∨ (k'.freelist = f :: k.freelist ∧ cnt (frames ts) f = 0))
    (hR : 0 < cnt (frames ts) f → L.R (sw f) (k'.pageRefsNum f) (cnt (frames ts) f)) :
    MemInv L k' ks (t.setPte v {} :: ts) sw := by
  have hlt := (Pgdir.frame_eq_some.1 hv).1
  have hfr : (t.setPte v {}).frame = Function.update t.frame v none := t.frame_setPte hlt {}
  have hinj := h.inj t (by simp)
  have hmap : ∀ g, Maps (t.setPte v {}).frame g ↔ Maps t.frame g ∧ g ≠ f := fun g => by
    rw [hfr]; exact maps_clear hinj hv g
  have hcnt : ∀ g, cnt (frames (t :: ts)) g = cnt (frames (t.setPte v {} :: ts)) g + if g = f then 1 else 0 :=
    fun g => by rw [frames_cons, frames_cons, hfr]; exact cnt_clear hinj _ hv g
  have hf : cnt (frames (t.setPte v {} :: ts)) f = cnt (frames ts) f := by
    rw [frames_cons, cnt_cons, if_neg (fun hm => ((hmap f).1 hm).2 rfl), Nat.add_zero]
  obtain ⟨hfok, hfn⟩ := h.user t (by simp) f ⟨v, hv⟩
  have hkf : ∀ g, g ∈ kernelFrames k' ks (t.setPte v {} :: ts) →
      g ∈ kernelFrames k ks (t :: ts) ∨ (g = f ∧ cnt (frames ts) f = 0) := by
    intro g hg
    rw [kernelFrames_setPte, kernelFrames, List.mem_append] at hg
    rw [kernelFrames, List.mem_append]
    rcases hfree with hfree | ⟨hfree, h0⟩
    · rw [hfree] at hg; exact .inl hg
    · rw [hfree, List.mem_cons] at hg
      rcases hg with (rfl | hg) | hg
      · exact .inr ⟨rfl, h0⟩
      · exact .inl (.inl hg)
      · exact .inl (.inr hg)
  refine ⟨h.few, ?_, ?_, ?_, ?_, ?_, ?_, ?_⟩
  · rw [kernelFrames_setPte]
    have hnd := h.nodup
    rcases hfree with hfree | ⟨hfree, _⟩
    · rw [kernelFrames, hfree]; exact hnd
    · rw [kernelFrames, hfree, List.cons_append, List.nodup_cons]
      exact ⟨hfn, hnd⟩
  · intro g hg
    rcases hkf g hg with hg | ⟨rfl, _⟩
    · exact h.frameOk g hg
    · exact hfok
  · intro u hu g hg
    have hold : Maps u.frame g ∨ (u = t.setPte v {} ∧ Maps t.frame g ∧ g ≠ f) := by
      rcases List.mem_cons.1 hu with rfl | _
      · exact .inr ⟨rfl, (hmap g).1 hg⟩
      · exact .inl hg
    have huser : c.FrameOk g ∧ g ∉ kernelFrames k ks (t :: ts) := by
      rcases List.mem_cons.1 hu with rfl | hu
      · exact h.user t (by simp) g ((hmap g).1 hg).1
      · exact h.user u (by simp [hu]) g hg
    refine ⟨huser.1, fun hm => ?_⟩
    rcases hkf g hm with hm | ⟨rfl, h0⟩
    · exact huser.2 hm
    · rcases List.mem_cons.1 hu with rfl | hu
      · exact ((hmap g).1 hg).2 rfl
      · exact cnt_frames_eq_zero.1 h0 u hu hg
  · intro u hu w hw
    rcases List.mem_cons.1 hu with rfl | hu
    · by_cases hwv : w = v
      · subst hwv; simp [EntryOk, Pgdir.pte_setPte]
      · exact (h.entry t (by simp) w hw).setPte hwv
    · exact h.entry u (by simp [hu]) w hw
  · intro u hu
    rcases List.mem_cons.1 hu with rfl | hu
    · rw [hfr]; exact hinj.clear v
    · exact h.inj u (by simp [hu])
  · intro u hu w g hg hW
    have hone : cnt (frames (t :: ts)) g = 1 := by
      rcases List.mem_cons.1 hu with rfl | hu
      · rw [hfr, Function.update_apply] at hg
        split at hg
        · cases hg
        · rename_i hwv
          rw [Pgdir.pte_setPte, if_neg hwv] at hW
          exact h.excl t (by simp) w g hg hW
      · exact h.excl u (by simp [hu]) w g hg hW
    have hpos : 0 < cnt (frames (t.setPte v {} :: ts)) g := cnt_frames_pos hu ⟨w, hg⟩
    have := hcnt g
    omega
  · intro g hg
    by_cases hgf : g = f
    · subst hgf
      rw [hf] at hg ⊢
      exact hR hg
    · rw [hother g hgf]
      have hcg := hcnt g
      rw [if_neg hgf, Nat.add_zero] at hcg
      rw [← hcg] at hg ⊢
      exact h.refs g hg

/-- A frame of the kernel's becomes a page of the program. -/
theorem MemInv.mapFresh {f : Nat} (h : MemInv L k (f :: ks) (t :: ts) sw) {v : Nat} {e : Pte}
    (hlt : v < USERPAGES) (hv : t.frame v = none) (hpde : (t.pde (v / NPTENTRIES)).isSome = true)
    (hP : e.P = true) (ha : e.addr = f) (hPG : e.PG = false) (hC : e.W = false → e.C = true)
    (hR : L.R false (k.pageRefsNum f) 1) :
    MemInv L k ks (t.setPte v e :: ts) (Function.update sw f false) := by
  have hfr : (t.setPte v e).frame = Function.update t.frame v (some f) := by
    rw [t.frame_setPte hlt, Pte.frame, if_pos hP, ha]
  have hperm : (kernelFrames k (f :: ks) (t :: ts)).Perm (f :: kernelFrames k ks (t :: ts)) := List.perm_middle
  have hnd := hperm.nodup_iff.1 h.nodup
  rw [List.nodup_cons] at hnd
  have hkf : f ∈ kernelFrames k (f :: ks) (t :: ts) := hperm.mem_iff.2 (by simp)
  have hno : ∀ u ∈ t :: ts, ¬ Maps u.frame f := fun u hu hm => (h.user u hu f hm).2 hkf
  have hmap : ∀ g, Maps (t.setPte v e).frame g ↔ Maps t.frame g ∨ g = f := fun g => by
    rw [hfr]; exact maps_set hv f g
  have hcnt : ∀ g, cnt (frames (t.setPte v e :: ts)) g = cnt (frames (t :: ts)) g + if g = f then 1 else 0 :=
    fun g => by rw [frames_cons, frames_cons, hfr]; exact cnt_set _ hv (hno t (by simp)) g
  have hne : ∀ u ∈ t :: ts, ∀ w, u.frame w ≠ some f := fun u hu w hw => hno u hu ⟨w, hw⟩
  have hadr : ∀ u ∈ t :: ts, ∀ w < USERPAGES, (u.pte w).P = true → (u.pte w).addr ≠ f :=
    fun u hu w hw hP ha' => hne u hu w (Pgdir.frame_eq_some.2 ⟨hw, hP, ha'⟩)
  refine ⟨h.few, hnd.2, ?_, ?_, ?_, ?_, ?_, ?_⟩
  · intro g hg
    exact h.frameOk g (hperm.mem_iff.2 (List.mem_cons_of_mem _ hg))
  · intro u hu g hg
    have hsub : ∀ g, Maps u.frame g → u ∈ t :: ts → c.FrameOk g ∧ g ∉ kernelFrames k ks (t :: ts) := by
      intro g hg hu
      obtain ⟨h1, h2⟩ := h.user u hu g hg
      exact ⟨h1, fun hm => h2 (hperm.mem_iff.2 (List.mem_cons_of_mem _ hm))⟩
    rcases List.mem_cons.1 hu with rfl | hu
    · rcases (hmap g).1 hg with hg | rfl
      · obtain ⟨h1, h2⟩ := h.user t (by simp) g hg
        exact ⟨h1, fun hm => h2 (hperm.mem_iff.2 (List.mem_cons_of_mem _ hm))⟩
      · exact ⟨h.frameOk g hkf, hnd.1⟩
    · exact hsub g hg (by simp [hu])
  · intro u hu w hw
    rcases List.mem_cons.1 hu with rfl | hu
    · by_cases hwv : w = v
      · subst hwv
        unfold EntryOk
        simp only [Pgdir.pte_setPte, ↓reduceIte, if_pos hP, Pgdir.pde_setPte, hPG, ha, Function.update_self]
        exact ⟨hpde, trivial, hC⟩
      · exact ((h.entry t (by simp) w hw).update false (hadr t (by simp) w hw)).setPte hwv
    · exact (h.entry u (by simp [hu]) w hw).update false (hadr u (by simp [hu]) w hw)
  · intro u hu
    rcases List.mem_cons.1 hu with rfl | hu
    · rw [hfr]
      exact (h.inj t (by simp)).set fun w _ => hne t (by simp) w
    · exact h.inj u (by simp [hu])
  · intro u hu w g hg hW
    rw [hcnt]
    rcases List.mem_cons.1 hu with rfl | hu
    · rw [hfr, Function.update_apply] at hg
      split at hg
      · obtain rfl := Option.some.inj hg
        rw [if_pos rfl, cnt_frames_eq_zero.2 hno]
      · rename_i hwv
        rw [Pgdir.pte_setPte, if_neg hwv] at hW
        rw [if_neg (by rintro rfl; exact hne t (by simp) w hg)]
        exact h.excl t (by simp) w g hg hW
    · rw [if_neg (by rintro rfl; exact hne u (by simp [hu]) w hg)]
      exact h.excl u (by simp [hu]) w g hg hW
  · intro g hg
    rw [hcnt] at hg ⊢
    by_cases hgf : g = f
    · subst hgf
      rw [if_pos rfl, cnt_frames_eq_zero.2 hno, Function.update_self]
      exact hR
    · rw [if_neg hgf, Nat.add_zero] at hg ⊢
      rw [Function.update_apply, if_neg hgf]
      exact h.refs g hg

/-- A page of the first table becomes a page of the next one too, read-only in both. -/
theorem MemInv.share {o : Pgdir} (h : MemInv L k ks (o :: t :: ts) sw) {v f : Nat} {e : Pte} {us : List Pgdir}
    (hv : o.frame v = none) (hpde : (o.pde (v / NPTENTRIES)).isSome = true) (hno : ¬ Maps o.frame f)
    (ht : t.frame v = some f) (hWt : (t.pte v).W = false) (he : e = t.pte v)
    (hok : L.Ok us (.share (k.pageRefsNum f))) :
    k.pageRefsNum f + 1 < UINT ∧
      MemInv L (k.setRefs f (k.pageRefsNum f + 1)) ks (o.setPte v e :: t :: ts) sw := by
  obtain ⟨hlt, hP, ha⟩ := Pgdir.frame_eq_some.1 ht
  have hfr : (o.setPte v e).frame = Function.update o.frame v (some f) := by
    rw [o.frame_setPte hlt, he, Pte.frame, if_pos hP, ha]
  have hcnt : ∀ g, cnt (frames (o.setPte v e :: t :: ts)) g =
      cnt (frames (o :: t :: ts)) g + if g = f then 1 else 0 := fun g => by
    rw [frames_cons, frames_cons, hfr]; exact cnt_set _ hv hno g
  have hpos : 0 < cnt (frames (o :: t :: ts)) f := cnt_frames_pos (t := t) (by simp) ⟨v, ht⟩
  have hle : cnt (frames (o :: t :: ts)) f ≤ NPROC + 2 := by
    have h1 := cnt_le_length (frames (o :: t :: ts)) f
    rw [show (frames (o :: t :: ts)).length = (o :: t :: ts).length from List.length_map _] at h1
    exact h1.trans h.few
  obtain ⟨hwrap, hR⟩ := L.share (h.refs f hpos) hok hle
  -- nobody may write the frame: `t` maps it without, any other page of it would make two
  have hnoW : ∀ u ∈ o :: t :: ts, ∀ w, u.frame w = some f → (u.pte w).W = false := by
    intro u hu w hw
    by_contra hW
    have hone := h.excl u hu w f hw (by simpa using hW)
    rcases List.mem_cons.1 hu with rfl | hu
    · exact hno ⟨w, hw⟩
    rcases List.mem_cons.1 hu with rfl | hu
    · obtain rfl := h.inj u (by simp) w v f hw ht
      exact hW hWt
    · have h1 := cnt_frames_pos hu ⟨w, hw⟩
      have h2 : Maps t.frame f := ⟨v, ht⟩
      rw [frames_cons, frames_cons, cnt_cons, cnt_cons, if_pos h2] at hone
      omega
  obtain ⟨hfok, hfn⟩ := h.user t (by simp) f ⟨v, ht⟩
  have het := h.entry t (by simp) v hlt
  rw [EntryOk, if_pos hP] at het
  refine ⟨hwrap, h.few, h.nodup, h.frameOk, ?_, ?_, ?_, ?_, ?_⟩
  · intro u hu g hg
    rcases List.mem_cons.1 hu with rfl | hu
    · rw [hfr, maps_set hv] at hg
      rcases hg with hg | rfl
      · exact h.user o (by simp) g hg
      · exact ⟨hfok, hfn⟩
    · exact h.user u (List.mem_cons_of_mem _ hu) g hg
  · intro u hu w hw
    rcases List.mem_cons.1 hu with rfl | hu
    · by_cases hwv : w = v
      · subst hwv
        unfold EntryOk
        simp only [Pgdir.pte_setPte, ↓reduceIte, he, if_pos hP, Pgdir.pde_setPte]
        exact ⟨hpde, het.2⟩
      · exact (h.entry o (by simp) w hw).setPte hwv
    · exact h.entry u (List.mem_cons_of_mem _ hu) w hw
  · intro u hu
    rcases List.mem_cons.1 hu with rfl | hu
    · rw [hfr]
      exact (h.inj o (by simp)).set fun w _ hw => hno ⟨w, hw⟩
    · exact h.inj u (List.mem_cons_of_mem _ hu)
  · intro u hu w g hg hW
    rw [hcnt]
    have hold : ∀ u ∈ o :: t :: ts, u.frame w = some g → (u.pte w).W = true →
        cnt (frames (o :: t :: ts)) g + (if g = f then 1 else 0) = 1 := by
      intro u hu hg hW
      have hgf : g ≠ f := by
        rintro rfl
        rw [hnoW u hu w hg] at hW
        cases hW
      rw [if_neg hgf]
      exact h.excl u hu w g hg hW
    rcases List.mem_cons.1 hu with rfl | hu
    · by_cases hwv : w = v
      · subst hwv
        rw [Pgdir.pte_setPte, if_pos rfl, he, hWt] at hW
        cases hW
      · rw [hfr, Function.update_apply, if_neg hwv] at hg
        rw [Pgdir.pte_setPte, if_neg hwv] at hW
        exact hold o (by simp) hg hW
    · exact hold u (List.mem_cons_of_mem _ hu) hg hW
  · intro g hg
    rw [hcnt] at hg ⊢
    rw [Kmem.setRefs_refs]
    by_cases hgf : g = f
    · subst hgf
      rw [if_pos rfl, if_pos rfl]
      exact hR
    · rw [if_neg hgf] at hg ⊢
      rw [if_neg hgf]
      exact h.refs g hg

/-- `swapToFile` on a page nobody else maps: the page stays mapped, its count is one less. -/
theorem MemInv.swapOut (h : MemInv L k ks (t :: ts) sw) {v f : Nat} (hv : t.frame v = some f)
    (hone : cnt (frames (t :: ts)) f = 1) (h0 : 0 < k.pageRefsNum f)
    (hR : L.R true (k.pageRefsNum f - 1) 1) :
    MemInv L (k.drop f) ks (t.setPte v { t.pte v with PG := true } :: ts) (Function.update sw f true) := by
  obtain ⟨hlt, hP, ha⟩ := Pgdir.frame_eq_some.1 hv
  have hdrop : k.drop f = k.setRefs f (k.pageRefsNum f - 1) := by rw [Kmem.drop, if_neg (by omega)]
  have hfr : (t.setPte v { t.pte v with PG := true }).frame = t.frame := by
    rw [t.frame_setPte hlt, Pte.frame, if_pos hP, ← Pgdir.frame_of hlt hP, Function.update_eq_self]
  have hc : frames (t.setPte v { t.pte v with PG := true } :: ts) = frames (t :: ts) := by
    rw [frames_cons, hfr, frames_cons]
  have hm : Maps t.frame f := ⟨v, hv⟩
  have hno : ∀ u ∈ ts, ¬ Maps u.frame f := by
    rw [← cnt_frames_eq_zero]
    rw [frames_cons, cnt_cons, if_pos hm] at hone
    omega
  rw [hdrop]
  refine ⟨h.few, h.nodup, h.frameOk, ?_, ?_, ?_, ?_, ?_⟩
  · intro u hu g hg
    rcases List.mem_cons.1 hu with rfl | hu
    · exact h.user t (by simp) g (hfr ▸ hg)
    · exact h.user u (by simp [hu]) g hg
  · intro u hu w hw
    rcases List.mem_cons.1 hu with rfl | hu
    · by_cases hwv : w = v
      · subst hwv
        have := h.entry t (by simp) w hw
        unfold EntryOk at this ⊢
        rw [if_pos hP] at this
        simp only [Pgdir.pte_setPte, ↓reduceIte, if_pos hP, Pgdir.pde_setPte, ha, Function.update_self]
        exact ⟨this.1, trivial, this.2.2⟩
      · refine ((h.entry t (by simp) w hw).update true fun hPw ha' => hwv ?_).setPte hwv
        exact h.inj t (by simp) w v f (Pgdir.frame_eq_some.2 ⟨hw, hPw, ha'⟩) hv
    · exact (h.entry u (by simp [hu]) w hw).update true
        fun hPu ha' => hno u hu ⟨w, Pgdir.frame_eq_some.2 ⟨hw, hPu, ha'⟩⟩
  · intro u hu
    rcases List.mem_cons.1 hu with rfl | hu
    · rw [hfr]; exact h.inj t (by simp)
    · exact h.inj u (by simp [hu])
  · intro u hu w g hg hW
    rw [hc]
    rcases List.mem_cons.1 hu with rfl | hu
    · rw [hfr] at hg
      by_cases hwv : w = v
      · subst hwv
        rw [hv] at hg
        rw [← Option.some.inj hg]
        exact hone
      · rw [Pgdir.pte_setPte, if_neg hwv] at hW
        exact h.excl t (by simp) w g hg hW
    · exact h.excl u (by simp [hu]) w g hg hW
  · intro g hg
    rw [hc] at hg ⊢
    rw [Kmem.setRefs_refs, Function.update_apply]
    by_cases hgf : g = f
    · subst hgf
      rw [if_pos rfl, if_pos rfl, hone]
      exact hR
    · rw [if_neg hgf, if_neg hgf]
      exact h.refs g hg

/-! ## The kernel's own frames -/

/-- Frames nobody maps change hands inside the kernel. -/
theorem MemInv.kernel (h : MemInv L k ks ts sw) {k' : Kmem} {ks' : List Nat}
    (hnd : (kernelFrames k' ks' ts).Nodup) (hsub : ∀ f ∈ kernelFrames k' ks' ts, f ∈ kernelFrames k ks ts)
    (hrefs : ∀ f, f ∉ kernelFrames k ks ts → k'.pageRefsNum f = k.pageRefsNum f) :
    MemInv L k' ks' ts sw := by
  refine ⟨h.few, hnd, fun f hf => h.frameOk f (hsub f hf), ?_, h.entry, h.inj, h.excl, ?_⟩
  · intro t ht f hf
    obtain ⟨h1, h2⟩ := h.user t ht f hf
    exact ⟨h1, fun hm => h2 (hsub f hm)⟩
  · intro f hf
    have hnot : f ∉ kernelFrames k ks ts := by
      intro hm
      have h0 : cnt (frames ts) f = 0 := cnt_frames_eq_zero.2 fun t ht hmap => (h.user t ht f hmap).2 hm
      omega
    rw [hrefs f hnot]
    exact h.refs f hf

/-- `kalloc` gives the kernel a frame nobody maps, with count 1. -/
theorem MemInv.kalloc (h : MemInv L k ks ts sw) {mem : Nat} {k' : Kmem}
    (hk : Xv6.kalloc k = (some mem, k')) :
    ∃ f, mem = kva f ∧ c.FrameOk f ∧ V2P mem / PGSIZE = f ∧ k'.pageRefsNum f = 1 ∧
      (∀ t ∈ ts, ¬ Maps t.frame f) ∧ MemInv L k' (f :: ks) ts sw := by
  rcases kalloc_cases k with ⟨_, hn⟩ | ⟨f, rest, hl, hs⟩
  · rw [hn] at hk; cases hk
  rw [hs] at hk
  obtain ⟨rfl, rfl⟩ : kva f = mem ∧ _ = k' := by simpa using hk
  have hmem : f ∈ kernelFrames k ks ts := by simp [kernelFrames, hl]
  have hok := h.frameOk f hmem
  have hperm : (kernelFrames ⟨rest, (k.amountOfFreePages + UINT - 1) % UINT,
      Function.update k.pageRefsNum f 1⟩ (f :: ks) ts).Perm (kernelFrames k ks ts) := by
    simp only [kernelFrames, hl, List.cons_append]
    exact List.perm_middle
  refine ⟨f, rfl, hok, by rw [V2P_kva hok, mul_PGSIZE_div], by simp, ?_, ?_⟩
  · exact fun t ht hm => (h.user t ht f hm).2 hmem
  · refine h.kernel (hperm.nodup_iff.2 h.nodup) (fun g hg => hperm.mem_iff.1 hg) fun g hg => ?_
    show Function.update k.pageRefsNum f 1 g = k.pageRefsNum g
    rw [Function.update_apply, if_neg]
    rintro rfl
    exact hg hmem

/-- `kfree` of a frame of the kernel's: free, or lost with one reference less. -/
theorem MemInv.dropKernel {f : Nat} (h : MemInv L k (f :: ks) ts sw) : MemInv L (k.drop f) ks ts sw := by
  have hperm : (kernelFrames k (f :: ks) ts).Perm (f :: kernelFrames k ks ts) := List.perm_middle
  have hmem : f ∈ kernelFrames k (f :: ks) ts := hperm.mem_iff.2 (by simp)
  have hnd := hperm.nodup_iff.1 h.nodup
  unfold Kmem.drop
  split
  · exact h.kernel hnd (fun g hg => hperm.mem_iff.2 hg) fun _ _ => rfl
  · refine h.kernel (List.nodup_cons.1 hnd).2 (fun g hg => hperm.mem_iff.2 (List.mem_cons_of_mem _ hg)) ?_
    intro g hg
    rw [Kmem.setRefs_refs, if_neg]
    rintro rfl
    exact hg hmem

theorem MemInv.kernelOk {f : Nat} (h : MemInv L k (f :: ks) ts sw) : c.FrameOk f :=
  h.frameOk f (List.perm_middle.mem_iff.2 (List.mem_cons_self ..))

/-- Frames of the kernel's become part of the first table, and back; its entries stay. -/
theorem MemInv.table {t' : Pgdir} (h : MemInv L k ks (t :: ts) sw) {ks' : List Nat}
    (hp : (ks' ++ t'.pages).Perm (ks ++ t.pages)) (hpte : ∀ v < USERPAGES, t'.pte v = t.pte v)
    (hpde : ∀ v < USERPAGES, (t.pte v).P = true → (t.pde (v / NPTENTRIES)).isSome = true →
      (t'.pde (v / NPTENTRIES)).isSome = true) :
    MemInv L k ks' (t' :: ts) sw := by
  have hfr : t'.frame = t.frame := by
    funext v
    by_cases hv : v < USERPAGES
    · simp only [Pgdir.frame, hpte v hv]
    · simp [Pgdir.frame, hv]
  have hc : frames (t' :: ts) = frames (t :: ts) := by rw [frames_cons, hfr, frames_cons]
  have hperm : (kernelFrames k ks' (t' :: ts)).Perm (kernelFrames k ks (t :: ts)) := by
    refine List.Perm.append_left _ ?_
    simp only [List.flatMap_cons, ← List.append_assoc]
    exact hp.append_right _
  refine ⟨h.few, hperm.nodup_iff.2 h.nodup, fun f hf => h.frameOk f (hperm.mem_iff.1 hf), ?_, ?_, ?_, ?_, ?_⟩
  · intro u hu f hf
    have : c.FrameOk f ∧ f ∉ kernelFrames k ks (t :: ts) := by
      rcases List.mem_cons.1 hu with rfl | hu
      · exact h.user t (by simp) f (hfr ▸ hf)
      · exact h.user u (by simp [hu]) f hf
    exact ⟨this.1, fun hm => this.2 (hperm.mem_iff.1 hm)⟩
  · intro u hu v hv
    rcases List.mem_cons.1 hu with rfl | hu
    · have := h.entry t (by simp) v hv
      unfold EntryOk at this ⊢
      rw [hpte v hv]
      split
      · rename_i hP
        rw [if_pos hP] at this
        exact ⟨hpde v hv hP this.1, this.2⟩
      · rename_i hP
        rw [if_neg hP] at this
        exact this
    · exact h.entry u (by simp [hu]) v hv
  · intro u hu
    rcases List.mem_cons.1 hu with rfl | hu
    · rw [hfr]; exact h.inj t (by simp)
    · exact h.inj u (by simp [hu])
  · intro u hu v f hf hW
    rw [hc]
    rcases List.mem_cons.1 hu with rfl | hu
    · rw [hfr] at hf
      rw [hpte v (Pgdir.frame_eq_some.1 hf).1] at hW
      exact h.excl t (by simp) v f hf hW
    · exact h.excl u (by simp [hu]) v f hf hW
  · intro f hf
    rw [hc] at hf ⊢
    exact h.refs f hf

/-- One more directory entry. -/
theorem pages_update_pde {t t' : Pgdir} {d f : Nat} (hd : d < NPDENTRIES) (hn : t.pde d = none)
    (hpage : t'.page = t.page) (hpde : t'.pde = Function.update t.pde d (some f)) :
    t'.pages.Perm (f :: t.pages) := by
  have hgen : ∀ n, d < n →
      ((List.range n).filterMap (Function.update t.pde d (some f))).Perm (f :: (List.range n).filterMap t.pde) := by
    intro n
    induction n with
    | zero => intro h; exact absurd h (by omega)
    | succ n ih =>
      intro hdn
      rw [List.range_succ, List.filterMap_append, List.filterMap_append]
      by_cases hn' : d < n
      · have : Function.update t.pde d (some f) n = t.pde n := by
          rw [Function.update_apply, if_neg (by omega)]
        simp only [List.filterMap_cons, List.filterMap_nil, this]
        exact (ih hn').append_right _
      · obtain rfl : d = n := by omega
        have hsame : (List.range d).filterMap (Function.update t.pde d (some f)) =
            (List.range d).filterMap t.pde := by
          refine List.filterMap_congr fun i hi => ?_
          rw [Function.update_apply, if_neg (by have := List.mem_range.1 hi; omega)]
        simp [hsame, hn]
  rw [Pgdir.pages, Pgdir.pages, hpage, hpde]
  exact ((hgen NPDENTRIES hd).append_left _).trans List.perm_middle

/-! ## What the processor and the page replacement do to `PTE_A` -/

/-- The same table but for `PTE_A`, which comes only to present entries. -/
def Pgdir.Walked (t t' : Pgdir) : Prop :=
  t'.page = t.page ∧ t'.pde = t.pde ∧ ∀ v < USERPAGES, ∃ a, t'.pte v = { t.pte v with A := a } ∧
    (a = true → (t.pte v).A = true ∨ (t.pte v).P = true)

theorem Pgdir.Walked.refl (t : Pgdir) : t.Walked t := ⟨rfl, rfl, fun v _ => ⟨(t.pte v).A, rfl, .inl⟩⟩

theorem Pgdir.Walked.trans {t u r : Pgdir} (h : t.Walked u) (h' : u.Walked r) : t.Walked r := by
  obtain ⟨h1, h2, h3⟩ := h
  obtain ⟨h1', h2', h3'⟩ := h'
  refine ⟨h1'.trans h1, h2'.trans h2, fun v hv => ?_⟩
  obtain ⟨a, ha, hPa⟩ := h3 v hv
  obtain ⟨b, hb, hPb⟩ := h3' v hv
  refine ⟨b, by rw [hb, ha], fun hbt => ?_⟩
  rcases hPb hbt with h | h
  · rw [ha] at h
    exact hPa h
  · rw [ha] at h
    exact .inr h

/-- One entry's `PTE_A`. -/
theorem Pgdir.Walked.setPte (t : Pgdir) {v : Nat} {e : Pte} {a : Bool} (he : v < USERPAGES → e = t.pte v)
    (ha : a = true → e.P = true) : t.Walked (t.setPte v { e with A := a }) := by
  refine ⟨rfl, rfl, fun u hu => ?_⟩
  rw [Pgdir.pte_setPte]
  split
  · rename_i huv
    subst huv
    exact ⟨a, by rw [he hu], fun h => .inr (he hu ▸ ha h)⟩
  · exact ⟨(t.pte u).A, rfl, .inl⟩

theorem Pgdir.Walked.frame {t u : Pgdir} (h : t.Walked u) : u.frame = t.frame := by
  funext v
  by_cases hv : v < USERPAGES
  · obtain ⟨a, ha, _⟩ := h.2.2 v hv
    simp [Pgdir.frame, ha]
  · simp [Pgdir.frame, hv]

theorem MemInv.walked (h : MemInv L k ks (t :: ts) sw) {u : Pgdir} (hw : t.Walked u) :
    MemInv L k ks (u :: ts) sw := by
  have hfr := hw.frame
  obtain ⟨hpage, hpde, hpte⟩ := hw
  have hc : frames (u :: ts) = frames (t :: ts) := by rw [frames_cons, hfr, frames_cons]
  have hkf : kernelFrames k ks (u :: ts) = kernelFrames k ks (t :: ts) := by
    have : u.pages = t.pages := by rw [Pgdir.pages, Pgdir.pages, hpage, hpde]
    simp only [kernelFrames, List.flatMap_cons, this]
  refine ⟨h.few, hkf ▸ h.nodup, hkf ▸ h.frameOk, ?_, ?_, ?_, ?_, ?_⟩
  · intro r hr f hf
    rw [hkf]
    rcases List.mem_cons.1 hr with rfl | hr
    · exact h.user t (by simp) f (hfr ▸ hf)
    · exact h.user r (by simp [hr]) f hf
  · intro r hr v hv
    rcases List.mem_cons.1 hr with rfl | hr
    · have he := h.entry t (by simp) v hv
      obtain ⟨a, ha, hP⟩ := hpte v hv
      unfold EntryOk at he ⊢
      rw [ha, hpde]
      split
      · rename_i hp
        rw [if_pos hp] at he
        exact he
      · rename_i hp
        rw [if_neg hp] at he
        rw [he] at hP hp ⊢
        cases a with
        | false => rfl
        | true => rcases hP rfl with h | h <;> cases h
    · exact h.entry r (by simp [hr]) v hv
  · intro r hr
    rcases List.mem_cons.1 hr with rfl | hr
    · rw [hfr]; exact h.inj t (by simp)
    · exact h.inj r (by simp [hr])
  · intro r hr v f hf hW
    rw [hc]
    rcases List.mem_cons.1 hr with rfl | hr
    · rw [hfr] at hf
      obtain ⟨a, ha, _⟩ := hpte v (Pgdir.frame_eq_some.1 hf).1
      rw [ha] at hW
      exact h.excl t (by simp) v f hf hW
    · exact h.excl r (by simp [hr]) v f hf hW
  · intro f hf
    rw [hc] at hf ⊢
    exact h.refs f hf

/-! ## `walkpgdir` and `mappages` -/

/-- A page that is not present has an empty entry, so a fresh page table page agrees with it. -/
theorem MemInv.pte_of_no_pde (h : MemInv L k ks (t :: ts) sw) {v : Nat} (hv : v < USERPAGES)
    (hn : t.pde (v / NPTENTRIES) = none) : t.pte v = {} := by
  have he := h.entry t (by simp) v hv
  unfold EntryOk at he
  split at he
  · rw [hn] at he; simp at he
  · exact he

/-- `walkpgdir(.., 1)` brings in a page table page where there is none. -/
theorem MemInv.walkpgdirAlloc (h : MemInv L k ks (t :: ts) sw) {v : Nat} (hv : v < USERPAGES) {k' : Kmem}
    {t' : Pgdir} (hw : Xv6.walkpgdirAlloc k t v = some (k', t')) :
    MemInv L k' ks (t' :: ts) sw ∧ t'.frame = t.frame ∧ (t'.pde (v / NPTENTRIES)).isSome = true ∧
      (∀ u < USERPAGES, t'.pte u = t.pte u) ∧ (∀ f, f ∉ k.freelist → k'.pageRefsNum f = k.pageRefsNum f) := by
  unfold Xv6.walkpgdirAlloc at hw
  split at hw
  · rename_i g hg
    obtain ⟨rfl, rfl⟩ : k = k' ∧ t = t' := by simpa using hw
    exact ⟨h, rfl, by simp [hg], fun _ _ => rfl, fun _ _ => rfl⟩
  · rename_i hn
    split at hw
    · cases hw
    · rename_i mem k1 hk
      obtain ⟨f, _, _, hV, _, _, hI⟩ := h.kalloc hk
      rw [hV] at hw
      obtain ⟨rfl, rfl⟩ := Prod.mk.inj (Option.some.inj hw)
      have hpte : ∀ u < USERPAGES, (if u / NPTENTRIES = v / NPTENTRIES then ({} : Pte) else t.pte u) = t.pte u := by
        intro u hu
        split
        · rename_i hd
          exact (h.pte_of_no_pde hu (hd ▸ hn)).symm
        · rfl
      have hd : v / NPTENTRIES < NPDENTRIES := by
        simp only [USERPAGES, NPTENTRIES, NPDENTRIES] at *; omega
      have hpages : ({ t with
          pde := Function.update t.pde (v / NPTENTRIES) (some f)
          pte := fun u => if u / NPTENTRIES = v / NPTENTRIES then {} else t.pte u } : Pgdir).pages.Perm
          (f :: t.pages) := pages_update_pde hd hn rfl rfl
      refine ⟨hI.table ?_ hpte ?_, ?_, by simp, hpte, ?_⟩
      · exact (List.Perm.append_left ks hpages).trans List.perm_middle
      · intro u _ _ hs
        simp only [Function.update_apply]
        split
        · rfl
        · exact hs
      · funext u
        by_cases hu : u < USERPAGES
        · simp only [Pgdir.frame, hpte u hu]
        · simp [Pgdir.frame, hu]
      · intro g hg
        rcases kalloc_cases k with ⟨_, hno⟩ | ⟨f', rest, hl, hs⟩
        · rw [hno] at hk; cases hk
        · rw [hs] at hk
          obtain ⟨_, rfl⟩ := Prod.mk.inj hk
          show Function.update k.pageRefsNum f' 1 g = _
          rw [Function.update_apply, if_neg]
          rintro rfl
          exact hg (by simp [hl])

/-- A fresh frame mapped at `v`. -/
theorem MemInv.mappages {f : Nat} (h : MemInv L k (f :: ks) (t :: ts) sw) {v : Nat} (hv : v < USERPAGES)
    (hR : k.pageRefsNum f = 1) {k' : Kmem} {t' : Pgdir}
    (hm : Xv6.mappages k t v f permWU = .ok (some (k', t'))) :
    MemInv L k' ks (t' :: ts) (Function.update sw f false) ∧ t.frame v = none ∧
      t'.frame = Function.update t.frame v (some f) := by
  unfold Xv6.mappages at hm
  split at hm
  · cases hm
  · rename_i k1 t1 hw
    obtain ⟨hI, hfr, hpde, _, hrefs⟩ := h.walkpgdirAlloc hv hw
    split at hm
    · cases hm
    · rename_i hP
      obtain ⟨rfl, rfl⟩ := Prod.mk.inj (Option.some.inj (Except.ok.inj hm))
      have hnone : t1.frame v = none := Pgdir.frame_eq_none.2 fun _ => by simpa using hP
      have hf : f ∉ k.freelist := by
        have := h.nodup
        simp only [kernelFrames, List.cons_append] at this
        rw [List.nodup_middle, List.nodup_cons] at this
        exact fun hm => this.1 (List.mem_append_left _ hm)
      refine ⟨hI.mapFresh hv hnone hpde rfl rfl rfl (by simp [permWU]) ?_, hfr ▸ hnone, ?_⟩
      · rw [hrefs f hf, hR]
        exact L.fresh
      · rw [Pgdir.frame_setPte _ hv, hfr]
        rfl

end Xv6
