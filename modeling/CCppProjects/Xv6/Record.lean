import CCppProjects.Lib.Sat
import CCppProjects.Xv6.Syscall
import CCppProjects.Xv6.SwapSpec
/-
# What a call leaves on record

`txns open es` runs through the log transactions of `es`: `none` when one is opened inside another
or closed when none is open, otherwise whether one is still open. A call of the memory system that
comes back has closed every transaction it opened, one that halts may have one open; and none but
the handler of a write fault halts with one of its two panics (`Leaves`).
-/
namespace Xv6

variable {c : Cfg}

/-! ## Transactions -/

def txns : Bool → List Event → Option Bool
  | b, [] => some b
  | b, .beginOp :: es => if b then none else txns true es
  | b, .endOp :: es => if b then txns false es else none
  | b, _ :: es => txns b es

theorem txns_append (es es' : List Event) : ∀ b, txns b (es ++ es') = (txns b es).bind fun b => txns b es' := by
  induction es with
  | nil => intro b; rfl
  | cons ev es ih =>
    intro b
    cases ev <;> simp only [List.cons_append, txns, ih]
    · cases b <;> simp
    · cases b <;> simp

/-- Closed transactions and whatever else. -/
def Flat (es : List Event) : Prop := txns false es = some false

theorem Flat.append {es es' : List Event} (h : Flat es) (h' : Flat es') : Flat (es ++ es') := by
  rw [Flat, txns_append, show txns false es = some false from h]
  exact h'

theorem Flat.nil : Flat [] := rfl

theorem Flat.pair : Flat [.beginOp, .endOp] := rfl

theorem filewriteLoop_flat (src : Nat → UInt8) (base n : Nat) : ∀ (fuel i : Nat) (fl : SwapFile),
    Flat (filewriteLoop src base n fuel i fl).2
  | 0, _, _ => .nil
  | fuel + 1, i, fl => by
    rw [filewriteLoop]
    split
    · simp only
      split
      · exact .pair
      · exact Flat.pair.append (filewriteLoop_flat src base n fuel _ _)
    · exact .nil

theorem writeToSwapFile_flat (buffer : PageData) (place : Nat) (fl : SwapFile) :
    Flat (writeToSwapFile buffer place fl).2 :=
  filewriteLoop_flat ..

/-! ## Halts -/

/-- The panics of `handle_page_fault`. -/
def faultPanics : List Halt := [.panic "The page is already writeable\n", .panic "wrong ref count"]

def Quiet {α : Type} (m : Except Halt α) : Prop := Sat m (· ∉ faultPanics) fun _ => True

theorem Quiet.ok {α : Type} (a : α) : Quiet (.ok a) := Sat.ok trivial

theorem Quiet.error {α : Type} {h : Halt} (hh : h ∉ faultPanics) : Quiet (.error h : Except Halt α) := Sat.error hh

theorem Quiet.bind {α β : Type} {m : Except Halt α} {f : α → Except Halt β} (h : Quiet m) (hf : ∀ a, Quiet (f a)) :
    Quiet (m >>= f) := Sat.bind h fun a _ _ => hf a

theorem Quiet.ite {α : Type} {p : Prop} [Decidable p] {m m' : Except Halt α} (h : Quiet m) (h' : Quiet m') :
    Quiet (if p then m else m') := Sat.ite (fun _ => h) fun _ => h'

theorem kfree_quiet (v : Nat) (k : Kmem) : Quiet (kfree c v k) := by
  unfold kfree
  refine .ite (.error (by decide)) ?_
  exact .ite (.ok _) (.ok _)

theorem incRefCount_quiet (pa : Nat) (k : Kmem) : Quiet (incRefCount c pa k) :=
  .ite (.error (by decide)) (.ok _)

theorem decRefCount_quiet (pa : Nat) (k : Kmem) : Quiet (decRefCount c pa k) :=
  .ite (.error (by decide)) (.ok _)

theorem getRefCount_quiet (pa : Nat) (k : Kmem) : Quiet (getRefCount c pa k) :=
  .ite (.error (by decide)) (.ok _)

theorem wild_quiet {α : Type} (s : String) : Quiet (.error (.wild s) : Except Halt α) := by
  refine .error ?_
  simp [faultPanics]

theorem nullPte_quiet {α : Type} : Quiet (.error .nullPte : Except Halt α) :=
  .error (by decide)

theorem page_quiet (p : Proc) (i : Option Nat) : Quiet (p.page i) := by
  unfold Proc.page
  split
  · exact wild_quiet _
  · split
    · exact wild_quiet _
    · exact .ok _

theorem insert_quiet (i : Nat) (p : Proc) : Quiet (insert i p) :=
  .ite (.ok _) (wild_quiet _)

theorem insertOffsetQueue_quiet (off : Option Nat) (p : Proc) : Quiet (insertOffsetQueue off p) :=
  .ite (.ok _) (wild_quiet _)

theorem mappages_quiet (k : Kmem) (t : Pgdir) (v f : Nat) (perm : Pte) : Quiet (mappages k t v f perm) := by
  unfold mappages
  split
  · exact .ok _
  · exact .ite (.error (by decide)) (.ok _)

theorem deallocatePage_quiet (va : Nat) (p : Proc) : Quiet (deallocatePage c va p) := by
  unfold deallocatePage
  simp only
  split
  · exact (.error (by decide))
  · refine .bind ?_ fun _ => .ok _
    exact .ite (.ok _) (insertOffsetQueue_quiet _ _)

theorem scfifoScan_quiet (p : Proc) : ∀ (qs : List (Option Nat)) (t : Pgdir) (temp : List (Option Nat)),
    Quiet (scfifoScan c p qs t temp)
  | [], _, _ => .ok _
  | q :: qs, t, temp => by
    rw [scfifoScan]
    refine .bind (page_quiet _ _) fun pg => ?_
    split
    · exact nullPte_quiet
    · exact .ite (scfifoScan_quiet p qs _ _) (.ok _)

theorem nfuaScan_quiet (p : Proc) : ∀ n i m : Nat, Quiet (nfuaScan p n i m)
  | 0, _, _ => .ok _
  | n + 1, i, m => by
    rw [nfuaScan]
    exact .bind (page_quiet _ _) fun _ => .bind (page_quiet _ _) fun _ => nfuaScan_quiet p n _ _

theorem lapaScan_quiet (p : Proc) : ∀ (n i : Nat) (m : Option Nat) (age : Int) (count : Nat),
    Quiet (lapaScan p n i m age count)
  | 0, _, _, _, _ => .ok _
  | n + 1, i, m, age, count => by
    rw [lapaScan]
    refine .bind (page_quiet _ _) fun a => ?_
    refine .ite (lapaScan_quiet p n _ _ _ _) ?_
    exact .ite (lapaScan_quiet p n _ _ _ _) (lapaScan_quiet p n _ _ _ _)

theorem removeVictim_quiet (p : Proc) : Quiet (removeVictim c p) := by
  unfold removeVictim
  split
  · exact .ok _
  · unfold removeSCFIFO
    refine .bind (scfifoScan_quiet p _ _ _) ?_
    rintro ⟨t, temp, _ | ⟨q, rest⟩⟩
    swap
    · exact .ok _
    · simp only
      split
      · exact (.error (by decide))
      · exact .ok _
  · exact .bind (nfuaScan_quiet p _ _ _) fun _ => .ok _
  · unfold removeLAPA
    refine .bind (lapaScan_quiet p _ _ _ _ _) fun r => ?_
    split
    · exact (.error (by decide))
    · exact .ok _
  · exact .ok _

theorem selectPage_quiet (p : Proc) : Quiet (selectPage c p) :=
  .bind (removeVictim_quiet p) fun _ => .bind (page_quiet _ _) fun _ => .ok _

theorem recordSwapOut_quiet (addr offset : Nat) (p : Proc) : Quiet (recordSwapOut addr offset p) := by
  unfold recordSwapOut
  simp only
  split
  · exact wild_quiet _
  · exact .ok _

theorem freePdes_quiet (t : Pgdir) (ds : List Nat) : ∀ k : Kmem, Quiet (freePdes c ds t k) := by
  induction ds with
  | nil => exact fun _ => .ok _
  | cons d ds ih =>
    intro k
    rw [freePdes]
    split
    · apply ih
    · exact .bind (kfree_quiet _ _) ih

theorem uva2ka_quiet (t : Pgdir) (v : Nat) : Quiet (uva2ka c t v) := by
  unfold uva2ka
  split
  · exact nullPte_quiet
  · exact .ok _

theorem agingLoop_quiet (n : Nat) : ∀ (i : Nat) (p : Proc), Quiet (agingLoop c n i p) := by
  induction n with
  | zero => exact fun _ _ => .ok _
  | succ n ih =>
    intro i p
    simp only [agingLoop]
    split
    · split
      · exact nullPte_quiet
      · apply ih
    · apply ih

theorem advanceBody_quiet (i : Int) (p : Proc) : Quiet (advanceBody c i p) := by
  have hram : ∀ i, Quiet (p.ramAt i) := fun i => .ite (.ok _) (wild_quiet _)
  unfold advanceBody
  refine .bind (hram _) fun cur => .ite (.ok _) ?_
  refine .bind (hram _) fun _ => .bind (page_quiet _ _) fun _ => .bind (page_quiet _ _) fun _ => ?_
  split
  · exact .ite (.ok _) (.ok _)
  · exact nullPte_quiet

theorem advanceLoop_quiet : ∀ (n : Nat) (i : Int) (p : Proc), Quiet (advanceLoop c n i p)
  | 0, _, _ => .ok _
  | n + 1, i, p => by
    rw [advanceLoop]
    exact .ite (.bind (advanceBody_quiet i p) fun _ => advanceLoop_quiet n _ _) (.ok _)

theorem tick_quiet (p : Proc) : Quiet (tick c p) := by
  unfold tick
  split
  · exact agingLoop_quiet _ _ _
  · exact agingLoop_quiet _ _ _
  · exact advanceLoop_quiet _ _ _
  · exact .ok _
  · exact .ok _

/-! ## Calls -/

/-- What calls may leave on record: `fin` those that come back, `err h` those that halt with `h`. -/
structure Trail where
  fin : List Event → Prop
  err : Halt → List Event → Prop
  nil : fin []
  append : ∀ {es es'}, fin es → fin es' → fin (es ++ es')
  left : ∀ {es es' h}, fin es → err h es' → err h (es ++ es')
  quiet : ∀ {h}, h ∉ faultPanics → err h []

variable {T : Trail}

/-- From `x` to `x'` the record grows by what `T` allows. -/
def Ctx.Adds (T : Trail) (x x' : Ctx) : Prop := ∃ es, x'.log = x.log ++ es ∧ T.fin es

/-- The contract of a call that starts at `x` and comes back at `g` of its result. -/
def Leaves {α : Type} (T : Trail) (x : Ctx) (g : α → Ctx) (m : K α) : Prop :=
  Sat m (fun e => ∃ es, e.2 = x.log ++ es ∧ T.err e.1 es) fun a => x.Adds T (g a)

theorem Ctx.Adds.of_log {x x' : Ctx} (h : x'.log = x.log) : x.Adds T x' := ⟨[], by simp [h], T.nil⟩

theorem Ctx.Adds.refl (x : Ctx) : x.Adds T x := .of_log rfl

theorem Ctx.Adds.trans {x y z : Ctx} (h : x.Adds T y) (h' : y.Adds T z) : x.Adds T z := by
  obtain ⟨es, h1, h2⟩ := h
  obtain ⟨es', h3, h4⟩ := h'
  exact ⟨es ++ es', by rw [h3, h1, List.append_assoc], T.append h2 h4⟩

theorem Ctx.Adds.emit {x y : Ctx} {es : List Event} (h : x.Adds T y) (hes : T.fin es) : x.Adds T (y.emit es) :=
  h.trans ⟨es, rfl, hes⟩

theorem Ctx.Adds.err {x y : Ctx} {h : Halt} {es : List Event} (hy : x.Adds T y) (he : T.err h es) :
    ∃ es', y.log ++ es = x.log ++ es' ∧ T.err h es' := by
  obtain ⟨es', h1, h2⟩ := hy
  exact ⟨es' ++ es, by rw [h1, List.append_assoc], T.left h2 he⟩

theorem Leaves.from {α : Type} {x y : Ctx} {g : α → Ctx} {m : K α} (h : x.Adds T y) (hm : Leaves T y g m) :
    Leaves T x g m := by
  refine Sat.mono hm (fun e he => ?_) fun _ ha => h.trans ha
  obtain ⟨es, h1, h2⟩ := he
  rw [h1]
  exact h.err h2

theorem Leaves.ok {α : Type} {x : Ctx} {g : α → Ctx} {a : α} (h : x.Adds T (g a)) : Leaves T x g (.ok a) := Sat.ok h

theorem Leaves.same {α : Type} {x : Ctx} {g : α → Ctx} {a : α} (h : (g a).log = x.log) : Leaves T x g (.ok a) :=
  .ok (.of_log h)

theorem Leaves.halt {α : Type} {x y : Ctx} {g : α → Ctx} {h : Halt} (hl : x.Adds T y) (hh : h ∉ faultPanics) :
    Leaves T x g (y.halt h : K α) := by
  obtain ⟨es, h1, h2⟩ := hl
  refine Sat.error ⟨es, h1, ?_⟩
  have := T.left h2 (T.quiet hh)
  rwa [List.append_nil] at this

theorem Leaves.wild {α : Type} {x y : Ctx} {g : α → Ctx} {s : String} (hl : x.Adds T y) :
    Leaves T x g (y.halt (.wild s) : K α) := .halt hl (by simp [faultPanics])

theorem Leaves.bind {α β : Type} {x : Ctx} {g : α → Ctx} {g' : β → Ctx} {m : K α} {f : α → K β}
    (h : Leaves T x g m) (hf : ∀ a, Leaves T (g a) g' (f a)) : Leaves T x g' (m >>= f) :=
  Sat.bind h fun a _ ha => Leaves.from ha (hf a)

theorem Leaves.lift {α β : Type} {x y : Ctx} {g : β → Ctx} {m : Except Halt α} {f : α → K β} (hy : x.Adds T y)
    (h : Quiet m) (hf : ∀ a, Leaves T x g (f a)) : Leaves T x g (y.lift m >>= f) := by
  refine Sat.bind (Q := fun _ => True) (.intro (fun _ _ => trivial) fun e he => ?_) fun a _ _ => hf a
  cases m with
  | ok a => cases he
  | error h' =>
    cases he
    have := hy.err (T.quiet (h.of_error rfl))
    rwa [List.append_nil] at this

theorem Leaves.ite {α : Type} {x : Ctx} {g : α → Ctx} {p : Prop} [Decidable p] {m m' : K α} (h : Leaves T x g m)
    (h' : Leaves T x g m') : Leaves T x g (if p then m else m') := Sat.ite (fun _ => h) fun _ => h'

/-- Closed transactions; a halt may leave one open. -/
def closing : Trail where
  fin := Flat
  err h es := h ∉ faultPanics ∧ (txns false es).isSome = true
  nil := .nil
  append := .append
  left h h' := by
    refine ⟨h'.1, ?_⟩
    rw [txns_append, show txns false _ = some false from h]
    exact h'.2
  quiet h := ⟨h, rfl⟩

/-- Nothing. -/
def mute : Trail where
  fin es := es = []
  err h es := h ∉ faultPanics ∧ es = []
  nil := rfl
  append := by
    rintro es es' rfl rfl
    rfl
  left := by
    rintro es es' h rfl ⟨hh, rfl⟩
    exact ⟨hh, rfl⟩
  quiet h := ⟨h, rfl⟩

theorem Leaves.of_mute {α : Type} {x : Ctx} {g : α → Ctx} {m : K α} (h : Leaves mute x g m) : Leaves T x g m := by
  refine Sat.mono h ?_ ?_
  · rintro e ⟨es, h1, h2, rfl⟩
    exact ⟨[], h1, T.quiet h2⟩
  · rintro a ⟨es, h1, rfl⟩
    exact ⟨[], h1, T.nil⟩

/-! ## Calls that leave nothing -/

theorem freePage_mute (w : Tbl) (flag : Bool) (v : Nat) (x : Ctx) : Leaves mute x id (freePage c w flag v x) := by
  have hq : ∀ b : Bool, Quiet (if b then deallocatePage c (v * PGSIZE) x.proc else .ok x.proc) :=
    fun b => .ite (deallocatePage_quiet _ _) (.ok _)
  unfold freePage
  simp only
  refine .ite (.ite (.halt (.refl _) (by decide)) ?_) (.ite (.ite (.halt (.refl _) (by decide)) ?_) (.same rfl))
  · exact .lift (.refl _) (hq _) fun p => .lift (.refl _) (kfree_quiet _ _) fun k => .same (by simp)
  · exact .lift (.refl _) (hq _) fun p => .same (by simp)

theorem deallocuvmLoop_mute (w : Tbl) (oldsz : Nat) (flag : Bool) (n : Nat) : ∀ (v : Nat) (x : Ctx),
    Leaves mute x id (deallocuvmLoop c w oldsz flag n v x) := by
  induction n with
  | zero => exact fun _ _ => .same rfl
  | succ n ih =>
    intro v x
    rw [deallocuvmLoop]
    refine .ite (.same rfl) ?_
    split
    · apply ih
    · exact .bind (freePage_mute w flag v x) fun y => ih _ y

theorem deallocuvm_mute (w : Tbl) (oldsz newsz : Nat) (flag : Bool) (x : Ctx) :
    Leaves mute x Prod.snd (deallocuvm c w oldsz newsz flag x) := by
  unfold deallocuvm
  exact .ite (.same rfl) (.bind (deallocuvmLoop_mute w oldsz flag _ _ x) fun y => .same rfl)

theorem freevm_mute (x : Ctx) : Leaves mute x id (freevm c x) := by
  unfold freevm
  split
  · exact .halt (.refl _) (by decide)
  · refine .bind (deallocuvm_mute .other KERNBASE 0 false x) fun s => ?_
    refine .lift (.refl _) (freePdes_quiet _ _ _) fun k => ?_
    exact .lift (.refl _) (kfree_quiet _ _) fun k => .same rfl

theorem setupkvm_mute (x : Ctx) : Leaves mute x Prod.snd (setupkvm c x) := by
  unfold setupkvm
  split
  · exact .same rfl
  · split
    · exact .same rfl
    · exact .from (.of_log rfl) (.bind (freevm_mute _) fun y => .same rfl)

theorem recordPage_mute (w : Tbl) (v : Nat) (x : Ctx) : Leaves mute x id (recordPage c w v x) := by
  unfold recordPage
  simp only
  split
  · exact .wild (.refl _)
  · refine .lift (.refl _) (insert_quiet _ _) fun p => ?_
    split
    · exact .halt (.refl _) (by decide)
    · exact .same (by simp)

theorem allocPage_mute (w : Tbl) (v : Nat) (x : Ctx) : Leaves mute x Prod.snd (allocPage w v x) := by
  unfold allocPage
  split
  · exact .same rfl
  · refine .lift (.refl _) (mappages_quiet _ _ _ _ _) fun r => ?_
    split
    · exact .same rfl
    · exact .same (by simp)

theorem loaduvm_mute : ∀ (bs : List UInt8) (va : Nat) (x : Ctx), Leaves mute x id (loaduvm c va bs x)
  | [], _, _ => .same rfl
  | b :: bs, va, x => by
    rw [loaduvm]
    split
    · exact .halt (.refl _) (by decide)
    · exact .from (.of_log rfl) (loaduvm_mute bs _ _)

theorem clearpteu_mute (va : Nat) (x : Ctx) : Leaves mute x id (clearpteu c va x) := by
  unfold clearpteu
  split
  · exact .halt (.refl _) (by decide)
  · exact .same rfl

theorem copyout_mute : ∀ (bs : List UInt8) (va : Nat) (x : Ctx), Leaves mute x Prod.snd (copyout c va bs x)
  | [], _, _ => .same rfl
  | b :: bs, va, x => by
    rw [copyout]
    refine .lift (.refl _) (uva2ka_quiet _ _) fun r => ?_
    split
    · exact .same rfl
    · exact .from (.of_log rfl) (copyout_mute bs _ _)

/-! ## The memory functions -/

theorem writeUserPage_leaves (addr offset : Nat) (x : Ctx) : Leaves closing x id (writeUserPage c addr offset x) := by
  have hput : ∀ (fl : SwapFile) (page : PageData), x.Adds closing
      ((x.setProc { x.proc with swapFile := some (writeToSwapFile page offset fl).1 }).emit
        (writeToSwapFile page offset fl).2) :=
    fun fl page => .emit (.of_log rfl) (writeToSwapFile_flat _ _ _)
  -- the first transaction is open when the kernel reads the page
  have hopen : ∀ h : Halt, h ∉ faultPanics → Leaves closing x id ((x.emit [.beginOp]).halt h : K Ctx) :=
    fun h hh => Sat.error ⟨_, rfl, hh, rfl⟩
  unfold writeUserPage
  split
  · exact .wild (.refl x)
  · rename_i fl _
    refine .ite (.ok (hput fl _)) ?_
    split
    · exact hopen _ (by decide)
    · exact .ite (.ok (hput fl _)) (hopen _ (by decide))

theorem releasePage_leaves (w : Tbl) (addr : Nat) (x : Ctx) : Leaves closing x id (releasePage c w addr x) := by
  unfold releasePage
  split
  · exact .halt (.refl x) (by decide)
  · rename_i e _
    have hev : Flat [.swapOut (x.kmem.pageRefsNum e.addr) e] := rfl
    exact .lift ⟨_, by simp, hev⟩ (kfree_quiet _ _) fun k => .ok ⟨_, by simp, hev⟩

theorem swapToFile_leaves (w : Tbl) (x : Ctx) : Leaves closing x id (swapToFile c w x) := by
  have hx : x.Adds closing (x.emit [.swapCall x.proc]) := ⟨_, rfl, rfl⟩
  unfold swapToFile
  refine .lift hx (selectPage_quiet _) fun s => .from hx ?_
  refine .from (.of_log rfl) (.bind (writeUserPage_leaves s.1 _ ((x.emit [.swapCall x.proc]).setProc _)) fun y => ?_)
  exact .lift (.refl y) (recordSwapOut_quiet _ _ _) fun p => .from (.of_log rfl)
    (releasePage_leaves w s.1 (y.setProc p))

section
-- what `swapToFile` leaves, `allocuvm` leaves
variable (hT : ∀ w n, T.fin [.growFailed w n]) (hs : ∀ w x, Leaves T x id (swapToFile c w x))
include hT hs

theorem allocuvmLoop_leaves (w : Tbl) (oldsz newsz : Nat) (n : Nat) : ∀ (v : Nat) (x : Ctx),
    Leaves T x Prod.snd (allocuvmLoop c w oldsz newsz n v x) := by
  induction n with
  | zero => exact fun _ _ => .same rfl
  | succ n ih =>
    intro v x
    rw [allocuvmLoop]
    refine .ite (.same rfl) ?_
    refine .bind (g := id) (.ite (hs w x) (.same rfl)) fun y => ?_
    refine .bind (allocPage_mute w v y).of_mute ?_
    rintro ⟨r, z⟩
    have hz : z.Adds T (z.emit [.growFailed w (v - pgUp oldsz)]) := .emit (.refl z) (hT _ _)
    cases r with
    | noFrame => exact .from hz (.bind (deallocuvm_mute w newsz oldsz false _).of_mute fun s => .same rfl)
    | noTable mem =>
      refine .from hz (.bind (deallocuvm_mute w newsz oldsz false _).of_mute fun s => ?_)
      exact .lift (.refl s.2) (kfree_quiet _ _) fun k => .same rfl
    | done => exact .bind (g := id) (.ite (recordPage_mute w v z).of_mute (.same rfl)) fun u => ih _ u

theorem allocuvm_leaves (w : Tbl) (oldsz newsz : Nat) (x : Ctx) : Leaves T x Prod.snd (allocuvm c w oldsz newsz x) := by
  unfold allocuvm
  refine .ite (.same rfl) (.ite (.same rfl) ?_)
  exact .bind (allocuvmLoop_leaves hT hs w oldsz newsz _ _ x) fun s => .same rfl

theorem loadSegments_leaves : ∀ (phs : List Segment) (sz : Nat) (x : Ctx),
    Leaves T x Prod.snd (loadSegments c phs sz x)
  | [], _, _ => .same rfl
  | ph :: phs, sz, x => by
    rw [loadSegments]
    refine .ite (.same rfl) (.ite (loadSegments_leaves phs sz x) (.ite (.same rfl) (.ite (.same rfl) ?_)))
    refine .bind (allocuvm_leaves hT hs .other sz _ x) fun s => ?_
    refine .ite (.same rfl) (.ite (.same rfl) ?_)
    exact .bind (loaduvm_mute _ _ s.2).of_mute fun y => .ite (.same rfl) (loadSegments_leaves phs _ y)

end

theorem sharePage_leaves (v : Nat) (e : Pte) (x : Ctx) : Leaves closing x Prod.snd (sharePage c v e x) := by
  unfold sharePage
  refine .lift (.of_log (by simp)) (mappages_quiet _ _ _ _ _) fun r => ?_
  split
  · exact .same (by simp)
  · rename_i k _
    have hev : Flat [.share (k.pageRefsNum e.addr)] := rfl
    exact .lift ⟨_, by simp, hev⟩ (incRefCount_quiet _ _) fun k => .ok ⟨_, by simp, hev⟩

theorem copyuvmLoop_leaves (sz : Nat) (n : Nat) : ∀ (v : Nat) (x : Ctx),
    Leaves closing x Prod.snd (copyuvmLoop c sz n v x) := by
  induction n with
  | zero => exact fun _ _ => .same rfl
  | succ n ih =>
    intro v x
    rw [copyuvmLoop]
    refine .ite (.same rfl) ?_
    split
    · exact .halt (.refl x) (by decide)
    · rename_i e _
      refine .ite (.bind (sharePage_leaves v e x) fun s => .ite (ih _ s.2) (.same rfl)) ?_
      exact .ite (ih _ x) (.halt (.refl x) (by decide))

theorem copyuvm_leaves (sz : Nat) (x : Ctx) : Leaves closing x Prod.snd (copyuvm c sz x) := by
  unfold copyuvm
  refine .bind (setupkvm_mute x).of_mute fun s => .ite (.same rfl) ?_
  refine .bind (copyuvmLoop_leaves sz _ _ s.2) fun u => .ite (.same rfl) ?_
  exact .bind (freevm_mute u.2).of_mute fun y => .same rfl

/-! ## The system calls -/

theorem growproc_leaves (n : Int) (x : Ctx) : Leaves closing x Prod.snd (growproc c n x) := by
  unfold growproc
  refine .ite ?_ (.ite ?_ (.same rfl))
  · exact .bind (allocuvm_leaves (fun _ _ => rfl) swapToFile_leaves _ _ _ x) fun s =>
      .same (by simp only; split <;> rfl)
  · simp only
    refine .from (.of_log rfl) (.bind (deallocuvm_mute .own _ _ true _).of_mute fun s => ?_)
    exact .same (by split <;> rfl)

theorem copySwapLoop_flat (src : SwapFile) : ∀ (n i : Nat) (buffer : PageData) (dst : SwapFile) (es : List Event),
    Flat es → Flat (copySwapLoop src n i buffer dst es).2.2
  | 0, _, _, _, _, h => h
  | n + 1, i, buffer, dst, es, h => by
    rw [copySwapLoop]
    exact copySwapLoop_flat src n _ _ _ _ (h.append (writeToSwapFile_flat _ _ _))

theorem copySwapPages_leaves (f : Nat) (np : Proc) (x : Ctx) : Leaves closing x Prod.snd (copySwapPages f np x) := by
  unfold copySwapPages
  refine .ite (.same rfl) ?_
  split
  · exact .wild (.refl x)
  · exact .ok ⟨_, rfl, copySwapLoop_flat _ _ _ _ _ _ .nil⟩

theorem copySwapFile_leaves (np : Proc) (x : Ctx) : Leaves closing x Prod.snd (copySwapFile c np x) := by
  have hx : x.Adds closing (x.emit [.beginOp, .endOp]) := ⟨_, rfl, .pair⟩
  unfold copySwapFile
  simp only
  split
  · exact .halt hx (by decide)
  · rename_i newPage k _
    have hk : x.Adds closing ((x.emit [.beginOp, .endOp]).setKmem k) := hx.trans (.of_log rfl)
    refine .from hk (.bind (copySwapPages_leaves _ _ _) fun s => ?_)
    exact .lift (.refl s.2) (kfree_quiet _ _) fun k => .same rfl

/-- What a call of a process has put on record when it comes back with the machine. -/
def Ctx.recorded {α : Type} (x : Ctx) (s : α × List Event × Machine) : Ctx := { x with log := s.2.1 }

theorem forkInto_leaves (i j kstack : Nat) (np : Proc) (m : Machine) (x : Ctx) :
    Leaves closing x x.recorded (forkInto c i j kstack np m x) := by
  unfold forkInto
  refine .bind (copyuvm_leaves _ x) fun s => .ite ?_ ?_
  · refine .bind (g := Prod.snd) (.ite (copySwapFile_leaves _ s.2) (.same rfl)) fun u => .same rfl
  · exact .lift (.refl s.2) (kfree_quiet _ _) fun k => .same rfl

theorem fork_leaves (i : Nat) (p : Proc) (m : Machine) :
    Leaves closing (m.ctx p) (m.ctx p).recorded (fork c i p m) := by
  unfold fork
  simp only
  split
  · exact .same rfl
  · split
    · exact .same rfl
    · exact .from (.of_log rfl) (forkInto_leaves _ _ _ _ _ _)

theorem wait_leaves (i : Nat) (p : Proc) (m : Machine) :
    Leaves closing (m.ctx p) (m.ctx p).recorded (wait c i p m) := by
  unfold wait
  simp only
  split
  · exact .same rfl
  · rename_i q _
    have hx : (m.ctx p).Adds closing ((m.ctx p).setTbl .other q.pgdir) := .of_log rfl
    refine .lift hx ?_ fun k => .from (.of_log rfl) (.bind (freevm_mute _).of_mute fun y => .same rfl)
    split
    · exact .error (by decide)
    · exact kfree_quiet _ _

theorem exitOps_flat (p : Proc) : Flat (exitOps c p) := by
  unfold exitOps removeSwapFileOps
  split
  · split
    · rfl
    · rfl
  · rfl

theorem exit_leaves (i : Nat) (p : Proc) (m : Machine) :
    Sat (exit c i p m) (fun e => e.1 ∉ faultPanics ∧ (txns false e.2).isSome = true) fun s => Flat s.1 := by
  unfold exit
  exact .ite (fun _ => .error ⟨by decide, rfl⟩) fun _ => .ok (exitOps_flat _)

theorem trapRet_leaves (y : Ctx) (m : Machine) (i : Nat) (x : Ctx) : Leaves closing x y.recorded (trapRet c m i x) := by
  unfold trapRet
  refine .ite ?_ (.same rfl)
  have hex := exit_leaves (c := c) i x.proc (m.put i x)
  cases hx : exit c i x.proc (m.put i x) with
  | error e =>
    obtain ⟨hq, he⟩ := hex.of_error hx
    exact Sat.error ⟨e.2, rfl, hq, he⟩
  | ok s => exact .ok ⟨s.1, rfl, hex.of_ok hx⟩

/-! ## Steps -/

/-- Every step but a page fault of a program and `exec`. -/
def Op.plain : Op → Bool
  | .load _ _ | .store _ _ _ | .resume _ | .exec _ _ _ => false
  | _ => true

theorem stepProc_leaves {op : Op} (h : op.plain = true) (m : Machine) (p : Proc) :
    Leaves closing (m.ctx p) (m.ctx p).recorded (stepProc c m p op) := by
  cases op with
  | load i va => cases h
  | store i va b => cases h
  | resume i => cases h
  | exec i file argv => cases h
  | access i v => exact .ite (.same rfl) (.same rfl)
  | sbrk i n => exact .bind (growproc_leaves n (m.ctx p)) fun s => .same rfl
  | fork i => exact .bind (fork_leaves i p m) fun s => .same rfl
  | exit i =>
    refine Sat.bind (Sat.mono (exit_leaves i p m) (fun e he => ⟨e.2, rfl, he⟩) fun _ h => h) fun s _ hs => ?_
    exact Leaves.ok ⟨s.1, rfl, hs⟩
  | wait i => exact .bind (wait_leaves i p m) fun s => .same rfl
  | tick i => exact .lift (.refl _) (tick_quiet p) fun q => .same rfl

/-! ## `exec` -/

/-- Whether `swapToFile` gets as far as writing the victim to the swap file. -/
def Proc.canSwap (c : Cfg) (p : Proc) : Bool := (selectPage c p).isOk && p.swapFile.isSome

/-- A transaction is opened exactly by the calls of `swapToFile` that write. -/
def Wrote (c : Cfg) (es : List Event) : Prop := .beginOp ∈ es ↔ ∃ p, .swapCall p ∈ es ∧ p.canSwap c = true

theorem Wrote.append {es es' : List Event} (h : Wrote c es) (h' : Wrote c es') : Wrote c (es ++ es') := by
  unfold Wrote at *
  simp only [List.mem_append, h, h']
  constructor
  · rintro (⟨p, hp, hs⟩ | ⟨p, hp, hs⟩)
    · exact ⟨p, .inl hp, hs⟩
    · exact ⟨p, .inr hp, hs⟩
  · rintro ⟨p, hp | hp, hs⟩
    · exact .inl ⟨p, hp, hs⟩
    · exact .inr ⟨p, hp, hs⟩

theorem Wrote.nil : Wrote c [] := by simp [Wrote]

def writing (c : Cfg) : Trail where
  fin := Wrote c
  err _ := Wrote c
  nil := .nil
  append := .append
  left := .append
  quiet _ := .nil

theorem filewriteLoop_events (src : Nat → UInt8) (base n : Nat) : ∀ (fuel i : Nat) (fl : SwapFile),
    ∀ ev ∈ (filewriteLoop src base n fuel i fl).2, ev = .beginOp ∨ ev = .endOp
  | 0, _, _ => by simp [filewriteLoop]
  | fuel + 1, i, fl => by
    rw [filewriteLoop]
    split
    · simp only
      split
      · simp
      · have ih := filewriteLoop_events src base n fuel (i + min (n - i) FILEMAX)
        simp only [List.mem_cons]
        rintro ev (rfl | rfl | hev)
        · exact .inl rfl
        · exact .inr rfl
        · exact ih _ ev hev
    · simp

theorem writeToSwapFile_begins (buffer : PageData) (place : Nat) (fl : SwapFile) :
    .beginOp ∈ (writeToSwapFile buffer place fl).2 := by
  show .beginOp ∈ (filewriteLoop _ place PGSIZE (4095 + 1) 0 fl).2
  rw [filewriteLoop, if_pos (by decide)]
  simp only
  split <;> simp

/-- Whether a transaction was opened, and no call of `swapToFile`. -/
def Opens (b : Bool) (es : List Event) : Prop := (.beginOp ∈ es ↔ b = true) ∧ ∀ p, .swapCall p ∉ es

theorem Opens.append {b : Bool} {es es' : List Event} (h : Opens b es) (h' : Opens false es') :
    Opens b (es ++ es') := by
  refine ⟨?_, fun p hp => ?_⟩
  · rw [List.mem_append, h.1, h'.1]
    simp
  · exact (List.mem_append.1 hp).elim (h.2 p) (h'.2 p)

/-- No transaction, no call of `swapToFile`. -/
def dull : Trail where
  fin := Opens false
  err _ := Opens false
  nil := by simp [Opens]
  append := .append
  left := .append
  quiet _ := by simp [Opens]

theorem writeUserPage_opens (addr offset : Nat) (x : Ctx) :
    Sat (writeUserPage c addr offset x) (fun e => ∃ es, e.2 = x.log ++ es ∧ Opens x.proc.swapFile.isSome es)
      fun y => ∃ es, y.log = x.log ++ es ∧ Opens x.proc.swapFile.isSome es := by
  have hput : ∀ (fl : SwapFile) (page : PageData), Opens true (writeToSwapFile page offset fl).2 := by
    refine fun fl page => ⟨iff_of_true (writeToSwapFile_begins _ _ _) rfl, fun p hp => ?_⟩
    rcases filewriteLoop_events _ _ _ _ _ _ _ hp with h | h <;> cases h
  have hopen : Opens true [.beginOp] := by simp [Opens]
  unfold writeUserPage
  split
  · rename_i hn
    rw [hn]
    exact .error ⟨[], by simp, by simp [Opens]⟩
  · rename_i fl hfl
    rw [hfl]
    refine .ite (fun _ => .ok ⟨_, rfl, hput fl _⟩) fun _ => ?_
    split
    · exact .error ⟨_, rfl, hopen⟩
    · exact .ite (fun _ => .ok ⟨_, rfl, hput fl _⟩) fun _ => .error ⟨_, rfl, hopen⟩

theorem releasePage_dull (w : Tbl) (addr : Nat) (x : Ctx) : Leaves dull x id (releasePage c w addr x) := by
  unfold releasePage
  split
  · exact .halt (.refl x) (by decide)
  · rename_i e _
    have hev : Opens false [.swapOut (x.kmem.pageRefsNum e.addr) e] := by simp [Opens]
    exact .lift ⟨_, by simp, hev⟩ (kfree_quiet _ _) fun k => .ok ⟨_, by simp, hev⟩

theorem selectPage_swapFile {p p' : Proc} {addr : Nat} (h : selectPage c p = .ok (addr, p')) :
    p'.swapFile = p.swapFile := by
  unfold selectPage at h
  obtain ⟨⟨i, q⟩, hq, h⟩ := bind_ok h
  obtain ⟨pg, _, h⟩ := bind_ok h
  cases h
  obtain ⟨t, a, rfl, _⟩ := removeVictim_cases hq
  rfl

theorem getFreeFileOffset_swapFile (p : Proc) : (getFreeFileOffset p).2.swapFile = p.swapFile := by
  cases hq : p.offsetQueue.getD 0 none <;> simp only [getFreeFileOffset, removeOffsetQueue, hq, updateOffsetQueue]

/-- One call of `swapToFile`. -/
theorem Wrote.swap {p : Proc} {es : List Event} (h : Opens (p.canSwap c) es) : Wrote c (.swapCall p :: es) := by
  unfold Wrote
  simp only [List.mem_cons, reduceCtorEq, false_or, h.1, Event.swapCall.injEq]
  constructor
  · exact fun hp => ⟨p, .inl rfl, hp⟩
  · rintro ⟨q, rfl | hq, hs⟩
    · exact hs
    · exact absurd hq (h.2 q)

theorem swapToFile_writing (w : Tbl) (x : Ctx) : Leaves (writing c) x id (swapToFile c w x) := by
  cases hsel : selectPage c x.proc with
  | error h =>
    have hno : x.proc.canSwap c = false := by rw [Proc.canSwap, hsel]; rfl
    have heq : swapToFile c w x = .error (h, x.log ++ [.swapCall x.proc]) := by
      simp only [swapToFile, Ctx.emit_proc, hsel]
      rfl
    rw [heq]
    have hop : Opens (x.proc.canSwap c) [] := by simp [Opens, hno]
    exact Sat.error ⟨_, rfl, .swap hop⟩
  | ok s =>
    obtain ⟨addr, p⟩ := s
    have hcan : x.proc.canSwap c = (getFreeFileOffset p).2.swapFile.isSome := by
      rw [Proc.canSwap, hsel, getFreeFileOffset_swapFile, selectPage_swapFile hsel]
      rfl
    have heq : swapToFile c w x = writeUserPage c addr (getFreeFileOffset p).1
        ((x.emit [.swapCall x.proc]).setProc (getFreeFileOffset p).2) >>= fun y =>
          y.lift (recordSwapOut addr (getFreeFileOffset p).1 y.proc) >>= fun p =>
            releasePage c w addr (y.setProc p) := by
      simp only [swapToFile, Ctx.emit_proc, hsel]
      rfl
    rw [heq]
    have hw := writeUserPage_opens (c := c) addr (getFreeFileOffset p).1
      ((x.emit [.swapCall x.proc]).setProc (getFreeFileOffset p).2)
    simp only [Ctx.setProc_proc, Ctx.setProc_log, Ctx.emit_log, ← hcan] at hw
    refine Sat.bind (Sat.mono hw ?_ fun _ h => h) ?_
    · rintro e ⟨es, h1, h2⟩
      exact ⟨.swapCall x.proc :: es, by rw [h1, List.append_assoc]; rfl, .swap h2⟩
    rintro y _ ⟨es, h1, h2⟩
    have hrest : Leaves dull y id (y.lift (recordSwapOut addr (getFreeFileOffset p).1 y.proc) >>= fun p =>
        releasePage c w addr (y.setProc p)) :=
      .lift (.refl y) (recordSwapOut_quiet _ _ _) fun p => .from (.of_log rfl) (releasePage_dull w addr _)
    refine Sat.mono hrest ?_ ?_
    · rintro e ⟨es', h3, h4⟩
      refine ⟨.swapCall x.proc :: (es ++ es'), ?_, .swap (h2.append h4)⟩
      rw [h3, h1]
      simp
    · rintro z ⟨es', h3, h4⟩
      refine ⟨.swapCall x.proc :: (es ++ es'), ?_, .swap (h2.append h4)⟩
      rw [show (id z).log = _ from h3, h1]
      simp

theorem pushArgs_mute : ∀ (args : List (List UInt8)) (sp : Nat) (ptrs : List Nat) (x : Ctx),
    Leaves mute x Prod.snd (pushArgs c args sp ptrs x)
  | [], _, _, _ => .same rfl
  | arg :: args, sp, ptrs, x => by
    rw [pushArgs]
    refine .ite (.same rfl) ?_
    exact .bind (copyout_mute _ _ x) fun s => .ite (pushArgs_mute args _ _ s.2) (.same rfl)

theorem execStack_leaves (argv : List (List UInt8)) (sz : Nat) (x : Ctx) :
    Leaves closing x Prod.snd (execStack c argv sz x) := by
  unfold execStack
  refine .bind (allocuvm_leaves (fun _ _ => rfl) swapToFile_leaves .other _ _ x) fun s => .ite (.same rfl) ?_
  refine .bind (clearpteu_mute _ s.2).of_mute fun y => .bind (pushArgs_mute _ _ _ y).of_mute ?_
  rintro ⟨r, z⟩
  cases r with
  | none => exact .same rfl
  | some t => exact .bind (copyout_mute _ _ z).of_mute fun u => .same rfl

theorem removeSwapFileOps_flat (p : Proc) : Flat (removeSwapFileOps p) := by
  unfold removeSwapFileOps
  split <;> rfl

theorem execCommit_leaves (sz : Nat) (x : Ctx) : Leaves closing x id (execCommit c sz x) := by
  unfold execCommit
  refine .from ?_ (freevm_mute _).of_mute
  split
  · exact .emit (.of_log rfl) ((removeSwapFileOps_flat _).append .pair)
  · exact .of_log rfl

/-- The events of a call, halted or not. -/
def recordOf {α : Type} (g : α → Ctx) : K α → List Event
  | .ok a => (g a).log
  | .error e => e.2

/-- The loop of `exec` over the program headers, the new table first. -/
def execLoads (c : Cfg) (img : Image) (x : Ctx) : K (Option Nat × Ctx) := do
  let (ok, x) ← setupkvm c x
  if ok then loadSegments c img.segs 0 x else pure (none, x)

/-- How the events of `exec` go on after the loop over the headers. -/
def Tail (es : List Event) : Prop := es = [] ∨ ∃ es', es = .endOp :: es' ∧ (txns false es').isSome = true

/-- The record of `exec` from `l` on: that of the loop, with the transaction still open, and its tail. -/
def ExecRecord (c : Cfg) (l loads es : List Event) : Prop :=
  ∃ es1 es2, loads = l ++ es1 ∧ (txns false es1).isSome = true ∧ Wrote c es1 ∧ es = l ++ (es1 ++ es2) ∧ Tail es2

theorem ExecRecord.stop {l es1 : List Event} (h : (txns false es1).isSome = true) (hw : Wrote c es1) :
    ExecRecord c l (l ++ es1) (l ++ es1) := ⟨es1, [], rfl, h, hw, by rw [List.append_nil], .inl rfl⟩

/-- A halt outside the panics of the page fault handler, and a record. -/
def Halted (P : List Event → Prop) (e : Halt × List Event) : Prop := e.1 ∉ faultPanics ∧ P e.2

/-- `bad:` with the transaction open. -/
theorem execBad_record {b : Proc} {pgdir : Bool} {x : Ctx} {l loads es1 : List Event} (hx : x.log = l ++ es1)
    (hl : loads = l ++ es1) (h : Flat es1) (hw : Wrote c es1) :
    Sat (execBad c b pgdir true x) (Halted (ExecRecord c l loads)) fun y => ExecRecord c l loads y.log := by
  have hs : (txns false es1).isSome = true := by rw [show txns false es1 = some false from h]; rfl
  have hfree : ∀ y : Ctx, y.log = x.log → Leaves mute x id (if pgdir = true then freevm c y else .ok y) :=
    fun y hy => .from (.of_log hy) (.ite (freevm_mute y) (.same rfl))
  unfold execBad
  refine Sat.bind (Sat.mono (hfree _ (by split <;> rfl)) ?_ fun _ h => h) ?_
  · rintro e ⟨es, h1, h2, rfl⟩
    rw [List.append_nil, hx] at h1
    refine ⟨h2, ?_⟩
    rw [h1, hl]
    exact .stop hs hw
  · rintro y _ ⟨es, h1, rfl⟩
    rw [List.append_nil, hx] at h1
    refine Sat.ok ⟨es1, [.endOp], hl, hs, hw, ?_, .inr ⟨[], rfl, rfl⟩⟩
    rw [if_pos rfl, Ctx.emit_log, show y.log = _ from h1, List.append_assoc]

/-- The same once the transaction is closed: whatever closes its own. -/
theorem ExecRecord.after {α : Type} {g : α → Ctx} {m : K α} {x : Ctx} {l loads es1 : List Event} (hx : x.log = l ++ es1)
    (hl : loads = l ++ es1) (h : Flat es1) (hw : Wrote c es1) (hm : Leaves closing (x.emit [.endOp]) g m) :
    Sat m (Halted (ExecRecord c l loads)) fun a => ExecRecord c l loads (g a).log := by
  have hs : (txns false es1).isSome = true := by rw [show txns false es1 = some false from h]; rfl
  have hlog : ∀ es, (x.emit [.endOp]).log ++ es = l ++ (es1 ++ .endOp :: es) := by
    intro es
    rw [Ctx.emit_log, hx]
    simp
  refine Sat.mono hm ?_ ?_
  · rintro e ⟨es, h1, h2, h3⟩
    exact ⟨h2, es1, _, hl, hs, hw, h1.trans (hlog es), .inr ⟨es, rfl, h3⟩⟩
  · rintro a ⟨es, h1, h2⟩
    refine ⟨es1, _, hl, hs, hw, h1.trans (hlog es), .inr ⟨es, rfl, ?_⟩⟩
    rw [show txns false es = some false from h2]
    rfl

theorem execBad_leaves (b : Proc) (x : Ctx) : Leaves closing x id (execBad c b true false x) := by
  unfold execBad
  refine .bind (g := id) (.from (.of_log (by split <;> rfl)) (.ite (freevm_mute _).of_mute (.same rfl))) fun y => ?_
  exact .same rfl

/-- `exec` behind its segments. -/
def afterLoads (c : Cfg) (b : Proc) (argv : List (List UInt8)) : Option Nat × Ctx → K (Bool × Ctx)
  | (none, x) => execBad c b true true x >>= fun x => pure (false, x)
  | (some sz, x) => execStack c argv sz (x.emit [.endOp]) >>= fun s => match s with
    | (none, x) => execBad c b true false x >>= fun x => pure (false, x)
    | (some sz, x) => execCommit c sz x >>= fun x => pure (true, x)

theorem execImage_record (b : Proc) (img : Image) (argv : List (List UInt8)) (x : Ctx) :
    Sat (execImage c b img argv x) (Halted (ExecRecord c x.log (recordOf Prod.snd (execLoads c img x))))
      fun s => ExecRecord c x.log (recordOf Prod.snd (execLoads c img x)) s.2.log := by
  have hset := setupkvm_mute (c := c) x
  cases hs : setupkvm c x with
  | error e =>
    obtain ⟨_, h1, h2, rfl⟩ := hset.of_error hs
    have h3 : execImage c b img argv x = .error e := by
      simp only [execImage, hs]
      rfl
    have h4 : execLoads c img x = .error e := by
      simp only [execLoads, hs]
      rfl
    rw [h3, h4]
    refine Sat.error ⟨h2, ?_⟩
    rw [recordOf, h1]
    exact .stop rfl .nil
  | ok s =>
    obtain ⟨ok, y⟩ := s
    obtain ⟨_, h1, rfl⟩ := hset.of_ok hs
    rw [List.append_nil] at h1
    replace h1 : y.log = x.log := h1
    cases ok with
    | false =>
      have h3 : execImage c b img argv x = (execBad c b false true y >>= fun x => pure (false, x)) := by
        simp only [execImage, hs]
        rfl
      have h4 : execLoads c img x = .ok (none, y) := by
        simp only [execLoads, hs]
        rfl
      rw [h3, h4]
      have hbad : Sat (execBad c b false true y) (Halted (ExecRecord c x.log y.log)) _ := execBad_record
        (by rw [h1, List.append_nil]) (by rw [h1, List.append_nil]) .nil .nil
      exact Sat.bind hbad fun z _ hz => Sat.ok hz
    | true =>
      have h3 : execImage c b img argv x = (loadSegments c img.segs 0 y >>= afterLoads c b argv) := by
        simp only [execImage, hs]
        rfl
      have h4 : execLoads c img x = loadSegments c img.segs 0 y := by
        simp only [execLoads, hs]
        rfl
      rw [h3, h4]
      have hcl := loadSegments_leaves (T := closing) (fun _ _ => rfl) (swapToFile_leaves (c := c)) img.segs 0 y
      have hwr := loadSegments_leaves (T := writing c) (fun _ _ => by simp [writing, Wrote]) swapToFile_writing
        img.segs 0 y
      cases hload : loadSegments c img.segs 0 y with
      | error e =>
        obtain ⟨es, g1, g2, g3⟩ := hcl.of_error hload
        obtain ⟨es', g4, g5⟩ := hwr.of_error hload
        obtain rfl : es' = es := List.append_cancel_left (g4.symm.trans g1)
        refine Sat.error ⟨g2, ?_⟩
        rw [recordOf, g1, h1]
        exact .stop g3 g5
      | ok s =>
        obtain ⟨r, z⟩ := s
        obtain ⟨es, g1, g2⟩ := hcl.of_ok hload
        obtain ⟨es', g4, g5⟩ := hwr.of_ok hload
        obtain rfl : es' = es := List.append_cancel_left (g4.symm.trans g1)
        rw [h1] at g1
        replace g1 : z.log = x.log ++ es' := g1
        cases r with
        | none =>
          simp only [ok_bind, afterLoads]
          exact Sat.bind (execBad_record g1 g1 g2 g5) fun u _ hu => Sat.ok hu
        | some sz =>
          simp only [ok_bind, afterLoads]
          refine ExecRecord.after g1 g1 g2 g5 (g := Prod.snd) (.bind (execStack_leaves argv sz _) ?_)
          rintro ⟨r, u⟩
          cases r with
          | none => exact .bind (execBad_leaves b u) fun v => .same rfl
          | some top => exact .bind (execCommit_leaves top u) fun v => .same rfl

end Xv6
