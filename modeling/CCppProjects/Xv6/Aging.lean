import CCppProjects.Xv6.Loading
import CCppProjects.Xv6.Victim
/-
# Ages and reference histories

With `NFUA` every tick shifts a page's accessed bit into its age from the top (proc.c:744-758), so an age spells the
page's history as long as it starts at 0 when the page comes to memory. Nothing sees to that but `allocproc` and
`deallocatePage`: neither `allocuvm`, nor `get_page`, nor `exec` clears the age of the slot it fills. `History` is the
history as it should be, kept beside a run; `Proc.Fresh` says when a step finds the slots it fills with age 0.
-/
namespace Xv6

variable {c : Cfg}

/-! ## Histories -/

/-- The age spells the accessed bits `h`, newest first: bit `31 - k` is the one `k` ticks ago. -/
def AgedTo (age : Nat) (h : List Bool) : Prop := age < UINT ∧ ∀ k < 32, age.testBit (31 - k) = h.getD k false

theorem AgedTo.zero : AgedTo 0 [] := ⟨by decide, fun k _ => by simp⟩

theorem AgedTo.tick {age : Nat} {h : List Bool} (ha : AgedTo age h) (b : Bool) :
    AgedTo (if b then age / 2 ||| 0x80000000 else age / 2) (b :: h) := by
  have hu : UINT = 2 ^ 32 := rfl
  have hlt : age / 2 < 2 ^ 31 := by
    have := ha.1
    rw [hu] at this
    omega
  have htop : (0x80000000 : Nat) = 2 ^ 31 := by decide
  refine ⟨?_, fun k hk => ?_⟩
  · split
    · rw [htop, hu]
      exact Nat.or_lt_two_pow (by omega) (by decide)
    · rw [hu]
      omega
  · cases k with
    | zero =>
      cases b with
      | true =>
        have h31 : (0x80000000 : Nat).testBit 31 = true := by decide
        simp [Nat.testBit_or, h31]
      | false => simpa using Nat.testBit_lt_two_pow hlt
    | succ k =>
      have hshift : (age / 2).testBit (31 - (k + 1)) = h.getD k false := by
        rw [← ha.2 k (by omega), Nat.testBit_div_two]
        congr 1
        omega
      cases b with
      | true =>
        rw [if_pos rfl, Nat.testBit_or, hshift, htop, Nat.testBit_two_pow_of_ne (by omega),
          Bool.or_false, List.getD_cons_succ]
      | false => exact hshift

/-- The page in slot `s` is in memory. -/
def Proc.resident (p : Proc) (s : Nat) : Bool :=
  (p.pages.getD s default).isAllocated && (p.pages.getD s default).isInRAM

/-- `PTE_A` of the page in slot `s`. -/
def Proc.accessedBit (c : Cfg) (p : Proc) (s : Nat) : Bool := (walkpgdir c p.pgdir (p.vpn s)).elim false Pte.A

/-- The slot `get_page` fills (vm.c:588). -/
def Proc.slotOf (p : Proc) (va : Nat) : Nat := p.pages.findIdx fun pg => pg.vAddress == va / PGSIZE * PGSIZE

/-- An access that makes `trap` call `get_page`, `w` for a store. -/
def Proc.faultsIn (c : Cfg) (p : Proc) (va : Nat) (w : Bool) : Bool :=
  !permits p.pgdir va w && match isPgOn c va p with
    | .ok b => b
    | .error _ => false

/-- What the step makes of the history `h` of a page in slot `s` of the process that takes it. -/
def Proc.fate (c : Cfg) (p : Proc) (l : Label) (s : Nat) (h : List Bool) : List Bool :=
  if l.op.enabled p then match l.op with
    | .load _ va => if p.faultsIn c va false && s == p.slotOf va then [] else h
    | .store _ va _ => if p.faultsIn c va true && s == p.slotOf va then [] else h
    | .exec .. => if l.obs.isEmpty then h else []
    | .tick _ => p.accessedBit c s :: h
    | _ => h
  else h

/-- For each process and each of its slots the accessed bits of the page at the ticks since it was last brought to
memory, newest first. -/
abbrev History := Nat → Nat → List Bool

/-- The child a step makes. -/
def Label.childIs (l : Label) (i : Nat) : Bool := l.obs.any fun o => match o with
  | .fork _ j => j == i
  | _ => false

/-- The histories after a step: a child has its parent's, and a page that was not there begins one. -/
def History.next (c : Cfg) (m : Machine) (l : Label) (H : History) : History := fun i s =>
  if l.childIs i then H l.op.proc s else match m.proc[i]? with
    | none => []
    | some p => if p.resident s then (if i = l.op.proc then p.fate c l s (H i s) else H i s) else []

/-- Every page in memory has the age that its history spells. -/
def Aged (s : Machine × History) : Prop :=
  ∀ i p, s.1.proc[i]? = some p → ∀ k, p.resident k = true → AgedTo (p.age k) (s.2 i k)

/-- The machine with its histories. -/
def HTrans (c : Cfg) (s : Machine × History) (l : Label) (s' : Machine × History) : Prop :=
  Trans c s.1 l s'.1 ∧ s'.2 = s.2.next c s.1 l

/-! ## Slots -/

theorem resident_congr {p q : Proc} (h : q.pages = p.pages) (s : Nat) : q.resident s = p.resident s := by
  rw [Proc.resident, h, Proc.resident]

theorem resident_lt {p : Proc} {s : Nat} (h : p.resident s = true) : s < p.pages.length := by
  by_contra hge
  rw [Proc.resident, List.getD_eq_getElem?_getD, List.getElem?_eq_none (by omega)] at h
  exact nomatch h

/-- `allocproc` leaves no page. -/
theorem resident_replicate {p : Proc} {n a : Nat} (h : p.pages = List.replicate n { age := a })
    (s : Nat) : p.resident s = false := by
  rw [Proc.resident, h, List.getD_eq_getElem?_getD, List.getElem?_replicate]
  split <;> rfl

theorem age_congr {p q : Proc} (h : q.pages = p.pages) (s : Nat) : q.age s = p.age s := by rw [Proc.age, h, Proc.age]

/-- A slot without a page. -/
def Proc.Free (p : Proc) (s : Nat) : Prop := s < p.pages.length ∧ (p.pages.getD s default).isAllocated = false

/-- The free slots before `s`. -/
def Proc.rank (p : Proc) (s : Nat) : Nat := (p.pages.take s).countP fun pg => !pg.isAllocated

/-- `q` is `p` with at most `k` pages more, in the first free slots. -/
structure Taken (k : Nat) (p q : Proc) : Prop where
  resident : ∀ s, q.resident s = true → p.resident s = true ∨ (p.Free s ∧ p.rank s < k)
  free : ∀ s, q.Free s → p.Free s ∧ p.rank s ≤ q.rank s + k

theorem Taken.refl (p : Proc) : Taken 0 p p := ⟨fun _ h => .inl h, fun _ h => ⟨h, Nat.le_refl _⟩⟩

theorem Taken.trans {k l : Nat} {p q r : Proc} (h : Taken k p q) (h' : Taken l q r) : Taken (k + l) p r := by
  constructor
  · intro s hs
    rcases h'.resident s hs with hq | ⟨hf, hr⟩
    · exact (h.resident s hq).imp_right fun hp => ⟨hp.1, by omega⟩
    · obtain ⟨hp, hle⟩ := h.free s hf
      exact .inr ⟨hp, by omega⟩
  · intro s hs
    obtain ⟨hq, hqle⟩ := h'.free s hs
    obtain ⟨hp, hple⟩ := h.free s hq
    exact ⟨hp, by omega⟩

theorem Taken.mono {k l : Nat} {p q : Proc} (h : Taken k p q) (hkl : k ≤ l) : Taken l p q :=
  ⟨fun s hs => (h.resident s hs).imp_right fun hp => ⟨hp.1, by omega⟩, fun s hs =>
    (h.free s hs).imp_right fun hp => by omega⟩

theorem Taken.of_pages {p q : Proc} (h : q.pages = p.pages) : Taken 0 p q := by
  refine ⟨fun s hs => .inl (resident_congr h s ▸ hs), fun s hs => ?_⟩
  rw [Proc.Free, h] at hs
  exact ⟨hs, by rw [Proc.rank, Proc.rank, h]; omega⟩

theorem getD_set {a : List Page} {i s : Nat} {pg : Page} (hi : i < a.length) :
    (a.set i pg).getD s default = if i = s then pg else a.getD s default := by
  rw [List.getD_eq_getElem?_getD, List.getElem?_set, List.getD_eq_getElem?_getD]
  split
  · next h =>
    subst h
    simp
  · rfl

theorem SwapsOut.taken {p q : Proc} (h : SwapsOut c p q) : Taken 0 p q := by
  obtain ⟨i, pg, off, hpg, hq, -⟩ := h.spec
  obtain ⟨hi, hpg⟩ := List.getElem?_eq_some_iff.1 hpg
  have hD : p.pages.getD i default = pg := by simp [hi, hpg]
  constructor
  · intro s hs
    rw [Proc.resident, hq, getD_set hi] at hs
    split at hs
    · simp at hs
    · exact .inl hs
  · intro s hs
    obtain ⟨hlen, hall⟩ := hs
    rw [hq, List.length_set] at hlen
    rw [hq, getD_set hi] at hall
    refine ⟨⟨hlen, ?_⟩, ?_⟩
    · split at hall
      · next hne =>
        subst hne
        rw [hD]
        exact hall
      · exact hall
    · rw [Proc.rank, Proc.rank, hq, List.take_set]
      by_cases his : i < s
      · rw [List.countP_set (by simp only [List.length_take]; omega)]
        simp only [List.getElem_take, hpg]
        have : (if (!pg.isAllocated) = true then 1 else 0) ≤ (p.pages.take s).countP fun pg => !pg.isAllocated := by
          split
          · next hf =>
            refine List.countP_pos_iff.2 ⟨pg, ?_, hf⟩
            rw [← hpg]
            exact List.mem_iff_getElem.2 ⟨i, by simp only [List.length_take]; omega, List.getElem_take⟩
          · exact Nat.zero_le _
        omega
      · rw [List.set_eq_of_length_le (by simp only [List.length_take]; omega)]
        omega

theorem Records.taken {v : Nat} {p q : Proc} (h : Records v p q) : Taken 1 p q := by
  obtain ⟨i, pg, hi, hpg, hq, -⟩ := h.spec
  obtain ⟨hlen, hpg⟩ := List.getElem?_eq_some_iff.1 hpg
  have hfree : (!p.pages[i].isAllocated) = true := by
    subst hi
    exact List.findIdx_getElem (p := fun pg : Page => !pg.isAllocated) (w := hlen)
  constructor
  · intro s hs
    rw [Proc.resident, hq, getD_set hlen] at hs
    split at hs
    · next his =>
      subst his
      refine .inr ⟨⟨hlen, ?_⟩, ?_⟩
      · simpa [hlen] using hfree
      · have h0 : p.rank i = 0 := by
          rw [Proc.rank, List.countP_eq_zero]
          intro a ha
          obtain ⟨j, hj, rfl⟩ := List.getElem_of_mem ha
          rw [List.length_take] at hj
          rw [List.getElem_take]
          have hbefore : j < p.pages.findIdx fun pg : Page => !pg.isAllocated := by omega
          simpa using List.not_of_lt_findIdx hbefore
        omega
    · exact .inl hs
  · intro s hs
    obtain ⟨hslen, hall⟩ := hs
    rw [hq, List.length_set] at hslen
    rw [hq, getD_set hlen] at hall
    split at hall
    · exact absurd hall (by simp [Page.alloc])
    · refine ⟨⟨hslen, hall⟩, ?_⟩
      rw [Proc.rank, Proc.rank, hq, List.take_set]
      by_cases his : i < s
      · rw [List.countP_set (by simp only [List.length_take]; omega)]
        simp only [List.getElem_take, if_pos hfree]
        omega
      · rw [List.set_eq_of_length_le (by simp only [List.length_take]; omega)]
        omega

/-! ## What keeps the ages -/

theorem map_age_set {a : List Page} {i : Nat} {pg pg' : Page} (h : a[i]? = some pg) (hage : pg'.age = pg.age) :
    (a.set i pg').map Page.age = a.map Page.age := by
  obtain ⟨hi, rfl⟩ := List.getElem?_eq_some_iff.1 h
  have hlen : i < (a.map Page.age).length := by simpa using hi
  have hget : a[i].age = (a.map Page.age)[i] := by simp
  rw [List.map_set, hage, hget, List.set_getElem_self]

/-- All moves but `deallocatePage`. -/
theorem ages_follow (c : Cfg) : Follows c (· ≠ .dealloc) fun p q => q.pages.map Page.age = p.pages.map Page.age where
  refl _ := rfl
  trans h h' := h'.trans h
  table _ _ := rfl
  fault _ _ _ _ := rfl
  swap _ p q h := by
    obtain ⟨i, pg, off, hpg, hq, -⟩ := h.spec
    rw [hq]
    exact map_age_set hpg rfl
  dealloc h := absurd rfl h
  record _ v p q h := by
    obtain ⟨i, pg, -, hpg, hq, -⟩ := h.spec
    rw [hq]
    exact map_age_set hpg rfl
  load _ v p q h := by
    obtain ⟨pg, p', q', t, hpg, hq, hq', rfl⟩ := h
    dsimp only
    rw [(insert_id hq').2.2, (insertOffsetQueue_id hq).2.2]
    exact map_age_set hpg rfl

/-- Functions that do not touch the record of the pages. -/
theorem pages_follow (c : Cfg) : Follows c (fun _ => False) fun p q => q.pages = p.pages where
  refl _ := rfl
  trans h h' := h'.trans h
  table _ _ := rfl
  fault _ _ _ _ := rfl
  swap h := h.elim
  dealloc h := h.elim
  record h := h.elim
  load h := h.elim

theorem age_eq (p : Proc) (s : Nat) : p.age s = ((p.pages.map Page.age)[s]?).getD 0 := by
  rw [Proc.age, List.getD_eq_getElem?_getD, List.getElem?_map]
  cases p.pages[s]? <;> rfl

theorem age_of_map {p q : Proc} (h : q.pages.map Page.age = p.pages.map Page.age) (s : Nat) : q.age s = p.age s := by
  rw [age_eq, h, age_eq]

/-- A slot keeps its page. -/
theorem slotOf_set {p q : Proc} {i : Nat} {pg pg' : Page} (h : p.pages[i]? = some pg) (hq : q.pages = p.pages.set i pg')
    (hv : pg'.vAddress = pg.vAddress) (va : Nat) : q.slotOf va = p.slotOf va := by
  obtain ⟨hi, rfl⟩ := List.getElem?_eq_some_iff.1 h
  have hmap : q.pages.map Page.vAddress = p.pages.map Page.vAddress := by
    have hlen : i < (p.pages.map Page.vAddress).length := by simpa using hi
    have hget : p.pages[i].vAddress = (p.pages.map Page.vAddress)[i] := by simp
    rw [hq, List.map_set, hv, hget, List.set_getElem_self]
  have hfind : ∀ r : Proc, r.slotOf va = (r.pages.map Page.vAddress).findIdx (· == va / PGSIZE * PGSIZE) := by
    intro r
    rw [List.findIdx_map]
    rfl
  rw [hfind, hmap, ← hfind]

/-! ## Calls of one process -/

/-- From `p` to `q` the pages in the slots of `keep` that were in memory keep their age, and others come with
age 0. -/
def Carried (keep : Nat → Prop) (p q : Proc) : Prop := ∀ s, q.resident s = true →
  (p.resident s = true ∧ keep s ∧ q.age s = p.age s) ∨ (¬ (p.resident s = true ∧ keep s) ∧ q.age s = 0)

theorem Carried.of_pages {p q : Proc} (h : q.pages = p.pages) : Carried (fun _ => True) p q := fun s hs =>
  .inl ⟨resident_congr h s ▸ hs, trivial, age_congr h s⟩

theorem makeRoom_taken {w : Tbl} {v : Nat} {x y : Ctx} (h : makeRoom c w v x = .ok y) : Taken 0 x.proc y.proc := by
  unfold makeRoom at h
  split at h
  · obtain ⟨addr, p, z, q, hsel, hz, hq, h⟩ := swapToFile_cases h
    obtain ⟨fl, page, hfl, rfl⟩ := writeUserPage_cases hz
    obtain ⟨e, k, _, _, rfl⟩ := releasePage_cases h
    have hswap : SwapsOut c x.proc q := ⟨addr, p, fl, page, hsel, hfl, hq⟩
    refine hswap.taken.trans (k := 0) (.of_pages ?_)
    cases w <;> rfl
  · cases h
    exact .refl _

theorem recordPage_taken {w : Tbl} {v : Nat} {x y : Ctx} (h : recordPage c w v x = .ok y) : Taken 1 x.proc y.proc := by
  simp only [recordPage] at h
  split at h
  · cases h
  · next pg hpg =>
    obtain ⟨q, hq, h⟩ := lift_bind_ok h
    have hrec : Records v x.proc { q with numberOfAllocatedPages := q.numberOfAllocatedPages + 1 } :=
      ⟨pg, q, hpg, hq, rfl⟩
    split at h
    · cases h
    · cases h
      refine hrec.taken.trans (l := 0) (.of_pages ?_)
      cases w <;> rfl

theorem Round.taken {w : Tbl} {v : Nat} {x u : Ctx} (h : Round c w v x u) : Taken 1 x.proc u.proc := by
  obtain ⟨y, z, hroom, hz, hu⟩ := h
  have h1 : Taken 0 x.proc y.proc := makeRoom_taken hroom
  obtain ⟨t, ht⟩ := allocPage_proc hz
  have h2 : Taken 0 y.proc z.proc := .of_pages (by rw [ht])
  have h3 : Taken 1 z.proc u.proc := by
    split at hu
    · exact recordPage_taken hu
    · cases hu
      exact (Taken.refl _).mono (by omega)
  exact ((h1.trans h2).trans h3).mono (by omega)

/-- The rounds of `allocuvm` take as many slots as they map pages. -/
theorem Rounds.taken {w : Tbl} {a b : Nat} {x x' : Ctx} (h : Rounds c w a b x x') : Taken (b - a) x.proc x'.proc := by
  have hinv := h.inv (I := fun v y => a ≤ v ∧ Taken (v - a) x.proc y.proc) ?_ ⟨Nat.le_refl _, by
    rw [Nat.sub_self]
    exact .refl _⟩
  · exact hinv.2
  · rintro v y u - ⟨hv, hy⟩ hr
    exact ⟨by omega, (hy.trans hr.taken).mono (by omega)⟩

theorem Round.ages {w : Tbl} {v : Nat} {x u : Ctx} (h : Round c w v x u) :
    u.proc.pages.map Page.age = x.proc.pages.map Page.age := by
  obtain ⟨y, z, hroom, hz, hu⟩ := h
  have hA := ages_follow c
  have h1 : y.proc.pages.map Page.age = x.proc.pages.map Page.age := by
    unfold makeRoom at hroom
    split at hroom
    · exact hA.swapToFile nofun w x y hroom
    · cases hroom
      rfl
  have h2 : z.proc.pages.map Page.age = y.proc.pages.map Page.age := hA.allocPage w v y _ hz
  have h3 : u.proc.pages.map Page.age = z.proc.pages.map Page.age := by
    split at hu
    · exact hA.recordPage nofun w v z u hu
    · cases hu
      rfl
  rw [h3, h2, h1]

/-- New pages in slots of age 0. -/
theorem Taken.carried {k : Nat} {p q : Proc} (h : Taken k p q) (hage : q.pages.map Page.age = p.pages.map Page.age)
    (h0 : ∀ s, p.Free s → p.rank s < k → p.age s = 0) : Carried (fun _ => True) p q := by
  intro s hs
  rcases h.resident s hs with hp | ⟨hf, hr⟩
  · exact .inl ⟨hp, trivial, age_of_map hage s⟩
  · refine .inr ⟨fun hp => ?_, (age_of_map hage s).trans (h0 s hf hr)⟩
    rw [Proc.resident, hf.2] at hp
    exact absurd hp.1 (by simp)

/-- The pages that `allocuvm` is asked for. -/
theorem allocuvm_taken {w : Tbl} {oldsz newsz r : Nat} {x x' : Ctx} (h : allocuvm c w oldsz newsz x = .ok (r, x')) :
    Taken 0 x.proc x'.proc ∨ (newsz < KERNBASE ∧ Taken (pgUp newsz - pgUp oldsz) x.proc x'.proc) := by
  rcases allocuvm_rounds h with ⟨-, -, rfl⟩ | ⟨hlt, rfl, hr⟩ | ⟨hlt, -, -, v, y, hv,
    hvn, hr, y', r', z, s, hroom, hz, hs, hx⟩
  · exact .inl (.refl _)
  · by_cases hle : oldsz ≤ newsz
    · rw [Nat.max_eq_right hle] at hr
      exact .inr ⟨hlt, hr.taken⟩
    · rw [Nat.max_eq_left (by omega)] at hr
      have := hr.taken
      rw [Nat.sub_self] at this
      exact .inl this
  · have h1 : Taken 0 y.proc y'.proc := makeRoom_taken hroom
    obtain ⟨t, ht⟩ := allocPage_proc hz
    have h2 : Taken 0 y'.proc z.proc := .of_pages (by rw [ht])
    have hd := (pages_follow c).deallocuvm w newsz oldsz Follows.unflagged _ s hs
    have h3 : Taken 0 z.proc s.2.proc := .of_pages hd
    have h4 : x'.proc = s.2.proc := by
      rcases hx with ⟨-, rfl⟩ | ⟨mem, k, -, -, rfl⟩
      · rfl
      · rfl
    rw [h4]
    exact .inr ⟨hlt, (((hr.taken.trans h1).trans h2).trans h3).mono (by omega)⟩

/-- `deallocatePage` takes pages away and changes no other slot. -/
theorem slots_follow (c : Cfg) :
    Follows c (· = .dealloc) fun p q => ∀ s, q.pages.getD s default = p.pages.getD s default ∨
    (q.pages.getD s default).isAllocated = false where
  refl _ _ := .inl rfl
  trans h h' s := by
    rcases h' s with h2 | h2
    · rw [h2]
      exact h s
    · exact .inr h2
  table _ _ _ := .inl rfl
  fault _ _ _ _ _ := .inl rfl
  swap h := nomatch h
  dealloc _ va p q h s := by
    simp only [deallocatePage] at h
    split at h
    · cases h
    · next pg hpg =>
      obtain ⟨p', hp', h⟩ := bind_ok h
      cases h
      have hpages : p'.pages = p.pages := by
        split at hp'
        · cases hp'
          rfl
        · exact (insertOffsetQueue_id hp').2.2
      have hi := (List.getElem?_eq_some_iff.1 hpg).1
      dsimp only
      rw [hpages, getD_set hi]
      split
      · exact .inr rfl
      · exact .inl rfl
  record h := nomatch h
  load h := nomatch h

/-- When a step finds the slots it fills with age 0: the slot of a page brought back, the slots `sbrk` and `exec` take
from the free ones; and when the tick finds each page's own `PTE_A`, which it does not when an earlier slot has the
same page. -/
def Proc.Fresh (c : Cfg) (p : Proc) : Op → Prop
  | .load _ va => p.faultsIn c va false = true → p.age (p.slotOf va) = 0
  | .store _ va _ => p.faultsIn c va true = true → p.age (p.slotOf va) = 0
  | .sbrk _ n => 0 < n → addInt p.sz n < KERNBASE →
    ∀ s, p.Free s → p.rank s < pgUp (addInt p.sz n) - pgUp p.sz → p.age s = 0
  | .exec _ file _ => ∀ img, file = some img → ∀ s < execPages img, p.age s = 0
  | .tick _ => ∀ s, p.resident s = true → p.accessedBit c s = true →
    ∀ t < s, (p.pages.getD t default).isAllocated = true → p.vpn t ≠ p.vpn s
  | _ => True

theorem growproc_carried {i : Nat} {n : Int} {x x' : Ctx} {b : Bool} (hf : x.proc.Fresh c (.sbrk i n))
    (h : growproc c n x = .ok (b, x')) : Carried (fun _ => True) x.proc x'.proc := by
  unfold growproc at h
  by_cases hpos : 0 < n
  · rw [if_pos hpos] at h
    obtain ⟨⟨sz, y⟩, hy, h⟩ := bind_ok h
    have hage : y.proc.pages.map Page.age = x.proc.pages.map Page.age :=
      (ages_follow c).allocuvm nofun nofun .own _ _ x _ hy
    have hpages : x'.proc.pages = y.proc.pages := by
      dsimp only at h
      split at h <;> cases h <;> rfl
    rw [← hpages] at hage
    rcases allocuvm_taken hy with ht | ⟨hlt, ht⟩
    · exact ((ht.trans (.of_pages hpages)).mono (Nat.zero_le 0)).carried hage fun s _ h0 =>
        absurd h0 (Nat.not_lt_zero _)
    · exact (ht.trans (.of_pages hpages)).carried hage (hf hpos hlt)
  · rw [if_neg hpos] at h
    by_cases hneg : n < 0
    · rw [if_pos hneg] at h
      obtain ⟨⟨sz, y⟩, hy, h⟩ := bind_ok h
      have hslots : ∀ s, y.proc.pages.getD s default = x.proc.pages.getD s default ∨
          (y.proc.pages.getD s default).isAllocated = false :=
          (slots_follow c).deallocuvm .own _ _ (fun _ => rfl) _ _ hy
      have hpages : x'.proc.pages = y.proc.pages := by
        dsimp only at h
        split at h <;> cases h <;> rfl
      intro s hs
      rw [resident_congr hpages] at hs
      rcases hslots s with hsame | hno
      · refine .inl ⟨?_, trivial, ?_⟩
        · rw [Proc.resident] at hs ⊢
          rw [← hsame]
          exact hs
        · rw [age_congr hpages, Proc.age, hsame]
          rfl
      · rw [Proc.resident, hno] at hs
        exact absurd hs (by simp)
    · rw [if_neg hneg] at h
      cases h
      exact .of_pages rfl

/-- `get_page` fills the slot of the page. -/
theorem trapPgflt_carried {va : Nat} {w : Bool} {x x' : Ctx} (hpag : c.paging = true)
    (hf : isPgOn c va x.proc = .ok true → x.proc.age (x.proc.slotOf va) = 0) (h : trapPgflt c va w x = .ok x') :
    Carried (fun s => ¬ (isPgOn c va x.proc = .ok true ∧ s = x.proc.slotOf va)) x.proc x'.proc := by
  have hage : x'.proc.pages.map Page.age = x.proc.pages.map Page.age := (ages_follow c).trapPgflt nofun nofun va w x _ h
  unfold trapPgflt at h
  rw [if_pos hpag] at h
  obtain ⟨pg, hpg, h⟩ := lift_bind_ok h
  cases pg with
  | false =>
    have hpages : x'.proc.pages = x.proc.pages := by
      rw [if_neg (by simp)] at h
      split at h
      · rcases handlePageFault_cases h with rfl | ⟨amount, -, -, -, -, -, rfl⟩
        · rfl
        · rfl
      · cases h
        rfl
    intro s hs
    refine .inl ⟨resident_congr hpages s ▸ hs, ?_, age_congr hpages s⟩
    rintro ⟨htrue, -⟩
    rw [hpg] at htrue
    cases htrue
  | true =>
    rw [if_pos rfl] at h
    obtain ⟨⟨ok, z⟩, hz, h⟩ := bind_ok h
    cases h
    unfold getPage at hz
    obtain ⟨y, hy, hz⟩ := bind_ok hz
    -- a page may have been swapped out, which moves no page to another slot
    obtain ⟨hres, hslot⟩ : (∀ s, y.proc.resident s = true → x.proc.resident s = true) ∧
      y.proc.slotOf va = x.proc.slotOf va := by
      split at hy
      · obtain ⟨addr, p, u, q, hsel, hu, hq, hy⟩ := swapToFile_cases hy
        obtain ⟨fl, page, hfl, rfl⟩ := writeUserPage_cases hu
        obtain ⟨e, k, -, -, rfl⟩ := releasePage_cases hy
        have hswap : SwapsOut c x.proc q := ⟨addr, p, fl, page, hsel, hfl, hq⟩
        refine ⟨fun s hs => (hswap.taken.resident s hs).resolve_right fun h0 => absurd h0.2 (Nat.not_lt_zero _), ?_⟩
        obtain ⟨i, pg, off, hpg, hqp, -⟩ := hswap.spec
        exact slotOf_set hpg hqp rfl va
      · cases hy
        exact ⟨fun s hs => hs, rfl⟩
    have hcarry : ∀ s, x'.proc.resident s = true → x.proc.resident s = true ∨ s = x.proc.slotOf va := by
      intro s hs
      split at hz
      · cases hz
        exact .inl (hres s hs)
      · next mem k hk =>
        obtain ⟨z, hz', hz⟩ := bind_ok hz
        cases hz
        obtain ⟨pg, fl, e, q, q', n, hpg, -, -, hq, hq', -, rfl⟩ := loadPage_cases hz'
        change ({ q' with numberOfPagedOut := n } : Proc).resident s = true at hs
        by_cases hsv : s = x.proc.slotOf va
        · exact .inr hsv
        · refine .inl (hres s ?_)
          have hpages : q'.pages = y.proc.pages.set (y.proc.slotOf va)
            { pg with isInRAM := true, fileOffset := none } :=
            ((insert_id hq').2.2).trans (insertOffsetQueue_id hq).2.2
          have hlt : y.proc.slotOf va < y.proc.pages.length := (List.getElem?_eq_some_iff.1 hpg).1
          rw [Proc.resident, show ({ q' with numberOfPagedOut := n } : Proc).pages = q'.pages from rfl, hpages,
            getD_set hlt, if_neg (by rw [hslot]; exact fun h => hsv h.symm)] at hs
          exact hs
    intro s hs
    by_cases hsv : s = x.proc.slotOf va
    · subst hsv
      exact .inr ⟨fun hk => hk.2 ⟨hpg, rfl⟩, (age_of_map hage _).trans (hf hpg)⟩
    · exact .inl ⟨(hcarry s hs).resolve_right hsv, fun hk => hsv hk.2, age_of_map hage s⟩

/-! ## The tick -/

theorem accessedBit_clear {p : Proc} {e : Pte} {v s : Nat} (h : p.accessedBit c s = true → p.vpn s ≠ v)
    {ps : List Page} (hps : ({ p with pages := ps } : Proc).vpn s = p.vpn s) :
    ({ p with pages := ps, pgdir := p.pgdir.setPte v { e with A := false } } : Proc).accessedBit c s =
    p.accessedBit c s := by
  have hvpn : ({ p with pages := ps, pgdir := p.pgdir.setPte v { e with A := false } } : Proc).vpn s = p.vpn s := hps
  rw [Proc.accessedBit, hvpn]
  by_cases hsv : p.vpn s = v
  · have hno : p.accessedBit c s = false := by
      cases hb : p.accessedBit c s with
      | false => rfl
      | true => exact absurd hsv (h hb)
    rw [hno, hsv]
    simp only [walkpgdir, Pgdir.setPte, Function.update_self]
    split
    · rfl
    · split
      · rfl
      · rfl
  · rw [Proc.accessedBit]
    simp only [walkpgdir, Pgdir.setPte, Function.update_of_ne hsv]

/-- The age of a page in memory after the tick. -/
def Proc.ticked (c : Cfg) (p : Proc) (s : Nat) : Nat :=
  if p.accessedBit c s then p.age s / 2 ||| 0x80000000 else p.age s / 2

/-- A round of `agingPages` at an allocated slot `i`, with the entry `e` of its page. -/
def Proc.agedAt (p : Proc) (i : Nat) (e : Pte) : Proc :=
  { p with
    pages := p.pages.set i { p.pages.getD i default with
      age := if e.A then (p.pages.getD i default).age / 2 ||| 0x80000000 else (p.pages.getD i default).age / 2 }
    pgdir := if e.A then p.pgdir.setPte (p.vpn i) { e with A := false } else p.pgdir }

theorem agedAt_getD {p : Proc} {i s : Nat} {e : Pte} (h : s ≠ i) :
    (p.agedAt i e).pages.getD s default = p.pages.getD s default := by
  simp only [Proc.agedAt, List.getD_eq_getElem?_getD, List.getElem?_set_ne (Ne.symm h)]

theorem agedAt_accessedBit {p : Proc} {i s : Nat} {e : Pte} (hs : s ≠ i)
    (h : p.accessedBit c s = true → p.vpn s ≠ p.vpn i) : (p.agedAt i e).accessedBit c s = p.accessedBit c s := by
  have hvpn : (p.agedAt i e).vpn s = p.vpn s := by rw [Proc.vpn, agedAt_getD hs, Proc.vpn]
  cases hA : e.A with
  | true =>
    have := accessedBit_clear h (e := e) hvpn
    simp only [Proc.agedAt, hA, if_true] at this ⊢
    exact this
  | false =>
    have hpgdir : (p.agedAt i e).pgdir = p.pgdir := by simp only [Proc.agedAt, hA, Bool.false_eq_true, if_false]
    rw [Proc.accessedBit, hpgdir, hvpn, Proc.accessedBit]

/-- The loop leaves the slots before `i` and shifts those from `i` on, if none of them shares its entry with one in
between. -/
theorem agingLoop_ages : ∀ (n i : Nat) {p q : Proc},
    (∀ s, p.resident s = true → p.accessedBit c s = true → ∀ t, i ≤ t → t < s →
    (p.pages.getD t default).isAllocated = true → p.vpn t ≠ p.vpn s) → agingLoop c n i p = .ok q →
    (∀ s < i, q.age s = p.age s) ∧ ∀ s, i ≤ s → s < i + n → p.resident s = true → q.age s = p.ticked c s
  | 0, i, p, q, _, h => by
    cases h
    exact ⟨fun _ _ => rfl, fun s h1 h2 => absurd h2 (by omega)⟩
  | n + 1, i, p, q, hsep, h => by
    rw [agingLoop] at h
    dsimp only at h
    by_cases hall : (p.pages.getD i default).isAllocated = true
    · rw [if_pos hall] at h
      cases he : walkpgdir c p.pgdir (p.vpn i) with
      | none =>
        have he' : walkpgdir c p.pgdir ((p.pages.getD i default).vAddress / PGSIZE) = none := he
        rw [he'] at h
        cases h
      | some e =>
        have he' : walkpgdir c p.pgdir ((p.pages.getD i default).vAddress / PGSIZE) = some e := he
        rw [he'] at h
        change agingLoop c n (i + 1) (p.agedAt i e) = .ok q at h
        have hpage : ∀ s, s ≠ i → (p.agedAt i e).pages.getD s default = p.pages.getD s default :=
          fun s hs => agedAt_getD hs
        have hbit : ∀ s, i < s → p.resident s = true → (p.agedAt i e).accessedBit c s = p.accessedBit c s := by
          intro s hs hres
          exact agedAt_accessedBit (by omega) fun hA => (hsep s hres hA i (Nat.le_refl _) hs hall).symm
        have hsep' : ∀ s, (p.agedAt i e).resident s = true → (p.agedAt i e).accessedBit c s = true →
          ∀ t, i + 1 ≤ t → t < s →
            ((p.agedAt i e).pages.getD t default).isAllocated = true → (p.agedAt i e).vpn t ≠ (p.agedAt i e).vpn s := by
          intro s hres hA t hit hts hallt
          have hres' : p.resident s = true := by
            rw [Proc.resident, hpage s (by omega)] at hres
            exact hres
          rw [hbit s (by omega) hres'] at hA
          rw [hpage t (by omega)] at hallt
          rw [Proc.vpn, hpage t (by omega), Proc.vpn, hpage s (by omega)]
          exact hsep s hres' hA t (by omega) hts hallt
        obtain ⟨hbefore, hafter⟩ := agingLoop_ages n (i + 1) hsep' h
        refine ⟨fun s hs => ?_, fun s h1 h2 hres => ?_⟩
        · rw [hbefore s (by omega), Proc.age, hpage s (by omega), Proc.age]
        · by_cases hsi : s = i
          · subst hsi
            have hlt : s < p.pages.length := resident_lt hres
            have hbit : p.accessedBit c s = e.A := by rw [Proc.accessedBit, he]; rfl
            rw [hbefore s (by omega), Proc.ticked, hbit, Proc.age]
            simp only [Proc.agedAt, getD_set hlt, if_true]
            rfl
          · have hres' : (p.agedAt i e).resident s = true := by
              rw [Proc.resident, hpage s hsi]
              exact hres
            rw [hafter s (by omega) (by omega) hres', Proc.ticked, hbit s (by omega) hres, Proc.age, hpage s hsi]
            rfl
    · rw [if_neg hall] at h
      obtain ⟨hbefore, hafter⟩ := agingLoop_ages n (i + 1) (fun s hres hA t hit => hsep s hres hA t (by omega)) h
      refine ⟨fun s hs => hbefore s (by omega), fun s h1 h2 hres => ?_⟩
      have hsi : s ≠ i := by
        rintro rfl
        exact hall (Bool.and_eq_true _ _ ▸ hres).1
      exact hafter s (by omega) (by omega) hres

theorem ageless_resident {p q : Proc} (h : q.pages.map Page.ageless = p.pages.map Page.ageless) (s : Nat) :
    q.resident s = p.resident s := by
  have hslot : ∀ r : Proc, r.resident s = (((r.pages.map Page.ageless)[s]?).elim false fun pg =>
    pg.isAllocated && pg.isInRAM) := by
    intro r
    rw [Proc.resident, List.getD_eq_getElem?_getD, List.getElem?_map]
    cases r.pages[s]? <;> rfl
  rw [hslot, h, ← hslot]

theorem tick_ages {i : Nat} {p q : Proc} (hsel : c.sel = .NFUA) (hlen : p.pages.length = MAX_TOTAL_PAGES)
    (hf : p.Fresh c (.tick i)) (h : tick c p = .ok q) {s : Nat} (hs : q.resident s = true) :
    p.resident s = true ∧ q.age s = p.ticked c s := by
  obtain ⟨ps, t, a, rfl, hps⟩ := tick_cases h
  have hres : p.resident s = true := (ageless_resident hps s).symm.trans hs
  have hlt : s < MAX_TOTAL_PAGES := hlen ▸ resident_lt hres
  unfold tick at h
  rw [hsel] at h
  refine ⟨hres, (agingLoop_ages _ 0 ?_ h).2 s (Nat.zero_le _) (by rw [Nat.zero_add]; exact hlt) hres⟩
  exact fun s hs hA t _ => hf s hs hA t

/-! ## `exec` -/

/-- Loading takes the slots from the first on, and changes no age. -/
theorem loading_taken (c : Cfg) (p : Proc) :
    Loading c fun n _ y => Taken n p y.proc ∧ y.proc.pages.map Page.age = p.pages.map Page.age where
  round _ h hr := ⟨h.1.trans hr.taken, hr.ages.trans h.2⟩
  poke _ h _ _ := h
  noUser _ h _ := h
  emit h := h

theorem initPagesData_ages (p : Proc) : (initPagesData p).pages.map Page.age = p.pages.map Page.age := by
  simp [initPagesData, Function.comp_def]

theorem initPagesData_free (p : Proc) {s : Nat} (h : s < p.pages.length) :
    (initPagesData p).resident s = false ∧ (initPagesData p).rank s = s := by
  constructor
  · simp [Proc.resident, initPagesData, h]
  · simp only [Proc.rank, initPagesData, ← List.map_take, List.countP_map]
    refine (List.countP_eq_length.2 fun _ _ => rfl).trans ?_
    rw [List.length_take]
    omega

/-- `exec` changes no age, so the pages come back as they were. -/
theorem restoreFromBackup_pages {p q : Proc} (hages : q.pages.map Page.age = p.pages.map Page.age) :
    (restoreFromBackup p q).pages = p.pages := by
  have hlen : q.pages.length = p.pages.length := by
    have := congrArg List.length hages
    simpa using this
  refine List.ext_getElem (by simp [restoreFromBackup, hlen]) fun s h1 h2 => ?_
  have hage : q.pages[s].age = p.pages[s].age := by
    have := congrArg (fun l => l[s]?) hages
    simpa [hlen, h2] using this
  simp only [restoreFromBackup, List.getElem_zipWith, hage]

/-- A failing `exec` puts the record of the pages back, a successful one has new pages only. -/
theorem exec_carried {i : Nat} {file : Option Image} {argv : List (List UInt8)} {x x' : Ctx} {b : Bool}
    (hpag : c.paging = true) (hf : x.proc.Fresh c (.exec i file argv)) (h : exec c file argv x = .ok (b, x')) :
    if b then file.isSome = true ∧ Carried (fun _ => False) x.proc x'.proc else x'.proc.pages = x.proc.pages := by
  have hA := ages_follow c
  cases b with
  | false =>
    rcases hA.exec_fails nofun nofun hpag h with hx | ⟨y, pgdir, ip, hy, hbad⟩
    · rw [hx]
      rfl
    have hrestore := restoreFromBackup_pages (hy.trans (initPagesData_ages x.proc))
    unfold execBad at hbad
    rw [if_pos hpag] at hbad
    obtain ⟨z, hz, hbad⟩ := bind_ok hbad
    have hpages : z.proc.pages = x.proc.pages := by
      split at hz
      · exact ((pages_follow c).freevm _ z hz).trans hrestore
      · cases hz
        exact hrestore
    cases hbad
    split
    · exact absurd ‹false = true› nofun
    · split
      · exact hpages
      · exact hpages
  | true =>
    obtain ⟨img, v, rfl, -, ⟨hv, hages⟩, hcommit⟩ := (loading_taken c (initPagesData x.proc)).exec hpag (fun y hy => by
      have hyp : y.proc.pages = (initPagesData x.proc).pages := (pages_follow c).setupkvm _ _ hy
      exact ⟨.of_pages hyp, by rw [hyp]⟩) h
    have hpages : x'.proc.pages = v.proc.pages := by
      unfold execCommit at hcommit
      refine ((pages_follow c).freevm _ _ hcommit).trans ?_
      split
      · rfl
      · rfl
    rw [if_pos rfl]
    refine ⟨rfl, fun s hs => ?_⟩
    rw [resident_congr hpages] at hs
    refine .inr ⟨fun hk => hk.2, ?_⟩
    have hage : v.proc.age s = x.proc.age s := age_of_map (hages.trans (initPagesData_ages x.proc)) s
    have hlt : s < x.proc.pages.length := by
      have := congrArg List.length (hages.trans (initPagesData_ages x.proc))
      simp only [List.length_map] at this
      exact this ▸ resident_lt hs
    obtain ⟨hno, hrank⟩ := initPagesData_free x.proc hlt
    rcases hv.resident s hs with hp | ⟨-, hr⟩
    · rw [hno] at hp
      cases hp
    · rw [age_congr hpages, hage]
      exact hf img rfl s (hrank ▸ hr)

/-! ## A step of the machine -/

/-- The pages of `q` have the ages that the step `l` makes of the histories of those of `p`. -/
def Grows (c : Cfg) (l : Label) (p q : Proc) : Prop := ∀ s h, q.resident s = true →
  (p.resident s = true → AgedTo (p.age s) h) → AgedTo (q.age s) (if p.resident s then p.fate c l s h else [])

theorem Carried.grows {keep : Nat → Prop} {p q : Proc} {l : Label} (h : Carried keep p q)
    (hkeep : ∀ s h, keep s → p.fate c l s h = h) (hnew : ∀ s h, ¬ keep s → p.fate c l s h = []) : Grows c l p q := by
  intro s a hs ha
  rcases h s hs with ⟨hp, hk, hage⟩ | ⟨hn, hage⟩
  · rw [if_pos hp, hkeep s a hk, hage]
    exact ha hp
  · rw [hage]
    split
    · next hp =>
      rw [hnew s a fun hk => hn ⟨hp, hk⟩]
      exact .zero
    · exact .zero

/-- The steps of which the record of the pages tells nothing. -/
theorem Grows.of_pages {p q : Proc} {l : Label} (h : q.pages = p.pages) (hl : ∀ s h, p.fate c l s h = h) :
    Grows c l p q :=
  (Carried.of_pages h).grows (fun s a _ => hl s a) fun _ _ hn => absurd trivial hn

variable {m m' : Machine} {p q : Proc} {i : Nat} {l : Label} {H : History}

/-- The record of the pages of each process. -/
def Machine.pages (m : Machine) : List (List Page) := m.proc.map Proc.pages

theorem pages_get (h : m.proc[i]? = some p) : m.pages[i]? =
    some p.pages := by rw [Machine.pages, List.getElem?_map, h]; rfl

theorem pages_self (h : m.proc[i]? = some p) : m.pages = m.pages.set i p.pages := by
  obtain ⟨hlt, hget⟩ := List.getElem?_eq_some_iff.1 (pages_get h)
  rw [← hget, List.set_getElem_self]

theorem pages_setProc (m : Machine) (i : Nat) (q : Proc) : (m.setProc i q).pages = m.pages.set i q.pages := List.map_set

theorem pages_put (m : Machine) (i : Nat) (x : Ctx) : (m.put i x).pages = m.pages.set i x.proc.pages := List.map_set

theorem exit_pages {es : List Event} (h : exit c i p m = .ok (es, m')) : m'.pages = m.pages.set i p.pages := by
  unfold exit at h
  split at h
  · cases h
  · cases h
    have hmap : (m.proc.map fun q => if q.parent = some i then { q with parent := some 0 } else q).map Proc.pages =
        m.proc.map Proc.pages := by
      rw [List.map_map]
      refine List.map_congr_left fun q _ => ?_
      dsimp only [Function.comp]
      split <;> rfl
    rw [Machine.pages, List.map_set, hmap]
    rfl

theorem wait_pages {es : List Event} {o : Option Nat} (hp : m.proc[i]? = some p) (h : wait c i p m = .ok (o, es, m')) :
    m'.pages = m.pages := by
  rcases wait_cases h with ⟨-, -, rfl⟩ | ⟨j, q, a, k, x, hq, -, -, -, -, hfree, -, -, rfl⟩
  · rfl
  · have hx : x.proc.pages = p.pages := (pages_follow c).freevm _ _ hfree
    rw [pages_setProc, pages_put, hx, ← pages_self hp]
    exact (pages_self hq).symm

theorem trapRet_pages {x : Ctx} {os : List Obs} {es : List Event} (h : trapRet c m i x = .ok (os, es, m')) :
    m'.pages = m.pages.set i x.proc.pages ∧ os = [] := by
  simp only [trapRet] at h
  split at h
  · split at h
    · cases h
    · next es' m1 he =>
      cases h
      rw [exit_pages he, pages_put, List.set_set]
      exact ⟨rfl, rfl⟩
  · cases h
    exact ⟨pages_put m i x, rfl⟩

theorem fork_pages {o : Option Nat} {es : List Event} (hp : m.proc[i]? = some p) (h : fork c i p m = .ok (o, es, m')) :
    (m'.pages = m.pages ∧ o = none) ∨ ∃ (j : Nat) (q : Proc), m'.pages = m.pages.set j q.pages ∧
    (∀ k, o = some k → k = j) ∧
      ((o = some j ∧ q.pages = p.pages) ∨ ∀ s, q.resident s = false) := by
  have hfresh : ∀ {r : Proc}, r.pages = List.replicate MAX_TOTAL_PAGES { age := c.freshAge } →
    ∀ s, r.resident s = false :=
    fun hr s => resident_replicate hr s
  simp only [fork] at h
  split at h
  · cases h
    exact .inl ⟨rfl, rfl⟩
  · next q hq =>
    split at h
    · cases h
      refine .inl ⟨?_, rfl⟩
      rw [pages_setProc]
      exact (pages_self hq).symm
    · next kstack k _ =>
      obtain ⟨b, y, hy, ⟨-, np, z, hz, rfl, -, rfl⟩ | ⟨-, k', -, rfl, -, rfl⟩⟩ := forkInto_cases h
      · have hyp : y.proc.pages = p.pages := (pages_follow c).copyuvm _ _ _ hy
        have hparent : ∀ {u : Ctx}, u.proc = y.proc →
          ({ m with nextpid := m.nextpid + 1 }.put i u).pages = m.pages := by
          intro u hu
          rw [pages_put, hu, hyp]
          exact (pages_self hp).symm
        refine .inr ⟨_, { np with state := .RUNNABLE }, ?_, fun k hk => (Option.some.inj hk).symm, ?_⟩
        · rw [pages_setProc, hparent]
          split at hz
          · exact (copySwapFile_cases hz).2.1
          · cases hz
            rfl
        · split at hz
          · obtain ⟨⟨-, rfl⟩ | ⟨src, buffer, -, rfl⟩, -, -⟩ := copySwapFile_cases hz
            · exact .inl ⟨rfl, hyp⟩
            · exact .inl ⟨rfl, hyp⟩
          · cases hz
            exact .inr (hfresh rfl)
      · have hyp : y.proc.pages = p.pages := (pages_follow c).copyuvm _ _ _ hy
        refine .inr ⟨m.proc.findIdx (·.state == .UNUSED),
          { allocproc c m.nextpid kstack q with kstack := none, state := .UNUSED }, ?_, by simp, .inr (hfresh rfl)⟩
        rw [pages_setProc, pages_put]
        change (m.pages.set i y.proc.pages).set _ _ = _
        rw [hyp, ← pages_self hp]

theorem childIs_false {k : Nat} (h : ∀ i j, Obs.fork i j ∉ l.obs) : l.childIs k = false := by
  rw [Label.childIs, List.any_eq_false]
  intro o ho
  cases o with
  | fork i j => exact absurd ho (h i j)
  | _ => simp

/-- Other processes keep their pages. -/
theorem Aged.other {k : Nat} {r : Proc} {s : Nat} (ha : Aged (m, H)) (hp : m.proc[i]? = some p) (hi : l.op.proc = i)
    (hk : l.childIs k = false) (hki : k ≠ i ∨ ∀ h, p.fate c l s h = h) (hr : m.pages[k]? = some r.pages)
    (hs : r.resident s = true) : AgedTo (r.age s) (H.next c m l k s) := by
  rw [Machine.pages, List.getElem?_map, Option.map_eq_some_iff] at hr
  obtain ⟨p', hp', hpages⟩ := hr
  have hres : p'.resident s = true := (resident_congr hpages s).trans hs
  rw [← age_congr hpages]
  simp only [History.next, hk, Bool.false_eq_true, if_false, hp', hres, if_true]
  split
  · next heq =>
    rw [heq, hi, hp] at hp'
    cases hp'
    rw [hki.resolve_left fun hne => hne (heq.trans hi)]
    exact ha k p (by rw [heq, hi]; exact hp) s hres
  · exact ha k p' hp' s hres

theorem Aged.of_grows (ha : Aged (m, H)) (hp : m.proc[i]? = some p) (hi : l.op.proc = i)
    (hl : ∀ a b, Obs.fork a b ∉ l.obs)
    (hm : m'.pages = m.pages.set i q.pages) (hq : Grows c l p q) : Aged (m', H.next c m l) := by
  intro k r hkr s hs
  have hr := pages_get hkr
  rw [hm, List.getElem?_set] at hr
  split at hr
  · next hik =>
    subst hik
    rw [if_pos (List.getElem?_eq_some_iff.1 (pages_get hp)).1] at hr
    have hpages : r.pages = q.pages := (Option.some.inj hr).symm
    rw [age_congr hpages]
    have := hq s (H i s) (resident_congr hpages s ▸ hs) (ha i p hp s)
    simp only [History.next, childIs_false hl, Bool.false_eq_true, if_false, hp, hi, if_true]
    exact this
  · next hik => exact ha.other hp hi (childIs_false hl) (.inl fun h => hik h.symm) hr hs

theorem fate_enabled {s : Nat} {h : List Bool} (he : l.op.enabled p = true) : p.fate c l s h = match l.op with
    | .load _ va => if p.faultsIn c va false && s == p.slotOf va then [] else h
    | .store _ va _ => if p.faultsIn c va true && s == p.slotOf va then [] else h
    | .exec .. => if l.obs.isEmpty then h else []
    | .tick _ => p.accessedBit c s :: h
    | _ => h := if_pos he

theorem faultsIn_of {va : Nat} {w : Bool} (h : ¬ permits p.pgdir va w = true) : p.faultsIn c va w = true ↔
    isPgOn c va p = .ok true := by
  rw [Bool.not_eq_true] at h
  rw [Proc.faultsIn, h]
  cases isPgOn c va p with
  | error e => simp
  | ok b => simp

/-- The step of a trap that may call `get_page`. -/
theorem trap_grows {va : Nat} {w : Bool} {x' : Ctx} {es : List Event} {os : List Obs} (hpag : c.paging = true)
    (hno : ¬ permits p.pgdir va w = true) (hf : p.faultsIn c va w = true → p.age (p.slotOf va) = 0)
    (hl : ∀ s h, p.fate c l s h = if p.faultsIn c va w && s == p.slotOf va then [] else h)
    (h : trapPgflt c va w (m.ctx p) = .ok x') (ht : trapRet c m i x' = .ok (os, es, m')) :
    m'.pages = m.pages.set i x'.proc.pages ∧ os = [] ∧ Grows c l p x'.proc := by
  obtain ⟨hm, hos⟩ := trapRet_pages ht
  refine ⟨hm, hos, ?_⟩
  have hcar : Carried (fun s => ¬ (isPgOn c va p = .ok true ∧ s = p.slotOf va)) p x'.proc :=
    trapPgflt_carried hpag (fun hpg => hf ((faultsIn_of hno).2 hpg)) h
  refine hcar.grows (fun s a hk => ?_) fun s a hk => ?_
  · rw [hl, if_neg]
    rw [Bool.and_eq_true, faultsIn_of hno, beq_iff_eq]
    exact hk
  · rw [hl, if_pos]
    rw [Bool.and_eq_true, faultsIn_of hno, beq_iff_eq]
    exact not_not.1 hk

/-- What a step other than `fork` does to the pages of the process that takes it. -/
theorem stepProc_grows {op : Op} {os : List Obs} {es : List Event} (hsel : c.sel = .NFUA)
    (hlen : p.pages.length = MAX_TOTAL_PAGES)
    (hp : m.proc[op.proc]? = some p) (he : op.enabled p = true) (hf : p.Fresh c op) (hop : ∀ i, op ≠ .fork i)
    (h : stepProc c m p op = .ok (os, es, m')) :
    ∃ q, m'.pages = m.pages.set op.proc q.pages ∧ (∀ a b, Obs.fork a b ∉ os) ∧ Grows c ⟨op, os, es⟩ p q := by
  have hpag : c.paging = true := by rw [Cfg.paging, hsel]; rfl
  have hfate : ∀ s h, p.fate c ⟨op, os, es⟩ s h = _ := fun s h => fate_enabled (l := ⟨op, os, es⟩) he
  cases op with
  | load i va =>
    simp only [stepProc] at h
    split at h
    · next hperm =>
      cases h
      refine ⟨p, pages_self hp, by simp, .of_pages rfl fun s a => ?_⟩
      rw [hfate]
      simp [Proc.faultsIn, hperm]
    · next hperm =>
      obtain ⟨x', hx', ht⟩ := bind_ok h
      obtain ⟨hm, rfl, hg⟩ := trap_grows (l := ⟨.load i va, os, es⟩) hpag hperm hf hfate hx' ht
      exact ⟨x'.proc, hm, by simp, hg⟩
  | store i va b =>
    simp only [stepProc] at h
    split at h
    · next hperm =>
      cases h
      refine ⟨p, pages_self hp, by simp, .of_pages rfl fun s a => ?_⟩
      rw [hfate]
      simp [Proc.faultsIn, hperm]
    · next hperm =>
      obtain ⟨x', hx', ht⟩ := bind_ok h
      obtain ⟨hm, rfl, hg⟩ := trap_grows (l := ⟨.store i va b, os, es⟩) hpag hperm hf hfate hx' ht
      exact ⟨x'.proc, hm, by simp, hg⟩
  | access i v =>
    simp only [stepProc] at h
    split at h
    · cases h
      exact ⟨_, pages_setProc m i _, by simp, .of_pages rfl hfate⟩
    · cases h
      exact ⟨p, pages_self hp, by simp, .of_pages rfl hfate⟩
  | resume i =>
    simp only [stepProc] at h
    split at h
    · cases h
      exact ⟨p, pages_self hp, by simp, .of_pages rfl hfate⟩
    · obtain ⟨x', hx', ht⟩ := bind_ok h
      obtain ⟨hm, rfl⟩ := trapRet_pages ht
      exact ⟨x'.proc, hm, by simp, .of_pages ((pages_follow c).finishPageFault _ _ _ hx') hfate⟩
  | sbrk i n =>
    obtain ⟨⟨ok, x'⟩, hx', h⟩ := bind_ok h
    cases h
    have hcar : Carried (fun _ => True) p x'.proc := growproc_carried (i := i) hf hx'
    refine ⟨x'.proc, pages_put m i x', ?_, hcar.grows (fun s a _ => hfate s a) fun _ _ hn => absurd trivial hn⟩
    intro a b hab
    split at hab
    · simp at hab
    · simp at hab
  | fork i => exact absurd rfl (hop i)
  | exit i =>
    obtain ⟨⟨es', m1⟩, hm, h⟩ := bind_ok h
    cases h
    exact ⟨p, exit_pages hm, by simp, .of_pages rfl hfate⟩
  | wait i =>
    obtain ⟨⟨o, es', m1⟩, hm, h⟩ := bind_ok h
    cases h
    refine ⟨p, (wait_pages hp hm).trans (pages_self hp), ?_, .of_pages rfl hfate⟩
    intro a b hab
    cases o <;> simp at hab
  | exec i file argv =>
    obtain ⟨⟨ok, x'⟩, hx', h⟩ := bind_ok h
    cases h
    refine ⟨x'.proc, pages_put m i x', ?_, ?_⟩
    · intro a b hab
      split at hab
      · cases file <;> simp at hab
      · simp at hab
    · have hcar : if ok then file.isSome = true ∧ Carried (fun _ => False) p x'.proc else x'.proc.pages = p.pages :=
        exec_carried (i := i) hpag hf hx'
      cases ok with
      | false => exact .of_pages hcar hfate
      | true =>
        obtain ⟨hfile, hcar⟩ := hcar
        obtain ⟨img, rfl⟩ := Option.isSome_iff_exists.1 hfile
        exact hcar.grows (fun s a hk => hk.elim) fun s a _ => hfate s a
  | tick i =>
    obtain ⟨q, hq, h⟩ := lift_bind_ok h
    cases h
    refine ⟨q, pages_setProc m i q, by simp, fun s a hs ha => ?_⟩
    obtain ⟨hres, hage⟩ := tick_ages (i := i) hsel hlen hf hq hs
    rw [if_pos hres, hfate, hage]
    exact (ha hres).tick _

/-- **A step that finds its slots fresh keeps the ages in step with the histories.** -/
theorem Aged.step {s s' : Machine × History} (hsel : c.sel = .NFUA)
    (hlen : ∀ p ∈ s.1.proc, p.pages.length = MAX_TOTAL_PAGES)
    (hf : ∀ p, s.1.proc[l.op.proc]? = some p → l.op.enabled p = true → p.Fresh c l.op)
    (ha : Aged s) (ht : HTrans c s l s') :
    Aged s' := by
  obtain ⟨m, H⟩ := s
  obtain ⟨m', H'⟩ := s'
  obtain ⟨op, os, es⟩ := l
  obtain ⟨ht, hH⟩ := ht
  dsimp only at ht hH hf hlen
  subst hH
  simp only [Trans, Xv6.step] at ht
  split at ht
  · next hnone =>
    cases ht
    intro k r hr t hres
    have hki : k ≠ op.proc := fun h => by rw [h, hnone] at hr; cases hr
    have hchild : Label.childIs ⟨op, [], []⟩ k = false := childIs_false (by simp)
    simp only [History.next, hchild, Bool.false_eq_true, if_false, hr, hres, if_true, if_neg hki]
    exact ha k r hr t hres
  · next p hp =>
    split at ht
    · next he =>
      by_cases hop : ∃ i, op = .fork i
      · obtain ⟨i, rfl⟩ := hop
        obtain ⟨⟨o, es', m1⟩, hy, h⟩ := bind_ok ht
        cases h
        have hfate : ∀ s h, p.fate c ⟨.fork i, (o.map (Obs.fork i)).toList, es⟩ s h = h := fun s h =>
          fate_enabled (l := ⟨.fork i, (o.map (Obs.fork i)).toList, es⟩) he
        intro k r hkr t hres
        have hr := pages_get hkr
        have hchild : ∀ k, Label.childIs ⟨.fork i, (o.map (Obs.fork i)).toList, es⟩ k = (o == some k) := by
          intro k
          cases o with
          | none => rfl
          | some j => simp [Label.childIs]
        rcases fork_pages hp hy with ⟨hm, rfl⟩ | ⟨j, q, hm, hj, hq⟩
        · rw [hm] at hr
          exact ha.other hp rfl (hchild k) (.inr (hfate t)) hr hres
        · rw [hm, List.getElem?_set] at hr
          split at hr
          · next hjk =>
            subst hjk
            split at hr
            · have hpages : r.pages = q.pages := (Option.some.inj hr).symm
              rw [resident_congr hpages] at hres
              rcases hq with ⟨rfl, hq⟩ | hq
              · rw [resident_congr hq] at hres
                simp only [History.next, hchild, beq_self_eq_true, if_true]
                rw [age_congr hpages, age_congr hq]
                exact ha i p hp t hres
              · rw [hq t] at hres
                cases hres
            · cases hr
          · next hjk =>
            have hck : Label.childIs ⟨.fork i, (o.map (Obs.fork i)).toList, es⟩ k = false := by
              rw [hchild, beq_eq_false_iff_ne]
              intro ho
              exact hjk (hj k ho).symm
            exact ha.other hp rfl hck (.inr (hfate t)) hr hres
      · obtain ⟨q, hm, hl, hg⟩ := stepProc_grows hsel (hlen p (List.mem_of_getElem? hp)) hp he (hf p hp he)
          (fun i hi => hop ⟨i, hi⟩) ht
        exact ha.of_grows hp rfl hl hm hg
    · next he =>
      cases ht
      refine ha.of_grows hp rfl (by simp) (pages_self hp) (.of_pages rfl fun s a => ?_)
      exact if_neg he

/-! ## Runs -/

/-- The step finds fresh what it fills. -/
def FreshStep (c : Cfg) (s : Machine × History) (l : Label) : Prop :=
  ∀ p, s.1.proc[l.op.proc]? = some p → l.op.enabled p = true → p.Fresh c l.op

/-- **NFUA evicts by reference history**, in every state reached from `userinit` on by steps that find fresh what they
fill: the ages are the histories, and of a full queue the first page with the smallest age goes. -/
theorem nfua_history {k : Kmem} {data : Nat → PageData} {init : List UInt8} {m0 : Machine}
    {s : Machine × History} {ls : List Label}
    (hsel : c.sel = .NFUA) (hb : boot c k data init = .ok m0)
    (hrun : Lts.Run (Lts.On (FreshStep c) (HTrans c)) (m0, fun _ _ => []) ls s) :
    Aged s ∧ ∀ p ∈ s.1.proc, ∀ q, Full p q → ∃ v rest, FirstMin p.age q v rest ∧
      removeNFUA p = .ok (some v, { p with RAMQueue := rest.map some ++ [none] }) := by
  have hlen := length_kept c
  -- no page is in a record before it is loaded
  have hboot : Aged (m0, fun _ _ => []) := by
    obtain ⟨kstack, k', x, y, z, -, hx, -, hy, hz, rfl⟩ := boot_cases hb
    intro i p hp t ht
    suffices hno : p.resident t = false by rw [hno] at ht; cases ht
    rcases List.mem_cons.1 (List.mem_of_getElem? hp) with rfl | hp
    · have h1 : x.proc.pages = (allocproc c 1 kstack .unused).pages := (pages_follow c).setupkvm _ _ hx
      have h2 : y.proc.pages = x.proc.pages := (pages_follow c).allocPage .other 0 x _ hy
      have h3 : z.proc.pages = y.proc.pages := (pages_follow c).loaduvm _ _ _ _ hz
      exact resident_replicate ((h3.trans h2).trans h1) t
    · obtain ⟨-, rfl⟩ := List.mem_replicate.1 hp
      exact resident_replicate rfl t
  have hinv := hrun.inv (I := fun s => Aged s ∧ s.1.All fun _ p => p.pages.length = MAX_TOTAL_PAGES) ?_
    ⟨hboot, hlen.boot hb⟩
  · exact ⟨hinv.1, fun p _ q hq => removeNFUA_firstMin hq⟩
  · rintro s l s' ⟨ha, hl⟩ ⟨hf, ht⟩
    exact ⟨ha.step hsel hl hf ht, hlen.step hl ht.1⟩

/-- Any run has its histories. -/
theorem histories {P : Machine → Label → Prop} {ls : List Label} (h : Lts.Run (Lts.On P (Trans c)) m ls m') :
    ∀ H, ∃ H', Lts.Run (Lts.On (fun s l => P s.1 l) (HTrans c)) (m, H) ls (m', H') := by
  induction h with
  | nil m => exact fun H => ⟨H, .nil _⟩
  | cons hstep _ ih =>
    intro H
    obtain ⟨H', hrun⟩ := ih (H.next c _ _)
    exact ⟨H', .cons ⟨hstep.1, hstep.2, rfl⟩ hrun⟩

/-- The record says that the step finds fresh what it fills: all ages are 0, or no two slots have one page. -/
def freshCheck (m : Machine) (op : Op) : Bool :=
  (m.proc[op.proc]?).all fun p => match op with
    | .tick _ => (List.range p.pages.length).all fun s => (List.range s).all fun t =>
        !p.resident s || !(p.pages.getD t default).isAllocated || p.vpn t != p.vpn s
    | _ => p.pages.all fun pg => pg.age == 0

theorem freshCheck_spec {op : Op} (h : freshCheck m op = true) (hp : m.proc[op.proc]? = some p) : p.Fresh c op := by
  rw [freshCheck, hp, Option.all_some] at h
  have hages : (p.pages.all fun pg => pg.age == 0) = true → ∀ s, p.age s = 0 := by
    intro hall s
    rw [Proc.age, List.getD_eq_getElem?_getD]
    cases hs : p.pages[s]? with
    | none => rfl
    | some pg => simpa using List.all_eq_true.1 hall pg (List.mem_of_getElem? hs)
  cases op with
  | load i va => exact fun _ => hages h _
  | store i va b => exact fun _ => hages h _
  | sbrk i n => exact fun _ _ s _ _ => hages h s
  | exec i file argv => exact fun _ _ s _ => hages h s
  | tick i =>
    intro s hs _ t hts hall
    have := List.all_eq_true.1 h s (List.mem_range.2 (resident_lt hs))
    have := List.all_eq_true.1 this t (List.mem_range.2 hts)
    rw [hs, hall, Bool.not_true, Bool.false_or, Bool.false_or] at this
    exact bne_iff_ne.1 this
  | _ => trivial

/-- A run of `ops` as it is recorded, as long as its steps find fresh what they fill. -/
def recordFresh (c : Cfg) : List Op → Machine → Option (List Label × Machine)
  | [], m => some ([], m)
  | op :: ops, m => if freshCheck m op then match step c m op with
      | .error _ => none
      | .ok (os, es, m) => (recordFresh c ops m).map fun s => (⟨op, os, es⟩ :: s.1, s.2)
    else none

theorem recordFresh_run : ∀ {ops : List Op} {m : Machine} {ls : List Label}
    {m' : Machine}, recordFresh c ops m = some (ls, m') →
    Lts.Run (Lts.On (fun m l => freshCheck m l.op = true) (Trans c)) m ls m' := by
  intro ops
  induction ops with
  | nil =>
    intro m ls m' h
    obtain ⟨rfl, rfl⟩ : [] = ls ∧ m = m' := by simpa [recordFresh] using h
    exact .nil m
  | cons op ops ih =>
    intro m ls m' h
    rw [recordFresh] at h
    split at h
    · next hf =>
      split at h
      · cases h
      · next os es m1 hstep =>
        obtain ⟨⟨ls1, m2⟩, hrec, h⟩ := Option.map_eq_some_iff.1 h
        cases h
        exact .cons ⟨hf, hstep⟩ (ih hrec)
    · cases h

/-- The third process grows by a page, which gets slot 0, and is ticked after an access to it. -/
def exTicked : List Op := [.fork 0, .fork 0, .sbrk 2 4096, .access 2 1, .tick 2]

def exAge (m : Machine) : Bool := (m.proc[2]?).any fun p => p.resident 0 && p.age 0 == 0x80000000

/-- A program of a stack only. -/
def exStack : Image := ⟨true, []⟩

/-- The run of `ops` from `userinit` on. -/
def freshRun (ops : List Op) : Option (Machine × List Label × Machine) :=
  match exBoot .NFUA with
  | .error _ => none
  | .ok m0 => (recordFresh (exCfg .NFUA) ops m0).map fun s => (m0, s.1, s.2)

/-- A page with an access in its history. -/
theorem nfua_history_tick : ∃ m0 ls, ∃ s : Machine × History,
    Lts.Run (Lts.On (FreshStep (exCfg .NFUA)) (HTrans (exCfg .NFUA))) (m0, fun _ _ => []) ls s ∧
    exAge s.1 = true ∧ Aged s := by
  have hx : (freshRun exTicked).any (fun s => exAge s.2.2) = true := by decide +kernel
  obtain ⟨⟨m0, ls, m⟩, hfresh, hage⟩ := (Option.any_eq_true _ _).1 hx
  unfold freshRun at hfresh
  split at hfresh
  · cases hfresh
  · next m1 hb =>
    obtain ⟨⟨ls1, m2⟩, hrec, hfresh⟩ := Option.map_eq_some_iff.1 hfresh
    cases hfresh
    obtain ⟨H, hrun⟩ := histories (recordFresh_run hrec) fun _ _ => []
    have hrun : Lts.Run (Lts.On (FreshStep (exCfg .NFUA)) (HTrans (exCfg .NFUA))) (m0, fun _ _ => []) ls1 (m2, H) :=
      hrun.mono fun _ _ _ ht => ⟨fun p hp _ => freshCheck_spec ht.1 hp, ht.2⟩
    have haged := (nfua_history (by decide) hb hrun).1
    exact ⟨m0, ls1, (m2, H), hrun, hage, haged⟩

theorem exec_forks {file : Option Image} {argv : List (List UInt8)} {os : List Obs} {es : List Event}
    (h : step c m (.exec i file argv) = .ok (os, es, m')) : ∀ a b, Obs.fork a b ∉ os := by
  intro a b hab
  simp only [Xv6.step] at h
  split at h
  · cases h
    simp at hab
  · split at h
    · obtain ⟨⟨ok, x'⟩, -, h⟩ := bind_ok h
      cases h
      cases ok
      · simp at hab
      · cases file <;> simp at hab
    · cases h
      simp at hab

/-- `exec` in the third process, once the page of its first slot has been ticked. -/
def exExec (m : Machine) : Bool :=
  (m.proc[2]?).any fun p => p.resident 0 && (Op.exec 2 (some exStack) []).enabled p &&
    match step (exCfg .NFUA) m (.exec 2 (some exStack) []) with
    | .ok (os, _, m') => !os.isEmpty && m'.proc[2]?.any fun q => q.resident 0 && q.age 0 == 0x80000000
    | .error _ => false

/-- A program starts with the age that a page of the one before it had. -/
theorem nfua_history_exec : ¬ ∀ (c : Cfg) (k : Kmem) (data : Nat → PageData) (init : List UInt8) (m0 : Machine)
    (ls : List Label) (s : Machine × History), c.sel = .NFUA → k.Ready c → boot c k data init = .ok m0 →
    Lts.Run (HTrans c) (m0, fun _ _ => []) ls s → Aged s := by
  intro h
  have hx : (bootRun .NFUA exTicked).any (fun s => exExec s.2.2) = true := by decide +kernel
  obtain ⟨m0, ls, m, hb, hrun, hf⟩ := @bootRun_spec _ _ (fun _ m => exExec m) hx
  obtain ⟨p, hp, hf⟩ := (Option.any_eq_true _ _).1 hf
  rw [Bool.and_eq_true, Bool.and_eq_true] at hf
  obtain ⟨⟨hres, hen⟩, hf⟩ := hf
  split at hf
  · next os es m' hstep =>
    rw [Bool.and_eq_true] at hf
    obtain ⟨hos, hf⟩ := hf
    obtain ⟨q, hq, hf⟩ := (Option.any_eq_true _ _).1 hf
    rw [Bool.and_eq_true, beq_iff_eq] at hf
    obtain ⟨H, hH⟩ := histories (P := fun _ _ => True) (hrun.mono fun _ _ _ ht => ⟨trivial, ht⟩) fun _ _ => []
    have hH := hH.mono fun _ _ _ ht => ht.2
    have hlast : HTrans (exCfg .NFUA) (m, H) ⟨.exec 2 (some exStack) [], os, es⟩
      (m', H.next _ m ⟨.exec 2 (some exStack) [], os, es⟩) :=
      ⟨hstep, rfl⟩
    have haged := h _ _ _ _ _ _ _ rfl (exKmem_ready _) hb (hH.append (.single hlast)) 2 q hq 0 hf.1
    -- the page is new, so its history is empty; its age is not
    have hnew : p.fate (exCfg .NFUA) ⟨.exec 2 (some exStack) [], os, es⟩ 0 (H 2 0) = [] := by
      rw [fate_enabled hen]
      exact if_neg (by simpa using hos)
    have hnext : (H.next (exCfg .NFUA) m ⟨.exec 2 (some exStack) [], os, es⟩) 2 0 = [] := by
      have hchild : Label.childIs ⟨.exec 2 (some exStack) [], os, es⟩ 2 = false :=
        childIs_false (exec_forks hstep)
      simp only [History.next, hchild, Bool.false_eq_true, if_false, hp, hres, if_true]
      exact hnew
    rw [hf.2] at haged
    change AgedTo 0x80000000 (H.next (exCfg .NFUA) m ⟨.exec 2 (some exStack) [], os, es⟩ 2 0) at haged
    rw [hnext] at haged
    exact absurd (haged.2 0 (by decide)) (by decide)
  · cases hf

end Xv6
