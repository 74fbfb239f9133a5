import CCppProjects.Lib.FirstMin
import CCppProjects.Lib.Sat
import CCppProjects.Xv6.Syscall
import CCppProjects.Xv6.FreeList
import Mathlib.Data.List.TakeWhile
import Mathlib.Data.Prod.Lex
import Mathlib.Algebra.Order.Group.Nat
/-
# The victim of a full queue (proc.c:623-742)

| here | there |
| --- | --- |
| `updateQueueAt`, `removeSCFIFOAt` | `updateQueue`, `removeSCFIFO` for any `MAX_PSYC_PAGES` |
| `Full` | `RAMQueue` without `-1`, each entry an index of `pages[]` |
| `accessed` | `PTE_A` of the page at an index |

`removeNFUA` and `removeLAPA` take the first page with the smallest key (`FirstMin`). `removeLAPA` orders ages as
`int`s: it takes them for the unsigned numbers they are only where bit 31 does not tell the candidates apart.
-/
namespace Xv6

/-! ## Closing the gap -/

section Queue

variable {a : List (Option Nat)} {i n cap : Nat}

/-- `updateQueue` of a queue with `cap` places. -/
def updateQueueAt (cap i : Nat) (a : List (Option Nat)) : List (Option Nat) :=
  (shiftLoop (cap - 1 - i) i a).set (cap - 1) none

theorem updateQueue_eq (i : Nat) (a : List (Option Nat)) : updateQueue i a = updateQueueAt MAX_PSYC_PAGES i a := rfl

theorem shiftLoop_length : ∀ (n i : Nat) (a : List (Option Nat)), (shiftLoop n i a).length = a.length := by
  intro n
  induction n with
  | zero => exact fun _ _ => rfl
  | succ n ih =>
    intro i a
    rw [shiftLoop, ih, List.length_set]

theorem shiftLoop_get (h : i + n < a.length) (k : Nat) :
    (shiftLoop n i a)[k]? = if i ≤ k ∧ k < i + n then a[k + 1]? else a[k]? := by
  induction n generalizing i a with
  | zero =>
    rw [if_neg (by omega)]
    rfl
  | succ n ih =>
    have hnext : a.getD (i + 1) none = a[i + 1] := by
      rw [List.getD_eq_getElem?_getD, List.getElem?_eq_getElem (by omega)]
      rfl
    rw [shiftLoop, ih (by rw [List.length_set]; omega), hnext]
    simp only [List.getElem?_set]
    by_cases hk : i = k
    · subst hk
      rw [if_neg (by omega), if_pos rfl, if_pos (by omega), if_pos (by omega), List.getElem?_eq_getElem (by omega)]
    · rw [if_neg hk]
      by_cases hin : i + 1 ≤ k ∧ k < i + 1 + n
      · rw [if_pos hin, if_neg (by omega), if_pos (by omega)]
      · rw [if_neg hin, if_neg (by omega)]

/-- The entry at `i` goes, those behind it move up. -/
theorem updateQueueAt_eq (hlen : a.length = cap) (hi : i < cap) : updateQueueAt cap i a = a.eraseIdx i ++ [none] := by
  apply List.ext_getElem?
  intro k
  have herase : (a.eraseIdx i).length = cap - 1 := by rw [List.length_eraseIdx_of_lt (by omega), hlen]
  rw [updateQueueAt, List.getElem?_set, shiftLoop_length, shiftLoop_get (by omega), List.getElem?_append, herase,
    List.getElem?_eraseIdx]
  by_cases hlast : cap - 1 = k
  · subst hlast
    rw [if_pos rfl, if_pos (by omega), if_neg (by omega), Nat.sub_self]
    rfl
  · rw [if_neg hlast]
    by_cases hk : k < cap - 1
    · rw [if_pos hk]
      by_cases hki : k < i
      · rw [if_neg (by omega), if_pos hki]
      · rw [if_pos (by omega), if_neg hki]
    · rw [if_neg (by omega), if_neg hk, List.getElem?_eq_none (by omega), List.getElem?_eq_none]
      rw [List.length_singleton]
      omega

end Queue

/-! ## The smallest age -/

section Ages

variable {p : Proc} {q rest : List Nat} {v i : Nat}

/-- `RAMQueue` has no `-1`, and holds `q`. -/
structure Full (p : Proc) (q : List Nat) : Prop where
  queue : p.RAMQueue = q.map some
  length : q.length = MAX_PSYC_PAGES
  nodup : q.Nodup
  page : ∀ i ∈ q, i < p.pages.length

/-- `pages[i].age` -/
def Proc.age (p : Proc) (i : Nat) : Nat := (p.pages.getD i default).age

theorem page_some (h : i < p.pages.length) : p.page (some i) = .ok (p.pages.getD i default) := by
  simp [Proc.page, h]

theorem Full.get (h : Full p q) (hi : q[i]? = some v) : p.RAMQueue.getD i none = some v ∧
    p.page (some v) = .ok (p.pages.getD v default) := by
  refine ⟨?_, page_some (h.page v (List.mem_of_getElem? hi))⟩
  rw [h.queue, List.getD_eq_getElem?_getD, List.getElem?_map, hi]
  rfl

theorem Full.exists_get (h : Full p q) (hi : i < MAX_PSYC_PAGES) : ∃ v, q[i]? = some v :=
  ⟨_, List.getElem?_eq_getElem (h.length ▸ hi)⟩

/-- The victim leaves the queue. -/
theorem Full.updateQueue (h : Full p q) (hi : i < MAX_PSYC_PAGES) :
    Xv6.updateQueue i p.RAMQueue = (q.eraseIdx i).map some ++ [none] := by
  rw [updateQueue_eq, updateQueueAt_eq (by rw [h.queue, List.length_map, h.length]) hi, h.queue,
    List.eraseIdx_eq_take_drop_succ, List.eraseIdx_eq_take_drop_succ, List.map_append, List.map_take, List.map_drop]

theorem nfuaScan_spec (h : Full p q) {n m : Nat} (hn : i + n = MAX_PSYC_PAGES) (hb : FirstMin.Best p.age q i m) :
    ∃ m', nfuaScan p n i m = .ok m' ∧ FirstMin.Best p.age q MAX_PSYC_PAGES m' := by
  induction n generalizing i m with
  | zero =>
    obtain rfl : i = MAX_PSYC_PAGES := hn
    exact ⟨m, rfl, hb⟩
  | succ n ih =>
    obtain ⟨w, hw⟩ := h.exists_get (i := i) (by omega)
    obtain ⟨v, hv⟩ := h.exists_get (i := m) (by have := hb.1; omega)
    obtain ⟨hwq, hwp⟩ := h.get hw
    obtain ⟨hvq, hvp⟩ := h.get hv
    rw [nfuaScan, hwq, hvq, hwp, hvp]
    simp only [ok_bind]
    split
    · next hlt => exact ih (by omega) (hb.better hv hw hlt)
    · next hge => exact ih (by omega) (hb.keep hv hw hge)

/-- **`removeNFUA` takes the first page with the smallest age.** -/
theorem removeNFUA_firstMin (h : Full p q) : ∃ v rest, FirstMin p.age q v rest ∧
    removeNFUA p = .ok (some v, { p with RAMQueue := rest.map some ++ [none] }) := by
  obtain ⟨v0, hv0⟩ := h.exists_get (i := 0) (by decide)
  obtain ⟨m, hscan, hb⟩ := nfuaScan_spec h (show 1 + (MAX_PSYC_PAGES - 1) = MAX_PSYC_PAGES by decide) (.first hv0)
  obtain ⟨v, hv⟩ := h.exists_get hb.1
  refine ⟨v, q.eraseIdx m, FirstMin.Best.firstMin (h.length ▸ hb) hv, ?_⟩
  rw [removeNFUA, hscan, ok_bind, (h.get hv).1, h.updateQueue hb.1]

/-- What `removeLAPA` compares: the bits, then the age as an `int`. -/
def Proc.lapaKey (p : Proc) (i : Nat) : Nat ×ₗ Int := toLex (bitCount (p.age i), toInt32 (p.age i))

theorem lapaKey_lt {i j : Nat} : p.lapaKey i < p.lapaKey j ↔
    bitCount (p.age i) < bitCount (p.age j) ∨
      bitCount (p.age i) = bitCount (p.age j) ∧ toInt32 (p.age i) < toInt32 (p.age j) := Prod.Lex.toLex_lt_toLex

theorem lapaScan_spec (h : Full p q) {n m v : Nat} (hn : i + n = MAX_PSYC_PAGES) (hb : FirstMin.Best p.lapaKey q i m)
    (hv : q[m]? = some v) : ∃ m', lapaScan p n i (some m) (toInt32 (p.age v)) (bitCount (p.age v)) = .ok (some m') ∧
      FirstMin.Best p.lapaKey q MAX_PSYC_PAGES m' := by
  induction n generalizing i m v with
  | zero =>
    obtain rfl : i = MAX_PSYC_PAGES := hn
    exact ⟨m, rfl, hb⟩
  | succ n ih =>
    obtain ⟨w, hw⟩ := h.exists_get (i := i) (by omega)
    obtain ⟨hwq, hwp⟩ := h.get hw
    rw [lapaScan, hwq, hwp]
    simp only [ok_bind]
    change ∃ m', (if bitCount (p.age w) < bitCount (p.age v) then
        lapaScan p n (i + 1) (some i) (toInt32 (p.age w)) (bitCount (p.age w))
      else if bitCount (p.age w) = bitCount (p.age v) ∧ toInt32 (p.age w) < toInt32 (p.age v) then
        lapaScan p n (i + 1) (some i) (toInt32 (p.age w)) (bitCount (p.age v))
      else lapaScan p n (i + 1) (some m) (toInt32 (p.age v)) (bitCount (p.age v))) = .ok (some m') ∧ _
    split
    · next hlt => exact ih (by omega) (hb.better hv hw (lapaKey_lt.2 (.inl hlt))) hw
    · next hge =>
      split
      · next heq =>
        rw [← heq.1]
        exact ih (by omega) (hb.better hv hw (lapaKey_lt.2 (.inr heq))) hw
      · next hne =>
        refine ih (by omega) (hb.keep hv hw fun hlt => ?_) hv
        exact (lapaKey_lt.1 hlt).elim hge hne

theorem bitCount_le (a : Nat) : bitCount a ≤ 32 := by
  rw [bitCount]
  refine (List.length_filter_le ..).trans ?_
  rw [List.length_range]

theorem removeLAPA_firstMin (h : Full p q) : ∃ v rest, FirstMin p.lapaKey q v rest ∧
    removeLAPA p = .ok (some v, { p with RAMQueue := rest.map some ++ [none] }) := by
  obtain ⟨v0, hv0⟩ := h.exists_get (i := 0) (by decide)
  obtain ⟨hq, hp⟩ := h.get hv0
  obtain ⟨m, hscan, hb⟩ := lapaScan_spec h (show 1 + (MAX_PSYC_PAGES - 1) = MAX_PSYC_PAGES by decide) (.first hv0) hv0
  obtain ⟨v, hv⟩ := h.exists_get hb.1
  have hfirst : lapaScan p MAX_PSYC_PAGES 0 none (toInt32 0xFFFFFFFF) 33 = .ok (some m) := by
    -- the count of the first page is at most 32
    have hlt : bitCount (p.age v0) < 33 := Nat.lt_succ_of_le (bitCount_le _)
    rw [show MAX_PSYC_PAGES = (MAX_PSYC_PAGES - 1) + 1 from rfl, lapaScan, hq, hp]
    simp only [ok_bind]
    rw [if_pos (by exact_mod_cast hlt)]
    exact hscan
  refine ⟨v, q.eraseIdx m, FirstMin.Best.firstMin (h.length ▸ hb) hv, ?_⟩
  rw [removeLAPA, hfirst, ok_bind]
  simp only [(h.get hv).1, h.updateQueue hb.1]

/-- What an age stands for: the bits, then the number. -/
def Proc.ageKey (p : Proc) (i : Nat) : Nat ×ₗ Nat := toLex (bitCount (p.age i), p.age i)

theorem ageKey_le {i j : Nat} : p.ageKey i ≤ p.ageKey j ↔
    bitCount (p.age i) < bitCount (p.age j) ∨ bitCount (p.age i) = bitCount (p.age j) ∧ p.age i ≤ p.age j :=
  Prod.Lex.toLex_le_toLex

theorem ageKey_lt {i j : Nat} : p.ageKey i < p.ageKey j ↔
    bitCount (p.age i) < bitCount (p.age j) ∨ bitCount (p.age i) = bitCount (p.age j) ∧ p.age i < p.age j :=
  Prod.Lex.toLex_lt_toLex

theorem lapaKey_le {i j : Nat} : p.lapaKey i ≤ p.lapaKey j ↔
    bitCount (p.age i) < bitCount (p.age j) ∨
      bitCount (p.age i) = bitCount (p.age j) ∧ toInt32 (p.age i) ≤ toInt32 (p.age j) := Prod.Lex.toLex_le_toLex

/-- A page of the queue with the fewest bits. -/
def Fewest (p : Proc) (q : List Nat) (i : Nat) : Prop := i ∈ q ∧ ∀ j ∈ q, bitCount (p.age i) ≤ bitCount (p.age j)

theorem toInt32_cases (a : Nat) : (a < 2 ^ 31 ∧ toInt32 a = a) ∨ (2 ^ 31 ≤ a ∧ toInt32 a = a - 2 ^ 32) := by
  rw [toInt32]
  split
  · exact .inl ⟨‹_›, rfl⟩
  · refine .inr ⟨by omega, ?_⟩
    rw [UINT]
    rfl

/-- Among ages that agree in bit 31, both orders are the same. -/
theorem ageKey_lt_of_lapaKey {i j : Nat}
    (hside : bitCount (p.age i) = bitCount (p.age j) → (p.age i < 2 ^ 31 ↔ p.age j < 2 ^ 31)) :
    (p.lapaKey i < p.lapaKey j → p.ageKey i < p.ageKey j) ∧ (p.lapaKey i ≤ p.lapaKey j → p.ageKey i ≤ p.ageKey j) := by
  have hci := toInt32_cases (p.age i)
  have hcj := toInt32_cases (p.age j)
  rw [lapaKey_lt, ageKey_lt, lapaKey_le, ageKey_le]
  constructor
  · rintro (hlt | ⟨heq, hlt⟩)
    · exact .inl hlt
    · have := hside heq
      exact .inr ⟨heq, by omega⟩
  · rintro (hlt | ⟨heq, hle⟩)
    · exact .inl hlt
    · have := hside heq
      exact .inr ⟨heq, by omega⟩

/-- The first page with the fewest bits and of these the smallest age goes, the others stay in order. -/
def LeastAccessed (p : Proc) (q : List Nat) : Prop :=
  ∃ v rest, FirstMin p.ageKey q v rest ∧ removeLAPA p = .ok (some v, { p with RAMQueue := rest.map some ++ [none] })

/-- **`removeLAPA` evicts the least accessed page as long as the pages with the fewest bits agree in bit 31.** -/
theorem removeLAPA_least (h : Full p q) (hage : ∀ i ∈ q, p.age i < UINT) :
    LeastAccessed p q ↔ ∀ i j, Fewest p q i → Fewest p q j → (p.age i < 2 ^ 31 ↔ p.age j < 2 ^ 31) := by
  obtain ⟨v, rest, hmin, hrun⟩ := removeLAPA_firstMin h
  have hfew : Fewest p q v := by
    refine ⟨hmin.mem, fun j hj => ?_⟩
    rcases lapaKey_le.1 (hmin.le hj) with hlt | ⟨heq, -⟩
    · exact hlt.le
    · exact heq.le
  constructor
  · rintro ⟨w, rest', hmin', hrun'⟩
    obtain rfl : v = w := by
      have := congrArg (Except.map Prod.fst) (hrun.symm.trans hrun')
      exact Option.some.inj (Except.ok.inj this)
    -- the signed order prefers an age with bit 31, the unsigned one an age without
    have hside : ∀ i j, Fewest p q i → Fewest p q j → p.age i < 2 ^ 31 → p.age j < 2 ^ 31 := by
      intro i j hi hj hlt
      have heq : bitCount (p.age v) = bitCount (p.age i) ∧ bitCount (p.age v) = bitCount (p.age j) :=
        ⟨(hfew.2 i hi.1).antisymm (hi.2 v hfew.1), (hfew.2 j hj.1).antisymm (hj.2 v hfew.1)⟩
      have hvi := ageKey_le.1 (hmin'.le hi.1)
      have hvj := lapaKey_le.1 (hmin.le hj.1)
      have hcv := toInt32_cases (p.age v)
      have hcj := toInt32_cases (p.age j)
      have hj32 := hage j hj.1
      rw [UINT] at hj32
      omega
    exact fun i j hi hj => ⟨hside i j hi hj, hside j i hj hi⟩
  · intro hside
    refine ⟨v, rest, ?_, hrun⟩
    obtain ⟨l, r, rfl, rfl, hl, hr⟩ := hmin
    have hkey : ∀ x ∈ l ++ v :: r, (p.lapaKey v < p.lapaKey x → p.ageKey v < p.ageKey x) ∧
        (p.lapaKey v ≤ p.lapaKey x → p.ageKey v ≤ p.ageKey x) := by
      intro x hx
      refine ageKey_lt_of_lapaKey fun heq => hside v x hfew ⟨hx, fun j hj => ?_⟩
      rw [← heq]
      exact hfew.2 j hj
    exact ⟨l, r, rfl, rfl, fun x hx => (hkey x (by simp [hx])).1 (hl x hx), fun x hx =>
      (hkey x (by simp [hx])).2 (hr x hx)⟩

/-- A process with 32 pages of these ages, the first 16 in the queue; the even ones have been accessed. -/
def exAges (age : Nat → Nat) : Proc := { Proc.unused with
  pages := (List.range 32).map fun i =>
    { vAddress := i * PGSIZE, isInRAM := decide (i < 16), isAllocated := true, age := age i }
  RAMQueue := (List.range 16).map some
  pgdir := ⟨some 0x200, fun _ => some 0x201, fun v => { addr := v, P := true, A := v % 2 == 0 }⟩ }

theorem exAges_full (age : Nat → Nat) : Full (exAges age) (List.range 16) := by
  refine ⟨rfl, rfl, List.nodup_range, ?_⟩
  intro i hi
  have := List.mem_range.1 hi
  simp only [exAges, List.length_map, List.length_range]
  omega

theorem exAges_age {age : Nat → Nat} (hi : i < 32) : (exAges age).age i = age i := by
  simp [Proc.age, exAges, List.getElem?_range hi]

/-- Ages that grow along the queue. -/
theorem removeLAPA_least_head : LeastAccessed (exAges id) (List.range 16) := by
  have hage : ∀ i ∈ List.range 16, (exAges id).age i < 2 ^ 31 := by
    intro i hi
    have := List.mem_range.1 hi
    rw [exAges_age (by omega)]
    exact Nat.lt_trans this (by decide)
  refine (removeLAPA_least (exAges_full id) fun i hi => (hage i hi).trans (by decide)).2 ?_
  intro i j hi hj
  exact iff_of_true (hage i hi.1) (hage j hj.1)

/-- All have been accessed in one tick; only the last page in the latest. It is the one that goes. -/
theorem removeLAPA_not_least : ¬ ∀ p q, Full p q → (∀ i ∈ q, p.age i < UINT) → LeastAccessed p q := by
  intro h
  have hlast : (removeLAPA (exAges fun i => if i = 15 then 2 ^ 31 else 1)).toOption.map Prod.fst = some (some 15) := by
    decide +kernel
  obtain ⟨v, rest, hmin, hrun⟩ := h (exAges fun i => if i = 15 then 2 ^ 31 else 1) (List.range 16) (exAges_full _) (by
    intro i hi
    have := List.mem_range.1 hi
    rw [exAges_age (by omega), UINT]
    split <;> decide)
  rw [hrun] at hlast
  obtain rfl : v = 15 := Option.some.inj (Option.some.inj hlast)
  have hle := ageKey_le.1 (hmin.le (List.mem_range.2 (show 0 < 16 by decide)))
  rw [exAges_age (by decide), exAges_age (by decide)] at hle
  revert hle
  decide

end Ages

/-! ## Second chance -/

section SecondChance

variable {c : Cfg} {p : Proc} {q : List Nat} {t : Pgdir} {cap i v : Nat}

/-- `removeSCFIFO` of a queue with `cap` places. -/
def removeSCFIFOAt (cap : Nat) (c : Cfg) (p : Proc) : Except Halt (Option Nat × Proc) := do
  let (t, temp, found) ← scfifoScan c p p.RAMQueue p.pgdir []
  match found with
  | some (q, rest) =>
    let front := rest.takeWhile (· != none)
    let back := (temp ++ List.replicate (cap - temp.length) none).take (cap - front.length)
    .ok (q, { p with pgdir := t, RAMQueue := front ++ back })
  | none => match p.RAMQueue.getD 0 none with
    | none => .error (.panic "removeSCFIFO")
    | some i => .ok (some i, { p with pgdir := t, RAMQueue := updateQueueAt cap 0 p.RAMQueue })

theorem removeSCFIFO_eq (c : Cfg) (p : Proc) : removeSCFIFO c p = removeSCFIFOAt MAX_PSYC_PAGES c p := rfl

/-- The virtual page of `pages[i]`. -/
def Proc.vpn (p : Proc) (i : Nat) : Nat := (p.pages.getD i default).vAddress / PGSIZE

theorem vpn_eq (p : Proc) (i : Nat) : (p.pages.getD i default).vAddress / PGSIZE = p.vpn i := rfl

def accessed (c : Cfg) (p : Proc) (t : Pgdir) (i : Nat) : Prop := ∃ e, walkpgdir c t (p.vpn i) = some e ∧ e.A = true

/-- `PTE_A` cleared in the entries of `vs`. -/
def Pgdir.clearA (t : Pgdir) (vs : List Nat) : Pgdir :=
  { t with pte := fun v => if v ∈ vs then { t.pte v with A := false } else t.pte v }

theorem clearA_nil (t : Pgdir) : t.clearA [] = t := by simp [Pgdir.clearA]

theorem walkpgdir_clearA {vs : List Nat} (h : v ∉ vs) : walkpgdir c (t.clearA vs) v = walkpgdir c t v := by
  simp [walkpgdir, Pgdir.clearA, h]

/-- Only user entries can have been accessed. -/
theorem accessed_user (h : accessed c p t i) :
    t.setPte (p.vpn i) { t.pte (p.vpn i) with A := false } = t.clearA [p.vpn i] ∧
    walkpgdir c t (p.vpn i) = some (t.pte (p.vpn i)) ∧ (t.pte (p.vpn i)).A = true := by
  obtain ⟨e, he, hA⟩ := h
  have hw := he
  rw [walkpgdir] at he
  split at he
  · cases he
  · split at he
    · cases he
      refine ⟨?_, hw, hA⟩
      simp only [Pgdir.setPte, Pgdir.clearA, List.mem_singleton, Pgdir.mk.injEq, true_and]
      funext u
      by_cases hu : u = p.vpn i
      · subst hu
        simp
      · simp [hu]
    · cases he
      cases hA

theorem clearA_clearA (t : Pgdir) (v : Nat) (vs : List Nat) : (t.clearA [v]).clearA vs = t.clearA (v :: vs) := by
  simp only [Pgdir.clearA, List.mem_cons, Pgdir.mk.injEq, true_and]
  funext u
  by_cases hu : u = v
  · simp [hu]
  · simp [hu]

/-- The scan passes over the accessed pages in front. -/
theorem scfifoScan_over {l : List Nat} (rest temp : List (Option Nat)) (hp : ∀ i ∈ l, i < p.pages.length)
    (hn : (l.map p.vpn).Nodup) (ha : ∀ i ∈ l, accessed c p t i) :
    scfifoScan c p (l.map some ++ rest) t temp = scfifoScan c p rest (t.clearA (l.map p.vpn)) (temp ++ l.map some) := by
  induction l generalizing t temp with
  | nil => simp [clearA_nil]
  | cons x l ih =>
    obtain ⟨hset, hwalk, hA⟩ := accessed_user (ha x List.mem_cons_self)
    rw [List.map_cons, List.nodup_cons] at hn
    rw [List.map_cons, List.cons_append, scfifoScan, page_some (hp x List.mem_cons_self), ok_bind, vpn_eq, hwalk]
    dsimp only
    rw [if_pos hA, hset, ih (temp ++ [some x]) (fun i hi => hp i (List.mem_cons_of_mem _ hi)) hn.2 ?_, clearA_clearA]
    · simp
    · intro i hi
      obtain ⟨e, he, heA⟩ := ha i (List.mem_cons_of_mem _ hi)
      refine ⟨e, ?_, heA⟩
      rw [walkpgdir_clearA, he]
      rw [List.mem_singleton]
      intro heq
      exact hn.1 (heq ▸ List.mem_map_of_mem hi)

/-- The queue of `cap` places is full of pages of the process, with an entry of the table each. -/
structure Queued (cap : Nat) (c : Cfg) (p : Proc) (q : List Nat) : Prop where
  queue : p.RAMQueue = q.map some
  length : q.length = cap
  pos : 0 < cap
  page : ∀ i ∈ q, i < p.pages.length
  nodup : (q.map p.vpn).Nodup
  entry : ∀ i ∈ q, (walkpgdir c p.pgdir (p.vpn i)).isSome

/-- The first page not accessed goes, and those before it go behind the rest with `PTE_A` cleared; when all were
accessed `PTE_A` is cleared on all, and the head goes. -/
def SecondChance (cap : Nat) (c : Cfg) (p : Proc) (q : List Nat) : Prop :=
  (∃ l v r, q = l ++ v :: r ∧ (∀ i ∈ l, accessed c p p.pgdir i) ∧ ¬ accessed c p p.pgdir v ∧
    removeSCFIFOAt cap c p = .ok (some v, { p with
      pgdir := p.pgdir.clearA (l.map p.vpn), RAMQueue := (r ++ l).map some ++ [none] })) ∨
  ∃ v r, q = v :: r ∧ (∀ i ∈ q, accessed c p p.pgdir i) ∧
    removeSCFIFOAt cap c p = .ok (some v, { p with
      pgdir := p.pgdir.clearA (q.map p.vpn), RAMQueue := r.map some ++ [none] })

/-- **`removeSCFIFO` is second-chance FIFO**, for a queue with any number of places. -/
theorem removeSCFIFO_second_chance (h : Queued cap c p q) : SecondChance cap c p q := by
  by_cases hall : ∀ i ∈ q, accessed c p p.pgdir i
  · right
    have hscan := scfifoScan_over [] [] h.page h.nodup hall
    rw [List.append_nil] at hscan
    obtain ⟨v, r, rfl⟩ := List.exists_cons_of_length_pos (h.length.symm ▸ h.pos)
    refine ⟨v, r, rfl, hall, ?_⟩
    rw [removeSCFIFOAt, h.queue, hscan, scfifoScan, ok_bind]
    have hcap : ((v :: r).map some).length = cap := by rw [List.length_map, h.length]
    simp only [updateQueueAt_eq hcap h.pos]
    rfl
  · left
    obtain ⟨l, v, r, rfl, hl, hv⟩ : ∃ l v r, q = l ++ v :: r ∧ (∀ i ∈ l, accessed c p p.pgdir i) ∧
      ¬ accessed c p p.pgdir v := by
      classical
      obtain ⟨w, hw⟩ := not_forall.1 hall
      obtain ⟨hmem, hnot⟩ := Classical.not_imp.1 hw
      obtain ⟨v, hfind⟩ := Option.isSome_iff_exists.1
        (List.find?_isSome (p := fun i => decide ¬ accessed c p p.pgdir i) |>.2 ⟨w, hmem, decide_eq_true hnot⟩)
      obtain ⟨hv, l, r, hq, hl⟩ := List.find?_eq_some_iff_append.1 hfind
      refine ⟨l, v, r, hq, fun i hi => ?_, of_decide_eq_true hv⟩
      simpa using hl i hi
    have hlen := h.length
    rw [List.length_append, List.length_cons] at hlen
    have hn := h.nodup
    rw [List.map_append, List.map_cons, List.nodup_append] at hn
    obtain ⟨hnl, hnr, hdis⟩ := hn
    have hfresh : p.vpn v ∉ l.map p.vpn := fun hmem => hdis _ hmem _ List.mem_cons_self rfl
    obtain ⟨e, he⟩ := Option.isSome_iff_exists.1 (h.entry v (by simp))
    have hA : e.A = false := by
      by_contra htrue
      exact hv ⟨e, he, by simpa using htrue⟩
    have hscan : scfifoScan c p p.RAMQueue p.pgdir [] =
        .ok (p.pgdir.clearA (l.map p.vpn), l.map some, some (some v, r.map some)) := by
      rw [h.queue, List.map_append, List.map_cons, scfifoScan_over (some v :: r.map some) []
        (fun i hi => h.page i (by simp [hi])) hnl hl, scfifoScan, page_some (h.page v (by simp)), ok_bind, vpn_eq,
        walkpgdir_clearA hfresh, he]
      dsimp only
      rw [hA, if_neg Bool.false_ne_true, List.nil_append]
    refine ⟨l, v, r, rfl, hl, hv, ?_⟩
    have hfront : (r.map some).takeWhile (· != none) = r.map some := by
      rw [List.takeWhile_eq_self_iff]
      intro o ho
      obtain ⟨i, -, rfl⟩ := List.mem_map.1 ho
      rfl
    have hback : (l.map some ++ List.replicate (cap - l.length) none).take (cap - r.length) = l.map some ++ [none] := by
      rw [List.take_append, List.take_of_length_le (by rw [List.length_map]; omega),
        List.length_map, List.take_replicate,
        show min (cap - r.length - l.length) (cap - l.length) = 1 by omega]
      rfl
    rw [removeSCFIFOAt, hscan, ok_bind]
    simp only [hfront, List.length_map, hback, List.map_append, List.append_assoc]

/-- The head has been accessed, the page behind it not. -/
theorem removeSCFIFO_second_chance_head : SecondChance 16 (exCfg .SCFIFO) (exAges id) (List.range 16) := by
  refine removeSCFIFO_second_chance ⟨rfl, rfl, by decide, (exAges_full id).page, ?_, ?_⟩
  · decide
  · decide

end SecondChance

end Xv6
