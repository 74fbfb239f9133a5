import CCppProjects.Xv6.Size
/-
# User pointers (syscall.c:16-83)

| here | there |
| --- | --- |
| `fetchint`, `fetchstr`       | syscall.c:18, :31 |
| `argint`, `argptr`, `argstr` | syscall.c:51, :60, :78 |

The checks add `uint`s a program chose; they are sound because `sz` stays below `KERNBASE`.
-/
namespace Xv6

variable {c : Cfg} {m : Machine} {p : Proc}

/-! ## System call arguments -/

/-- `curproc->sz` -/
def Proc.uintSz (p : Proc) : UInt32 := .ofNat p.sz

/-- `*(int*)addr`, the low byte first. -/
def readInt (mem : UInt32 → UInt8) (addr : UInt32) : Int32 :=
  ((mem addr).toUInt32 ||| (mem (addr + 1)).toUInt32 <<< 8 ||| (mem (addr + 2)).toUInt32 <<< 16 |||
    (mem (addr + 3)).toUInt32 <<< 24).toInt32

/-- syscall.c:18; `none` is `-1`. -/
def fetchint (p : Proc) (mem : UInt32 → UInt8) (addr : UInt32) : Option Int32 :=
  if p.uintSz ≤ addr ∨ p.uintSz < addr + 4 then none else some (readInt mem addr)

/-- The loop of `fetchstr` from `s`, at most `n` bytes: where the nul is. -/
def findNul (mem : UInt32 → UInt8) (ep : UInt32) : Nat → UInt32 → Option UInt32
  | 0, _ => none
  | n + 1, s => if s < ep then if mem s = 0 then some s else findNul mem ep n (s + 1) else none

/-- syscall.c:31: the string and its length. -/
def fetchstr (p : Proc) (mem : UInt32 → UInt8) (addr : UInt32) : Option (UInt32 × Int32) :=
  if p.uintSz ≤ addr then none
  else (findNul mem p.uintSz (p.sz - addr.toNat) addr).map fun s => (addr, (s - addr).toInt32)

/-- `(myproc()->tf->esp) + 4 + 4*n` -/
def argAddr (esp : UInt32) (n : Int32) : UInt32 := esp + 4 + (4 * n).toUInt32

/-- syscall.c:51 -/
def argint (p : Proc) (mem : UInt32 → UInt8) (esp : UInt32) (n : Int32) : Option Int32 := fetchint p mem (argAddr esp n)

/-- syscall.c:60 -/
def argptr (p : Proc) (mem : UInt32 → UInt8) (esp : UInt32) (n size : Int32) : Option UInt32 := do
  let i ← argint p mem esp n
  if size < 0 ∨ p.uintSz ≤ i.toUInt32 ∨ p.uintSz < i.toUInt32 + size.toUInt32 then none else some i.toUInt32

/-- syscall.c:78 -/
def argstr (p : Proc) (mem : UInt32 → UInt8) (esp : UInt32) (n : Int32) : Option (UInt32 × Int32) := do
  let addr ← argint p mem esp n
  fetchstr p mem addr.toUInt32

/-- The `n` bytes at `a` are below `sz`, and their addresses do not wrap around. -/
def Inside (sz : Nat) (a : UInt32) (n : Nat) : Prop :=
  a.toNat < sz ∧ ∀ i < n, (a + .ofNat i).toNat = a.toNat + i ∧ a.toNat + i < sz

section
variable (hsz : p.sz < KERNBASE) (mem : UInt32 → UInt8)
include hsz

theorem uintSz_toNat : p.uintSz.toNat = p.sz := by
  simp only [KERNBASE] at hsz
  exact UInt32.toNat_ofNat_of_lt (by simp only [UInt32.size]; omega)

theorem Inside.of_le {a : UInt32} {n : Nat} (ha : a.toNat < p.sz) (hn : a.toNat + n ≤ p.sz) : Inside p.sz a n := by
  refine ⟨ha, fun i hi => ⟨?_, by omega⟩⟩
  simp only [KERNBASE] at hsz
  have hi' : (UInt32.ofNat i).toNat = i := UInt32.toNat_ofNat_of_lt (by simp only [UInt32.size]; omega)
  rw [UInt32.toNat_add, hi', Nat.mod_eq_of_lt (by omega)]

/-- The two comparisons of `argptr` and `fetchint` say `a + n ≤ sz` when `n` is not negative. -/
theorem check_iff (a : UInt32) {n : UInt32} (hn : n.toNat < KERNBASE) :
    ¬ (p.uintSz ≤ a ∨ p.uintSz < a + n) ↔ a.toNat < p.sz ∧ a.toNat + n.toNat ≤ p.sz := by
  rw [UInt32.le_iff_toNat_le, UInt32.lt_iff_toNat_lt, UInt32.toNat_add, uintSz_toNat hsz]
  simp only [KERNBASE] at hsz hn
  omega

theorem fetchint_eq_some {addr : UInt32} {v : Int32} :
    fetchint p mem addr = some v ↔ addr.toNat + 4 ≤ p.sz ∧ readInt mem addr = v := by
  have h4 : (4 : UInt32).toNat = 4 := rfl
  have hc := check_iff hsz addr (n := 4) (by decide)
  unfold fetchint
  by_cases h : p.uintSz ≤ addr ∨ p.uintSz < addr + 4
  · have : ¬ addr.toNat + 4 ≤ p.sz := fun h' => hc.2 ⟨by omega, by omega⟩ h
    simp [h, this]
  · have := (hc.1 h).2
    rw [if_neg h, Option.some_inj]
    simp only [h4] at this
    simp [this]

/-- The loop stops at the first nul. -/
theorem findNul_eq_some (n : Nat) : ∀ {s t : UInt32}, s.toNat + n = p.sz →
    (findNul mem p.uintSz n s = some t ↔
      s ≤ t ∧ t.toNat < p.sz ∧ mem t = 0 ∧ ∀ u, s ≤ u → u < t → mem u ≠ 0) := by
  induction n with
  | zero =>
    intro s t hn
    simp only [findNul, UInt32.le_iff_toNat_le]
    constructor
    · intro h
      cases h
    · rintro ⟨h1, h2, _⟩
      omega
  | succ n ih =>
    intro s t hn
    have hs : s < p.uintSz := by
      rw [UInt32.lt_iff_toNat_lt, uintSz_toNat hsz]
      omega
    have hnext : (s + 1).toNat = s.toNat + 1 := by
      simp only [KERNBASE] at hsz
      rw [UInt32.toNat_add, show (1 : UInt32).toNat = 1 from rfl, Nat.mod_eq_of_lt (by omega)]
    rw [findNul, if_pos hs]
    by_cases h0 : mem s = 0
    · rw [if_pos h0, Option.some_inj]
      constructor
      · rintro rfl
        refine ⟨UInt32.le_refl s, by omega, h0, fun u h1 h2 => ?_⟩
        rw [UInt32.le_iff_toNat_le] at h1
        rw [UInt32.lt_iff_toNat_lt] at h2
        omega
      · rintro ⟨h1, _, _, h4⟩
        by_contra hne
        refine h4 s (UInt32.le_refl s) ?_ h0
        rw [UInt32.le_iff_toNat_le] at h1
        rw [UInt32.lt_iff_toNat_lt]
        have : s.toNat ≠ t.toNat := fun h => hne (UInt32.toNat_inj.1 h)
        omega
    · rw [if_neg h0, ih (by omega)]
      simp only [UInt32.le_iff_toNat_le, UInt32.lt_iff_toNat_lt, hnext]
      constructor
      · rintro ⟨h1, h2, h3, h4⟩
        refine ⟨by omega, h2, h3, fun u hu1 hu2 => ?_⟩
        by_cases hus : u = s
        · exact hus ▸ h0
        · have : u.toNat ≠ s.toNat := fun h => hus (UInt32.toNat_inj.1 h)
          exact h4 u (by omega) hu2
      · rintro ⟨h1, h2, h3, h4⟩
        have : s.toNat ≠ t.toNat := fun h => h0 (UInt32.toNat_inj.1 h ▸ h3)
        exact ⟨by omega, h2, h3, fun u hu1 hu2 => h4 u (by omega) hu2⟩

theorem fetchstr_inside {addr a : UInt32} {n : Int32} (h : fetchstr p mem addr = some (a, n)) :
    a = addr ∧ 0 ≤ n.toInt ∧ Inside p.sz a (n.toInt.toNat + 1) ∧ mem (a + n.toUInt32) = 0 := by
  unfold fetchstr at h
  split at h
  · cases h
  rename_i ha
  rw [UInt32.le_iff_toNat_le, uintSz_toNat hsz] at ha
  obtain ⟨s, hs, hr⟩ := Option.map_eq_some_iff.1 h
  cases hr
  obtain ⟨h1, h2, h3, _⟩ := (findNul_eq_some hsz mem _ (by omega)).1 hs
  have hlen : (s - addr).toNat = s.toNat - addr.toNat := UInt32.toNat_sub_of_le s addr h1
  rw [UInt32.le_iff_toNat_le] at h1
  have hint : (s - addr).toInt32.toInt = ((s.toNat - addr.toNat : Nat) : Int) := by
    simp only [KERNBASE] at hsz
    rw [← Int32.toInt_toBitVec, BitVec.toInt_eq_toNat_cond,
      show (s - addr).toInt32.toBitVec.toNat = (s - addr).toNat from rfl, hlen, if_pos (by omega)]
  refine ⟨rfl, by omega, .of_le hsz (by omega) (by omega), ?_⟩
  rw [show addr + (s - addr).toInt32.toUInt32 = s from ?_]
  · exact h3
  · show addr + (s - addr) = s
    rw [UInt32.add_comm, UInt32.sub_add_cancel]

theorem argptr_inside {esp a : UInt32} {n size : Int32} (h : argptr p mem esp n size = some a) :
    0 ≤ size.toInt ∧ Inside p.sz a size.toInt.toNat := by
  obtain ⟨i, _, h⟩ := Option.bind_eq_some_iff.1 h
  split at h
  · cases h
  rename_i hc
  rw [not_or, Int32.lt_iff_toInt_lt] at hc
  obtain ⟨hpos, hc⟩ := hc
  have hint : size.toInt = (size.toUInt32.toNat : Int) ∧ size.toUInt32.toNat < KERNBASE := by
    rw [show (0 : Int32).toInt = 0 from rfl, ← Int32.toInt_toBitVec, BitVec.toInt_eq_toNat_cond] at hpos
    rw [← Int32.toInt_toBitVec, BitVec.toInt_eq_toNat_cond, show size.toUInt32.toNat = size.toBitVec.toNat from rfl]
    have := size.toBitVec.isLt
    simp only [KERNBASE]
    split <;> split at hpos <;> omega
  obtain ⟨h1, h2⟩ := (check_iff hsz _ hint.2).1 hc
  cases h
  exact ⟨by omega, .of_le hsz h1 (by omega)⟩

end

/-- What the argument functions accept is inside the process's memory, whatever its registers and
memory hold. -/
structure ArgsInside (p : Proc) : Prop where
  fetchint : ∀ mem addr v, fetchint p mem addr = some v → Inside p.sz addr 4
  fetchstr : ∀ mem addr a n, fetchstr p mem addr = some (a, n) → a = addr ∧ 0 ≤ n.toInt ∧
    Inside p.sz a (n.toInt.toNat + 1)
  argint : ∀ mem esp n v, argint p mem esp n = some v → Inside p.sz (argAddr esp n) 4
  argptr : ∀ mem esp n size a, argptr p mem esp n size = some a → 0 ≤ size.toInt ∧ Inside p.sz a size.toInt.toNat
  argstr : ∀ mem esp n a len, argstr p mem esp n = some (a, len) → 0 ≤ len.toInt ∧ Inside p.sz a (len.toInt.toNat + 1)

theorem argsInside (hsz : p.sz < KERNBASE) : ArgsInside p where
  fetchint mem addr v h := by
    have := ((fetchint_eq_some hsz mem).1 h).1
    exact .of_le hsz (by omega) this
  fetchstr mem addr a n h := by
    obtain ⟨h1, h2, h3, _⟩ := fetchstr_inside hsz mem h
    exact ⟨h1, h2, h3⟩
  argint mem esp n v h := by
    have := ((fetchint_eq_some hsz mem).1 h).1
    exact .of_le hsz (by omega) this
  argptr mem esp n size a h := argptr_inside hsz mem h
  argstr mem esp n a len h := by
    obtain ⟨addr, _, h⟩ := Option.bind_eq_some_iff.1 h
    obtain ⟨_, h2, h3, _⟩ := fetchstr_inside hsz mem h
    exact ⟨h2, h3⟩

/-- **User pointers.** In every state a run from `userinit` on reaches, every process's size is below
`KERNBASE` and every pointer its system calls accept is inside its memory. -/
theorem pointers_inside {k : Kmem} {data : Nat → PageData} {init : List UInt8} {m0 : Machine}
    (hb : boot c k data init = .ok m0) {ls : List Label} (hrun : Lts.Run (Trans c) m0 ls m) (hp : p ∈ m.proc) :
    p.sz < KERNBASE ∧ ArgsInside p :=
  ⟨sizes_below hb hrun p hp, argsInside (sizes_below hb hrun p hp)⟩

/-- The first process asks for 100 bytes, then for all memory, and runs a file without a header. -/
theorem pointers_inside_sbrk : ∃ (m : Machine) (p : Proc), m.proc[0]? = some p ∧ p.sz = PGSIZE + 100 ∧
    p.sz < KERNBASE ∧ ArgsInside p := by
  have hx : (bootRun .SCFIFO [.sbrk 0 100, .sbrk 0 0x7fffffff, .exec 0 (some ⟨false, []⟩) []]).any
      (fun s => s.2.2.proc[0]?.any fun p => p.sz == PGSIZE + 100) = true := by decide +kernel
  obtain ⟨m0, ls, m, hb, hrun, hf⟩ := @bootRun_spec _ _ (fun _ m => m.proc[0]?.any fun p => p.sz == PGSIZE + 100) hx
  obtain ⟨p, hp, hsz⟩ := (Option.any_eq_true _ _).1 hf
  exact ⟨m, p, hp, by simpa using hsz, pointers_inside hb hrun (List.mem_of_getElem? hp)⟩

end Xv6
