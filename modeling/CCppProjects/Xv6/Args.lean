import CCppProjects.Xv6.Reference
import CCppProjects.Xv6.UserPtr
/-
# The arguments on a new program's stack (exec.c:148-165, sysfile.c:398)

`exec` lays the strings of `argv` below the top of the stack and under them `ustack`: a return address, `argc`, the
address of the vector, the vector. The kernel reads a vector of strings back in `sys_exec`.

| here | there |
| --- | --- |
| `execArgs` | the loop of `sys_exec` |
| `Mem.Holds` | the bytes at an address |
| `FitsAbove`, `refStrings_holds` | the strings stay above `base`; then each lies whole where its pointer says |
| `Laid` | what is on the stack |

The strings go down and the vector lies under all of them, so nothing is written over (`refStack_laid`).
-/
namespace Xv6

/-! ## `sys_exec` -/

/-- The bytes of a string of `n`. -/
def cstring (mem : UInt32 → UInt8) (s : UInt32) (n : Nat) : List UInt8 := (List.range n).map fun k => mem (s + .ofNat k)

/-- sysfile.c:408: from `argv[i]` on, with room for `n` more entries; `none` is `-1`. -/
def execArgs (p : Proc) (mem : UInt32 → UInt8) (uargv : UInt32) : Nat → Nat → Option (List (List UInt8))
  | 0, _ => none
  | n + 1, i => do
    let uarg ← fetchint p mem (uargv + 4 * .ofNat i)
    if uarg = 0 then some []
    else do
      let (s, len) ← fetchstr p mem uarg.toUInt32
      let args ← execArgs p mem uargv n (i + 1)
      some (cstring mem s len.toInt.toNat :: args)

/-! ## Bytes in memory -/

theorem page_off {a b : Nat} (hp : a / PGSIZE = b / PGSIZE) (ho : a % PGSIZE = b % PGSIZE) : a = b := by
  rw [← Nat.div_add_mod a PGSIZE, hp, ho, Nat.div_add_mod]

theorem Mem.byte_set (m : Mem) (va u : Nat) (b : UInt8) :
    (m.set va b).byte u = if u = va then (m.byte u).map fun _ => b else m.byte u := by
  unfold Mem.byte Mem.set
  by_cases hp : u / PGSIZE = va / PGSIZE
  · rw [hp, Function.update_self, Option.map_map]
    by_cases hu : u = va
    · subst hu
      rw [if_pos rfl, Option.map_map]
      congr 1
      funext page
      simp
    · rw [if_neg hu]
      congr 1
      funext page
      have ho : (⟨u % PGSIZE, pgoff_lt u⟩ : Fin PGSIZE) ≠ ⟨va % PGSIZE, pgoff_lt va⟩ := by
        intro h
        exact hu (page_off hp (congrArg Fin.val h))
      simp [ho]
  · rw [Function.update_of_ne hp, if_neg]
    rintro rfl
    exact hp rfl

theorem Mem.byte_write_of_not_mem (bs : List UInt8) : ∀ (va : Nat) (m : Mem) {u : Nat},
    u < va ∨ va + bs.length ≤ u → (m.write va bs).byte u = m.byte u := by
  induction bs with
  | nil => intros; rfl
  | cons b bs ih =>
    intro va m u h
    rw [List.length_cons] at h
    rw [Mem.write, ih _ _ (by omega), Mem.byte_set, if_neg (by omega)]

theorem Mem.byte_isSome (m : Mem) (va u : Nat) (bs : List UInt8) :
    ((m.write va bs).byte u).isSome = (m.byte u).isSome := by
  induction bs generalizing va m with
  | nil => rfl
  | cons b bs ih =>
    rw [Mem.write, ih, Mem.byte_set]
    split
    · exact Option.isSome_map
    · rfl

/-- The bytes `bs` are at `va`. -/
def Mem.Holds (m : Mem) (va : Nat) (bs : List UInt8) : Prop :=
  ∀ (k : Nat) (h : k < bs.length), m.byte (va + k) = some bs[k]

theorem Mem.write_holds (bs : List UInt8) : ∀ (va : Nat) (m : Mem), (∀ k < bs.length, (m.byte (va + k)).isSome) →
    (m.write va bs).Holds va bs := by
  induction bs with
  | nil =>
    intro va m _ k h
    cases h
  | cons b bs ih =>
    intro va m hm k hk
    cases k with
    | zero =>
      rw [Mem.write, Mem.byte_write_of_not_mem _ _ _ (by omega), Mem.byte_set, if_pos (by omega)]
      obtain ⟨c, hc⟩ := Option.isSome_iff_exists.1 (hm 0 hk)
      rw [hc]
      rfl
    | succ k =>
      have hrest := ih (va + 1) (m.set va b) fun j hj => by
        rw [Mem.byte_set, if_neg (by omega)]
        have := hm (j + 1) (by rw [List.length_cons]; omega)
        rwa [Nat.add_comm j, ← Nat.add_assoc] at this
      have := hrest k (by rw [List.length_cons] at hk; omega)
      rwa [Nat.add_assoc, Nat.add_comm 1] at this

theorem Mem.Holds.of_byte_eq {m m' : Mem} {va : Nat} {bs : List UInt8} (h : m.Holds va bs)
    (he : ∀ k < bs.length, m'.byte (va + k) = m.byte (va + k)) : m'.Holds va bs :=
  fun k hk => (he k hk).trans (h k hk)

theorem Mem.Holds.append {m : Mem} {va : Nat} {bs cs : List UInt8} (h : m.Holds va (bs ++ cs)) :
    m.Holds va bs ∧ m.Holds (va + bs.length) cs := by
  constructor
  · intro k hk
    rw [h k (by rw [List.length_append]; omega), List.getElem_append_left hk]
  · intro k hk
    rw [Nat.add_assoc, h (bs.length + k) (by rw [List.length_append]; omega), List.getElem_append_right (by omega)]
    simp

/-! ## Where the strings go -/

/-- Below `sp` there is room above `base` for the strings, each with its nul and down to a word. -/
def FitsAbove (base : Nat) : List (List UInt8) → Nat → Prop
  | [], sp => base ≤ sp
  | arg :: args, sp => base ≤ sp ∧ arg.length + 1 ≤ sp ∧ FitsAbove base args ((sp - (arg.length + 1)) / 4 * 4)

theorem FitsAbove.base_le {base : Nat} : ∀ {args : List (List UInt8)} {sp : Nat}, FitsAbove base args sp → base ≤ sp
  | [], _, h => h
  | _ :: _, _, h => h.1

theorem subUInt_of_le {sp n : Nat} (hn : n ≤ sp) (hsp : sp < KERNBASE) : subUInt sp n = sp - n := by
  simp only [subUInt, KERNBASE, UINT] at *
  omega

/-- The strings with their pointers: each is above `lo`, ends below `hi` and holds the argument with a nul
behind it. -/
def Strings (m : Mem) (lo hi : Nat) (ptrs : List Nat) (args : List (List UInt8)) : Prop :=
  List.Forall₂ (fun a arg => lo ≤ a ∧ a + arg.length + 1 ≤ hi ∧ m.Holds a (arg ++ [0])) ptrs args

/-- What the loop over `argv` leaves: nothing outside the strings' part of the stack is written. -/
theorem refStrings_holds {base : Nat} : ∀ (args : List (List UInt8)) (sp : Nat) (ptrs : List Nat) (m : Mem),
    sp < KERNBASE → 4 ∣ sp → FitsAbove base args sp → (∀ u, base ≤ u → u < sp → (m.byte u).isSome) →
    ∃ (lo : Nat) (news : List Nat) (m' : Mem), refStrings args sp ptrs m = (lo, ptrs ++ news, m') ∧
      base ≤ lo ∧ lo ≤ sp ∧ 4 ∣ lo ∧ Strings m' lo sp news args ∧
      (∀ u, u < lo ∨ sp ≤ u → m'.byte u = m.byte u) ∧ ∀ u, (m'.byte u).isSome = (m.byte u).isSome
  | [], sp, ptrs, m, _, h4, hfit, _ =>
    ⟨sp, [], m, by rw [List.append_nil]; rfl, hfit, le_rfl, h4, .nil, fun _ _ => rfl, fun _ => rfl⟩
  | arg :: args, sp, ptrs, m, hsp, h4, ⟨hbase, hlen, hfit⟩, hm => by
    have hsub := subUInt_of_le hlen hsp
    generalize hsp' : (sp - (arg.length + 1)) / 4 * 4 = sp' at hfit
    have hle : sp' + (arg.length + 1) ≤ sp := by omega
    have hb := hfit.base_le
    have hroom : ∀ k < (arg ++ [0]).length, (m.byte (sp' + k)).isSome := by
      intro k hk
      rw [List.length_append, List.length_singleton] at hk
      exact hm _ (by omega) (by omega)
    have hwrite := Mem.write_holds (arg ++ [0]) sp' m hroom
    obtain ⟨lo, news, m', heq, h1, h2, h3, hs, hout, hsome⟩ :=
      refStrings_holds args sp' (ptrs ++ [sp']) (m.write sp' (arg ++ [0])) (by omega)
        ⟨_, by rw [← hsp', Nat.mul_comm]⟩ hfit
        fun u hu1 hu2 => by rw [Mem.byte_isSome]; exact hm u hu1 (by omega)
    refine ⟨lo, sp' :: news, m', ?_, h1, by omega, h3, ?_, ?_, ?_⟩
    · rw [refStrings, hsub, hsp', heq, List.append_assoc]
      rfl
    · refine .cons ⟨h2, by omega, hwrite.of_byte_eq fun k _ => hout _ (by omega)⟩ ?_
      exact hs.imp fun a arg' h => ⟨h.1, by omega, h.2.2⟩
    · intro u hu
      rw [hout u (by omega), Mem.byte_write_of_not_mem]
      rw [List.length_append, List.length_singleton]
      omega
    · intro u
      rw [hsome, Mem.byte_isSome]

/-! ## The vector -/

theorem wordBytes_length (w : Nat) : (wordBytes w).length = 4 := by
  simp [wordBytes]

theorem flatMap_wordBytes_length (ws : List Nat) : (ws.flatMap wordBytes).length = ws.length * 4 := by
  induction ws with
  | nil => rfl
  | cons w ws ih =>
    rw [List.flatMap_cons, List.length_append, ih, wordBytes_length, List.length_cons]
    omega

/-- The words at an address. -/
theorem Mem.Holds.word {m : Mem} {va : Nat} {ws : List Nat} (h : m.Holds va (ws.flatMap wordBytes)) {j w : Nat}
    (hj : ws[j]? = some w) : m.Holds (va + j * 4) (wordBytes w) := by
  induction ws generalizing va j with
  | nil => cases hj
  | cons v ws ih =>
    rw [List.flatMap_cons] at h
    obtain ⟨hv, hws⟩ := h.append
    cases j with
    | zero =>
      obtain rfl : v = w := by simpa using hj
      simpa using hv
    | succ j =>
      rw [wordBytes_length] at hws
      have := ih hws hj
      rwa [Nat.add_assoc, Nat.add_comm 4, ← Nat.succ_mul] at this

/-- What a program finds at `esp`: `argc`, the address of the vector, the vector and the strings. -/
structure Laid (m : Mem) (argv : List (List UInt8)) (esp top : Nat) (ptrs : List Nat) : Prop where
  words : m.Holds esp ((0xffffffff :: argv.length :: (esp + 12) :: ptrs ++ [0]).flatMap wordBytes)
  strings : Strings m (esp + 4 * (argv.length + 4)) top ptrs argv

/-- `tf->esp` (exec.c:178). -/
def execEsp (argv : List (List UInt8)) (top : Nat) : Nat :=
  subUInt (refStrings argv top [] Mem.none).1 ((3 + argv.length + 1) * 4)

theorem refStrings_ptrs (args : List (List UInt8)) : ∀ (sp : Nat) (ptrs : List Nat) (m m' : Mem),
    (refStrings args sp ptrs m).1 = (refStrings args sp ptrs m').1 ∧
      (refStrings args sp ptrs m).2.1 = (refStrings args sp ptrs m').2.1 := by
  induction args with
  | nil => exact fun _ _ _ _ => ⟨rfl, rfl⟩
  | cons arg args ih => exact fun _ _ _ _ => ih _ _ _ _

/-- **The stack of a new program**, when strings and vector fit into its page. -/
theorem refStack_laid {argv : List (List UInt8)} {sz : Nat} {m : Mem} (htop : pgUp sz * PGSIZE + 2 * PGSIZE < KERNBASE)
    (hfit : FitsAbove (pgUp sz * PGSIZE + PGSIZE) argv (pgUp sz * PGSIZE + 2 * PGSIZE))
    (hroom : pgUp sz * PGSIZE + PGSIZE + (3 + argv.length + 1) * 4 ≤
      (refStrings argv (pgUp sz * PGSIZE + 2 * PGSIZE) [] Mem.none).1) :
    let top := pgUp sz * PGSIZE + 2 * PGSIZE
    ∃ ptrs, pgUp sz * PGSIZE + PGSIZE ≤ execEsp argv top ∧ execEsp argv top + 4 * (argv.length + 4) ≤ top ∧
      Laid (refStack argv sz m) argv (execEsp argv top) top ptrs := by
  intro top
  have htop4 : 4 ∣ top := ⟨(pgUp sz + 2) * 1024, by simp only [top, PGSIZE]; omega⟩
  -- the two pages of the stack are there
  have hpages : ∀ u, pgUp sz * PGSIZE + PGSIZE ≤ u → u < top →
    ((m.grow (pgUp (pgUp sz * PGSIZE)) top).byte u).isSome := by
    intro u h1 h2
    have hu : pgUp (pgUp sz * PGSIZE) ≤ u / PGSIZE ∧ u / PGSIZE * PGSIZE < top := by
      simp only [pgUp, PGSIZE] at *
      omega
    rw [Mem.byte, Mem.grow, if_pos hu]
    rfl
  obtain ⟨lo, ptrs, m', heq, h1, h2, -, hs, hout, hsome⟩ := refStrings_holds argv top [] _ htop htop4 hfit hpages
  have hlo : (refStrings argv top [] Mem.none).1 = lo := by
    rw [(refStrings_ptrs argv top [] Mem.none _).1, heq]
  have hlen : ptrs.length = argv.length := hs.length_eq
  rw [hlo] at hroom
  have hesp : execEsp argv top = lo - (3 + argv.length + 1) * 4 := by
    rw [execEsp, hlo, subUInt_of_le (by omega) (by omega)]
  have huargv : subUInt lo ((argv.length + 1) * 4) = execEsp argv top + 12 := by
    rw [hesp, subUInt_of_le (by omega) (by omega)]
    omega
  have hstack : refStack argv sz m = m'.write (execEsp argv top)
      ((0xffffffff :: argv.length :: (execEsp argv top + 12) :: ptrs ++ [0]).flatMap wordBytes) := by
    rw [refStack, heq, ← huargv, ustack, ← hlen, List.nil_append, execEsp, hlo, hlen]
  have hbytes : ((0xffffffff :: argv.length :: (execEsp argv top + 12) :: ptrs ++ [0]).flatMap wordBytes).length =
      (3 + argv.length + 1) * 4 := by
    rw [flatMap_wordBytes_length]
    simp only [List.cons_append, List.length_cons, List.length_append, List.length_nil, hlen]
    omega
  refine ⟨ptrs, by omega, by omega, ?_, ?_⟩
  · rw [hstack]
    refine Mem.write_holds _ _ _ fun k hk => ?_
    rw [hbytes] at hk
    rw [hsome]
    exact hpages _ (by omega) (by omega)
  · rw [hstack]
    refine hs.imp fun a arg h => ⟨by omega, h.2.1, h.2.2.of_byte_eq fun k _ => ?_⟩
    exact Mem.byte_write_of_not_mem _ _ _ (.inr (by rw [hbytes]; omega))

/-! ## Reading it back -/

/-- Bytes in their places do not overlap. -/
theorem or_shiftLeft {x y n : Nat} (hx : x < 2 ^ n) : x ||| y <<< n = x + y * 2 ^ n := by
  rw [Nat.or_comm, Nat.shiftLeft_eq, Nat.mul_comm, ← Nat.two_pow_add_eq_or_of_lt hx, Nat.add_comm]

theorem bytes_word (w : Nat) : ((UInt8.ofNat (w / 256 ^ 0)).toUInt32 ||| (UInt8.ofNat (w / 256 ^ 1)).toUInt32 <<< 8 |||
    (UInt8.ofNat (w / 256 ^ 2)).toUInt32 <<< 16 ||| (UInt8.ofNat (w / 256 ^ 3)).toUInt32 <<< 24) = UInt32.ofNat w := by
  apply UInt32.toNat_inj.1
  have hshift : ∀ (b : UInt8) (n : UInt32), n.toNat ≤ 24 → (b.toUInt32 <<< n).toNat = b.toNat <<< n.toNat := by
    intro b n hn
    have hb := b.toNat_lt
    rw [UInt32.toNat_shiftLeft, Nat.mod_eq_of_lt (a := n.toNat) (by omega), Nat.shiftLeft_eq, Nat.shiftLeft_eq,
      UInt8.toNat_toUInt32]
    apply Nat.mod_eq_of_lt
    calc b.toNat * 2 ^ n.toNat ≤ b.toNat * 2 ^ 24 := Nat.mul_le_mul_left _ (Nat.pow_le_pow_right (by decide) hn)
      _ < 2 ^ 32 := by omega
  rw [UInt32.toNat_or, UInt32.toNat_or, UInt32.toNat_or, hshift _ 8 (by decide), hshift _ 16 (by decide),
    hshift _ 24 (by decide), UInt8.toNat_toUInt32, UInt8.toNat_ofNat', UInt8.toNat_ofNat', UInt8.toNat_ofNat',
    UInt8.toNat_ofNat', UInt32.toNat_ofNat']
  change w / 256 ^ 0 % 256 ||| (w / 256 ^ 1 % 256) <<< 8 ||| (w / 256 ^ 2 % 256) <<< 16 |||
    (w / 256 ^ 3 % 256) <<< 24 = w % 4294967296
  rw [or_shiftLeft (n := 8) (by omega), or_shiftLeft (n := 16) (by omega), or_shiftLeft (n := 24) (by omega)]
  omega

section
variable {p : Proc} (hsz : p.sz < KERNBASE) {mem : UInt32 → UInt8} {m : Mem}
  (hmem : ∀ u < p.sz, ∀ b, m.byte u = some b → mem (.ofNat u) = b)
include hsz

theorem toNat_ofNat_lt {a : Nat} (h : a ≤ p.sz) : (UInt32.ofNat a).toNat = a := by
  simp only [KERNBASE] at hsz
  exact UInt32.toNat_ofNat_of_lt (by simp only [UInt32.size]; omega)

include hmem

/-- `fetchint` reads a word. -/
theorem fetchint_holds {a w : Nat} (ha : a + 4 ≤ p.sz) (h : m.Holds a (wordBytes w)) :
    fetchint p mem (.ofNat a) = some (UInt32.ofNat w).toInt32 := by
  refine (fetchint_eq_some hsz mem).2 ⟨by rw [toNat_ofNat_lt hsz (by omega)]; exact ha, ?_⟩
  have hk : ∀ k < 4, mem (UInt32.ofNat a + .ofNat k) = UInt8.ofNat (w / 256 ^ k) := by
    intro k hk
    rw [← UInt32.ofNat_add]
    exact hmem _ (by omega) _ (by rw [h k (by rw [wordBytes_length]; exact hk)]; simp [wordBytes])
  have h0 : mem (.ofNat a) = UInt8.ofNat (w / 256 ^ 0) := by simpa using hk 0 (by omega)
  have h1 := hk 1 (by omega)
  have h2 := hk 2 (by omega)
  have h3 := hk 3 (by omega)
  rw [readInt, h0, ← bytes_word w, ← h1, ← h2, ← h3]
  rfl

/-- `fetchstr` reads a string. -/
theorem fetchstr_holds {a : Nat} {bs : List UInt8} (ha : a + bs.length + 1 ≤ p.sz) (h : m.Holds a (bs ++ [0]))
    (h0 : 0 ∉ bs) : fetchstr p mem (.ofNat a) = some (.ofNat a, (UInt32.ofNat bs.length).toInt32) ∧
      cstring mem (.ofNat a) bs.length = bs := by
  have hat := toNat_ofNat_lt hsz (a := a) (by omega)
  have hend := toNat_ofNat_lt hsz (a := a + bs.length) (by omega)
  obtain ⟨hbs, hnul⟩ := h.append
  have hread : ∀ (k : Nat) (hk : k < bs.length), mem (.ofNat (a + k)) = bs[k] := fun k hk =>
    hmem _ (by omega) _ (hbs k hk)
  constructor
  · have hfind : findNul mem p.uintSz (p.sz - a) (.ofNat a) = some (.ofNat (a + bs.length)) := by
      refine (findNul_eq_some hsz mem _ (by rw [hat]; omega)).2 ⟨?_, ?_, ?_, fun u hu1 hu2 => ?_⟩
      · rw [UInt32.le_iff_toNat_le, hat, hend]
        omega
      · rw [hend]
        omega
      · exact hmem _ (by omega) _ (hnul 0 (by simp))
      · rw [UInt32.le_iff_toNat_le, hat] at hu1
        rw [UInt32.lt_iff_toNat_lt, hend] at hu2
        have hu : u = .ofNat (a + (u.toNat - a)) := by
          rw [Nat.add_sub_cancel' hu1, UInt32.ofNat_toNat]
        rw [hu, hread _ (by omega)]
        exact fun hz => h0 (hz ▸ List.getElem_mem _)
    rw [fetchstr, if_neg, hat, hfind, Option.map_some]
    · congr 2
      rw [UInt32.ofNat_add, UInt32.add_comm, UInt32.add_sub_cancel]
    · rw [UInt32.le_iff_toNat_le, uintSz_toNat hsz, hat]
      omega
  · apply List.ext_getElem
    · simp [cstring]
    · intro k h1 h2
      simp only [cstring, List.getElem_map, List.getElem_range, ← UInt32.ofNat_add]
      exact hread k h2

/-- The loop of `sys_exec` reads the strings whose addresses are in the vector, one less than there is room for. -/
theorem execArgs_holds {uargv lo : Nat} (hlo : 0 < lo) : ∀ (args : List (List UInt8)) (n i : Nat) (ptrs : List Nat),
    Strings m lo p.sz ptrs args → (∀ arg ∈ args, 0 ∉ arg) → uargv + 4 * (i + ptrs.length + 1) ≤ p.sz →
    m.Holds (uargv + 4 * i) ((ptrs ++ [0]).flatMap wordBytes) →
    execArgs p mem (.ofNat uargv) n i = if args.length < n then some args else none
  | [], n, i, ptrs, hs, _, hle, hw => by
    cases hs
    cases n with
    | zero => rfl
    | succ n =>
      have hint : fetchint p mem (.ofNat (uargv + 4 * i)) = some (UInt32.ofNat 0).toInt32 :=
        fetchint_holds hsz hmem (by simp at hle; omega) (by simpa using hw)
      rw [UInt32.ofNat_add, UInt32.ofNat_mul] at hint
      rw [if_pos (show ([] : List (List UInt8)).length < n + 1 from Nat.succ_pos n), execArgs]
      simp only [show (UInt32.ofNat 4) = 4 from rfl] at hint
      rw [hint]
      rfl
  | arg :: args, n, i, ptrs, hs, h0, hle, hw => by
    cases hs with
    | @cons a _ ptrs _ ha hs =>
      obtain ⟨ha1, ha2, ha3⟩ := ha
      cases n with
      | zero => rfl
      | succ n =>
        rw [List.length_cons] at hle
        rw [List.cons_append, List.flatMap_cons] at hw
        obtain ⟨hword, hrest⟩ := hw.append
        rw [wordBytes_length, Nat.add_assoc, ← Nat.mul_succ] at hrest
        have hint := fetchint_holds hsz hmem (by omega) hword
        rw [UInt32.ofNat_add, UInt32.ofNat_mul, show (UInt32.ofNat 4) = 4 from rfl] at hint
        obtain ⟨hstr, hcs⟩ := fetchstr_holds hsz hmem ha2 ha3 (h0 arg (by simp))
        have hne : (UInt32.ofNat a).toInt32 ≠ 0 := by
          intro hz
          have hz' : UInt32.ofNat a = 0 := congrArg Int32.toUInt32 hz
          have := congrArg UInt32.toNat hz'
          rw [toNat_ofNat_lt hsz (by omega)] at this
          simp at this
          omega
        have hlen : (UInt32.ofNat arg.length).toInt32.toInt.toNat = arg.length := by
          have hl := toNat_ofNat_lt hsz (a := arg.length) (by omega)
          simp only [KERNBASE] at hsz
          rw [← Int32.toInt_toBitVec, BitVec.toInt_eq_toNat_cond,
            show (UInt32.ofNat arg.length).toInt32.toBitVec.toNat =
              (UInt32.ofNat arg.length).toNat from rfl, hl, if_pos (by omega)]
          rfl
        have ih := execArgs_holds hlo args n (i + 1) ptrs hs (fun b hb => h0 b (by simp [hb])) (by omega) hrest
        rw [execArgs, hint]
        simp only [Option.bind_eq_bind, Option.bind_some, if_neg hne]
        rw [show (UInt32.ofNat a).toInt32.toUInt32 = UInt32.ofNat a from rfl, hstr]
        simp only [Option.bind_some, hlen, hcs, ih, List.length_cons, Nat.add_lt_add_iff_right]
        split <;> rfl

/-- What `argint` and `sys_exec` read of a stack that `exec` laid. -/
theorem Laid.read {argv : List (List UInt8)} {esp : Nat} {ptrs : List Nat} (h : Laid m argv esp p.sz ptrs)
    (hle : esp + 4 * (argv.length + 4) ≤ p.sz) (h0 : ∀ arg ∈ argv, 0 ∉ arg) :
    argint p mem (.ofNat esp) 0 = some (UInt32.ofNat argv.length).toInt32 ∧
      ∃ uargv, argint p mem (.ofNat esp) 1 = some uargv ∧
        execArgs p mem uargv.toUInt32 MAXARG 0 = if argv.length < MAXARG then some argv else none := by
  have hlen : ptrs.length = argv.length := h.strings.length_eq
  have hw1 := h.words.word (j := 1) (w := argv.length) rfl
  have hw2 := h.words.word (j := 2) (w := esp + 12) rfl
  have hvec : m.Holds (esp + 12) ((ptrs ++ [0]).flatMap wordBytes) := by
    have := h.words
    rw [List.cons_append, List.cons_append, List.cons_append, List.flatMap_cons, List.flatMap_cons, List.flatMap_cons,
      ← List.append_assoc, ← List.append_assoc] at this
    simpa [wordBytes_length] using this.append.2
  refine ⟨?_, (UInt32.ofNat (esp + 12)).toInt32, ?_, ?_⟩
  · have := fetchint_holds hsz hmem (a := esp + 1 * 4) (by omega) hw1
    rw [UInt32.ofNat_add] at this
    rw [argint, argAddr, show (4 * 0 : Int32).toUInt32 = 0 by decide, UInt32.add_zero]
    exact this
  · have := fetchint_holds hsz hmem (a := esp + 2 * 4) (by omega) hw2
    rw [UInt32.ofNat_add] at this
    rw [argint, argAddr, show (4 * 1 : Int32).toUInt32 = 4 by decide, UInt32.add_assoc]
    exact this
  · exact execArgs_holds hsz hmem (show 0 < esp + 4 * (argv.length + 4) by omega) argv MAXARG 0 ptrs h.strings h0
      (by omega) (by simpa using hvec)

end

end Xv6
