import CCppProjects.Xv6.Args
import CCppProjects.Xv6.Transparency
/-
# A new program finds its arguments

Everything `copyout` writes is in pages the program may read, and `clearpteu` has taken the page below the
stack away: an `exec` that succeeds has put strings and vector into the one page of the stack (`Stacked`),
where nothing is written over. So the program reads the arguments it was given, and so does the kernel when it
passes them on (`exec_argv`).

| here | where in `exec` |
| --- | --- |
| `copyout_permits` | a string or the vector that was copied lies in the program's pages |
| `above_guard`     | it does not reach below the stack |
| `execStack_stacked`, `exec_stacked` | the stack when the call succeeds |
-/
namespace Xv6

open Share

variable {c : Cfg} {x x' : Ctx}

/-! ## What is copied can be read -/

theorem uva2ka_permits {t : Pgdir} {v f : Nat} (h : uva2ka c t v = .ok (some f)) {va : Nat} (hva : va / PGSIZE = v) :
    permits t va false = true := by
  obtain ⟨hv, -, hP⟩ := uva2ka_ok h
  unfold uva2ka at h
  split at h
  · cases h
  rename_i e he
  obtain ⟨rfl, hpde⟩ := walkpgdir_user hv he
  have hU : (t.pte v).U = true := by
    have h := Except.ok.inj h
    split at h
    · rename_i hPU
      rw [Bool.and_eq_true] at hPU
      exact hPU.2
    · cases h
  have hlt : va < KERNBASE := by
    simp only [KERNBASE, PGSIZE, USERPAGES] at *
    omega
  simp [permits, hva, hlt, hpde, hP, hU]

theorem permits_lt {t : Pgdir} {va : Nat} {w : Bool} (h : permits t va w = true) : va < KERNBASE := by
  simp only [permits, Bool.and_eq_true, decide_eq_true_eq] at h
  exact h.1.1.1.1

theorem permits_user_page {t : Pgdir} {va : Nat} {w : Bool} (h : permits t va w = true) :
    (t.pte (va / PGSIZE)).U = true := by
  simp only [permits, Bool.and_eq_true] at h
  exact h.1.2

/-- A load depends on the page alone. -/
theorem permits_page {t : Pgdir} {va va' : Nat} (h : permits t va false = true) (hp : va' / PGSIZE = va / PGSIZE) :
    permits t va' false = true := by
  have hlt := permits_lt h
  have hlt' : va' < KERNBASE := by
    simp only [KERNBASE, PGSIZE] at *
    omega
  simp only [permits, Bool.and_eq_true, decide_eq_true_eq] at h ⊢
  rw [hp]
  exact ⟨⟨⟨⟨hlt', h.1.1.1.2⟩, h.1.1.2⟩, h.1.2⟩, h.2⟩

theorem copyout_permits : ∀ (bs : List UInt8) (va : Nat) (x x' : Ctx), copyout c va bs x = .ok (true, x') →
    x'.other = x.other ∧ ∀ k < bs.length, permits x.other (va + k) false = true
  | [], va, x, x', h => by
    cases h
    exact ⟨rfl, fun k hk => by cases hk⟩
  | b :: bs, va, x, x', h => by
    rw [copyout] at h
    obtain ⟨r, hr, h⟩ := lift_bind_ok h
    cases r with
    | none => cases h
    | some f =>
      have hfirst : permits x.other va false = true := uva2ka_permits hr rfl
      have hlt := permits_lt hfirst
      have hmod : (va + 1) % UINT = va + 1 := Nat.mod_eq_of_lt (by simp only [KERNBASE, UINT] at *; omega)
      dsimp only at h
      rw [hmod] at h
      obtain ⟨h1, h2⟩ := copyout_permits bs (va + 1) _ x' h
      refine ⟨h1, fun k hk => ?_⟩
      cases k with
      | zero => exact hfirst
      | succ k =>
        rw [List.length_cons] at hk
        have := h2 k (by omega)
        rwa [Nat.add_assoc, Nat.add_comm 1] at this

/-! ## The strings and the vector fit into the stack's page -/

/-- What ends less than a word below `sp` and does not touch page `g` stays above it. -/
theorem above_guard {g va n sp : Nat} (hn : 0 < n) (hsp : (g + 1) * PGSIZE ≤ sp) (hend : sp ≤ va + n + 3)
    (h : ∀ k < n, (va + k) / PGSIZE ≠ g) : (g + 1) * PGSIZE ≤ va := by
  by_contra hlt
  simp only [PGSIZE] at *
  by_cases hlong : (g + 1) * 4096 ≤ va + (n - 1)
  · exact h ((g + 1) * 4096 - 1 - va) (by omega) (by omega)
  · exact h (n - 1) (by omega) (by omega)

/-- What is copied below `sp` was taken off without going below zero. -/
theorem subUInt_no_wrap {sp n : Nat} (hsp : sp < KERNBASE)
    (h : subUInt sp n / 4 * 4 + (n - 1) < KERNBASE) : n ≤ sp := by
  simp only [subUInt, KERNBASE, UINT] at *
  omega

theorem refStrings_length (args : List (List UInt8)) : ∀ (sp : Nat) (ptrs : List Nat) (m : Mem),
    (refStrings args sp ptrs m).2.1.length = ptrs.length + args.length := by
  induction args with
  | nil => exact fun _ _ _ => rfl
  | cons arg args ih =>
    intro sp ptrs m
    rw [refStrings, ih, List.length_append, List.length_singleton, List.length_cons]
    omega

theorem pushArgs_fits {g : Nat} : ∀ (args : List (List UInt8)) (sp : Nat) (ptrs : List Nat) (x x' : Ctx)
    (q : Nat × List Nat), pushArgs c args sp ptrs x = .ok (some q, x') → (x.other.pte g).U = false →
    (g + 1) * PGSIZE ≤ sp → sp < KERNBASE → ptrs.length ≤ MAXARG →
    FitsAbove ((g + 1) * PGSIZE) args sp ∧ x'.other = x.other ∧ q.2.length ≤ MAXARG ∧ (g + 1) * PGSIZE ≤ q.1 ∧ q.1 ≤ sp
  | [], sp, ptrs, x, x', q, h, _, hsp, _, hn => by
    cases h
    exact ⟨hsp, rfl, hn, hsp, le_rfl⟩
  | arg :: args, sp, ptrs, x, x', q, h, hg, hsp, hlt, _ => by
    rw [pushArgs] at h
    by_cases hmax : MAXARG ≤ ptrs.length
    · rw [if_pos hmax] at h
      cases h
    rw [if_neg hmax] at h
    obtain ⟨⟨ok, y⟩, hy, h⟩ := bind_ok h
    cases ok with
    | false => cases h
    | true =>
      obtain ⟨hother, hperm⟩ := copyout_permits _ _ _ _ hy
      rw [List.length_append, List.length_singleton] at hperm
      have hwrap : arg.length + 1 ≤ sp := subUInt_no_wrap hlt (permits_lt (hperm (arg.length + 1 - 1) (by omega)))
      rw [subUInt_of_le hwrap hlt] at h hperm
      have hguard : ∀ k < arg.length + 1, ((sp - (arg.length + 1)) / 4 * 4 + k) / PGSIZE ≠ g := by
        intro k hk he
        have hU := permits_user_page (hperm k hk)
        rw [he, hg] at hU
        cases hU
      have hbase := above_guard (Nat.succ_pos _) hsp (by omega) hguard
      obtain ⟨h1, h2, h3, h4, h5⟩ := pushArgs_fits args _ _ y x' q h (by rw [hother]; exact hg) hbase (by omega)
        (by rw [List.length_append, List.length_singleton]; omega)
      exact ⟨⟨hsp, hwrap, h1⟩, h2.trans hother, h3, h4, by omega⟩

/-- The stack of a program whose image has `sz` bytes, in the table `t`. -/
structure Stacked (argv : List (List UInt8)) (sz : Nat) (t : Pgdir) : Prop where
  top : pgUp sz * PGSIZE + 2 * PGSIZE < KERNBASE
  fits : FitsAbove (pgUp sz * PGSIZE + PGSIZE) argv (pgUp sz * PGSIZE + 2 * PGSIZE)
  room : pgUp sz * PGSIZE + PGSIZE + (3 + argv.length + 1) * 4 ≤
    (refStrings argv (pgUp sz * PGSIZE + 2 * PGSIZE) [] Mem.none).1
  loads : ∀ va, pgUp sz * PGSIZE + PGSIZE ≤ va → va < pgUp sz * PGSIZE + 2 * PGSIZE → permits t va false = true

theorem clearpteu_guard {va : Nat} (h : clearpteu c va x = .ok x') : (x'.other.pte (va / PGSIZE)).U = false := by
  unfold clearpteu at h
  split at h
  · cases h
  · cases h
    change ((x.other.setPte (va / PGSIZE) _).pte (va / PGSIZE)).U = false
    rw [Pgdir.pte_setPte, if_pos rfl]

theorem execStack_stacked {argv : List (List UInt8)} {sz top : Nat} (h : execStack c argv sz x = .ok (some top, x')) :
    Stacked argv sz x'.other := by
  obtain ⟨-, htop, hlt⟩ := @execStack_does c (swapLaw c) [] [] True trivial _ _ _ _ _ h
  unfold execStack at h
  obtain ⟨⟨sz1, y⟩, hy, h⟩ := bind_ok h
  dsimp only at h
  by_cases h0 : sz1 = 0
  · rw [if_pos h0] at h
    cases h
  rw [if_neg h0] at h
  obtain ⟨z, hz, h⟩ := bind_ok h
  obtain ⟨⟨q, u⟩, hu, h⟩ := bind_ok h
  cases q with
  | none => cases h
  | some q =>
    obtain ⟨⟨ok, v⟩, hv, h⟩ := bind_ok h
    cases ok with
    | false => cases h
    | true =>
      cases h
      subst htop
      have hpage : (pgUp sz * PGSIZE + 2 * PGSIZE - 2 * PGSIZE) / PGSIZE = pgUp sz := by
        simp only [PGSIZE]
        omega
      have hguard := clearpteu_guard hz
      rw [hpage] at hguard
      have hbase : (pgUp sz + 1) * PGSIZE = pgUp sz * PGSIZE + PGSIZE := Nat.succ_mul ..
      obtain ⟨hfit, hother, hmax, hlo, hhi⟩ := pushArgs_fits argv _ [] z u q hu hguard (by omega) hlt (Nat.zero_le _)
      obtain ⟨-, href⟩ := @pushArgs_does c (swapLaw c) [] [] True trivial _ _ _ _ _ _ hu
      have hq1 : (refStrings argv (pgUp sz * PGSIZE + 2 * PGSIZE) [] Mem.none).1 = q.1 := (href Mem.none).1
      have hq2 : q.2.length = argv.length := by
        rw [← (href Mem.none).2, refStrings_length]
        exact Nat.zero_add _
      rw [hbase] at hfit hlo
      -- the vector lies below the strings and above the guard page
      obtain ⟨hv1, hperm⟩ := copyout_permits _ _ _ _ hv
      have hbytes : ((ustack q.1 q.2).flatMap wordBytes).length = (3 + q.2.length + 1) * 4 := by
        rw [flatMap_wordBytes_length]
        simp only [ustack, List.cons_append, List.length_cons, List.length_append, List.length_nil]
        omega
      rw [hbytes] at hperm
      have hpg : PGSIZE = 4096 := rfl
      have hsmall : (3 + q.2.length + 1) * 4 ≤ q.1 := by
        have : MAXARG = 32 := rfl
        omega
      rw [subUInt_of_le hsmall (by omega)] at hperm
      have hfree : ∀ k < (3 + q.2.length + 1) * 4, (q.1 - (3 + q.2.length + 1) * 4 + k) / PGSIZE ≠ pgUp sz := by
        intro k hk he
        have hU := permits_user_page (hperm k hk)
        rw [he, hother, hguard] at hU
        cases hU
      have habove := above_guard (by omega) (hbase.trans_le hlo) (by omega) hfree
      refine ⟨hlt, hfit, ?_, fun va h1 h2 => ?_⟩
      · rw [hq1, ← hq2]
        omega
      · rw [hv1]
        refine permits_page (hperm 0 (by omega)) ?_
        rw [hbase] at habove
        rw [hpg] at h1 h2 habove hhi ⊢
        omega

theorem execCommit_pgdir {sz : Nat} (h : execCommit c sz x = .ok x') : x'.proc.pgdir = x.other := by
  have hkeep : ∀ {y : Ctx}, freevm c y = .ok x' → x'.proc.pgdir = y.proc.pgdir := by
    intro y hy
    unfold freevm at hy
    split at hy
    · cases hy
    obtain ⟨⟨r, z⟩, hz, hy⟩ := bind_ok hy
    obtain ⟨k1, _, hy⟩ := lift_bind_ok hy
    obtain ⟨k2, _, hy⟩ := lift_bind_ok hy
    cases hy
    exact (deallocuvm_onlyPtes hz).other .own (by decide)
  refine (hkeep h).trans ?_
  split <;> rfl

theorem execImage_stacked {b : Proc} {img : Image} {argv : List (List UInt8)}
    (h : execImage c b img argv x = .ok (true, x')) :
    Stacked argv (refSegments img.segs ⟨Mem.none, 0⟩).sz x'.proc.pgdir := by
  unfold execImage at h
  obtain ⟨⟨ok1, y⟩, hy, h⟩ := bind_ok h
  cases ok1 with
  | false =>
    obtain ⟨z, _, h⟩ := bind_ok h
    cases h
  | true =>
    obtain ⟨⟨r, u⟩, hu, h⟩ := bind_ok h
    cases r with
    | none =>
      obtain ⟨z, _, h⟩ := bind_ok h
      cases h
    | some sz =>
      obtain ⟨-, -, hsz⟩ := @loadSegments_does c (swapLaw c) [] [] True trivial _ _ _ _ _ (by decide) hu
      obtain ⟨⟨r, v⟩, hv, h⟩ := bind_ok h
      cases r with
      | none =>
        obtain ⟨z, _, h⟩ := bind_ok h
        cases h
      | some top =>
        obtain ⟨z, hz, h⟩ := bind_ok h
        cases h
        rw [hsz, execCommit_pgdir hz]
        exact execStack_stacked hv

theorem exec_stacked {img : Image} {argv : List (List UInt8)} (h : exec c (some img) argv x = .ok (true, x')) :
    Stacked argv (refSegments img.segs ⟨Mem.none, 0⟩).sz x'.proc.pgdir := by
  simp only [exec] at h
  split at h
  · exact execImage_stacked h
  · obtain ⟨z, _, h⟩ := bind_ok h
    cases h

/-! ## Runs -/

/-- What process `p` reads at an address. -/
def userMem (data : Nat → PageData) (p : Proc) (a : UInt32) : UInt8 := byteAt p.pgdir data a.toNat

/-- `argv` as the program finds it: it can read the stack from `esp` up, the argument functions of the kernel find
`argc` and the vector there, and `sys_exec` passes on the same strings. -/
structure Passed (argv : List (List UInt8)) (data : Nat → PageData) (p : Proc) : Prop where
  esp : execEsp argv p.sz + 4 * (argv.length + 4) ≤ p.sz
  loads : ∀ va, execEsp argv p.sz ≤ va → va < p.sz → permits p.pgdir va false = true
  argc : argint p (userMem data p) (.ofNat (execEsp argv p.sz)) 0 = some (UInt32.ofNat argv.length).toInt32
  vector : ∃ uargv, argint p (userMem data p) (.ofNat (execEsp argv p.sz)) 1 = some uargv ∧
    execArgs p (userMem data p) uargv.toUInt32 MAXARG 0 = if argv.length < MAXARG then some argv else none

/-- A byte the reference machine has is what the process's table shows. -/
theorem byte_shows {m : Machine} {r : Ref} {i : Nat} {p : Proc} (hs : Shows m r)
    (hp : m.proc[i]? = some p) {u : Nat} {b : UInt8}
    (h : (r i).mem.byte u = some b) : byteAt p.pgdir m.data u = b := by
  rw [hs i p hp] at h
  change ((p.pgdir.frame (u / PGSIZE)).map m.data).map _ = some b at h
  unfold Pgdir.frame at h
  split at h
  · exact Option.some.inj h
  · cases h

theorem Stacked.passed {argv : List (List UInt8)} {img : Image} {m : Machine} {r : Ref} {i : Nat} {p : Proc}
    (h : Stacked argv (refSegments img.segs ⟨Mem.none, 0⟩).sz p.pgdir) (hs : Shows m r) (hp : m.proc[i]? = some p)
    (hr : r i = refExec img argv) (h0 : ∀ arg ∈ argv, 0 ∉ arg) : Passed argv m.data p := by
  have hri : refExec img argv = ⟨_, p.sz⟩ := hr.symm.trans (hs i p hp)
  have hsz : p.sz = pgUp (refSegments img.segs ⟨Mem.none, 0⟩).sz * PGSIZE + 2 * PGSIZE := (congrArg RefProc.sz hri).symm
  have hlt : p.sz < KERNBASE := hsz ▸ h.top
  obtain ⟨ptrs, hbase, hesp, hlaid⟩ := refStack_laid (m := (refSegments img.segs ⟨Mem.none, 0⟩).mem) h.top h.fits h.room
  rw [← hsz] at hbase hesp hlaid
  have hmem : ∀ u < p.sz, ∀ b, (refExec img argv).mem.byte u = some b → userMem m.data p (.ofNat u) = b := by
    intro u hu b hb
    rw [← hr] at hb
    rw [userMem, toNat_ofNat_lt hlt hu.le]
    exact byte_shows hs hp hb
  obtain ⟨hargc, hvector⟩ := hlaid.read hlt hmem hesp h0
  exact ⟨hesp, fun va h1 h2 => h.loads va (by omega) (by omega), hargc, hvector⟩

/-- **`exec` passes the arguments on.** In a run that never swaps out a page marked `PTE_PG` or shared, reads
back only slots that agree with the page's frame, and wraps no count: after every successful `exec` the new
program finds `argc` and the strings of `argv` on its stack. -/
theorem exec_argv {k : Kmem} {data : Nat → PageData} {init : List UInt8} {m0 m m' : Machine} {ls : List Label}
    {es : List Event} {i : Nat} {img : Image} {argv : List (List UInt8)} (hk : k.Ready c)
    (hb : Xv6.boot c k data init = .ok m0) (hrun : Lts.Run (Trans c) m0 ls m)
    (hstep : Trans c m ⟨.exec i (some img) argv, [.exec i img argv], es⟩ m')
    (hs : Lts.Steps (Trans c) Coherent m0 (ls ++ [⟨.exec i (some img) argv, [.exec i img argv], es⟩]))
    (h0 : ∀ arg ∈ argv, 0 ∉ arg) : ∃ p, m'.proc[i]? = some p ∧ Passed argv m'.data p := by
  obtain ⟨r, -, hsim⟩ := (Sim.boot (L := swapLaw c) hk hb).run (hrun.on (hs.of_prefix (List.prefix_append _ _)))
  have hco := hs ls _ m (List.prefix_refl _) hrun
  obtain ⟨r', hr', hsim'⟩ := hsim.step hstep hco
  have href : r' i = refExec img argv := by
    cases hr' with
    | cons h1 h2 =>
      cases h2
      cases h1
      exact Function.update_self ..
  unfold Trans Xv6.step at hstep
  dsimp only at hstep
  split at hstep
  · cases hstep
  rename_i p hp
  split at hstep
  · rename_i hen
    simp only [stepProc] at hstep
    obtain ⟨⟨ok, x⟩, hx, hstep⟩ := bind_ok hstep
    cases ok with
    | false => cases hstep
    | true =>
      cases hstep
      have hi : i < m.proc.length := (List.getElem?_eq_some_iff.1 hp).1
      have hget : (m.put i x).proc[i]? = some x.proc := List.getElem?_set_self hi
      exact ⟨x.proc, hget, (exec_stacked hx).passed hsim'.shows hget href h0⟩
  · cases hstep

/-- A step that calls `exec` shows the call when it succeeds, or nothing. -/
theorem exec_obs {m m' : Machine} {i : Nat} {img : Image} {argv : List (List UInt8)} {os : List Obs} {es : List Event}
    (h : step c m (.exec i (some img) argv) = .ok (os, es, m')) : os = [] ∨ os = [.exec i img argv] := by
  unfold step at h
  split at h
  · cases h
    exact .inl rfl
  split at h
  · simp only [stepProc] at h
    obtain ⟨⟨ok, x⟩, -, h⟩ := bind_ok h
    cases h
    cases ok
    · exact .inl rfl
    · exact .inr rfl
  · cases h
    exact .inl rfl

/-- A log transaction, and no page is involved. -/
def Event.logs : Event → Bool
  | .beginOp | .endOp => true
  | _ => false

/-- The first process becomes a program without segments, with two arguments. -/
theorem exec_argv_echo : ∃ (m' : Machine) (p : Proc), m'.proc[0]? = some p ∧
    Passed [[101, 99, 104, 111], [104, 105]] m'.data p := by
  have hx : (exBoot .SCFIFO).toOption.any (fun m0 =>
      (step (exCfg .SCFIFO) m0 (.exec 0 (some ⟨true, []⟩) [[101, 99, 104, 111], [104, 105]])).toOption.any fun s =>
        s.1.length == 1 && s.2.1.all Event.logs) = true := by decide +kernel
  obtain ⟨m0, hm0, hx⟩ := (Option.any_eq_true _ _).1 hx
  obtain ⟨⟨os, es, m'⟩, hs, hf⟩ := (Option.any_eq_true _ _).1 hx
  cases hb : exBoot .SCFIFO with
  | error e =>
    rw [hb] at hm0
    cases hm0
  | ok m1 =>
    rw [hb] at hm0
    cases hm0
    cases hstep : step (exCfg .SCFIFO) m0 (.exec 0 (some ⟨true, []⟩) [[101, 99, 104, 111], [104, 105]]) with
    | error e =>
      rw [hstep] at hs
      cases hs
    | ok t =>
      rw [hstep] at hs
      cases hs
      simp only [Bool.and_eq_true, beq_iff_eq, List.all_eq_true] at hf
      have hos : os = [.exec 0 ⟨true, []⟩ [[101, 99, 104, 111], [104, 105]]] := by
        rcases exec_obs hstep with rfl | h
        · exact absurd hf.1 (by decide)
        · exact h
      subst hos
      obtain ⟨p, hp⟩ := exec_argv (exKmem_ready _) hb (.nil m0) hstep (.of_labels fun l hl s ev hev => by
        obtain rfl : l = _ := by simpa using hl
        have := hf.2 ev hev
        cases ev <;> simp_all [Event.Coherent, Event.logs]) (by decide)
      exact ⟨m', p, hp⟩

end Xv6
