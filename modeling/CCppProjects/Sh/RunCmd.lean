import CCppProjects.Sh.Accept
/-
# Running a command (sh.c:52-205)

| here | there |
| --- | --- |
| `FdTab`, `fdalloc`, `close`, `dup`, `pipe`, `open` | `ofile` of a process, sysfile.c:41, :94, :56, :424, :287 |
| `Kernel`            | which of the calls fail |
| `runcmd`            | sh.c:58: the processes there are once all is set up, each with its `ofile` |
| `openLoop`          | the loop at the start of `main` (sh.c:166) |
| `Stdio`, `wire`     | what a command means: which files its programs have as 0, 1 and 2 |

A process is named by the way that leads to it through the tree. `runcmd` moves numbers in tables of 16 entries, and
`fdalloc` takes the lowest that is free; with 0, 1 and 2 open and nothing else that is always the one meant
(`runcmd_wire`), and no process keeps an end of a pipe that it does not use (`Plumbed`).
-/
namespace Sh

def NOFILE : Nat := 16

/-- `at` is the command that made the file. -/
inductive File
  | given (k : Nat)
  | console (k : Nat)
  | opened (at' : List Bool) (file : List UInt8) (mode : Nat)
  | rend (at' : List Bool)
  | wend (at' : List Bool)
  deriving DecidableEq

/-- `ofile` -/
abbrev FdTab := List (Option File)

namespace FdTab

variable (t : FdTab)

/-- sysfile.c:41; `none` is `-1`. -/
def fdalloc (f : File) : Option (Nat × FdTab) :=
  let fd := t.findIdx Option.isNone
  if fd < t.length then some (fd, t.set fd (some f)) else none

def close (fd : Nat) : FdTab := t.set fd none

/-- The shell does not look at the result. -/
def dup (fd : Nat) : FdTab :=
  match t[fd]?.join with
  | none => t
  | some f => ((t.fdalloc f).map Prod.snd).getD t

end FdTab

/-- Which calls fail: the opens of the console at the start by their number, the others by the command whose execution
makes them; of the two calls of `fork` for a pipe the second is the one with `true`. -/
structure Kernel where
  console : Nat → Bool
  pipe : List Bool → Bool
  fork : List Bool → Bool → Bool
  opens : List Bool → Bool
  exec : List Bool → Bool

/-- `pipe(p)`: `p[0]` and `p[1]`. -/
def pipe (k : Kernel) (at' : List Bool) (t : FdTab) : Option (Nat × Nat × FdTab) :=
  if k.pipe at' then none else do
    let (p0, t) ← t.fdalloc (.rend at')
    let (p1, t) ← t.fdalloc (.wend at')
    some (p0, p1, t)

def openFile (k : Kernel) (at' : List Bool) (file : List UInt8) (mode : Nat) (t : FdTab) : Option FdTab :=
  if k.opens at' then none else (t.fdalloc (.opened at' file mode)).map Prod.snd

/-- A process once nothing is left to set up: a program, or a shell that waits. -/
inductive Proc (α : Type)
  | program (at' : List Bool) (argv : List (List UInt8)) (files : α)
  | shell (at' : List Bool) (files : α)

def Proc.map {α β : Type} (f : α → β) : Proc α → Proc β
  | program w argv t => program w argv (f t)
  | shell w t => shell w (f t)

/-- The way to a process, and its files. -/
def Proc.way {α : Type} : Proc α → List Bool
  | program w _ _ | shell w _ => w

def Proc.files {α : Type} : Proc α → α
  | program _ _ t | shell _ t => t

section
variable (k : Kernel) (buf : Buf)

/-- sh.c:58. `panic` exits as well. -/
def runcmd : Cmd → List Bool → FdTab → List (Proc FdTab)
  | .EXEC argv, w, t =>
    if argv = [] then [] else if k.exec w then [] else [.program w (argv.map fun a => cstr buf a.1) t]
  | .REDIR cmd file _ mode fd, w, t =>
    match openFile k w (cstr buf file) mode (t.close fd) with
    | none => []
    | some t => runcmd cmd (w ++ [false]) t
  | .LIST left right, w, t =>
    if k.fork w false then []
    else .shell w t :: (runcmd left (w ++ [false]) t ++ runcmd right (w ++ [true]) t)
  | .PIPE left right, w, t =>
    match pipe k w t with
    | none => []
    | some (p0, p1, t) =>
      if k.fork w false then []
      else
        let leftTab := (((t.close 1).dup p1).close p0).close p1
        let rightTab := (((t.close 0).dup p0).close p0).close p1
        runcmd left (w ++ [false]) leftTab ++
          if k.fork w true then [] else .shell w ((t.close p0).close p1) :: runcmd right (w ++ [true]) rightTab
  | .BACK cmd, w, t => if k.fork w false then [] else runcmd cmd (w ++ [false]) t

end

/-- sh.c:166, at most `n` rounds: `open("console")` until it fails or a descriptor is not needed. -/
def openLoop (k : Kernel) : Nat → Nat → FdTab → FdTab
  | 0, _, t => t
  | n + 1, i, t =>
    if k.console i then t
    else match t.fdalloc (.console i) with
      | none => t
      | some (fd, t) => if 3 ≤ fd then t.close fd else openLoop k n (i + 1) t

/-! ## What a command means -/

structure Stdio where
  inp : File
  out : File
  err : File

namespace Stdio

/-- Only these three. -/
def tab (io : Stdio) : FdTab := [some io.inp, some io.out, some io.err] ++ List.replicate (NOFILE - 3) none

def redirect (io : Stdio) (f : File) : Nat → Stdio
  | 0 => { io with inp := f }
  | _ => { io with out := f }

/-- `f` is one of them. -/
def Has (io : Stdio) (f : File) : Prop := f = io.inp ∨ f = io.out ∨ f = io.err

end Stdio

def wire (k : Kernel) : Tree → List Bool → Stdio → List (Proc Stdio)
  | .exec argv, w, io => if argv = [] then [] else if k.exec w then [] else [.program w argv io]
  | .redir t file mode fd, w, io =>
    if k.opens w then [] else wire k t (w ++ [false]) (io.redirect (.opened w file mode) fd)
  | .list left right, w, io =>
    if k.fork w false then [] else .shell w io :: (wire k left (w ++ [false]) io ++ wire k right (w ++ [true]) io)
  | .pipe left right, w, io =>
    if k.pipe w then [] else if k.fork w false then []
    else wire k left (w ++ [false]) { io with out := .wend w } ++
      if k.fork w true then [] else .shell w io :: wire k right (w ++ [true]) { io with inp := .rend w }
  | .back t, w, io => if k.fork w false then [] else wire k t (w ++ [false]) io

/-- The parser redirects 0 and 1 only. -/
def Tree.Std : Tree → Prop
  | .exec _ => True
  | .redir t _ _ fd => fd ≤ 1 ∧ t.Std
  | .pipe left right | .list left right => left.Std ∧ right.Std
  | .back t => t.Std

theorem std_redirected {rs : List (Op × List UInt8)} : ∀ {t : Tree}, t.Std → (t.redirected rs).Std := by
  induction rs with
  | nil => exact id
  | cons r rs ih =>
    intro t h
    refine ih ⟨?_, h⟩
    cases r.1 <;> decide

theorem std_backs : ∀ (k : Nat) {t : Tree}, t.Std → (t.backs k).Std
  | 0, _, h => h
  | k + 1, t, h => std_backs k (t := .back t) h

theorem Derives.std {x : Part} {ts : List Tok} {t : Tree} (h : Derives x ts t) : t.Std := by
  induction h with
  | line k _ ih => exact std_backs k ih
  | list k _ _ ih ih' => exact ⟨std_backs k ih, ih'⟩
  | exec _ ih => exact ih
  | pipe _ _ ih ih' => exact ⟨ih, ih'⟩
  | block _ _ ih => exact std_redirected ih
  | args => exact std_redirected trivial

/-! ## Three descriptors -/

theorem openFile_tab (k : Kernel) (w : List Bool) (file : List UInt8) (mode : Nat) (io : Stdio)
    {fd : Nat} (hfd : fd ≤ 1) :
    openFile k w file mode (io.tab.close fd) =
      if k.opens w then none else some (io.redirect (.opened w file mode) fd).tab := by
  unfold openFile
  split
  · rfl
  · obtain rfl | rfl : fd = 0 ∨ fd = 1 := by omega
    · rfl
    · rfl

theorem pipe_tab (k : Kernel) (w : List Bool) (io : Stdio) : pipe k w io.tab =
    if k.pipe w then none else some (3, 4, [some io.inp, some io.out, some io.err, some (.rend w), some (.wend w)] ++
      List.replicate (NOFILE - 5) none) := by
  unfold pipe
  split
  · rfl
  · rfl

/-- **The tables say what the command means.** -/
theorem runcmd_wire (k : Kernel) (buf : Buf) : ∀ (cmd : Cmd) (w : List Bool) (io : Stdio),
    (cmd.tree fun a => cstr buf a.1).Std →
    runcmd k buf cmd w io.tab = (wire k (cmd.tree fun a => cstr buf a.1) w io).map (Proc.map Stdio.tab) := by
  intro cmd
  induction cmd with
  | EXEC argv =>
    intro w io _
    cases argv with
    | nil => rfl
    | cons a argv =>
      rw [runcmd, Cmd.tree, wire]
      simp only [List.map_cons, reduceCtorEq, if_false]
      split <;> rfl
  | REDIR cmd file efile mode fd ih =>
    intro w io h
    rw [runcmd, openFile_tab k w _ mode io h.1, Cmd.tree, wire]
    cases k.opens w with
    | true => rfl
    | false => exact ih _ _ h.2
  | LIST left right ihl ihr =>
    intro w io h
    rw [runcmd, Cmd.tree, wire]
    cases k.fork w false with
    | true => rfl
    | false =>
      simp only [Bool.false_eq_true, if_false, ihl _ _ h.1, ihr _ _ h.2, List.map_cons, List.map_append]
      rfl
  | PIPE left right ihl ihr =>
    intro w io h
    have hl := ihl (w ++ [false]) { io with out := .wend w } h.1
    have hr := ihr (w ++ [true]) { io with inp := .rend w } h.2
    rw [runcmd, pipe_tab, Cmd.tree, wire]
    cases k.pipe w with
    | true => rfl
    | false =>
      cases k.fork w false with
      | true => rfl
      | false =>
        simp only [Bool.false_eq_true, if_false, List.map_append]
        rw [← hl]
        congr 1
        cases k.fork w true with
        | true => rfl
        | false =>
          simp only [Bool.false_eq_true, if_false, List.map_cons]
          rw [← hr]
          rfl
  | BACK cmd ih =>
    intro w io h
    rw [runcmd, Cmd.tree, wire]
    cases k.fork w false with
    | true => rfl
    | false => exact ih _ _ h

/-! ## Who holds a pipe -/

/-- The ends that process `p` holds of pipes made by the command itself: an end for writing on the left of the
pipe, an end for reading on the right. -/
def Plumbed (io : Stdio) (p : Proc Stdio) : Prop := ∀ v,
  (p.files.Has (.wend v) → io.Has (.wend v) ∨ (v ++ [false]) <+: p.way) ∧
    (p.files.Has (.rend v) → io.Has (.rend v) ∨ (v ++ [true]) <+: p.way)

theorem Plumbed.refl (io : Stdio) {p : Proc Stdio} (h : p.files = io) : Plumbed io p := by
  subst h
  exact fun v => ⟨.inl, .inl⟩

/-- The same ends were there before. -/
theorem Plumbed.mono {io io' : Stdio} {p : Proc Stdio} (h : Plumbed io' p)
    (hw : ∀ v, io'.Has (.wend v) → io.Has (.wend v) ∨ (v ++ [false]) <+: p.way)
    (hr : ∀ v, io'.Has (.rend v) → io.Has (.rend v) ∨ (v ++ [true]) <+: p.way) : Plumbed io p :=
  fun v => ⟨fun hp => ((h v).1 hp).elim (hw v) .inr, fun hp => ((h v).2 hp).elim (hr v) .inr⟩

theorem Stdio.redirect_has {io : Stdio} {f g : File} {fd : Nat} (h : (io.redirect f fd).Has g) : g = f ∨ io.Has g := by
  cases fd with
  | zero => exact h.imp_right .inr
  | succ fd =>
    rcases h with h | h | h
    · exact .inr (.inl h)
    · exact .inl h
    · exact .inr (.inr (.inr h))

/-- Every process is below the command that it belongs to, and holds the ends it needs only. -/
theorem wire_plumbed (k : Kernel) : ∀ (t : Tree) (w : List Bool) (io : Stdio), ∀ p ∈ wire k t w io,
    w <+: p.way ∧ Plumbed io p := by
  intro t
  induction t with
  | exec argv =>
    intro w io p hp
    rw [wire] at hp
    split at hp
    · cases hp
    · split at hp
      · cases hp
      · obtain rfl := List.mem_singleton.1 hp
        exact ⟨List.prefix_refl w, .refl io rfl⟩
  | redir t file mode fd ih =>
    intro w io p hp
    rw [wire] at hp
    split at hp
    · cases hp
    · obtain ⟨hway, hpl⟩ := ih _ _ p hp
      refine ⟨(List.prefix_append w _).trans hway, hpl.mono (fun v hv => ?_) fun v hv => ?_⟩
      · exact .inl ((Stdio.redirect_has hv).resolve_left (by simp))
      · exact .inl ((Stdio.redirect_has hv).resolve_left (by simp))
  | list left right ihl ihr =>
    intro w io p hp
    rw [wire] at hp
    split at hp
    · cases hp
    · rcases List.mem_cons.1 hp with rfl | hp
      · exact ⟨List.prefix_refl w, .refl io rfl⟩
      rcases List.mem_append.1 hp with hp | hp
      · obtain ⟨hway, hpl⟩ := ihl _ _ p hp
        exact ⟨(List.prefix_append w _).trans hway, hpl⟩
      · obtain ⟨hway, hpl⟩ := ihr _ _ p hp
        exact ⟨(List.prefix_append w _).trans hway, hpl⟩
  | pipe left right ihl ihr =>
    intro w io p hp
    rw [wire] at hp
    split at hp
    · cases hp
    split at hp
    · cases hp
    rcases List.mem_append.1 hp with hp | hp
    · obtain ⟨hway, hpl⟩ := ihl _ _ p hp
      refine ⟨(List.prefix_append w _).trans hway, hpl.mono (fun v hv => ?_) fun v hv => ?_⟩
      · rcases hv with hv | hv | hv
        · exact .inl (.inl hv)
        · cases hv
          exact .inr hway
        · exact .inl (.inr (.inr hv))
      · rcases hv with hv | hv | hv
        · exact .inl (.inl hv)
        · cases hv
        · exact .inl (.inr (.inr hv))
    split at hp
    · cases hp
    rcases List.mem_cons.1 hp with rfl | hp
    · exact ⟨List.prefix_refl w, .refl io rfl⟩
    · obtain ⟨hway, hpl⟩ := ihr _ _ p hp
      refine ⟨(List.prefix_append w _).trans hway, hpl.mono (fun v hv => ?_) fun v hv => ?_⟩
      · rcases hv with hv | hv
        · cases hv
        · exact .inl (.inr hv)
      · rcases hv with hv | hv
        · cases hv
          exact .inr hway
        · exact .inl (.inr hv)
  | back t ih =>
    intro w io p hp
    rw [wire] at hp
    split at hp
    · cases hp
    · obtain ⟨hway, hpl⟩ := ih _ _ p hp
      exact ⟨(List.prefix_append w _).trans hway, hpl⟩

/-! ## From the line to the processes -/

/-- The opens that fill the descriptors missing at the start succeed. -/
def Kernel.Fills (k : Kernel) (given : FdTab) : Prop := ∀ i < given.countP Option.isNone, k.console i = false

/-- A descriptor that is missing is opened. -/
theorem openLoop_round {k : Kernel} {n i fd : Nat} {t t' : FdTab} (hi : k.console i = false)
    (hf : t.fdalloc (.console i) = some (fd, t')) (hfd : fd < 3) :
    openLoop k (n + 1) i t = openLoop k n (i + 1) t' := by
  rw [openLoop, hi, hf]
  exact if_neg (Nat.not_le.2 hfd)

/-- The open behind the last one that is needed may fail or not. -/
theorem openLoop_done (k : Kernel) (n i : Nat) (io : Stdio) : openLoop k (n + 1) i io.tab = io.tab := by
  unfold openLoop
  split <;> rfl

/-- `main` then leaves 0, 1 and 2 open, and nothing else, whichever of the three it was started with. -/
theorem openLoop_tab {k : Kernel} {a b c : Option File} (hk : k.Fills [a, b, c]) : ∃ io : Stdio,
    openLoop k 4 0 ([a, b, c] ++ List.replicate (NOFILE - 3) none) = io.tab ∧
      ∀ f, io.Has f → some f ∈ [a, b, c] ∨ ∃ i, f = .console i := by
  -- the number of an open is how many came before it
  refine ⟨⟨a.getD (.console 0), b.getD (.console ([a].countP Option.isNone)),
    c.getD (.console ([a, b].countP Option.isNone))⟩,
    ?_, ?_⟩
  · have hone : ∀ {t : FdTab} {io : Stdio} {fd : Nat}, 0 < [a, b, c].countP Option.isNone →
        t.fdalloc (.console 0) = some (fd, io.tab) → fd < 3 → openLoop k 4 0 t = io.tab := fun h0 hf hfd =>
      (openLoop_round (hk 0 h0) hf hfd).trans (openLoop_done k 2 1 _)
    have htwo : ∀ {t t' : FdTab} {io : Stdio} {fd fd' : Nat}, 1 < [a, b, c].countP Option.isNone →
        t.fdalloc (.console 0) = some (fd, t') → fd < 3 → t'.fdalloc (.console 1) = some (fd', io.tab) → fd' < 3 →
        openLoop k 4 0 t = io.tab := fun h1 hf hfd hf' hfd' =>
      (openLoop_round (hk 0 (by omega)) hf hfd).trans
        ((openLoop_round (hk 1 h1) hf' hfd').trans (openLoop_done k 1 2 _))
    have l0 : 0 < 3 := by decide
    have l1 : 1 < 3 := by decide
    have l2 : 2 < 3 := by decide
    rcases a with _ | a <;> rcases b with _ | b <;> rcases c with _ | c
    · exact (openLoop_round (hk 0 l0) rfl l0).trans <| (openLoop_round (hk 1 l1) rfl l1).trans <|
        (openLoop_round (hk 2 l2) rfl l2).trans (openLoop_done k 0 3 ⟨_, _, _⟩)
    · exact htwo Nat.one_lt_two rfl l0 rfl l1
    · exact htwo Nat.one_lt_two rfl l0 rfl l2
    · exact hone Nat.one_pos rfl l0
    · exact htwo Nat.one_lt_two rfl l1 rfl l2
    · exact hone Nat.one_pos rfl l1
    · exact hone Nat.one_pos rfl l2
    · exact openLoop_done k 3 0 ⟨a, b, c⟩
  · rintro f (rfl | rfl | rfl)
    · cases a <;> simp
    · cases b <;> simp
    · cases c <;> simp

theorem parsecmd_derives (l : Line) {n : Nat} (hn : 4 * l.es + 4 ≤ n) {cmd : Cmd} {buf : Buf}
    (h : parsecmd n l.buf = .ok (cmd, buf)) : Derives .line (tokens l.text) (cmd.tree fun a => cstr buf a.1) := by
  have hcalls : 4 * (tokens l.text).length + 4 ≤ n := by
    have := length_tokens_le l.text
    rw [Line.es] at hn
    omega
  have hsat := (specs l n).line (.start l) hcalls
  rw [parsecmd, strlen_buf] at h
  cases hrun : parseline l.buf l.es n 0 with
  | error e =>
    rw [hrun] at h
    cases h
  | ok r =>
    obtain ⟨ps, us, t, hts, hd, hat, hr⟩ := hsat.of_ok hrun
    rw [hrun, ok_bind] at h
    dsimp only at h
    by_cases hend : (peek l.buf l.es [] r.2).2 = l.es
    · rw [if_neg (by simpa using hend)] at h
      cases h
      obtain rfl := (peek_end hat).1 hend
      rw [List.append_nil] at hts
      rw [hr.nulterminate, hts]
      exact hd
    · rw [if_pos (by simpa using hend)] at h
      cases h

/-- **The shell wires its commands.** Started with any of 0, 1 and 2 open and nothing else, none of them a
pipe's end, and able to open the console for the others: for every line the parser accepts, the processes that
come to be have 0, 1 and 2 open and nothing else, connected as the command says; and the ends of a pipe are
held for writing by processes of the command left of it only, for reading by those right of it. -/
theorem shell_wires (k : Kernel) (l : Line) {n : Nat} (hn : 4 * l.es + 4 ≤ n) {cmd : Cmd} {buf : Buf}
    (h : parsecmd n l.buf = .ok (cmd, buf)) {a b c : Option File}
    (hk : k.Fills [a, b, c]) (hends : ∀ v, some (.rend v) ∉ [a, b, c] ∧ some (.wend v) ∉ [a, b, c]) :
    ∃ (t : Tree) (io : Stdio),
    Derives .line (tokens l.text) t ∧
    runcmd k buf cmd [] (openLoop k 4 0 ([a, b, c] ++ List.replicate (NOFILE - 3) none)) =
      (wire k t [] io).map (Proc.map Stdio.tab) ∧
    ∀ p ∈ wire k t [] io, ∀ v, (p.files.Has (.wend v) → (v ++ [false]) <+: p.way) ∧
      (p.files.Has (.rend v) → (v ++ [true]) <+: p.way) := by
  obtain ⟨io, hio, hhas⟩ := openLoop_tab hk
  have hd := parsecmd_derives l hn h
  refine ⟨_, io, hd, ?_, fun p hp v => ?_⟩
  · rw [hio]
    exact runcmd_wire k buf cmd [] io hd.std
  · have hpl := (wire_plumbed k _ [] io p hp).2 v
    refine ⟨fun hw => (hpl.1 hw).resolve_left fun hf => ?_, fun hr => (hpl.2 hr).resolve_left fun hf => ?_⟩
    · rcases hhas _ hf with hm | ⟨i, hi⟩
      · exact (hends v).2 hm
      · cases hi
    · rcases hhas _ hf with hm | ⟨i, hi⟩
      · exact (hends v).1 hm
      · cases hi

/-- A machine on which the fourth open of the console fails. -/
def lastFails : Kernel := ⟨fun i => i == 3, fun _ => false, fun _ _ => false, fun _ => false, fun _ => false⟩

/-- `a|b`, in a shell started with nothing open. -/
theorem shell_wires_pipe : ∃ (cmd : Cmd) (buf : Buf),
    parsecmd 16 (Line.buf ⟨[97, 124, 98], [], by decide⟩) = .ok (cmd, buf) ∧
    ∃ (t : Tree) (io : Stdio), Derives .line (tokens [97, 124, 98]) t ∧
    runcmd lastFails buf cmd [] (openLoop lastFails 4 0 ([none, none, none] ++ List.replicate (NOFILE - 3) none)) =
      (wire lastFails t [] io).map (Proc.map Stdio.tab) ∧
    ∀ p ∈ wire lastFails t [] io, ∀ v,
      (p.files.Has (.wend v) → (v ++ [false]) <+: p.way) ∧ (p.files.Has (.rend v) → (v ++ [true]) <+: p.way) := by
  have hrun : parsecmd 16 (Line.buf ⟨[97, 124, 98], [], by decide⟩) = .ok
      (.PIPE (.EXEC [(0, 1)]) (.EXEC [(2, 3)]), [97, 0, 98, 0]) := by with_unfolding_all rfl
  have hfills : lastFails.Fills [none, none, none] := by
    intro i hi
    change i < 3 at hi
    simp only [lastFails, beq_eq_false_iff_ne, ne_eq]
    omega
  exact ⟨_, _, hrun, shell_wires lastFails ⟨[97, 124, 98], [], by decide⟩ (by decide) hrun hfills (by simp)⟩

end Sh
