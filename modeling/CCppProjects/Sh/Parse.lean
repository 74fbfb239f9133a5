import Mathlib.Data.List.Basic
/-
# The shell's parser (sh.c:7-52, 274-508)

| here | there |
| --- | --- |
| a pointer into the line | its offset in `buf` |
| `Cmd`                   | `struct cmd` with its five casts; `EXEC` has the pairs `argv[i]`, `eargv[i]` before the first 0 |
| `Stop.panic`, `.leftovers` | `panic`, which exits |
| `Stop.fuel`             | no counterpart: the loops and the calls count down |

`parseexec` keeps `cmd`, the `execcmd` at the bottom of the redirections in `ret`: `Cmd.addArg` walks down to it.
-/
namespace Sh

abbrev Buf := List UInt8

/-- `*s` -/
def Buf.deref (buf : Buf) (s : Nat) : UInt8 := buf.getD s 0

/-- ulib.c:44, for a character of the line; the strings searched have no NUL. -/
def strchr (s : List UInt8) (c : UInt8) : Bool := s.contains c

/-- ulib.c:27. -/
def strlen : Buf → Nat
  | [] => 0
  | b :: buf => if b = 0 then 0 else strlen buf + 1

/-- `" \t\r\n\v"` (sh.c:277) -/
def whitespace : List UInt8 := [32, 9, 13, 10, 11]

/-- `"<|>&;()"` (sh.c:278) -/
def symbols : List UInt8 := [60, 124, 62, 38, 59, 40, 41]

def MAXARGS : Nat := 10

def O_RDONLY : Nat := 0x000
def O_WRONLY : Nat := 0x001
def O_CREATE : Nat := 0x200

/-! ## Tokens -/

/-- The rounds of `while(s < es && p(*s)) s++`, `n` of them left before `es`. -/
def scanLoop (buf : Buf) (p : UInt8 → Bool) : Nat → Nat → Nat
  | 0, s => s
  | n + 1, s => if p (buf.deref s) then scanLoop buf p n (s + 1) else s

def scan (buf : Buf) (es : Nat) (p : UInt8 → Bool) (s : Nat) : Nat := scanLoop buf p (es - s) s

/-- `while(s < es && strchr(whitespace, *s)) s++` -/
def skipSpace (buf : Buf) (es s : Nat) : Nat := scan buf es (strchr whitespace) s

/-- What `gettoken` sets: its result, `*q`, `*eq` and `*ps`. -/
structure Token where
  ret : UInt8
  q : Nat
  eq : Nat
  ps : Nat

/-- The `switch` of `gettoken` (sh.c:292): the result and where the token ends. -/
def tokenEnd (buf : Buf) (es s : Nat) : UInt8 × Nat :=
  let c := buf.deref s
  if c = 0 then (c, s)
  else if c = 124 ∨ c = 40 ∨ c = 41 ∨ c = 59 ∨ c = 38 ∨ c = 60 then (c, s + 1)
  else if c = 62 then
    if buf.deref (s + 1) = 62 then (43, s + 2) else (c, s + 1)
  else (97, scan buf es (fun b => !strchr whitespace b && !strchr symbols b) s)

/-- sh.c:281. -/
def gettoken (buf : Buf) (es ps : Nat) : Token :=
  let s := skipSpace buf es ps
  let r := tokenEnd buf es s
  ⟨r.1, s, r.2, skipSpace buf es r.2⟩

/-- sh.c:326; the result and `*ps`. -/
def peek (buf : Buf) (es : Nat) (toks : List UInt8) (ps : Nat) : Bool × Nat :=
  let s := skipSpace buf es ps
  (buf.deref s != 0 && strchr toks (buf.deref s), s)

/-! ## Commands -/

inductive Cmd
  | EXEC (argv : List (Nat × Nat))
  | REDIR (cmd : Cmd) (file efile mode fd : Nat)
  | PIPE (left right : Cmd)
  | LIST (left right : Cmd)
  | BACK (cmd : Cmd)

/-- `cmd->argv[argc] = q; cmd->eargv[argc] = eq` -/
def Cmd.addArg (q eq : Nat) : Cmd → Cmd
  | EXEC argv => EXEC (argv ++ [(q, eq)])
  | REDIR cmd file efile mode fd => REDIR (cmd.addArg q eq) file efile mode fd
  | cmd => cmd

inductive Stop
  | fuel
  | panic (msg : String)
  | leftovers (s : Nat)

section
variable (buf : Buf) (es : Nat)

/-- sh.c:390. -/
def parseredirs : Nat → Cmd → Nat → Except Stop (Cmd × Nat)
  | 0, _, _ => .error .fuel
  | n + 1, cmd, ps =>
    let p := peek buf es [60, 62] ps
    if p.1 then
      let tok := gettoken buf es p.2
      let file := gettoken buf es tok.ps
      if file.ret ≠ 97 then .error (.panic "missing file for redirection")
      else
        let cmd :=
          if tok.ret = 60 then .REDIR cmd file.q file.eq O_RDONLY 0
          else if tok.ret = 62 then .REDIR cmd file.q file.eq (O_WRONLY ||| O_CREATE) 1
          else if tok.ret = 43 then .REDIR cmd file.q file.eq (O_WRONLY ||| O_CREATE) 1
          else cmd
        parseredirs n cmd file.ps
    else .ok (cmd, p.2)

/-- The loop of `parseexec` (sh.c:446). -/
def argLoop : Nat → Nat → Cmd → Nat → Except Stop (Cmd × Nat)
  | 0, _, _, _ => .error .fuel
  | n + 1, argc, ret, ps =>
    let p := peek buf es [124, 41, 38, 59] ps
    if p.1 then .ok (ret, p.2)
    else
      let tok := gettoken buf es p.2
      if tok.ret = 0 then .ok (ret, tok.ps)
      else if tok.ret ≠ 97 then .error (.panic "syntax")
      else if MAXARGS ≤ argc + 1 then .error (.panic "too many args")
      else do
        let r ← parseredirs buf es n (ret.addArg tok.q tok.eq) tok.ps
        argLoop n (argc + 1) r.1 r.2

/-- The loop of `parseline` (sh.c:365). -/
def backLoop : Nat → Cmd → Nat → Except Stop (Cmd × Nat)
  | 0, _, _ => .error .fuel
  | n + 1, cmd, ps =>
    let p := peek buf es [38] ps
    if p.1 then backLoop n (.BACK cmd) (gettoken buf es p.2).ps
    else .ok (cmd, p.2)

mutual

/-- sh.c:360. -/
def parseline : Nat → Nat → Except Stop (Cmd × Nat)
  | 0, _ => .error .fuel
  | n + 1, ps => do
    let r ← parsepipe n ps
    let r ← backLoop buf es n r.1 r.2
    let p := peek buf es [59] r.2
    if p.1 then do
      let right ← parseline n (gettoken buf es p.2).ps
      pure (.LIST r.1 right.1, right.2)
    else pure (r.1, p.2)

/-- sh.c:377. -/
def parsepipe : Nat → Nat → Except Stop (Cmd × Nat)
  | 0, _ => .error .fuel
  | n + 1, ps => do
    let r ← parseexec n ps
    let p := peek buf es [124] r.2
    if p.1 then do
      let right ← parsepipe n (gettoken buf es p.2).ps
      pure (.PIPE r.1 right.1, right.2)
    else pure (r.1, p.2)

/-- sh.c:431. -/
def parseexec : Nat → Nat → Except Stop (Cmd × Nat)
  | 0, _ => .error .fuel
  | n + 1, ps =>
    let p := peek buf es [40] ps
    if p.1 then parseblock n p.2
    else do
      let r ← parseredirs buf es n (.EXEC []) p.2
      argLoop buf es n 0 r.1 r.2

/-- sh.c:415. -/
def parseblock : Nat → Nat → Except Stop (Cmd × Nat)
  | 0, _ => .error .fuel
  | n + 1, ps =>
    let p := peek buf es [40] ps
    if p.1 then do
      let r ← parseline n (gettoken buf es p.2).ps
      let p := peek buf es [41] r.2
      if p.1 then parseredirs buf es n r.1 (gettoken buf es p.2).ps
      else .error (.panic "syntax - missing )")
    else .error (.panic "parseblock")

end
end

/-- sh.c:465: each string gets its NUL. -/
def nulterminate : Cmd → Buf → Buf
  | .EXEC argv, buf => argv.foldl (fun buf a => buf.set a.2 0) buf
  | .REDIR cmd _ efile _ _, buf => (nulterminate cmd buf).set efile 0
  | .PIPE left right, buf => nulterminate right (nulterminate left buf)
  | .LIST left right, buf => nulterminate right (nulterminate left buf)
  | .BACK cmd, buf => nulterminate cmd buf

/-- sh.c:343; the tree and the line as `nulterminate` leaves it. -/
def parsecmd (n : Nat) (buf : Buf) : Except Stop (Cmd × Buf) := do
  let es := strlen buf
  let r ← parseline buf es n 0
  let s := (peek buf es [] r.2).2
  if s ≠ es then .error (.leftovers s)
  else pure (r.1, nulterminate r.1 buf)

end Sh
