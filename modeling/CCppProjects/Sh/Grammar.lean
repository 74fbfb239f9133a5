import CCppProjects.Lib.Sat
import CCppProjects.Sh.Tokens
/-
# The grammar of a line

    line ::= pipe {'&'} [';' line]      pipe ::= exec ['|' pipe]
    exec ::= '(' line ')' redirs | redirs {word redirs}

`Derives` is the grammar with its trees, over tokens. What a parse function returns is a derivation of the tokens it
has taken, and where a derivation is followed by a token that can stand behind it the function finds it.
-/
namespace Sh

/-! ## Trees -/

/-- A command with its texts. -/
inductive Tree
  | exec (argv : List (List UInt8))
  | redir (cmd : Tree) (file : List UInt8) (mode fd : Nat)
  | pipe (left right : Tree)
  | list (left right : Tree)
  | back (cmd : Tree)

def Op.mode : Op → Nat
  | lt => O_RDONLY
  | gt | gtgt => O_WRONLY ||| O_CREATE

def Op.fd : Op → Nat
  | lt => 0
  | gt | gtgt => 1

namespace Tree

/-- The redirections around a command, the later outermost. -/
def redirected (t : Tree) (rs : List (Op × List UInt8)) : Tree := rs.foldl (fun t r => redir t r.2 r.1.mode r.1.fd) t

/-- The command in the background, as often as there is a `&`. -/
def backs : Nat → Tree → Tree
  | 0, t => t
  | k + 1, t => backs k (back t)

/-- One more word for the command inside the redirections. -/
def addArg (w : List UInt8) : Tree → Tree
  | exec argv => exec (argv ++ [w])
  | redir t file mode fd => redir (t.addArg w) file mode fd
  | t => t

@[simp] theorem redirected_nil (t : Tree) : t.redirected [] = t := rfl

@[simp] theorem redirected_cons (t : Tree) (o : Op) (f : List UInt8) (rs : List (Op × List UInt8)) :
    t.redirected ((o, f) :: rs) = (redir t f o.mode o.fd).redirected rs := rfl

theorem redirected_append (t : Tree) (rs rs' : List (Op × List UInt8)) :
    t.redirected (rs ++ rs') = (t.redirected rs).redirected rs' := List.foldl_append

theorem addArg_redirected (w : List UInt8) (rs : List (Op × List UInt8)) : ∀ t : Tree,
    (t.redirected rs).addArg w = (t.addArg w).redirected rs := by
  induction rs with
  | nil => exact fun _ => rfl
  | cons r rs ih =>
    intro t
    rw [redirected_cons, redirected_cons, ih]
    rfl

end Tree

namespace Cmd

/-- The ends of all strings of a command. -/
def strings : Cmd → List (Nat × Nat)
  | EXEC argv => argv
  | REDIR cmd file efile _ _ => cmd.strings ++ [(file, efile)]
  | PIPE left right => left.strings ++ right.strings
  | LIST left right => left.strings ++ right.strings
  | BACK cmd => cmd.strings

/-- The command with the strings that `read` finds. -/
def tree (read : Nat × Nat → List UInt8) : Cmd → Tree
  | EXEC argv => .exec (argv.map read)
  | REDIR cmd file efile mode fd => .redir (cmd.tree read) (read (file, efile)) mode fd
  | PIPE left right => .pipe (left.tree read) (right.tree read)
  | LIST left right => .list (left.tree read) (right.tree read)
  | BACK cmd => .back (cmd.tree read)

theorem tree_congr {f g : Nat × Nat → List UInt8} : ∀ {cmd : Cmd}, (∀ a ∈ cmd.strings, f a = g a) →
    cmd.tree f = cmd.tree g := by
  intro cmd
  induction cmd with
  | EXEC argv =>
    intro h
    have hmap : argv.map f = argv.map g := List.map_congr_left h
    rw [tree, tree, hmap]
  | REDIR cmd file efile mode fd ih =>
    intro h
    rw [tree, tree, ih fun a ha => h a (List.mem_append_left _ ha),
      h _ (List.mem_append_right _ (List.mem_singleton.2 rfl))]
  | PIPE left right ihl ihr =>
    intro h
    rw [tree, tree, ihl fun a ha => h a (List.mem_append_left _ ha), ihr fun a ha => h a (List.mem_append_right _ ha)]
  | LIST left right ihl ihr =>
    intro h
    rw [tree, tree, ihl fun a ha => h a (List.mem_append_left _ ha), ihr fun a ha => h a (List.mem_append_right _ ha)]
  | BACK cmd ih =>
    intro h
    rw [tree, tree, ih h]

theorem tree_addArg (read : Nat × Nat → List UInt8) (q eq : Nat) (cmd : Cmd) :
    (cmd.addArg q eq).tree read = (cmd.tree read).addArg (read (q, eq)) := by
  induction cmd with
  | EXEC argv => simp [addArg, tree, Tree.addArg]
  | REDIR cmd file efile mode fd ih => simp [addArg, tree, Tree.addArg, ih]
  | PIPE => rfl
  | LIST => rfl
  | BACK => rfl

theorem mem_strings_addArg {q eq : Nat} {a : Nat × Nat} : ∀ {cmd : Cmd}, a ∈ (cmd.addArg q eq).strings →
    a ∈ cmd.strings ∨ a = (q, eq) := by
  intro cmd
  induction cmd with
  | EXEC argv =>
    intro h
    simpa [addArg, strings] using h
  | REDIR cmd file efile mode fd ih =>
    intro h
    rcases List.mem_append.1 h with h | h
    · exact (ih h).imp_left (List.mem_append_left _)
    · exact .inl (List.mem_append_right _ h)
  | PIPE => exact .inl
  | LIST => exact .inl
  | BACK => exact .inl

end Cmd

/-! ## The grammar -/

/-- `redirs`, each an operator with its file. -/
inductive Redirs : List Tok → List (Op × List UInt8) → Prop
  | nil : Redirs [] []
  | cons (o : Op) (f : List UInt8) {ts : List Tok} {rs : List (Op × List UInt8)} :
    Redirs ts rs → Redirs (.op o :: .word f :: ts) ((o, f) :: rs)

/-- `{word redirs}`, the words and all redirections. -/
inductive Args : List Tok → List (List UInt8) → List (Op × List UInt8) → Prop
  | nil : Args [] [] []
  | cons (w : List UInt8) {ts us : List Tok} {rs rs' : List (Op × List UInt8)} {ws : List (List UInt8)} :
    Redirs ts rs → Args us ws rs' → Args (.word w :: (ts ++ us)) (w :: ws) (rs ++ rs')

/-- The parts of a line that the grammar names. -/
inductive Part
  | line
  | pipe
  | exec

inductive Derives : Part → List Tok → Tree → Prop
  | line (k : Nat) {ts : List Tok} {t : Tree} : Derives .pipe ts t →
      Derives .line (ts ++ List.replicate k .amp) (t.backs k)
  | list (k : Nat) {ts us : List Tok} {t u : Tree} : Derives .pipe ts t → Derives .line us u →
    Derives .line (ts ++ (List.replicate k .amp ++ .semi :: us)) (.list (t.backs k) u)
  | exec {ts : List Tok} {t : Tree} : Derives .exec ts t → Derives .pipe ts t
  | pipe {ts us : List Tok} {t u : Tree} : Derives .exec ts t → Derives .pipe us u →
      Derives .pipe (ts ++ .bar :: us) (.pipe t u)
  | block {ts us : List Tok} {t : Tree} {rs : List (Op × List UInt8)} : Derives .line ts t → Redirs us rs →
    Derives .exec (.lparen :: (ts ++ .rparen :: us)) (t.redirected rs)
  | args {ts us : List Tok} {rs rs' : List (Op × List UInt8)} {ws : List (List UInt8)} : Redirs ts rs → Args us ws rs' →
    ws.length < MAXARGS → Derives .exec (ts ++ us) ((Tree.exec ws).redirected (rs ++ rs'))

end Sh
