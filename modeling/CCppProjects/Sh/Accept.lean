import CCppProjects.Sh.Grammar
/-
# What the parser accepts (sh.c:343-508)

| here | there |
| --- | --- |
| `Reads`  | a command whose strings are words of the line |
| `Parsed` | what a parse function returns is derived from the tokens it took |
| `find`   | what is derived from the tokens is found |
-/
namespace Sh

variable {l : Line} {s : Nat} {ts us : List Tok} {cmd : Cmd} {t : Tree}

/-- The characters between two ends. -/
def Line.slice (l : Line) (a : Nat × Nat) : List UInt8 := (l.text.drop a.1).take (a.2 - a.1)

/-- Every string of the command is a word of the line, and with these words it is `t`. -/
structure Reads (l : Line) (cmd : Cmd) (t : Tree) : Prop where
  tree : cmd.tree l.slice = t
  spans : ∀ a ∈ cmd.strings, ∃ w, Span l a w

theorem Span.slice {a : Nat × Nat} {w : List UInt8} (h : Span l a w) : l.slice a = w := h.text

theorem Reads.empty (l : Line) : Reads l (.EXEC []) (.exec []) := ⟨rfl, nofun⟩

theorem Reads.redir {q eq mode fd : Nat} {w : List UInt8} (h : Reads l cmd t) (hw : Span l (q, eq) w) :
    Reads l (.REDIR cmd q eq mode fd) (.redir t w mode fd) := by
  refine ⟨by rw [Cmd.tree, h.tree, hw.slice], fun a ha => ?_⟩
  rcases List.mem_append.1 ha with ha | ha
  · exact h.spans a ha
  · rw [List.mem_singleton.1 ha]
    exact ⟨w, hw⟩

theorem Reads.addArg {q eq : Nat} {w : List UInt8} {ws : List (List UInt8)} {rs : List (Op × List UInt8)}
    (h : Reads l cmd ((Tree.exec ws).redirected rs)) (hw : Span l (q, eq) w) :
    Reads l (cmd.addArg q eq) ((Tree.exec (ws ++ [w])).redirected rs) := by
  refine ⟨?_, fun a ha => ?_⟩
  · rw [Cmd.tree_addArg, h.tree, Tree.addArg_redirected, hw.slice]
    rfl
  · rcases Cmd.mem_strings_addArg ha with ha | rfl
    · exact h.spans a ha
    · exact ⟨w, hw⟩

theorem Reads.pipe {cmd' : Cmd} {t' : Tree} (h : Reads l cmd t) (h' : Reads l cmd' t') :
    Reads l (.PIPE cmd cmd') (.pipe t t') := by
  refine ⟨by rw [Cmd.tree, h.tree, h'.tree], fun a ha => ?_⟩
  exact (List.mem_append.1 ha).elim (h.spans a) (h'.spans a)

theorem Reads.list {cmd' : Cmd} {t' : Tree} (h : Reads l cmd t) (h' : Reads l cmd' t') :
    Reads l (.LIST cmd cmd') (.list t t') := by
  refine ⟨by rw [Cmd.tree, h.tree, h'.tree], fun a ha => ?_⟩
  exact (List.mem_append.1 ha).elim (h.spans a) (h'.spans a)

theorem Reads.back (h : Reads l cmd t) : Reads l (.BACK cmd) (.back t) := ⟨by rw [Cmd.tree, h.tree], h.spans⟩

/-! ## The first token -/

/-- The tokens that are one character no other token starts with. -/
def marks : List Tok := [.bar, .lparen, .rparen, .semi, .amp]

theorem char_eq_mark {m : Tok} (hm : m ∈ marks) {u : Tok} : u.char = some m.ret ↔ u = m := by
  simp only [marks, List.mem_cons, List.not_mem_nil, or_false] at hm
  rcases hm with rfl | rfl | rfl | rfl | rfl <;> cases u with
  | op o => cases o <;> simp [Tok.char, Tok.ret]
  | _ => simp [Tok.char, Tok.ret]

theorem starts_mark {m : Tok} (hm : m ∈ marks) : starts [m.ret] ts = true ↔ ∃ us, ts = m :: us := by
  cases ts with
  | nil => simp [starts]
  | cons u ts =>
    have hu := char_eq_mark hm (u := u)
    cases hc : u.char with
    | none =>
      rw [hc] at hu
      simp [starts, hc, ← hu]
    | some b =>
      rw [hc, Option.some.injEq] at hu
      simp [starts, hc, strchr, hu]

theorem starts_redirs : starts [60, 62] ts = true ↔ ∃ o us, ts = .op o :: us := by
  cases ts with
  | nil => simp [starts]
  | cons t ts =>
    cases t with
    | op o => cases o <;> simp [starts, Tok.char, Tok.ret, strchr]
    | _ => simp [starts, Tok.char, Tok.ret, strchr]

/-- What ends the words of a command. -/
theorem starts_end : starts [124, 41, 38, 59] ts = true ↔ ∃ m ∈ [Tok.bar, .rparen, .amp, .semi],
    ∃ us, ts = m :: us := by
  cases ts with
  | nil => simp [starts]
  | cons t ts =>
    cases t with
    | op o => cases o <;> simp [starts, Tok.char, Tok.ret, strchr]
    | _ => simp [starts, Tok.char, Tok.ret, strchr]

/-! ## What is returned is derived -/

theorem redir_op (o : Op) (cmd : Cmd) (q eq : Nat) :
    (if (Tok.op o).ret = 60 then Cmd.REDIR cmd q eq O_RDONLY 0
      else if (Tok.op o).ret = 62 then .REDIR cmd q eq (O_WRONLY ||| O_CREATE) 1
      else if (Tok.op o).ret = 43 then .REDIR cmd q eq (O_WRONLY ||| O_CREATE) 1
      else cmd) = .REDIR cmd q eq o.mode o.fd := by
  cases o
  · rfl
  · rfl
  · rfl

theorem panic_ne_fuel (msg : String) : Stop.panic msg ≠ .fuel := Stop.noConfusion

theorem leftovers_ne_fuel (s : Nat) : Stop.leftovers s ≠ .fuel := Stop.noConfusion

theorem parseredirs_sat : ∀ (n : Nat) {cmd : Cmd} {s : Nat} {ts : List Tok} {t : Tree}, At l s ts →
    Reads l cmd t → ts.length < n →
    Sat (parseredirs l.buf l.es n cmd s) (· ≠ .fuel) fun r =>
      ∃ ps us rs, ts = ps ++ us ∧ Redirs ps rs ∧ At l r.2 us ∧ Reads l r.1 (t.redirected rs) := by
  intro n
  induction n with
  | zero => exact fun _ _ hn => absurd hn (Nat.not_lt_zero _)
  | succ n ih =>
    intro cmd s ts t hat hr hn
    obtain ⟨hpeek, hat⟩ := peek_spec [60, 62] hat (by simp [symbols])
    rw [parseredirs]
    dsimp only
    rw [hpeek]
    refine .ite (fun hst => ?_) fun _ => .ok ⟨[], ts, [], rfl, .nil, hat, hr⟩
    obtain ⟨o, us, rfl⟩ := starts_redirs.1 hst
    obtain ⟨hret, hat, -⟩ := gettoken_spec hat
    refine .ite (fun _ => .error (panic_ne_fuel _)) fun hword => ?_
    rw [not_not] at hword
    cases us with
    | nil =>
      rw [(gettoken_end hat).1] at hword
      cases hword
    | cons f us =>
      obtain ⟨hf, hat1, hspan⟩ := gettoken_spec hat
      obtain ⟨w, rfl⟩ := Tok.ret_eq_word.1 (hf.symm.trans hword)
      rw [hret, redir_op]
      refine (ih hat1 (hr.redir (hspan w rfl)) (by simp only [List.length_cons] at hn; omega)).mono (fun _ h => h) ?_
      rintro r ⟨ps, us', rs, rfl, hd, hat, hr⟩
      exact ⟨_, us', _, rfl, .cons o w hd, hat, hr⟩

theorem backLoop_sat : ∀ (n : Nat) {cmd : Cmd} {s : Nat} {ts : List Tok} {t : Tree}, At l s ts →
    Reads l cmd t → ts.length < n →
    Sat (backLoop l.buf l.es n cmd s) (· ≠ .fuel) fun r =>
      ∃ k us, ts = List.replicate k .amp ++ us ∧ At l r.2 us ∧ Reads l r.1 (t.backs k) := by
  intro n
  induction n with
  | zero => exact fun _ _ hn => absurd hn (Nat.not_lt_zero _)
  | succ n ih =>
    intro cmd s ts t hat hr hn
    obtain ⟨hpeek, hat⟩ := peek_spec [38] hat (by simp [symbols])
    rw [backLoop]
    rw [hpeek]
    refine .ite (fun hst => ?_) fun _ => .ok ⟨0, ts, rfl, hat, hr⟩
    obtain ⟨us, rfl⟩ := (starts_mark (m := .amp) (by decide)).1 hst
    obtain ⟨-, hat, -⟩ := gettoken_spec hat
    refine (ih hat hr.back (by simp only [List.length_cons] at hn; omega)).mono (fun _ h => h) ?_
    rintro r ⟨k, us', rfl, hat, hr⟩
    exact ⟨k + 1, us', rfl, hat, hr⟩

theorem argLoop_sat : ∀ (n : Nat) {ret : Cmd} {s : Nat} {ts : List Tok} {ws : List (List UInt8)}
    {rs : List (Op × List UInt8)},
    At l s ts → Reads l ret ((Tree.exec ws).redirected rs) → ws.length < MAXARGS → ts.length < n →
    Sat (argLoop l.buf l.es n ws.length ret s) (· ≠ .fuel) fun r =>
      ∃ ps us ws' rs', ts = ps ++ us ∧ Args ps ws' rs' ∧ (ws ++ ws').length < MAXARGS ∧ At l r.2 us ∧
        Reads l r.1 ((Tree.exec (ws ++ ws')).redirected (rs ++ rs')) := by
  intro n
  induction n with
  | zero => exact fun _ _ _ hn => absurd hn (Nat.not_lt_zero _)
  | succ n ih =>
    intro ret s ts ws rs hat hr hmax hn
    have hdone : ∀ s', At l s' ts → ∃ ps us ws' rs', ts = ps ++ us ∧ Args ps ws' rs' ∧
      (ws ++ ws').length < MAXARGS ∧ At l s' us ∧
        Reads l ret ((Tree.exec (ws ++ ws')).redirected (rs ++ rs')) := fun s' hat =>
      ⟨[], ts, [], [], rfl, .nil, by rw [List.append_nil]; exact hmax,
        hat, by rw [List.append_nil, List.append_nil]; exact hr⟩
    obtain ⟨hpeek, hat⟩ := peek_spec [124, 41, 38, 59] hat (by simp [symbols])
    rw [argLoop]
    dsimp only
    rw [hpeek]
    refine .ite (fun _ => .ok (hdone _ hat)) fun _ => ?_
    cases ts with
    | nil =>
      obtain ⟨hzero, hat⟩ := gettoken_end hat
      rw [if_pos hzero]
      exact .ok (hdone _ hat)
    | cons f us =>
      obtain ⟨hf, hat1, hspan⟩ := gettoken_spec hat
      rw [if_neg (by rw [hf]; exact f.ret_ne_zero)]
      refine .ite (fun _ => .error (panic_ne_fuel _)) fun hword =>
        .ite (fun _ => .error (panic_ne_fuel _)) fun hargs => ?_
      rw [not_not, hf] at hword
      obtain ⟨w, rfl⟩ := Tok.ret_eq_word.1 hword
      rw [List.length_cons] at hn
      refine .bind (parseredirs_sat n hat1 (hr.addArg (hspan w rfl)) (by omega)) fun r _ hp => ?_
      obtain ⟨ps, us', rs', rfl, hd, hat', hr'⟩ := hp
      rw [← Tree.redirected_append] at hr'
      rw [List.length_append] at hn
      have hlen : (ws ++ [w]).length = ws.length + 1 := by simp
      have hrest := ih hat' hr' (by omega) (by omega)
      rw [hlen] at hrest
      refine hrest.mono (fun _ h => h) ?_
      rintro r' ⟨ps', us'', ws', rs'', rfl, hargs', hmax', hat'', hr''⟩
      refine ⟨.word w :: (ps ++ ps'), us'', w :: ws', rs' ++ rs'', by simp, .cons w hd hargs', ?_, hat'', ?_⟩
      · rw [List.append_assoc] at hmax'
        exact hmax'
      · rw [List.append_assoc, List.append_assoc] at hr''
        exact hr''

/-- The tokens that were taken derive the tree of the command. -/
def Parsed (l : Line) (x : Part) (ts : List Tok) (r : Cmd × Nat) : Prop :=
  ∃ ps us t, ts = ps ++ us ∧ Derives x ps t ∧ At l r.2 us ∧ Reads l r.1 t

/-- What the parse functions do with `n` calls and rounds left. -/
structure Specs (l : Line) (n : Nat) : Prop where
  line : ∀ {s ts}, At l s ts → 4 * ts.length + 4 ≤ n → Sat (parseline l.buf l.es n s) (· ≠ .fuel) (Parsed l .line ts)
  pipe : ∀ {s ts}, At l s ts → 4 * ts.length + 3 ≤ n → Sat (parsepipe l.buf l.es n s) (· ≠ .fuel) (Parsed l .pipe ts)
  exec : ∀ {s ts}, At l s ts → 4 * ts.length + 2 ≤ n → Sat (parseexec l.buf l.es n s) (· ≠ .fuel) (Parsed l .exec ts)
  block : ∀ {s us}, At l s (.lparen :: us) → 4 * us.length + 5 ≤ n →
    Sat (parseblock l.buf l.es n s) (· ≠ .fuel) (Parsed l .exec (.lparen :: us))

theorem Specs.parseline {n : Nat} (h : Specs l n) (hat : At l s ts) (hn : 4 * ts.length + 4 ≤ n + 1) :
    Sat (parseline l.buf l.es (n + 1) s) (· ≠ .fuel) (Parsed l .line ts) := by
  rw [Sh.parseline]
  refine .bind (h.pipe hat (by omega)) fun r _ hp => ?_
  obtain ⟨ps, us, t, rfl, hd, hat1, hr1⟩ := hp
  rw [List.length_append] at hn
  refine .bind (backLoop_sat n hat1 hr1 (by omega)) fun r _ hback => ?_
  obtain ⟨k, us', rfl, hat2, hr2⟩ := hback
  rw [List.length_append, List.length_replicate] at hn
  obtain ⟨hpeek, hat3⟩ := peek_spec [59] hat2 (by simp [symbols])
  dsimp only
  rw [hpeek]
  refine .ite (fun hst => ?_) fun _ => ?_
  · obtain ⟨vs, rfl⟩ := (starts_mark (m := .semi) (by decide)).1 hst
    obtain ⟨-, hat4, -⟩ := gettoken_spec hat3
    rw [List.length_cons] at hn
    refine .bind (h.line hat4 (by omega)) fun r' _ hl => ?_
    obtain ⟨ps', us'', t', rfl, hd', hat5, hr5⟩ := hl
    exact .ok ⟨_, us'', _, by simp, .list k hd hd', hat5, hr2.list hr5⟩
  · exact .ok ⟨_, us', _, by simp, .line k hd, hat3, hr2⟩

theorem Specs.parsepipe {n : Nat} (h : Specs l n) (hat : At l s ts) (hn : 4 * ts.length + 3 ≤ n + 1) :
    Sat (parsepipe l.buf l.es (n + 1) s) (· ≠ .fuel) (Parsed l .pipe ts) := by
  rw [Sh.parsepipe]
  refine .bind (h.exec hat (by omega)) fun r _ he => ?_
  obtain ⟨ps, us, t, rfl, hd, hat1, hr1⟩ := he
  rw [List.length_append] at hn
  obtain ⟨hpeek, hat2⟩ := peek_spec [124] hat1 (by simp [symbols])
  dsimp only
  rw [hpeek]
  refine .ite (fun hst => ?_) fun _ => ?_
  · obtain ⟨vs, rfl⟩ := (starts_mark (m := .bar) (by decide)).1 hst
    obtain ⟨-, hat3, -⟩ := gettoken_spec hat2
    rw [List.length_cons] at hn
    refine .bind (h.pipe hat3 (by omega)) fun r' _ hp => ?_
    obtain ⟨ps', us', t', rfl, hd', hat4, hr4⟩ := hp
    exact .ok ⟨_, us', _, by simp, .pipe hd hd', hat4, hr1.pipe hr4⟩
  · exact .ok ⟨ps, us, t, rfl, .exec hd, hat2, hr1⟩

theorem Specs.parseexec {n : Nat} (h : Specs l n) (hat : At l s ts) (hn : 4 * ts.length + 2 ≤ n + 1) :
    Sat (parseexec l.buf l.es (n + 1) s) (· ≠ .fuel) (Parsed l .exec ts) := by
  obtain ⟨hpeek, hat1⟩ := peek_spec [40] hat (by simp [symbols])
  rw [Sh.parseexec]
  rw [hpeek]
  refine .ite (fun hst => ?_) fun _ => ?_
  · obtain ⟨us, rfl⟩ := (starts_mark (m := .lparen) (by decide)).1 hst
    rw [List.length_cons] at hn
    exact h.block hat1 (by omega)
  · refine .bind (parseredirs_sat n hat1 (.empty l) (by omega)) fun r _ hp => ?_
    obtain ⟨ps, us, rs, hts, hd, hat2, hr2⟩ := hp
    subst hts
    rw [List.length_append] at hn
    refine (argLoop_sat n hat2 hr2 (by decide) (by omega)).mono (fun _ h => h) ?_
    rintro r' ⟨ps', us', ws, rs', rfl, hargs, hmax, hat3, hr3⟩
    exact ⟨ps ++ ps', us', _, by simp, .args hd hargs hmax, hat3, hr3⟩

theorem Specs.parseblock {n : Nat} (h : Specs l n) (hat : At l s (.lparen :: us)) (hn : 4 * us.length + 5 ≤ n + 1) :
    Sat (parseblock l.buf l.es (n + 1) s) (· ≠ .fuel) (Parsed l .exec (.lparen :: us)) := by
  obtain ⟨hpeek, hat1⟩ := peek_spec [40] hat (by simp [symbols])
  rw [Sh.parseblock]
  dsimp only
  rw [hpeek, if_pos (by rfl)]
  obtain ⟨-, hat2, -⟩ := gettoken_spec hat1
  refine .bind (h.line hat2 (by omega)) fun r _ hl => ?_
  obtain ⟨ps, vs, t, hus, hd, hat3, hr3⟩ := hl
  subst hus
  rw [List.length_append] at hn
  obtain ⟨hpeek', hat4⟩ := peek_spec [41] hat3 (by simp [symbols])
  rw [hpeek']
  refine .ite (fun hst => ?_) fun _ => .error (panic_ne_fuel _)
  obtain ⟨ws, rfl⟩ := (starts_mark (m := .rparen) (by decide)).1 hst
  obtain ⟨-, hat5, -⟩ := gettoken_spec hat4
  rw [List.length_cons] at hn
  refine (parseredirs_sat n hat5 hr3 (by omega)).mono (fun _ h => h) ?_
  rintro r' ⟨ps', us', rs, rfl, hd', hat6, hr6⟩
  exact ⟨_, us', _, by simp, .block hd hd', hat6, hr6⟩

/-- **With enough calls left every parse function ends, and what it returns is derived.** -/
theorem specs (l : Line) : ∀ n, Specs l n := by
  intro n
  induction n with
  | zero =>
    refine ⟨fun _ hn => ?_, fun _ hn => ?_, fun _ hn => ?_, fun _ hn => ?_⟩
    · omega
    · omega
    · omega
    · omega
  | succ n ih => exact ⟨ih.parseline, ih.parsepipe, ih.parseexec, ih.parseblock⟩

/-! ## What is derived is found -/

theorem parseredirs_find {ps : List Tok} {rs : List (Op × List UInt8)} (hd : Redirs ps rs) :
    ∀ {cmd : Cmd} {s n : Nat} {t : Tree},
    At l s (ps ++ us) → starts [60, 62] us = false → Reads l cmd t → (ps ++ us).length < n →
    ∃ r, parseredirs l.buf l.es n cmd s = .ok r ∧ At l r.2 us ∧ Reads l r.1 (t.redirected rs) := by
  induction hd with
  | nil =>
    intro cmd s n t hat hus hr hn
    obtain ⟨n, rfl⟩ := Nat.exists_eq_succ_of_ne_zero (Nat.ne_zero_of_lt hn)
    obtain ⟨hpeek, hat1⟩ := peek_spec [60, 62] hat (by simp [symbols])
    rw [List.nil_append] at hpeek
    refine ⟨(cmd, _), ?_, hat1, hr⟩
    rw [parseredirs]
    dsimp only
    rw [hpeek, hus, if_neg (by simp)]
  | @cons o f ps rs hd ih =>
    intro cmd s n t hat hus hr hn
    obtain ⟨n, rfl⟩ := Nat.exists_eq_succ_of_ne_zero (Nat.ne_zero_of_lt hn)
    rw [List.cons_append, List.cons_append] at hat hn
    obtain ⟨hpeek, hat1⟩ := peek_spec [60, 62] hat (by simp [symbols])
    obtain ⟨hret, hat2, -⟩ := gettoken_spec hat1
    obtain ⟨hf, hat3, hspan⟩ := gettoken_spec hat2
    obtain ⟨r, hrun, hfound⟩ := ih (n := n) hat3 hus (hr.redir (hspan f rfl)) (by
      simp only [List.length_cons] at hn
      omega)
    refine ⟨r, ?_, hfound⟩
    rw [parseredirs]
    dsimp only
    rw [hpeek, if_pos (starts_redirs.2 ⟨o, _, rfl⟩), if_neg (by rw [hf]; simp [Tok.ret]), hret, redir_op]
    exact hrun

theorem backLoop_find {k : Nat} : ∀ {cmd : Cmd} {s n : Nat} {t : Tree}, At l s (List.replicate k .amp ++ us) →
    starts [38] us = false → Reads l cmd t → (List.replicate k Tok.amp ++ us).length < n →
    ∃ r, backLoop l.buf l.es n cmd s = .ok r ∧ At l r.2 us ∧ Reads l r.1 (t.backs k) := by
  induction k with
  | zero =>
    intro cmd s n t hat hus hr hn
    obtain ⟨n, rfl⟩ := Nat.exists_eq_succ_of_ne_zero (Nat.ne_zero_of_lt hn)
    obtain ⟨hpeek, hat1⟩ := peek_spec [38] hat (by simp [symbols])
    rw [List.replicate_zero, List.nil_append] at hpeek
    refine ⟨(cmd, _), ?_, hat1, hr⟩
    rw [backLoop, hpeek, hus, if_neg (by simp)]
  | succ k ih =>
    intro cmd s n t hat hus hr hn
    obtain ⟨n, rfl⟩ := Nat.exists_eq_succ_of_ne_zero (Nat.ne_zero_of_lt hn)
    rw [List.replicate_succ, List.cons_append] at hat hn
    obtain ⟨hpeek, hat1⟩ := peek_spec [38] hat (by simp [symbols])
    obtain ⟨-, hat2, -⟩ := gettoken_spec hat1
    obtain ⟨r, hrun, hfound⟩ := ih (n := n) hat2 hus hr.back (by
      rw [List.length_cons] at hn
      omega)
    refine ⟨r, ?_, hfound⟩
    rw [backLoop, hpeek, if_pos (c := starts [38] (.amp :: _) = true) rfl]
    exact hrun

/-- Words and redirections end at a token that ends a command, or with the line. -/
def Ends (us : List Tok) : Prop := us = [] ∨ starts [124, 41, 38, 59] us = true

theorem Ends.not_redirs (h : Ends us) : starts [60, 62] us = false := by
  rcases h with rfl | h
  · rfl
  · obtain ⟨m, hm, us', rfl⟩ := starts_end.1 h
    simp only [List.mem_cons, List.not_mem_nil, or_false] at hm
    rcases hm with rfl | rfl | rfl | rfl <;> rfl

theorem Args.not_redirs {ps : List Tok} {ws : List (List UInt8)} {rs : List (Op × List UInt8)}
    (h : Args ps ws rs) (he : Ends us) :
    starts [60, 62] (ps ++ us) = false := by
  cases h with
  | nil => exact he.not_redirs
  | cons => rfl

theorem argLoop_find {ps : List Tok} {ws : List (List UInt8)} {rs : List (Op × List UInt8)} (hd : Args ps ws rs) :
    ∀ {ret : Cmd} {s n : Nat} {ws' : List (List UInt8)} {rs' : List (Op × List UInt8)}, At l s (ps ++ us) → Ends us →
    Reads l ret ((Tree.exec ws').redirected rs') → (ws' ++ ws).length < MAXARGS → (ps ++ us).length < n →
    ∃ r, argLoop l.buf l.es n ws'.length ret s = .ok r ∧ At l r.2 us ∧
      Reads l r.1 ((Tree.exec (ws' ++ ws)).redirected (rs' ++ rs)) := by
  induction hd with
  | nil =>
    intro ret s n ws' rs' hat he hr hmax hn
    obtain ⟨n, rfl⟩ := Nat.exists_eq_succ_of_ne_zero (Nat.ne_zero_of_lt hn)
    obtain ⟨hpeek, hat1⟩ := peek_spec [124, 41, 38, 59] hat (by simp [symbols])
    rw [List.nil_append] at hpeek hat1
    rw [List.append_nil, List.append_nil, argLoop]
    dsimp only
    rw [hpeek]
    rcases he with rfl | hst
    · obtain ⟨hzero, hat2⟩ := gettoken_end hat1
      rw [if_neg (by simp [starts]), if_pos hzero]
      exact ⟨_, rfl, hat2, hr⟩
    · rw [if_pos hst]
      exact ⟨_, rfl, hat1, hr⟩
  | @cons w ps qs rs1 rs2 ws hd hargs ih =>
    intro ret s n ws' rs' hat he hr hmax hn
    obtain ⟨n, rfl⟩ := Nat.exists_eq_succ_of_ne_zero (Nat.ne_zero_of_lt hn)
    simp only [List.cons_append, List.append_assoc, List.length_cons, List.length_append] at hat hn hmax
    obtain ⟨hpeek, hat1⟩ := peek_spec [124, 41, 38, 59] hat (by simp [symbols])
    obtain ⟨hf, hat2, hspan⟩ := gettoken_spec hat1
    obtain ⟨r, hrun, hat3, hr3⟩ := parseredirs_find hd (n := n) hat2 (hargs.not_redirs he) (hr.addArg (hspan w rfl)) (by
      simp only [List.length_append]
      omega)
    rw [← Tree.redirected_append] at hr3
    have hlen : (ws' ++ [w]).length = ws'.length + 1 := by simp
    obtain ⟨r', hrun', hfound⟩ :=
      ih (n := n) hat3 he hr3 (by simp only [List.length_append, List.length_cons, List.length_nil]; omega)
      (by simp only [List.length_append]; omega)
    rw [hlen] at hrun'
    refine ⟨r', ?_, ?_⟩
    · rw [argLoop]
      dsimp only
      rw [hpeek, if_neg (by simp [starts, Tok.char]), if_neg (by rw [hf]; exact Tok.ret_ne_zero _),
        if_neg (by rw [hf]; simp [Tok.ret]),
        if_neg (by omega), hrun, ok_bind]
      exact hrun'
    · rw [List.append_assoc, List.append_assoc] at hfound
      exact hfound

/-- The parse function for a part, and the calls that it needs. -/
def parse (l : Line) : Part → Nat → Nat → Except Stop (Cmd × Nat)
  | .line => parseline l.buf l.es
  | .pipe => parsepipe l.buf l.es
  | .exec => parseexec l.buf l.es

def calls : Part → Nat
  | .line => 4
  | .pipe => 3
  | .exec => 2

/-- The tokens that can stand behind a part. -/
def follow : Part → List Tok
  | .line => [.rparen]
  | .pipe => [.rparen, .amp, .semi]
  | .exec => [.rparen, .amp, .semi, .bar]

def Follows (x : Part) (us : List Tok) : Prop := ∀ t ∈ us.head?, t ∈ follow x

theorem Follows.not_starts {x : Part} {m : Tok} (hm : m ∈ marks) (hx : m ∉ follow x) (h : Follows x us) :
    starts [m.ret] us = false := by
  rw [Bool.eq_false_iff]
  intro hst
  obtain ⟨vs, rfl⟩ := (starts_mark hm).1 hst
  exact hx (h m rfl)

theorem Follows.ends {x : Part} (h : Follows x us) : Ends us := by
  cases us with
  | nil => exact .inl rfl
  | cons t us =>
    refine .inr (starts_end.2 ⟨t, ?_, us, rfl⟩)
    have := h t rfl
    cases x with
    | line => simp only [follow, List.mem_cons, List.not_mem_nil, or_false] at this; simp [this]
    | pipe =>
      simp only [follow, List.mem_cons, List.not_mem_nil, or_false] at this; simp only [List.mem_cons,
        List.not_mem_nil, or_false]; tauto
    | exec =>
      simp only [follow, List.mem_cons, List.not_mem_nil, or_false] at this; simp only [List.mem_cons,
        List.not_mem_nil, or_false]; tauto

theorem Follows.nil (x : Part) : Follows x [] := nofun

theorem Follows.cons {x : Part} {t : Tok} (h : t ∈ follow x) : Follows x (t :: us) := by
  intro u hu
  cases hu
  exact h

/-- **What is derived is found**, where nothing stands behind it that could belong to it. -/
theorem find {x : Part} {ps : List Tok} {t : Tree} (hd : Derives x ps t) :
    ∀ {us : List Tok} {s n : Nat}, At l s (ps ++ us) →
    Follows x us → 4 * (ps ++ us).length + calls x ≤ n → ∃ r, parse l x n s = .ok r ∧ At l r.2 us ∧ Reads l r.1 t := by
  induction hd with
  | @line k ps t hd ih =>
    intro us s n hat hf hn
    rw [calls] at hn
    obtain ⟨n, rfl⟩ := Nat.exists_eq_succ_of_ne_zero (show n ≠ 0 by omega)
    simp only [List.append_assoc, List.length_append] at hat hn
    have hpipe : Follows .pipe (List.replicate k .amp ++ us) := by
      cases k with
      | zero => exact fun t ht => by have := hf t ht; simp_all [follow]
      | succ k => exact .cons (by decide)
    obtain ⟨r, hrun, hat1, hr1⟩ := ih (n := n) hat hpipe (by simp only [List.length_append, calls]; omega)
    obtain ⟨r', hrun', hat2, hr2⟩ :=
      backLoop_find (n := n) hat1 (hf.not_starts (m := .amp) (by decide) (by decide)) hr1 (by
      simp only [List.length_append]
      omega)
    obtain ⟨hpeek, hat3⟩ := peek_spec [59] hat2 (by simp [symbols])
    refine ⟨(r'.1, _), ?_, hat3, hr2⟩
    rw [parse, parseline, show parsepipe l.buf l.es n s = .ok r from hrun, ok_bind, hrun', ok_bind]
    dsimp only
    have hno : starts [59] us = false := hf.not_starts (m := .semi) (by decide) (by decide)
    rw [hpeek, hno, if_neg (by simp)]
    rfl
  | @list k ps qs t u hd hd' ih ih' =>
    intro us s n hat hf hn
    rw [calls] at hn
    obtain ⟨n, rfl⟩ := Nat.exists_eq_succ_of_ne_zero (show n ≠ 0 by omega)
    simp only [List.append_assoc, List.cons_append, List.length_append, List.length_cons] at hat hn
    have hpipe : Follows .pipe (List.replicate k .amp ++ .semi :: (qs ++ us)) := by
      cases k with
      | zero => exact .cons (by decide)
      | succ k => exact .cons (by decide)
    obtain ⟨r, hrun, hat1, hr1⟩ :=
      ih (n := n) hat hpipe (by simp only [List.length_append, List.length_cons, calls]; omega)
    obtain ⟨r', hrun', hat2, hr2⟩ := backLoop_find (n := n) hat1 (by simp [starts, Tok.char, Tok.ret, strchr]) hr1 (by
      simp only [List.length_append, List.length_cons]
      omega)
    obtain ⟨hpeek, hat3⟩ := peek_spec [59] hat2 (by simp [symbols])
    obtain ⟨-, hat4, -⟩ := gettoken_spec hat3
    obtain ⟨r'', hrun'', hat5, hr5⟩ := ih' (n := n) hat4 hf (by simp only [List.length_append, calls]; omega)
    refine ⟨(.LIST r'.1 r''.1, r''.2), ?_, hat5, hr2.list hr5⟩
    rw [parse, parseline, show parsepipe l.buf l.es n s = .ok r from hrun, ok_bind, hrun', ok_bind]
    dsimp only
    rw [hpeek, if_pos (c := starts [59] (.semi :: _) = true) rfl,
      show parseline l.buf l.es n _ = .ok r'' from hrun'', ok_bind]
    rfl
  | @exec ps t hd ih =>
    intro us s n hat hf hn
    rw [calls] at hn
    obtain ⟨n, rfl⟩ := Nat.exists_eq_succ_of_ne_zero (show n ≠ 0 by omega)
    have hexec : Follows .exec us := fun t ht => by have := hf t ht; simp_all [follow]; tauto
    obtain ⟨r, hrun, hat1, hr1⟩ := ih (n := n) hat hexec (by rw [calls]; omega)
    obtain ⟨hpeek, hat2⟩ := peek_spec [124] hat1 (by simp [symbols])
    refine ⟨(r.1, _), ?_, hat2, hr1⟩
    rw [parse, parsepipe, show parseexec l.buf l.es n s = .ok r from hrun, ok_bind]
    dsimp only
    have hno : starts [124] us = false := hf.not_starts (m := .bar) (by decide) (by decide)
    rw [hpeek, hno, if_neg (by simp)]
    rfl
  | @pipe ps qs t u hd hd' ih ih' =>
    intro us s n hat hf hn
    rw [calls] at hn
    obtain ⟨n, rfl⟩ := Nat.exists_eq_succ_of_ne_zero (show n ≠ 0 by omega)
    simp only [List.append_assoc, List.cons_append, List.length_append, List.length_cons] at hat hn
    obtain ⟨r, hrun, hat1, hr1⟩ :=
      ih (n := n) hat (.cons (by decide)) (by simp only [List.length_append, List.length_cons, calls]; omega)
    obtain ⟨hpeek, hat2⟩ := peek_spec [124] hat1 (by simp [symbols])
    obtain ⟨-, hat3, -⟩ := gettoken_spec hat2
    obtain ⟨r', hrun', hat4, hr4⟩ := ih' (n := n) hat3 hf (by simp only [List.length_append, calls]; omega)
    refine ⟨(.PIPE r.1 r'.1, r'.2), ?_, hat4, hr1.pipe hr4⟩
    rw [parse, parsepipe, show parseexec l.buf l.es n s = .ok r from hrun, ok_bind]
    dsimp only
    rw [hpeek, if_pos (c := starts [124] (.bar :: _) = true) rfl,
      show parsepipe l.buf l.es n _ = .ok r' from hrun', ok_bind]
    rfl
  | @block ps qs t rs hd hrs ih =>
    intro us s n hat hf hn
    rw [calls] at hn
    obtain ⟨n, rfl⟩ := Nat.exists_eq_add_of_le' (show 2 ≤ n by omega)
    simp only [List.append_assoc, List.cons_append, List.length_append, List.length_cons] at hat hn
    obtain ⟨hpeek, hat1⟩ := peek_spec [40] hat (by simp [symbols])
    obtain ⟨hpeek1, hat2⟩ := peek_spec [40] hat1 (by simp [symbols])
    obtain ⟨-, hat3, -⟩ := gettoken_spec hat2
    obtain ⟨r, hrun, hat4, hr4⟩ :=
      ih (n := n) hat3 (.cons (by decide)) (by simp only [List.length_append, List.length_cons, calls]; omega)
    obtain ⟨hpeek2, hat5⟩ := peek_spec [41] hat4 (by simp [symbols])
    obtain ⟨-, hat6, -⟩ := gettoken_spec hat5
    obtain ⟨r', hrun', hfound⟩ :=
      parseredirs_find hrs (n := n) hat6 hf.ends.not_redirs hr4 (by simp only [List.length_append]; omega)
    refine ⟨r', ?_, hfound⟩
    have hparen : ∀ vs, starts [40] (.lparen :: vs) = true := fun _ => rfl
    rw [parse, parseexec, hpeek, if_pos (hparen _), parseblock]
    rw [hpeek1, if_pos (hparen _), show parseline l.buf l.es n _ = .ok r from hrun, ok_bind]
    dsimp only
    rw [hpeek2, if_pos (c := starts [41] (.rparen :: _) = true) rfl]
    exact hrun'
  | @args ps qs rs rs' ws hrs hargs hmax =>
    intro us s n hat hf hn
    rw [calls] at hn
    obtain ⟨n, rfl⟩ := Nat.exists_eq_succ_of_ne_zero (show n ≠ 0 by omega)
    simp only [List.append_assoc, List.length_append] at hat hn
    obtain ⟨hpeek, hat1⟩ := peek_spec [40] hat (by simp [symbols])
    obtain ⟨r, hrun, hat2, hr2⟩ := parseredirs_find hrs (n := n) hat1 (hargs.not_redirs hf.ends) (.empty l) (by
      simp only [List.length_append]
      omega)
    obtain ⟨r', hrun', hat3, hr3⟩ := argLoop_find hargs (n := n) hat2 hf.ends hr2 hmax (by
      simp only [List.length_append]
      omega)
    have hno : starts [40] (ps ++ (qs ++ us)) = false := by
      cases hrs with
      | cons => rename_i o _ _ _ _; cases o <;> rfl
      | nil =>
        cases hargs with
        | cons => rfl
        | nil => 
          have hf' : Follows .exec us := hf
          exact hf'.not_starts (m := .lparen) (by decide) (by decide)
    refine ⟨r', ?_, hat3, hr3⟩
    rw [parse, parseexec, hpeek, hno, if_neg (by simp), hrun, ok_bind]
    exact hrun'

/-! ## The strings -/

/-- The string at `s`, up to its NUL. -/
def cstr (buf : Buf) (s : Nat) : List UInt8 := (buf.drop s).takeWhile (· != 0)

theorem cstr_eq {buf : Buf} : ∀ {n s : Nat}, (∀ i, s ≤ i → i < s + n → buf.deref i ≠ 0) → buf.deref (s + n) = 0 →
    cstr buf s = (List.range' s n).map buf.deref := by
  intro n
  induction n with
  | zero =>
    intro s _ hz
    rw [Nat.add_zero, Buf.deref, List.getD_eq_getElem?_getD, ← List.head?_drop] at hz
    rw [cstr]
    cases hd : buf.drop s with
    | nil => rfl
    | cons b r =>
      rw [hd] at hz
      obtain rfl : b = 0 := hz
      rfl
  | succ n ih =>
    intro s hne hz
    have hs := hne s (Nat.le_refl _) (by omega)
    have hlt : s < buf.length := by
      by_contra hge
      rw [Buf.deref, List.getD_eq_getElem?_getD, List.getElem?_eq_none (by omega)] at hs
      exact hs rfl
    have hget : buf.deref s = buf[s] := by
      rw [Buf.deref, List.getD_eq_getElem?_getD, List.getElem?_eq_getElem hlt]
      rfl
    have hrest := ih (s := s + 1) (fun i h1 h2 => hne i (by omega) (by omega)) (by
      rw [Nat.add_assoc, Nat.add_comm 1 n]
      exact hz)
    rw [cstr, List.drop_eq_getElem_cons hlt, List.takeWhile_cons_of_pos (by rw [← hget]; simpa using hs),
      List.range'_succ,
      List.map_cons, hget]
    exact congrArg _ hrest

theorem slice_eq : ∀ {n s : Nat}, s + n ≤ l.es → (l.text.drop s).take n = (List.range' s n).map l.buf.deref := by
  intro n
  induction n with
  | zero => exact fun _ => rfl
  | succ n ih =>
    intro s hs
    have hlt : s < l.text.length := by
      rw [Line.es] at hs
      omega
    have hget : l.buf.deref s = l.text[s] := by
      rw [deref_buf (by omega), List.drop_eq_getElem_cons hlt]
      rfl
    rw [List.drop_eq_getElem_cons hlt, List.take_succ_cons, ih (by omega), List.range'_succ, List.map_cons, hget]

theorem deref_set (buf : Buf) (i j : Nat) : Buf.deref (buf.set i 0) j = if i = j then 0 else buf.deref j := by
  simp only [Buf.deref, List.getD_eq_getElem?_getD, List.getElem?_set]
  split
  · split
    · rfl
    · rfl
  · rfl

/-- The ends that get a NUL, in whatever order. -/
theorem nulterminate_deref : ∀ (cmd : Cmd) (buf : Buf) (i : Nat),
    Buf.deref (nulterminate cmd buf) i = if ∃ a ∈ cmd.strings, a.2 = i then 0 else buf.deref i := by
  have hor : ∀ (as bs : List (Nat × Nat)) (i : Nat) (b : UInt8),
      (if ∃ a ∈ bs, a.2 = i then 0 else if ∃ a ∈ as, a.2 = i then 0 else b) = if ∃ a ∈ as ++ bs, a.2 =
      i then 0 else b := by
    intro as bs i b
    simp only [List.mem_append, or_and_right, exists_or]
    split_ifs <;> simp_all
  intro cmd
  induction cmd with
  | EXEC argv =>
    intro buf i
    rw [nulterminate, Cmd.strings]
    induction argv generalizing buf with
    | nil => simp
    | cons a argv ih =>
      rw [List.foldl_cons, ih, deref_set]
      exact hor [a] argv i _ ▸ by simp
  | REDIR cmd file efile mode fd ih =>
    intro buf i
    rw [nulterminate, Cmd.strings, deref_set, ih, ← hor]
    simp
  | PIPE left right ihl ihr =>
    intro buf i
    rw [nulterminate, Cmd.strings, ihr, ihl, hor]
  | LIST left right ihl ihr =>
    intro buf i
    rw [nulterminate, Cmd.strings, ihr, ihl, hor]
  | BACK cmd ih => exact ih

/-- A NUL at the end of one word is in no other. -/
theorem Reads.nulterminate (h : Reads l cmd t) : cmd.tree (fun a => cstr (Sh.nulterminate cmd l.buf) a.1) = t := by
  rw [← h.tree]
  refine Cmd.tree_congr fun a ha => ?_
  obtain ⟨w, hw⟩ := h.spans a ha
  obtain ⟨n, hn⟩ := Nat.exists_eq_add_of_le hw.le
  have hlen : a.1 + n ≤ l.es := hn ▸ hw.bound
  have hin : ∀ i, a.1 ≤ i → i < a.1 + n → Buf.deref (Sh.nulterminate cmd l.buf) i = l.buf.deref i := by
    intro i h1 h2
    rw [nulterminate_deref, if_neg]
    rintro ⟨b, hb, rfl⟩
    obtain ⟨w', hw'⟩ := h.spans b hb
    rcases hw'.stop with hend | hstop
    · omega
    · rw [hw.inside b.2 h1 (by omega)] at hstop
      cases hstop
  have hne : ∀ i, a.1 ≤ i → i < a.1 + n → l.buf.deref i ≠ 0 := by
    intro i h1 h2 h0
    have hlt : i < l.text.length := Nat.lt_of_lt_of_le h2 hlen
    rw [deref_buf (by omega), List.drop_eq_getElem_cons hlt, List.headD_cons] at h0
    exact l.noNul (h0 ▸ List.getElem_mem hlt)
  rw [cstr_eq (n := n) (fun i h1 h2 => by rw [hin i h1 h2]; exact hne i h1 h2) (by
      rw [nulterminate_deref, if_pos ⟨a, ha, hn⟩]), Line.slice, hn, Nat.add_sub_cancel_left, slice_eq hlen]
  refine List.map_congr_left fun i hi => ?_
  obtain ⟨h1, h2⟩ := List.mem_range'_1.1 hi
  exact hin i h1 h2

/-- **The parser accepts the lines of its grammar**, each with the one tree it has. -/
theorem parsecmd_accepts (l : Line) {n : Nat} (hn : 4 * l.es + 4 ≤ n) : match parsecmd n l.buf with
    | .ok (cmd, buf) => ∀ t, Derives .line (tokens l.text) t ↔ t = cmd.tree fun a => cstr buf a.1
    | .error e => e ≠ .fuel ∧ ∀ t, ¬ Derives .line (tokens l.text) t := by
  have hcalls : 4 * (tokens l.text).length + 4 ≤ n := by
    have := length_tokens_le l.text
    rw [Line.es] at hn
    omega
  have hat : At l 0 (tokens l.text ++ []) := by
    rw [List.append_nil]
    exact .start l
  -- a derivation of the whole line is found, and then nothing is left
  have hfind : ∀ t, Derives .line (tokens l.text) t → ∃ r, parseline l.buf l.es n 0 = .ok r ∧
    At l r.2 [] ∧ Reads l r.1 t :=
    fun t hd => find hd hat (.nil _) (by rw [List.append_nil]; exact hcalls)
  have hsat := (specs l n).line (.start l) hcalls
  rw [parsecmd, strlen_buf]
  cases hrun : parseline l.buf l.es n 0 with
  | error e =>
    refine ⟨hsat.of_error hrun, fun t hd => ?_⟩
    obtain ⟨r, hr, -⟩ := hfind t hd
    rw [hrun] at hr
    cases hr
  | ok r =>
    obtain ⟨ps, us, t, hts, hd, hat1, hr1⟩ := hsat.of_ok hrun
    dsimp only
    rw [ok_bind]
    by_cases hend : (peek l.buf l.es [] r.2).2 = l.es
    · rw [if_neg (by simpa using hend)]
      obtain rfl := (peek_end hat1).1 hend
      rw [List.append_nil] at hts
      intro u
      rw [hr1.nulterminate]
      constructor
      · intro hu
        obtain ⟨r', hr', -, hr2⟩ := hfind u hu
        obtain rfl := Except.ok.inj (hrun.symm.trans hr')
        exact hr2.tree.symm.trans hr1.tree
      · rintro rfl
        rw [hts]
        exact hd
    · rw [if_pos (by simpa using hend)]
      refine ⟨leftovers_ne_fuel _, fun u hu => hend ?_⟩
      obtain ⟨r', hr', hat2, -⟩ := hfind u hu
      obtain rfl := Except.ok.inj (hrun.symm.trans hr')
      exact (peek_end hat2).2 rfl

/-- `a|b` -/
theorem parsecmd_accepts_pipe : Derives .line (tokens [97, 124, 98]) (.pipe (.exec [[97]]) (.exec [[98]])) := by
  have h := parsecmd_accepts ⟨[97, 124, 98], [], by decide⟩ (n := 16) (by decide)
  have hrun : parsecmd 16 (Line.buf ⟨[97, 124, 98], [], by decide⟩) = .ok
      (.PIPE (.EXEC [(0, 1)]) (.EXEC [(2, 3)]), [97, 0, 98, 0]) := by with_unfolding_all rfl
  rw [hrun] at h
  exact (h _).2 rfl

end Sh
