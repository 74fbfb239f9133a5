import CCppProjects.Sh.Parse
import Mathlib.Data.List.TakeWhile
/-
# The tokens of a line (sh.c:277-335)

`tokens` splits a text on its own terms; `gettoken` and `peek` move a cursor over the line. `At` ties them: the cursor
stands before a list of tokens. `peek` leaves the list alone, `gettoken` takes its head, and the text of a word is
between the two ends it is given (`Span`).
-/
namespace Sh

/-! ## The tokens -/

/-- An operator in front of a file name. -/
inductive Op
  | lt
  | gt
  | gtgt
  deriving DecidableEq

inductive Tok
  | bar
  | lparen
  | rparen
  | semi
  | amp
  | op (o : Op)
  | word (text : List UInt8)
  deriving DecidableEq

def isSpace (b : UInt8) : Bool := strchr whitespace b

/-- A character of a word. -/
def isWord (b : UInt8) : Bool := !strchr whitespace b && !strchr symbols b

/-- The token that a character is by itself. -/
def symbolTok (b : UInt8) : Option Tok :=
  if b = 124 then some .bar
  else if b = 40 then some .lparen
  else if b = 41 then some .rparen
  else if b = 59 then some .semi
  else if b = 38 then some .amp
  else if b = 60 then some (.op .lt)
  else if b = 62 then some (.op .gt)
  else none

/-- Space between tokens counts for nothing, `>>` is one token, and a word is as long as it can be. -/
def tokens : List UInt8 → List Tok
  | [] => []
  | b :: l =>
    if isSpace b then tokens l
    else match symbolTok b with
      | some t => if b = 62 ∧ l.head? = some 62 then .op .gtgt :: tokens l.tail else t :: tokens l
      | none => .word (b :: l.takeWhile isWord) :: tokens (l.dropWhile isWord)
  termination_by l => l.length
  decreasing_by
    · exact Nat.lt_succ_self _
    · rw [List.length_tail]
      exact Nat.lt_succ_of_le (Nat.sub_le _ _)
    · exact Nat.lt_succ_self _
    · exact Nat.lt_succ_of_le (List.length_dropWhile_le _ _)

/-- What `gettoken` returns for a token. -/
def Tok.ret : Tok → UInt8
  | bar => 124
  | lparen => 40
  | rparen => 41
  | semi => 59
  | amp => 38
  | op .lt => 60
  | op .gt => 62
  | op .gtgt => 43
  | word _ => 97

/-- The character `peek` sees, unless it is one of a word. -/
def Tok.char : Tok → Option UInt8
  | op .gtgt => some 62
  | word _ => none
  | t => some t.ret

/-- Whether the tokens start with one of `toks`. -/
def starts (toks : List UInt8) (ts : List Tok) : Bool := (ts.head?.bind Tok.char).any (strchr toks)

theorem tokens_nil : tokens [] = [] := by rw [tokens]

theorem tokens_space {b : UInt8} {l : List UInt8} (h : isSpace b = true) : tokens (b :: l) = tokens l := by
  rw [tokens, if_pos h]

theorem tokens_symbol {b : UInt8} {l : List UInt8} {t : Tok} (hb : isSpace b = false) (ht : symbolTok b = some t) :
    tokens (b :: l) = if b = 62 ∧ l.head? = some 62 then .op .gtgt :: tokens l.tail else t :: tokens l := by
  rw [tokens, if_neg (by simp [hb]), ht]

theorem tokens_word {b : UInt8} {l : List UInt8} (hb : isSpace b = false) (ht : symbolTok b = none) :
    tokens (b :: l) = .word (b :: l.takeWhile isWord) :: tokens (l.dropWhile isWord) := by
  rw [tokens, if_neg (by simp [hb]), ht]

theorem tokens_dropWhile_space (l : List UInt8) : tokens (l.dropWhile isSpace) = tokens l := by
  induction l with
  | nil => rfl
  | cons b l ih =>
    cases hb : isSpace b with
    | true => rw [List.dropWhile_cons_of_pos hb, ih, tokens_space hb]
    | false => rw [List.dropWhile_cons_of_neg (by simp [hb])]

theorem length_tokens_le (l : List UInt8) : (tokens l).length ≤ l.length := by
  fun_induction tokens l with
  | case1 => exact Nat.le_refl _
  | case2 b l hb ih => exact ih.trans (Nat.le_succ _)
  | case3 b l hb t ht hgt ih =>
    rw [List.length_tail] at ih
    simp only [List.length_cons]
    omega
  | case4 b l hb t ht hgt ih => exact Nat.succ_le_succ ih
  | case5 b l hb ht ih => exact Nat.succ_le_succ (ih.trans (List.length_dropWhile_le _ _))

theorem symbolTok_none {b : UInt8} (h : symbolTok b = none) :
    ¬ (b = 124 ∨ b = 40 ∨ b = 41 ∨ b = 59 ∨ b = 38 ∨ b = 60) ∧ b ≠ 62 := by
  unfold symbolTok at h
  split_ifs at h with h1 h2 h3 h4 h5 h6 h7
  simp [h1, h2, h3, h4, h5, h6, h7]

/-- All symbols but `>` are tokens by themselves. -/
theorem symbolTok_some {b : UInt8} {t : Tok} (h : symbolTok b = some t) : t.ret = b ∧ t.char = some b ∧
    ((b = 124 ∨ b = 40 ∨ b = 41 ∨ b = 59 ∨ b = 38 ∨ b = 60) ∨ b = 62 ∧ t = .op .gt) ∧ ∀ w, t ≠ .word w := by
  unfold symbolTok at h
  split_ifs at h with h1 h2 h3 h4 h5 h6 h7 <;> cases h <;> simp [*, Tok.ret, Tok.char]

/-- A character that is no space and no symbol is part of a word. -/
theorem isWord_of_none {b : UInt8} (hb : isSpace b = false) (ht : symbolTok b = none) : isWord b = true := by
  have hsym : strchr symbols b = false := by
    have hno := symbolTok_none ht
    simp only [not_or] at hno
    simp [strchr, symbols, hno]
  rw [isWord, show strchr whitespace b = false from hb, hsym]
  rfl

/-! ## Lines -/

/-- A line, and what lies behind its NUL. -/
structure Line where
  text : List UInt8
  rest : List UInt8
  noNul : 0 ∉ text

def Line.buf (l : Line) : Buf := l.text ++ 0 :: l.rest

/-- `es` -/
def Line.es (l : Line) : Nat := l.text.length

variable {l : Line} {s : Nat} {ts : List Tok}

theorem strlen_buf (l : Line) : strlen l.buf = l.es := by
  obtain ⟨text, rest, hno⟩ := l
  simp only [Line.buf, Line.es]
  induction text with
  | nil => rfl
  | cons b text ih =>
    simp only [List.mem_cons, not_or] at hno
    rw [List.cons_append, strlen, if_neg (Ne.symm hno.1), ih hno.2]
    rfl

theorem deref_buf (h : s ≤ l.es) : l.buf.deref s = (l.text.drop s).headD 0 := by
  rw [Buf.deref, Line.buf, List.getD_eq_getElem?_getD, List.headD_eq_head?_getD, List.head?_drop]
  rcases Nat.lt_or_ge s l.text.length with hlt | hge
  · rw [List.getElem?_append_left hlt]
  · have : s = l.text.length := Nat.le_antisymm h hge
    subst this
    simp

theorem drop_cons {b : UInt8} {r : List UInt8} (h : l.text.drop s = b :: r) :
    s < l.es ∧ l.buf.deref s = b ∧ l.text.drop (s + 1) = r ∧ b ≠ 0 := by
  have hlt : s < l.es := by
    rcases Nat.lt_or_ge s l.es with hlt | hge
    · exact hlt
    · rw [List.drop_eq_nil_of_le hge] at h
      cases h
  refine ⟨hlt, ?_, ?_, ?_⟩
  · rw [deref_buf hlt.le, h]
    rfl
  · rw [← List.drop_drop, h]
    rfl
  · rintro rfl
    exact l.noNul (List.mem_of_mem_drop (h ▸ List.mem_cons_self))

/-! ## The loops over characters -/

/-- Where `while(s < es && p(*s)) s++` gets from `s`. -/
structure Scanned (l : Line) (p : UInt8 → Bool) (s s' : Nat) : Prop where
  le : s ≤ s'
  bound : s' ≤ l.es
  inside : ∀ i, s ≤ i → i < s' → p (l.buf.deref i) = true
  stop : s' = l.es ∨ p (l.buf.deref s') = false
  drop : l.text.drop s' = (l.text.drop s).dropWhile p
  take : (l.text.drop s).take (s' - s) = (l.text.drop s).takeWhile p

theorem scanLoop_spec (l : Line) (p : UInt8 → Bool) : ∀ n s, s + n = l.es → Scanned l p s (scanLoop l.buf p n s) := by
  intro n
  induction n with
  | zero =>
    intro s hs
    have hnil : l.text.drop s = [] := List.drop_eq_nil_of_le (by rw [← Line.es]; omega)
    refine ⟨Nat.le_refl _, by rw [scanLoop]; omega, fun i h1 h2 => ?_, .inl hs, ?_, ?_⟩
    · exact absurd h2 (Nat.not_lt.2 h1)
    · rw [scanLoop, hnil]
      rfl
    · rw [hnil, List.take_nil]
      rfl
  | succ n ih =>
    intro s hs
    obtain ⟨b, r, hr⟩ : ∃ b r, l.text.drop s = b :: r := by
      refine List.exists_cons_of_ne_nil fun h => ?_
      have := List.drop_eq_nil_iff.1 h
      rw [← Line.es] at this
      omega
    obtain ⟨hlt, hb, hnext, -⟩ := drop_cons hr
    rw [scanLoop, hb]
    split
    · next hp =>
      have h := ih (s + 1) (by omega)
      have hle := h.le
      refine ⟨by omega, h.bound, fun i h1 h2 => ?_, h.stop, ?_, ?_⟩
      · rcases Nat.eq_or_lt_of_le h1 with rfl | h1
        · rw [hb, hp]
        · exact h.inside i h1 h2
      · rw [h.drop, hnext, hr, List.dropWhile_cons_of_pos hp]
      · have htake := h.take
        rw [hnext] at htake
        rw [hr, List.takeWhile_cons_of_pos hp, ← htake]
        obtain ⟨k, hk⟩ := Nat.exists_eq_add_of_le hle
        rw [hk, show s + 1 + k - s = k + 1 by omega, show s + 1 + k - (s + 1) = k by omega, List.take_succ_cons]
    · next hp =>
      refine ⟨Nat.le_refl _, hlt.le, fun i h1 h2 => ?_, .inr (by rw [hb]; simpa using hp), ?_, ?_⟩
      · exact absurd h2 (Nat.not_lt.2 h1)
      · rw [hr, List.dropWhile_cons_of_neg hp]
      · rw [hr, List.takeWhile_cons_of_neg hp, Nat.sub_self]
        rfl

theorem scan_spec (p : UInt8 → Bool) (h : s ≤ l.es) : Scanned l p s (scan l.buf l.es p s) :=
  scanLoop_spec l p _ s (Nat.add_sub_cancel' h)

/-! ## The cursor -/

/-- The cursor stands before the tokens `ts`. -/
structure At (l : Line) (s : Nat) (ts : List Tok) : Prop where
  le : s ≤ l.es
  toks : tokens (l.text.drop s) = ts

/-- The text of a word lies from `a.1` to `a.2`, where the word ends. -/
structure Span (l : Line) (a : Nat × Nat) (text : List UInt8) : Prop where
  le : a.1 ≤ a.2
  bound : a.2 ≤ l.es
  inside : ∀ i, a.1 ≤ i → i < a.2 → isWord (l.buf.deref i) = true
  stop : a.2 = l.es ∨ isWord (l.buf.deref a.2) = false
  text : (l.text.drop a.1).take (a.2 - a.1) = text

theorem At.start (l : Line) : At l 0 (tokens l.text) := ⟨Nat.zero_le _, rfl⟩

/-- Space is skipped up to the next token, or the end. -/
theorem At.skipSpace (h : At l s ts) : At l (skipSpace l.buf l.es s) ts ∧
    l.text.drop (Sh.skipSpace l.buf l.es s) = (l.text.drop s).dropWhile isSpace := by
  have hs := scan_spec isSpace h.le
  refine ⟨⟨hs.bound, ?_⟩, hs.drop⟩
  rw [Sh.skipSpace, show strchr whitespace = isSpace from rfl, hs.drop, tokens_dropWhile_space, h.toks]

/-- Where no token is left `skipSpace` is at the end. -/
theorem At.rest (h : At l s ts) :
    (ts = [] ∧ Sh.skipSpace l.buf l.es s = l.es ∧ l.buf.deref (Sh.skipSpace l.buf l.es s) = 0) ∨
    ∃ b r, l.text.drop (Sh.skipSpace l.buf l.es s) = b :: r ∧ isSpace b = false ∧ ts = tokens (b :: r) := by
  obtain ⟨hat, hdrop⟩ := h.skipSpace
  cases hr : l.text.drop (Sh.skipSpace l.buf l.es s) with
  | nil =>
    have hend : Sh.skipSpace l.buf l.es s = l.es := Nat.le_antisymm hat.le (List.drop_eq_nil_iff.1 hr)
    refine .inl ⟨?_, hend, ?_⟩
    · rw [← hat.toks, hr, tokens_nil]
    · rw [deref_buf hat.le, hr]
      rfl
  | cons b r =>
    refine .inr ⟨b, r, rfl, ?_, ?_⟩
    · rw [hr] at hdrop
      have hhead := List.head?_dropWhile_not isSpace (l.text.drop s)
      rw [← hdrop] at hhead
      simpa using hhead
    · rw [← hat.toks, hr]

/-- `peek` sees the first token's character. -/
theorem starts_tokens {toks : List UInt8} {b : UInt8} {r : List UInt8} (htoks : ∀ c ∈ toks, c ∈ symbols)
    (hb : isSpace b = false) : starts toks (tokens (b :: r)) = strchr toks b := by
  cases ht : symbolTok b with
  | none =>
    have hword := isWord_of_none hb ht
    rw [tokens_word hb ht]
    have hno : b ∉ toks := fun h => by
      have hsym : strchr symbols b = true := by simpa [strchr] using htoks b h
      rw [isWord, hsym] at hword
      simp at hword
    simp [starts, Tok.char, strchr, hno]
  | some t =>
    have hchar := (symbolTok_some ht).2.1
    rw [tokens_symbol hb ht]
    split
    · next h62 =>
      rw [h62.1]
      rfl
    · simp [starts, hchar]

theorem peek_spec (toks : List UInt8) (h : At l s ts) (htoks : ∀ c ∈ toks, c ∈ symbols) :
    (peek l.buf l.es toks s).1 = starts toks ts ∧ At l (peek l.buf l.es toks s).2 ts := by
  refine ⟨?_, h.skipSpace.1⟩
  rw [peek]
  rcases h.rest with ⟨rfl, -, h0⟩ | ⟨b, r, hr, hb, rfl⟩
  · rw [h0]
    rfl
  · obtain ⟨-, hderef, -, hne⟩ := drop_cons hr
    rw [starts_tokens htoks hb, hderef]
    simp [hne]

/-- Only at the end of the line nothing is left. -/
theorem peek_end {toks : List UInt8} (h : At l s ts) : (peek l.buf l.es toks s).2 = l.es ↔ ts = [] := by
  rcases h.rest with ⟨hts, hend, -⟩ | ⟨b, r, hr, hb, rfl⟩
  · exact iff_of_true hend hts
  · refine iff_of_false (fun hend => ?_) ?_
    · have := (drop_cons hr).1
      rw [peek] at hend
      omega
    · cases ht : symbolTok b with
      | none => simp [tokens_word hb ht]
      | some t =>
        rw [tokens_symbol hb ht]
        split
        · simp
        · simp

/-- The `switch` of `gettoken` takes the first token. -/
theorem tokenEnd_spec {b : UInt8} {r : List UInt8} (hr : l.text.drop s = b :: r) (hb : isSpace b = false) :
    ∃ t e, tokenEnd l.buf l.es s = (t.ret, e) ∧ tokens (b :: r) = t :: tokens (l.text.drop e) ∧ e ≤ l.es ∧
      ∀ w, t = .word w → Span l (s, e) w := by
  obtain ⟨hlt, hderef, hnext, hne⟩ := drop_cons hr
  simp only [tokenEnd, hderef]
  rw [if_neg hne]
  cases ht : symbolTok b with
  | none =>
    have hno := symbolTok_none ht
    have hword := isWord_of_none hb ht
    have hscan := scan_spec isWord hlt.le
    rw [if_neg hno.1, if_neg hno.2, tokens_word hb ht]
    refine ⟨.word (b :: r.takeWhile isWord), scan l.buf l.es isWord s, rfl, ?_, hscan.bound, fun w hw => ?_⟩
    · rw [hscan.drop, hr, List.dropWhile_cons_of_pos hword]
    · cases hw
      refine ⟨hscan.le, hscan.bound, hscan.inside, hscan.stop, ?_⟩
      exact hscan.take.trans (by rw [hr, List.takeWhile_cons_of_pos hword])
  | some t =>
    rw [tokens_symbol hb ht]
    by_cases h62 : b = 62
    · subst h62
      have hhead : l.buf.deref (s + 1) = r.headD 0 := by rw [deref_buf hlt, hnext]
      obtain rfl : t = .op .gt := (Option.some.inj ht).symm
      rw [if_neg (by decide), if_pos rfl, hhead]
      cases r with
      | nil => exact ⟨.op .gt, s + 1, rfl, by rw [hnext]; rfl, hlt, nofun⟩
      | cons b' r =>
        rw [List.headD_cons]
        by_cases h2 : b' = 62
        · subst h2
          obtain ⟨hlt', -, hnext', -⟩ := drop_cons hnext
          exact ⟨.op .gtgt, s + 2, rfl, by rw [hnext']; rfl, hlt', nofun⟩
        · rw [if_neg h2, if_neg (by simp [h2])]
          exact ⟨.op .gt, s + 1, rfl, by rw [hnext], hlt, nofun⟩
    · obtain ⟨hret, -, hsym, hno⟩ := symbolTok_some ht
      rw [if_pos (hsym.resolve_right fun h => h62 h.1), if_neg fun h => h62 h.1]
      exact ⟨t, s + 1, by rw [hret], by rw [hnext], hlt, fun w hw => absurd hw (hno w)⟩

/-- **`gettoken` takes the first token**, and the text of a word is between the ends it sets. -/
theorem gettoken_spec {t : Tok} (h : At l s (t :: ts)) : (gettoken l.buf l.es s).ret = t.ret ∧
    At l (gettoken l.buf l.es s).ps ts ∧
      ∀ w, t = .word w → Span l ((gettoken l.buf l.es s).q, (gettoken l.buf l.es s).eq) w := by
  rcases h.rest with ⟨hts, -⟩ | ⟨b, r, hr, hb, hts⟩
  · cases hts
  · obtain ⟨t', e, hend, htoks, he, hspan⟩ := tokenEnd_spec hr hb
    obtain ⟨rfl, rfl⟩ := List.cons.inj (hts.trans htoks)
    have hat : At l e (tokens (l.text.drop e)) := ⟨he, rfl⟩
    simp only [gettoken, hend]
    exact ⟨trivial, hat.skipSpace.1, hspan⟩

/-- At the end of the line `gettoken` returns 0. -/
theorem gettoken_end (h : At l s []) : (gettoken l.buf l.es s).ret = 0 ∧ At l (gettoken l.buf l.es s).ps [] := by
  rcases h.rest with ⟨-, hend, h0⟩ | ⟨b, r, hr, hb, hts⟩
  · simp only [gettoken, tokenEnd, h0, if_pos]
    exact ⟨trivial, h.skipSpace.1.skipSpace.1⟩
  · obtain ⟨t, e, -, htoks, -⟩ := tokenEnd_spec hr hb
    cases hts.trans htoks

theorem Tok.ret_ne_zero (t : Tok) : t.ret ≠ 0 := by
  cases t with
  | op o => cases o <;> simp [Tok.ret]
  | _ => simp [Tok.ret]

/-- Only words are `'a'`. -/
theorem Tok.ret_eq_word {t : Tok} : t.ret = 97 ↔ ∃ w, t = .word w := by
  cases t with
  | op o => cases o <;> simp [Tok.ret]
  | _ => simp [Tok.ret]

end Sh
