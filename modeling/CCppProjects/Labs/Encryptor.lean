import CCppProjects.Lib.Sat
import Mathlib.Algebra.Ring.Nat
import Mathlib.Data.List.Count
/-
# The encryptor (lab1/task2/main.c)

| here | there |
|---|---|
| `Config`, `configure` | the loop over `argv` (`:14-48`); `-D` only writes to `stderr` |
| `keyAt` | `encrypt[i]`, with the NUL behind the last character |
| `loop` | `:50-83`; `a` is a `char`, so the byte 255 is `EOF` |
| `shifted` | what becomes of the characters of a text, without the newlines written behind them |

Input and output are the standard ones: `-i` and `-o` name other files.

`+e` writes a newline behind every line end and begins the key anew, and `-e` does the same where it reads a newline.
But the line end that `+e` has shifted is no newline, the one written behind it is another character of the input of
`-e`, and a shifted character may be a newline or `EOF`.
-/
namespace Encryptor

inductive Fault
  | overflow  -- `counter++` beyond an `int`
  | outside   -- `encrypt[i]` behind the argument
  deriving DecidableEq

structure Config where
  enc : Int
  encrypt : List UInt8
  encryptSize : Nat
  deriving DecidableEq

/-- `for (int j = 0; encrypt[j] != '\\0'; j++) encryptSize = j;`. -/
def lastIndex (encrypt : List UInt8) (encryptSize : Nat) : Nat :=
  (List.range encrypt.length).foldl (fun _ j => j) encryptSize

/-- One argument (`:22-39`). -/
def configureArg (c : Config) (arg : List UInt8) : Config :=
  let c := if [45, 101].isPrefixOf arg then ⟨-1, arg.drop 2, lastIndex (arg.drop 2) c.encryptSize⟩ else c
  if [43, 101].isPrefixOf arg then ⟨1, arg.drop 2, lastIndex (arg.drop 2) c.encryptSize⟩ else c

def configure (argv : List (List UInt8)) : Config := argv.foldl configureArg ⟨0, [], 0⟩

def keyAt (encrypt : List UInt8) (i : Nat) : Except Fault UInt8 :=
  match (encrypt ++ [0])[i]? with
  | some k => .ok k
  | none => .error .outside

/-- `:59-73`: the character that is written, and the counter. -/
def change (c : Config) (a : UInt8) (counter : Nat) : Except Fault (UInt8 × Nat) :=
  if c.enc = 0 then
    .ok (if 65 ≤ a ∧ a ≤ 90 then a + (97 - 65) else a, counter)
  else do
    let k ← keyAt c.encrypt (counter % (c.encryptSize + 1))
    if counter + 1 < 2 ^ 31 then .ok (if c.enc = 1 then a + k else a - k, counter + 1) else .error .overflow

/-- What is written for the rest of the input. -/
def loop (c : Config) : List UInt8 → Nat → Except Fault (List UInt8)
  | [], _ => .ok []
  | a :: input, counter =>
    if a = 255 then .ok []
    else do
      let (b, counter) ← change c a counter
      if a = 10 ∧ c.enc ≠ 0 then do
        let out ← loop c input 0
        .ok (b :: 10 :: out)
      else do
        let out ← loop c input counter
        .ok (b :: out)

def main (argv : List (List UInt8)) (input : List UInt8) : Except Fault (List UInt8) :=
  loop (configure argv) input 0

/-! ## What should hold -/

/-- The character of the key that is due. -/
def due (key : List UInt8) (counter : Nat) : UInt8 := key.getD (counter % key.length) 0

def shifted (key : List UInt8) : Nat → List UInt8 → List UInt8
  | _, [] => []
  | counter, a :: text => (a + due key counter) :: shifted key (if a = 10 then 0 else counter + 1) text

/-- `-e` gives back what `+e` was given, whatever the program is called. -/
def Undone (key text : List UInt8) : Prop :=
  ∀ name : List UInt8, ∃ cipher, main [name, 43 :: 101 :: key] text = .ok cipher ∧
    main [name, 45 :: 101 :: key] cipher = .ok text

/-- `-e` stops at a shifted character behind a newline of its input. -/
def Cut (key text : List UInt8) : Prop :=
  ∃ u a v, text = u ++ a :: v ∧ (shifted key 0 text)[u.length]? = some 255 ∧ (10 ∈ u ∨ 10 ∈ shifted key 0 u)

/-- One line that no shifted character ends. -/
structure Clean (key text : List UInt8) : Prop where
  line : 10 ∉ text
  newline : 10 ∉ shifted key 0 text
  eof : 255 ∉ shifted key 0 text
  short : text.length < 2 ^ 31

/-! ## The configuration -/

theorem lastIndex_eq {encrypt : List UInt8} (h : encrypt ≠ []) (n : Nat) :
    lastIndex encrypt n = encrypt.length - 1 := by
  obtain ⟨m, hm⟩ := Nat.exists_eq_succ_of_ne_zero (Nat.ne_of_gt (List.length_pos_iff.2 h))
  rw [lastIndex, hm, List.range_succ, List.foldl_append]
  rfl

/-- What the last argument sets. -/
def keyed (enc : Int) (key : List UInt8) : Config := ⟨enc, key, key.length - 1⟩

variable {key text input out cipher : List UInt8} {enc : Int} {counter : Nat} {a : UInt8}

theorem configure_add (hk : key ≠ []) (name : List UInt8) : configure [name, 43 :: 101 :: key] = keyed 1 key := by
  have hplus : ∀ c, configureArg c (43 :: 101 :: key) = ⟨1, key, lastIndex key c.encryptSize⟩ := fun c => by
    simp [configureArg]
  rw [configure, List.foldl_cons, List.foldl_cons, List.foldl_nil, hplus, lastIndex_eq hk, keyed]

theorem configure_sub (hk : key ≠ []) (name : List UInt8) : configure [name, 45 :: 101 :: key] = keyed (-1) key := by
  have hminus : ∀ c, configureArg c (45 :: 101 :: key) = ⟨-1, key, lastIndex key c.encryptSize⟩ := fun c => by
    simp [configureArg]
  rw [configure, List.foldl_cons, List.foldl_cons, List.foldl_nil, hminus, lastIndex_eq hk, keyed]

/-- The character that is written with this key. -/
def turn (enc : Int) (key : List UInt8) (counter : Nat) (a : UInt8) : UInt8 :=
  if enc = 1 then a + due key counter else a - due key counter

theorem change_keyed (hk : key ≠ []) (henc : enc ≠ 0) : change (keyed enc key) a counter =
    if counter + 1 < 2 ^ 31 then .ok (turn enc key counter a, counter + 1) else .error .overflow := by
  have hpos := List.length_pos_iff.2 hk
  have hsize : (keyed enc key).encryptSize + 1 = key.length := Nat.sub_add_cancel hpos
  have hlt := Nat.mod_lt counter hpos
  have hget : keyAt key (counter % key.length) = .ok (due key counter) := by
    rw [keyAt, due, List.getD_eq_getElem?_getD, List.getElem?_append_left hlt, List.getElem?_eq_getElem hlt,
      Option.getD_some]
  rw [change, if_neg (show (keyed enc key).enc ≠ 0 from henc), hsize]
  change (keyAt key _ >>= _) = _
  rw [hget, ok_bind]
  rfl

/-- One round of the loop. -/
theorem loop_cons (hk : key ≠ []) (henc : enc ≠ 0) : loop (keyed enc key) (a :: input) counter = .ok out ↔
    if a = 255 then out = [] else counter + 1 < 2 ^ 31 ∧
      ∃ rest, loop (keyed enc key) input (if a = 10 then 0 else counter + 1) = .ok rest ∧
        out = turn enc key counter a :: ((if a = 10 then [10] else []) ++ rest) := by
  rw [loop]
  by_cases heof : a = 255
  · rw [if_pos heof, if_pos heof]
    simp [eq_comm]
  · rw [if_neg heof, if_neg heof, change_keyed hk henc]
    by_cases hover : counter + 1 < 2 ^ 31
    · rw [if_pos hover, ok_bind, and_iff_right hover]
      by_cases hline : a = 10
      · simp only [hline, henc, true_and, ne_eq, not_false_eq_true, keyed, if_true]
        constructor
        · intro h
          obtain ⟨rest, hrest, hout⟩ := bind_ok h
          exact ⟨rest, hrest, (Except.ok.inj hout).symm⟩
        · rintro ⟨rest, hrest, rfl⟩
          rw [hrest]
          rfl
      · simp only [hline, false_and, if_false, List.nil_append]
        constructor
        · intro h
          obtain ⟨rest, hrest, hout⟩ := bind_ok h
          exact ⟨rest, hrest, (Except.ok.inj hout).symm⟩
        · rintro ⟨rest, hrest, rfl⟩
          rw [hrest]
          rfl
    · rw [if_neg hover]
      simp only [hover, false_and, iff_false]
      nofun

/-! ## What a run writes -/

/-- One character for each, and one more for each newline. -/
theorem loop_length (hk : key ≠ []) (henc : enc ≠ 0) (heof : 255 ∉ input)
    (h : loop (keyed enc key) input counter = .ok out) : out.length = input.length + input.count 10 := by
  induction input generalizing counter out with
  | nil =>
    cases h
    rfl
  | cons a input ih =>
    rw [List.mem_cons, not_or] at heof
    rw [loop_cons hk henc, if_neg (Ne.symm heof.1)] at h
    obtain ⟨-, rest, hrest, rfl⟩ := h
    have hlen := ih heof.2 hrest
    by_cases hline : a = 10
    · simp only [hline, if_true, List.length_cons, List.length_append, List.length_nil, List.count_cons_self, hlen]
      omega
    · simp only [hline, if_false, List.length_cons, List.nil_append, List.count_cons_of_ne hline, hlen]
      omega

/-- A cipher has the shifted characters and newlines. -/
theorem mem_cipher (hk : key ≠ []) (heof : 255 ∉ text) (h : loop (keyed 1 key) text counter = .ok cipher) {b : UInt8}
    (hb : b ∈ cipher) : b ∈ shifted key counter text ∨ b = 10 := by
  induction text generalizing counter cipher with
  | nil =>
    cases h
    simp at hb
  | cons a text ih =>
    rw [List.mem_cons, not_or] at heof
    rw [loop_cons hk (by decide), if_neg (Ne.symm heof.1)] at h
    obtain ⟨-, rest, hrest, rfl⟩ := h
    rw [shifted, List.mem_cons]
    rcases List.mem_cons.1 hb with rfl | hb
    · exact .inl (.inl rfl)
    rcases List.mem_append.1 hb with hb | hb
    · refine .inr ?_
      split at hb
      · exact List.mem_singleton.1 hb
      · simp at hb
    · exact (ih heof.2 hrest hb).imp .inr id

/-! ## A line -/

/-- What is written for a piece of a line. -/
def turned (enc : Int) (key : List UInt8) : Nat → List UInt8 → List UInt8
  | _, [] => []
  | counter, a :: xs => turn enc key counter a :: turned enc key (counter + 1) xs

variable {xs w : List UInt8}

@[simp] theorem turned_length : (turned enc key counter xs).length = xs.length := by
  induction xs generalizing counter with
  | nil => rfl
  | cons a xs ih => rw [turned, List.length_cons, List.length_cons, ih]

theorem turned_sub_add : turned (-1) key counter (turned 1 key counter xs) = xs := by
  induction xs generalizing counter with
  | nil => rfl
  | cons a xs ih => rw [turned, turned, ih, turn, turn, if_neg (by decide), if_pos rfl, UInt8.add_sub_cancel]

theorem shifted_append (key : List UInt8) (counter : Nat) (hline : 10 ∉ xs) (w : List UInt8) :
    shifted key counter (xs ++ w) = turned 1 key counter xs ++ shifted key (counter + xs.length) w := by
  induction xs generalizing counter with
  | nil => rfl
  | cons a xs ih =>
    rw [List.mem_cons, not_or] at hline
    rw [List.cons_append, shifted, if_neg (Ne.symm hline.1), ih _ hline.2, turned, turn, if_pos rfl, List.length_cons,
      Nat.add_assoc, Nat.add_comm 1, List.cons_append]

theorem shifted_line (key : List UInt8) (hline : 10 ∉ text) : shifted key 0 text = turned 1 key 0 text := by
  have h := shifted_append key 0 hline []
  rwa [List.append_nil, shifted, List.append_nil] at h

theorem shifted_length : (shifted key counter text).length = text.length := by
  induction text generalizing counter with
  | nil => rfl
  | cons a text ih => rw [shifted, List.length_cons, List.length_cons, ih]

/-- A piece of a line is turned character by character, and the counter stays an `int`. -/
theorem loop_line (hk : key ≠ []) (henc : enc ≠ 0) (heof : 255 ∉ xs) (hline : 10 ∉ xs) (hc : counter < 2 ^ 31) :
    loop (keyed enc key) (xs ++ w) counter = .ok out ↔ counter + xs.length < 2 ^ 31 ∧
      ∃ rest, loop (keyed enc key) w (counter + xs.length) = .ok rest ∧ out = turned enc key counter xs ++ rest := by
  induction xs generalizing counter out with
  | nil =>
    constructor
    · intro h
      exact ⟨hc, out, h, rfl⟩
    · rintro ⟨-, rest, hrest, rfl⟩
      exact hrest
  | cons a xs ih =>
    rw [List.mem_cons, not_or] at heof hline
    rw [List.cons_append, loop_cons hk henc, if_neg (Ne.symm heof.1), if_neg (Ne.symm hline.1),
      if_neg (Ne.symm hline.1),
      List.length_cons, Nat.add_comm xs.length, ← Nat.add_assoc]
    constructor
    · rintro ⟨hover, rest, hrest, rfl⟩
      obtain ⟨hlen, rest', hrest', rfl⟩ := (ih heof.2 hline.2 hover).1 hrest
      exact ⟨hlen, rest', hrest', by rw [turned, List.nil_append, List.cons_append]⟩
    · rintro ⟨hlen, rest, hrest, rfl⟩
      have hover : counter + 1 < 2 ^ 31 := by omega
      refine ⟨hover, _, (ih heof.2 hline.2 hover).2 ⟨hlen, rest, hrest, rfl⟩, ?_⟩
      rw [turned, List.nil_append, List.cons_append]

/-! ## The result -/

theorem not_mem_of_lt {b : UInt8} (htext : ∀ b ∈ text, b < 128) (hb : ¬ b < 128) : b ∉ text :=
  fun hmem => hb (htext b hmem)

theorem undone_of_clean (hk : key ≠ []) (htext : ∀ b ∈ text, b < 128) (h : Clean key text) : Undone key text := by
  intro name
  have hshort : 0 + text.length < 2 ^ 31 := by simpa using h.short
  have hshift := shifted_line key h.line
  have hnewline := h.newline
  have heof := h.eof
  rw [hshift] at hnewline heof
  refine ⟨turned 1 key 0 text, ?_, ?_⟩
  · rw [main, configure_add hk, ← List.append_nil text,
      loop_line hk (by decide) (not_mem_of_lt htext (by decide)) h.line (by decide)]
    exact ⟨hshort, [], rfl, by simp⟩
  · rw [main, configure_sub hk, ← List.append_nil (turned 1 key 0 text),
      loop_line hk (by decide) heof hnewline (by decide), turned_length, turned_sub_add]
    exact ⟨hshort, [], rfl, by simp⟩

/-- Where no shifted character is `EOF`, what is written twice over is never taken back. -/
theorem clean_of_undone (hk : key ≠ []) (htext : ∀ b ∈ text, b < 128) (heof : 255 ∉ shifted key 0 text)
    (h : Undone key text) : Clean key text := by
  obtain ⟨cipher, hadd, hsub⟩ := h []
  rw [main, configure_add hk] at hadd
  rw [main, configure_sub hk] at hsub
  have htext' : 255 ∉ text := not_mem_of_lt htext (by decide)
  have hcipher : 255 ∉ cipher := fun hmem => by
    rcases mem_cipher hk htext' hadd hmem with hmem | hmem
    · exact heof hmem
    · exact absurd hmem (by decide)
  have hlen := loop_length hk (by decide) htext' hadd
  have hlen' := loop_length hk (by decide) hcipher hsub
  have hline : 10 ∉ text := List.count_eq_zero.1 (by omega)
  have hshift := shifted_line key hline
  rw [← List.append_nil text, loop_line hk (by decide) htext' hline (by decide)] at hadd
  obtain ⟨hshort, rest, hrest, rfl⟩ := hadd
  cases hrest
  refine ⟨hline, ?_, heof, by simpa using hshort⟩
  rw [hshift, ← List.append_nil (turned 1 key 0 text)]
  exact List.count_eq_zero.1 (by omega)

/-- Where one is, and nothing went wrong before it, the end of the text is missing. -/
theorem cut_of_undone (hk : key ≠ []) (htext : ∀ b ∈ text, b < 128) (heof : 255 ∈ shifted key 0 text)
    (h : Undone key text) : Cut key text := by
  obtain ⟨s, t, hst, hs⟩ := List.eq_append_cons_of_mem heof
  have hlen := congrArg List.length hst
  rw [shifted_length, List.length_append, List.length_cons] at hlen
  obtain ⟨a, v, hv⟩ := List.exists_cons_of_length_pos (show 0 < (text.drop s.length).length by
    rw [List.length_drop]
    omega)
  have htake : (text.take s.length).length = s.length := by
    rw [List.length_take]
    omega
  have hsplit : text = text.take s.length ++ a :: v := by rw [← hv, List.take_append_drop]
  generalize hu : text.take s.length = u at hsplit htake
  have hget : (shifted key 0 text)[u.length]? = some 255 := by rw [hst, htake]; simp
  refine ⟨u, a, v, hsplit, hget, ?_⟩
  by_contra hno
  rw [not_or] at hno
  obtain ⟨hline, hnewline⟩ := hno
  have hshift := shifted_line key hline
  have hall := shifted_append key 0 hline (a :: v)
  rw [← hsplit, hst, shifted] at hall
  obtain ⟨hs', hrest⟩ := List.append_inj hall (by rw [turned_length, htake])
  obtain ⟨ha, -⟩ := List.cons.inj hrest
  rw [hshift, ← hs'] at hnewline
  -- both runs up to the character that is `EOF`
  obtain ⟨cipher, hadd, hsub⟩ := h []
  have htext' : 255 ∉ text := not_mem_of_lt htext (by decide)
  rw [hsplit, List.mem_append, List.mem_cons, not_or, not_or] at htext'
  rw [main, configure_add hk, hsplit, loop_line hk (by decide) htext'.1 hline (by decide)] at hadd
  obtain ⟨-, rest, hrest, rfl⟩ := hadd
  rw [loop_cons hk (by decide), if_neg (Ne.symm htext'.2.1)] at hrest
  obtain ⟨-, rest, -, rfl⟩ := hrest
  rw [main, configure_sub hk, ← hs', turn, if_pos rfl, ← ha, loop_line hk (by decide) hs hnewline (by decide)] at hsub
  obtain ⟨-, rest, hrest, hout⟩ := hsub
  rw [loop_cons hk (by decide), if_pos rfl] at hrest
  have := congrArg List.length hout
  rw [hrest, List.append_nil, turned_length] at this
  omega

theorem due_lt (hkey : ∀ k ∈ key, k < 128) (counter : Nat) : due key counter < 128 := by
  rw [due, List.getD_eq_getElem?_getD]
  cases h : key[counter % key.length]? with
  | none => decide
  | some k => exact hkey k (List.mem_of_getElem? h)

theorem eof_not_mem_shifted (hkey : ∀ k ∈ key, k < 128) (htext : ∀ b ∈ text, b < 128) :
    255 ∉ shifted key counter text := by
  induction text generalizing counter with
  | nil => simp [shifted]
  | cons a text ih =>
    rw [List.forall_mem_cons] at htext
    rw [shifted, List.mem_cons, not_or]
    refine ⟨fun h => ?_, ih htext.2⟩
    have ha := UInt8.lt_iff_toNat_lt.1 htext.1
    have hk := UInt8.lt_iff_toNat_lt.1 (due_lt hkey counter)
    have hsum := congrArg UInt8.toNat h
    rw [UInt8.toNat_add] at hsum
    simp only [UInt8.reduceToNat] at ha hk hsum
    omega

/-- With a key of characters below 128 no shifted character is `EOF`. -/
theorem undone_iff_clean_of_lt (hk : key ≠ []) (hkey : ∀ k ∈ key, k < 128) (htext : ∀ b ∈ text, b < 128) :
    Undone key text ↔ Clean key text :=
  ⟨clean_of_undone hk htext (eof_not_mem_shifted hkey htext), undone_of_clean hk htext⟩

/-- A clean text is given back, and a text that is not is not, unless `-e` stops at a shifted character behind a
newline. -/
theorem undone_iff_clean (key text : List UInt8) (hk : key ≠ []) (htext : ∀ b ∈ text, b < 128) :
    (Clean key text → Undone key text) ∧ (¬ Cut key text → (Undone key text ↔ Clean key text)) := by
  refine ⟨undone_of_clean hk htext, fun hcut => ⟨fun h => ?_, undone_of_clean hk htext⟩⟩
  by_cases heof : 255 ∈ shifted key 0 text
  · exact absurd (cut_of_undone hk htext heof h) hcut
  · exact clean_of_undone hk htext heof h

/-- A newline comes back with two characters behind it. -/
theorem newline_not_undone : main [[], [43, 101, 107]] [10] = .ok [117, 10] ∧
    main [[], [45, 101, 107]] [117, 10] = .ok [10, 159, 10] ∧ ¬ Undone [107] [10] := by
  have hadd : main [[], [43, 101, 107]] [10] = .ok [117, 10] := by decide
  have hsub : main [[], [45, 101, 107]] [117, 10] = .ok [10, 159, 10] := by decide
  refine ⟨hadd, hsub, fun h => ?_⟩
  obtain ⟨cipher, hc, ht⟩ := h []
  obtain rfl := Except.ok.inj (hc.symm.trans hadd)
  exact absurd (ht.symm.trans hsub) (by decide)

-- a text that comes back by chance: the newline is written back for the shifted one, then `EOF`
example : main [[], [43, 101, 169, 245]] [97, 10] = .ok [10, 255, 10] ∧
    main [[], [45, 101, 169, 245]] [10, 255, 10] = .ok [97, 10] := by
  decide

/-- The line "hello" comes back, with a newline behind it it does not. -/
theorem hello_undone : Undone [107, 101, 121] [104, 101, 108, 108, 111] ∧
    ¬ Undone [107, 101, 121] [104, 101, 108, 108, 111, 10] := by
  have hclean : Clean [107, 101, 121] [104, 101, 108, 108, 111] := ⟨by decide, by decide, by decide, by decide⟩
  have hcut : ¬ Cut [107, 101, 121] [104, 101, 108, 108, 111, 10] := by
    rintro ⟨u, a, v, -, hget, -⟩
    exact absurd (List.mem_of_getElem? hget) (by decide)
  refine ⟨(undone_iff_clean _ _ (by decide) (by simp)).1 hclean, fun h => ?_⟩
  exact absurd (((undone_iff_clean _ _ (by decide) (by simp)).2 hcut).1 h).line (by decide)

end Encryptor
