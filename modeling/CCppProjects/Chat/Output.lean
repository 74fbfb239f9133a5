import CCppProjects.Chat.Input
import Mathlib.Data.List.TakeWhile
import Mathlib.Data.Nat.Digits.Lemmas
/-
# Writing the client's requests (Output.cpp)

| here | there |
|---|---|
| `encode` | `output::encode` (Output.cpp:28-140), without the flags `flag` and `flag2`, which only end `output::run` |
| `before`, `after`, `substr`, `at0` | `substr(0, i)`, `substr(i + 1)`, `substr(pos)` and `operator[]` of `std::string` |
| `stoi` | `std::stoi` |
| `shortToBytes`, `shortToByte` | Output.cpp:141-150, on the value of the `short` |
| `Command` | a well-formed request; `line` is what the user types for it, `bytes` what the server gets |

`none` is an exception, or a character read past the end of the string.
-/
namespace Chat

/-! ## Strings -/

def ascii (cs : List Char) : Bytes := cs.map fun c => UInt8.ofNat c.toNat

/-- `str[i]`: the terminating NUL may be read too. -/
def at0 (str : Bytes) (i : Nat) : Option UInt8 :=
  if i ≤ str.length then some (str.getD i 0) else none

/-- `str.substr(pos)`. -/
def substr (str : Bytes) (pos : Nat) : Option Bytes :=
  if pos ≤ str.length then some (str.drop pos) else none

/-- `str.find(' ')`; `none` is `npos`. -/
def findSpace (str : Bytes) : Option Nat := str.findIdx? (· == 32)

/-- `str.substr(0, i)`. -/
def before (str : Bytes) : Option Nat → Bytes
  | some i => str.take i
  | none => str

/-- `str.substr(i + 1)`; `npos + 1` is 0. -/
def after (str : Bytes) : Option Nat → Bytes
  | some i => str.drop (i + 1)
  | none => str

def isspace (b : UInt8) : Bool := b == 32 || (9 ≤ b && b ≤ 13)

def isdigit (b : UInt8) : Bool := 48 ≤ b && b ≤ 57

/-- The value of decimal digits. -/
def value (ds : Bytes) : Nat := ds.foldl (fun v d => 10 * v + (d.toNat - 48)) 0

/-- The sign in front of a number and what follows it. -/
def sign (str : Bytes) : Int × Bytes :=
  match str with
  | [] => (1, [])
  | b :: ds => if b = 45 then (-1, ds) else if b = 43 then (1, ds) else (1, str)

/-- `std::stoi`: blanks, a sign, digits; `none` without digits or outside an `int`. -/
def stoi (str : Bytes) : Option Int :=
  let signed := sign (str.dropWhile isspace)
  let ds := signed.2.takeWhile isdigit
  let v := signed.1 * value ds
  if ds.isEmpty || decide (v < -2 ^ 31 ∨ 2 ^ 31 ≤ v) then none else some v

/-- The conversion of an `int` to a `short`. -/
def toShort (v : Int) : Int := v.bmod (2 ^ 16)

/-- `(num >> 8) & 0xFF` and `num & 0xFF`. -/
def shortToBytes (num : Int) : Bytes := [UInt8.ofNat (num / 256 % 256).toNat, UInt8.ofNat (num % 256).toNat]

def shortToByte (num : Int) : Bytes := [UInt8.ofNat (num % 256).toNat]

/-- A `char` as a number. -/
def charValue (b : UInt8) : Int := (b.toNat : Int).bmod 256

/-- `for` … `if(str[i]==' ') str[i]='\0'`. -/
def spacesToNul (str : Bytes) : Bytes := str.map fun b => if b = 32 then 0 else b

/-! ## output::encode -/

/-- The two words after REGISTER, LOGIN and PM. -/
def encodePair (num : Int) (str : Bytes) : Bytes :=
  let i := findSpace str
  shortToBytes num ++ before str i ++ [0] ++ after str i ++ [0]

/-- FOLLOW (Output.cpp:78-108): the flag's digit, the count, the names. -/
def encodeFollow (str : Bytes) : Option Bytes := do
  let str ← substr str 7
  let flag ← at0 str 0
  let ans := shortToBytes 4 ++ shortToByte (toShort (charValue flag - 48))
  let str ← substr str 2
  let ind := findSpace str
  let num ← stoi (before str ind)
  return ans ++ shortToBytes (toShort num) ++ spacesToNul (after str ind) ++ [0]

def encode (str : Bytes) : Option Bytes := do
  let c ← at0 str 0
  if c = 82 then                                   -- 'R'
    let str ← substr str 9
    return encodePair 1 str
  else if c = 76 then                              -- 'L'
    if (← at0 str 3) = 73 then                     -- 'I'
      let str ← substr str 6
      return encodePair 2 str
    else
      let _ ← substr str 6
      return shortToBytes 3
  else if c = 70 then encodeFollow str             -- 'F'
  else if c = 80 then                              -- 'P'
    if (← at0 str 1) = 79 then                     -- 'O'
      let str ← substr str 5
      return shortToBytes 5 ++ str ++ [0]
    else
      let str ← substr str 3
      return encodePair 6 str
  else if c = 85 then                              -- 'U'
    let _ ← substr str 8
    return shortToBytes 7
  else if c = 83 then                              -- 'S'
    let str ← substr str 5
    return shortToBytes 8 ++ str ++ [0]
  else return []

/-! ## Commands -/

/-- A word: neither NUL nor a space. -/
@[ext] structure Word where
  bytes : Bytes
  nonul : 0 ∉ bytes
  nospace : 32 ∉ bytes

inductive Command
  | register (user password : Word)
  | login (user password : Word)
  | logout
  | follow (flag : Bool) (names : List Word) (count : 1 ≤ names.length ∧ names.length ≤ 32767)
  | post (text : Str)
  | pm (user : Word) (text : Str)
  | userlist
  | stat (user : Word)

/-- A positive number as the user writes it. -/
def decimal (n : Nat) : Bytes := (Nat.digits 10 n).reverse.map fun d => UInt8.ofNat (48 + d)

def Command.line : Command → Bytes
  | .register user password => ascii [ 'R', 'E', 'G', 'I', 'S', 'T', 'E', 'R', ' '] ++
      user.bytes ++ [32] ++ password.bytes
  | .login user password => ascii [ 'L', 'O', 'G', 'I', 'N', ' '] ++ user.bytes ++ [32] ++ password.bytes
  | .logout => ascii [ 'L', 'O', 'G', 'O', 'U', 'T']
  | .follow flag names _ =>
    ascii [ 'F', 'O', 'L', 'L', 'O', 'W', ' ', if flag then '1' else '0', ' '] ++ decimal names.length ++
      names.flatMap fun w => 32 :: w.bytes
  | .post text => ascii [ 'P', 'O', 'S', 'T', ' '] ++ text.bytes
  | .pm user text => ascii [ 'P', 'M', ' '] ++ user.bytes ++ [32] ++ text.bytes
  | .userlist => ascii [ 'U', 'S', 'E', 'R', 'L', 'I', 'S', 'T']
  | .stat user => ascii [ 'S', 'T', 'A', 'T', ' '] ++ user.bytes

def Command.bytes : Command → Bytes
  | .register user password => [0, 1] ++ user.bytes ++ [0] ++ password.bytes ++ [0]
  | .login user password => [0, 2] ++ user.bytes ++ [0] ++ password.bytes ++ [0]
  | .logout => [0, 3]
  | .follow flag names _ =>
    [0, 4, if flag then 1 else 0] ++ shortToBytes names.length ++ names.flatMap fun w => w.bytes ++ [0]
  | .post text => [0, 5] ++ text.bytes ++ [0]
  | .pm user text => [0, 6] ++ user.bytes ++ [0] ++ text.bytes ++ [0]
  | .userlist => [0, 7]
  | .stat user => [0, 8] ++ user.bytes ++ [0]

/-! ## Words -/

theorem findSpace_append {u r : Bytes} (hu : 32 ∉ u) : findSpace (u ++ 32 :: r) = some u.length := by
  unfold findSpace
  rw [List.findIdx?_append, List.findIdx?_eq_none_iff.2, List.findIdx?_cons]
  · simp
  · intro b hb
    simp only [beq_eq_false_iff_ne]
    rintro rfl
    exact hu hb

theorem encodePair_words (num : Int) {u r : Bytes} (hu : 32 ∉ u) :
    encodePair num (u ++ 32 :: r) = shortToBytes num ++ u ++ [0] ++ r ++ [0] := by
  simp [encodePair, findSpace_append hu, before, after]

/-! ## The count -/

theorem digit_toNat {d : Nat} (h : d < 10) : (UInt8.ofNat (48 + d)).toNat = 48 + d := by
  rw [UInt8.toNat_ofNat']
  omega

theorem decimal_isdigit (n : Nat) : ∀ b ∈ decimal n, isdigit b = true := by
  intro b hb
  obtain ⟨d, hd, rfl⟩ := List.mem_map.1 hb
  have h10 := Nat.digits_lt_base (b := 10) (by decide) (List.mem_reverse.1 hd)
  have hval := digit_toNat h10
  simp only [isdigit, Bool.and_eq_true, decide_eq_true_eq, UInt8.le_iff_toNat_le, hval]
  exact ⟨by simp, by change 48 + d ≤ 57; omega⟩

theorem value_decimal (n : Nat) : value (decimal n) = n := by
  have hfold : ∀ ds : List Nat, (∀ d ∈ ds, d < 10) →
      (ds.reverse.map fun d => UInt8.ofNat (48 + d)).foldl (fun v d => 10 * v + (d.toNat - 48)) 0 =
      Nat.ofDigits 10 ds := by
    intro ds hds
    induction ds with
    | nil => rfl
    | cons d ds ih =>
      have hd := digit_toNat (hds d List.mem_cons_self)
      rw [List.reverse_cons, List.map_append, List.foldl_append, ih fun e he => hds e (List.mem_cons_of_mem _ he)]
      simp only [List.map_cons, List.map_nil, List.foldl_cons, List.foldl_nil, hd, Nat.ofDigits_cons]
      omega
  unfold value decimal
  rw [hfold _ fun d hd => Nat.digits_lt_base (by decide) hd, Nat.ofDigits_digits]

theorem decimal_ne_nil {n : Nat} (h : 0 < n) : decimal n ≠ [] := by
  simp [decimal, Nat.digits_ne_nil_iff_ne_zero, Nat.pos_iff_ne_zero.1 h]

theorem space_not_digit {n : Nat} : (32 : UInt8) ∉ decimal n := by
  intro h
  have := decimal_isdigit n 32 h
  simp [isdigit] at this

theorem digit_first {b : UInt8} (h : isdigit b = true) : isspace b = false ∧ b ≠ 45 ∧ b ≠ 43 := by
  refine ⟨?_, ?_, ?_⟩
  · simp only [isdigit, isspace, Bool.and_eq_true, decide_eq_true_eq, Bool.or_eq_false_iff, Bool.and_eq_false_iff,
      decide_eq_false_iff_not, beq_eq_false_iff_ne, UInt8.le_iff_toNat_le] at *
    have h48 : (48 : UInt8).toNat = 48 := rfl
    have h13 : (13 : UInt8).toNat = 13 := rfl
    refine ⟨?_, .inr (by omega)⟩
    rintro rfl
    have h32 : (32 : UInt8).toNat = 32 := rfl
    omega
  · rintro rfl
    cases h
  · rintro rfl
    cases h

/-- A count is read back as it was written. -/
theorem stoi_decimal {n : Nat} (h0 : 0 < n) (h : n < 2 ^ 31) : stoi (decimal n) = some (n : Int) := by
  obtain ⟨b, ds, hb⟩ := List.exists_cons_of_ne_nil (decimal_ne_nil h0)
  have hdig := decimal_isdigit n
  have hval := value_decimal n
  rw [hb] at hdig hval ⊢
  obtain ⟨hspace, hminus, hplus⟩ := digit_first (hdig b List.mem_cons_self)
  have htake : (b :: ds).takeWhile isdigit = b :: ds := List.takeWhile_eq_self_iff.2 hdig
  have hsign : sign ((b :: ds).dropWhile isspace) = (1, b :: ds) := by
    rw [List.dropWhile_cons_of_neg (by simp [hspace]), sign, if_neg hminus, if_neg hplus]
  unfold stoi
  simp only [hsign, htake, hval]
  rw [if_neg]
  · simp
  · simp only [List.isEmpty_cons, Bool.false_or, decide_eq_true_eq]
    omega

/-! ## What encode writes -/

theorem spacesToNul_append (a b : Bytes) : spacesToNul (a ++ b) = spacesToNul a ++ spacesToNul b := List.map_append

theorem spacesToNul_word (w : Word) : spacesToNul w.bytes = w.bytes := by
  have hid : ∀ b ∈ w.bytes, (if b = 32 then 0 else b) = b := by
    intro b hb
    rw [if_neg]
    rintro rfl
    exact w.nospace hb
  exact (List.map_congr_left hid).trans (List.map_id' _)

theorem spacesToNul_names (w : Word) (ws : List Word) :
    spacesToNul (w.bytes ++ ws.flatMap fun w => 32 :: w.bytes) ++ [0] = (w :: ws).flatMap fun w => w.bytes ++ [0] := by
  induction ws generalizing w with
  | nil => simp [spacesToNul_word]
  | cons v ws ih =>
    rw [spacesToNul_append, spacesToNul_word, List.flatMap_cons, List.flatMap_cons, ← ih v, List.cons_append]
    simp [spacesToNul]

theorem substr_append (a b : Bytes) : substr (a ++ b) a.length = some b := by
  simp [substr]

theorem at0_append {a b : Bytes} {i : Nat} {c : UInt8} (h : a[i]? = some c) : at0 (a ++ b) i = some c := by
  have hlt : i < a.length := (List.getElem?_eq_some_iff.1 h).1
  unfold at0
  rw [if_pos (by simp only [List.length_append]; omega), List.getD_eq_getElem?_getD, List.getElem?_append_left hlt, h]
  rfl

/-- A FOLLOW line: flag, count and names, each name with its NUL. -/
theorem encodeFollow_line (flag : Bool) (w : Word) (ws : List Word) {n : Nat} (h0 : 0 < n) (hn : n ≤ 32767) :
    encodeFollow (ascii [ 'F', 'O', 'L', 'L', 'O', 'W', ' '] ++
        ([if flag then 49 else 48, 32] ++ (decimal n ++ 32 :: (w.bytes ++ ws.flatMap fun w => 32 :: w.bytes)))) =
      some ([0, 4, if flag then 1 else 0] ++ shortToBytes n ++ (w :: ws).flatMap fun w => w.bytes ++ [0]) := by
  have hint : n < 2 ^ 31 := hn.trans_lt (by decide)
  have hshort : toShort (n : Int) = n := by
    unfold toShort
    rw [Int.bmod_eq_of_le] <;> omega
  have hflag : shortToByte (toShort (charValue (if flag then 49 else 48) - 48)) = [if flag then 1 else 0] := by
    cases flag <;> decide
  have hbefore : ∀ a b : Bytes, before (a ++ b) (some a.length) = a := fun a b => List.take_left
  have hafter : ∀ a b : Bytes, after (a ++ 32 :: b) (some a.length) = b := fun a b => by simp [after]
  unfold encodeFollow
  rw [show substr _ 7 = _ from substr_append (ascii [ 'F', 'O', 'L', 'L', 'O', 'W', ' ']) _]
  simp only [Option.bind_eq_bind, Option.bind_some]
  rw [at0_append (i := 0) (c := if flag then 49 else 48) rfl]
  simp only [Option.bind_some]
  rw [show substr _ 2 = _ from substr_append [if flag then 49 else 48, 32] _]
  simp only [Option.bind_some, findSpace_append space_not_digit, hbefore, hafter,
    stoi_decimal h0 hint, hshort, hflag, Option.pure_def]
  rw [List.append_assoc _ (spacesToNul _), spacesToNul_names]
  rfl

/-- **The line is sent as its command.** -/
theorem encode_line (c : Command) : encode c.line = some c.bytes := by
  cases c with
  | register user password =>
    have h : Command.line (.register user password) =
      ascii [ 'R', 'E', 'G', 'I', 'S', 'T', 'E', 'R', ' '] ++
      (user.bytes ++ 32 :: password.bytes) := by simp [Command.line]
    unfold encode
    rw [h, at0_append (c := 82) rfl]
    simp only [Option.bind_eq_bind, Option.bind_some, if_true]
    rw [show substr _ 9 = _ from substr_append (ascii [ 'R', 'E', 'G', 'I', 'S', 'T', 'E', 'R', ' ']) _]
    simp only [Option.bind_some, encodePair_words _ user.nospace]
    rfl
  | login user password =>
    have h : Command.line (.login user password) =
      ascii [ 'L', 'O', 'G', 'I', 'N', ' '] ++ (user.bytes ++ 32 :: password.bytes) := by simp [Command.line]
    unfold encode
    rw [h, at0_append (i := 0) (c := 76) rfl, at0_append (i := 3) (c := 73) rfl]
    simp only [Option.bind_eq_bind, Option.bind_some, if_true]
    rw [show substr _ 6 = _ from substr_append (ascii [ 'L', 'O', 'G', 'I', 'N', ' ']) _]
    simp only [Option.bind_some, encodePair_words _ user.nospace]
    rfl
  | logout => rfl
  | follow flag names count =>
    obtain ⟨w, ws, rfl⟩ := List.exists_cons_of_length_pos count.1
    have h : Command.line (.follow flag (w :: ws) count) = ascii [ 'F', 'O', 'L', 'L', 'O', 'W', ' '] ++
        ([if flag then 49 else 48, 32] ++
          (decimal (w :: ws).length ++ 32 :: (w.bytes ++ ws.flatMap fun w => 32 :: w.bytes))) := by
      cases flag <;> simp [Command.line, ascii]
    unfold encode
    rw [h, at0_append (c := 70) rfl]
    simp only [Option.bind_eq_bind, Option.bind_some]
    exact encodeFollow_line flag w ws count.1 count.2
  | post text =>
    have h : Command.line (.post text) = ascii [ 'P', 'O', 'S', 'T', ' '] ++ text.bytes := rfl
    unfold encode
    rw [h, at0_append (i := 0) (c := 80) rfl, at0_append (i := 1) (c := 79) rfl]
    simp only [Option.bind_eq_bind, Option.bind_some, if_true]
    rw [show substr _ 5 = _ from substr_append (ascii [ 'P', 'O', 'S', 'T', ' ']) _]
    rfl
  | pm user text =>
    have h : Command.line (.pm user text) = ascii [ 'P', 'M', ' '] ++ (user.bytes ++ 32 :: text.bytes) := by
      simp [Command.line]
    unfold encode
    rw [h, at0_append (i := 0) (c := 80) rfl, at0_append (i := 1) (c := 77) rfl]
    simp only [Option.bind_eq_bind, Option.bind_some]
    rw [show substr _ 3 = _ from substr_append (ascii [ 'P', 'M', ' ']) _]
    simp only [Option.bind_some, encodePair_words _ user.nospace]
    rfl
  | userlist => rfl
  | stat user =>
    have h : Command.line (.stat user) = ascii [ 'S', 'T', 'A', 'T', ' '] ++ user.bytes := rfl
    unfold encode
    rw [h, at0_append (c := 83) rfl]
    simp only [Option.bind_eq_bind, Option.bind_some]
    rw [show substr _ 5 = _ from substr_append (ascii [ 'S', 'T', 'A', 'T', ' ']) _]
    rfl

/-! ## One reading -/

theorem shortToBytes_inj {m n : Nat} (hm : m ≤ 32767) (hn : n ≤ 32767)
    (h : shortToBytes m = shortToBytes n) : m = n := by
  obtain ⟨h1, h2⟩ : _ ∧ _ := by simpa only [shortToBytes, List.cons.injEq, and_true] using h
  have h1 := congrArg UInt8.toNat h1
  have h2 := congrArg UInt8.toNat h2
  simp only [UInt8.toNat_ofNat'] at h1 h2
  omega

theorem names_inj {ns ms : List Word} {s t : Bytes} (hlen : ns.length = ms.length)
    (h : (ns.flatMap fun w => w.bytes ++ [0]) ++ s = (ms.flatMap fun w => w.bytes ++ [0]) ++ t) : ns = ms ∧ s = t := by
  have hz : ∀ ws : List Word, (ws.flatMap fun w => w.bytes ++ [0]) = (ws.map Word.bytes).flatMap fun b => b ++ [0] := by
    intro ws
    rw [List.flatMap_map]
  have hnul : ∀ ws : List Word, ∀ b ∈ ws.map Word.bytes, (0 : UInt8) ∉ b := by
    rintro ws b hb
    obtain ⟨w, -, rfl⟩ := List.mem_map.1 hb
    exact w.nonul
  rw [hz, hz] at h
  obtain ⟨hmap, hst⟩ := Stream.terminated_list_inj (by simpa using hlen) (hnul ns) (hnul ms) h
  exact ⟨List.map_injective_iff.2 (fun a b hab => Word.ext hab) hmap, hst⟩

/-- A command can be split off the front of what the server gets. -/
theorem bytes_selfDelimiting : Stream.SelfDelimiting Command.bytes := by
  intro c d s t h
  cases c with
  | register user password =>
    cases d with
    | register user' password' =>
      simp only [Command.bytes, List.append_assoc, List.cons_append, List.nil_append, List.cons.injEq, true_and] at h
      obtain ⟨hu, h⟩ := Stream.terminated_inj user.nonul user'.nonul h
      obtain ⟨hp, h⟩ := Stream.terminated_inj password.nonul password'.nonul h
      exact ⟨by rw [Word.ext hu, Word.ext hp], h⟩
    | _ => simp [Command.bytes] at h
  | login user password =>
    cases d with
    | login user' password' =>
      simp only [Command.bytes, List.append_assoc, List.cons_append, List.nil_append, List.cons.injEq, true_and] at h
      obtain ⟨hu, h⟩ := Stream.terminated_inj user.nonul user'.nonul h
      obtain ⟨hp, h⟩ := Stream.terminated_inj password.nonul password'.nonul h
      exact ⟨by rw [Word.ext hu, Word.ext hp], h⟩
    | _ => simp [Command.bytes] at h
  | logout =>
    cases d with
    | logout =>
      simp only [Command.bytes, List.cons_append, List.nil_append, List.cons.injEq, true_and] at h
      exact ⟨rfl, h⟩
    | _ => simp [Command.bytes] at h
  | follow flag names count =>
    cases d with
    | follow flag' names' count' =>
      have hsplit : ∀ n : Int, ∃ a b, shortToBytes n = [a, b] := fun n => ⟨_, _, rfl⟩
      obtain ⟨a, b, hab⟩ := hsplit names.length
      obtain ⟨a', b', hab'⟩ := hsplit names'.length
      simp only [Command.bytes, hab, hab', List.cons_append, List.nil_append, List.cons.injEq, true_and] at h
      obtain ⟨hflag, rfl, rfl, h⟩ := h
      have hlen := shortToBytes_inj count.2 count'.2 (hab.trans hab'.symm)
      obtain ⟨rfl, hst⟩ := names_inj hlen h
      refine ⟨?_, hst⟩
      cases flag <;> cases flag' <;> first | rfl | simp at hflag
    | _ => simp [Command.bytes] at h
  | post text =>
    cases d with
    | post text' =>
      simp only [Command.bytes, List.append_assoc, List.cons_append, List.nil_append, List.cons.injEq, true_and] at h
      obtain ⟨ht, h⟩ := Stream.terminated_inj text.nonul text'.nonul h
      exact ⟨by rw [Str.ext ht], h⟩
    | _ => simp [Command.bytes] at h
  | pm user text =>
    cases d with
    | pm user' text' =>
      simp only [Command.bytes, List.append_assoc, List.cons_append, List.nil_append, List.cons.injEq, true_and] at h
      obtain ⟨hu, h⟩ := Stream.terminated_inj user.nonul user'.nonul h
      obtain ⟨ht, h⟩ := Stream.terminated_inj text.nonul text'.nonul h
      exact ⟨by rw [Word.ext hu, Str.ext ht], h⟩
    | _ => simp [Command.bytes] at h
  | userlist =>
    cases d with
    | userlist =>
      simp only [Command.bytes, List.cons_append, List.nil_append, List.cons.injEq, true_and] at h
      exact ⟨rfl, h⟩
    | _ => simp [Command.bytes] at h
  | stat user =>
    cases d with
    | stat user' =>
      simp only [Command.bytes, List.append_assoc, List.cons_append, List.nil_append, List.cons.injEq, true_and] at h
      obtain ⟨hu, h⟩ := Stream.terminated_inj user.nonul user'.nonul h
      exact ⟨by rw [Word.ext hu], h⟩
    | _ => simp [Command.bytes] at h

/-- What the server gets for a sequence of lines. -/
def send (lines : List Bytes) : Option Bytes := (lines.mapM encode).map List.flatten

theorem send_lines (cs : List Command) : send (cs.map Command.line) = some (cs.flatMap Command.bytes) := by
  have hmap : (cs.map Command.line).mapM encode = some (cs.map Command.bytes) := by
    induction cs with
    | nil => rfl
    | cons c cs ih => simp [List.mapM_cons, encode_line, ih]
  rw [send, hmap, List.flatMap_def]
  rfl

/-- **Requests are uniquely decodable**: every sequence of commands is sent, and no two sequences as the same
bytes. -/
theorem send_eq_iff (cs ds : List Command) :
    (send (cs.map Command.line)).isSome ∧ (send (cs.map Command.line) = send (ds.map Command.line) ↔ cs = ds) := by
  have hne : ∀ c : Command, c.bytes ≠ [] := fun c => by cases c <;> simp [Command.bytes]
  rw [send_lines, send_lines]
  refine ⟨rfl, fun h => ?_, fun h => by rw [h]⟩
  exact bytes_selfDelimiting.flatMap_inj hne (Option.some.inj h)

end Chat
