import CCppProjects.Chat.Output
import CCppProjects.Lib.Lines
/-
# What the client shows (input.cpp:34-140)

`decode` turns a message into the line that `Input::run` prints. `Message.text` says what the line is for each
message, and which messages can be told from their line (`decode_tells_iff`): of a notification the user is
cut off with the first `substr(i + 1)`, and of a list of names only the first one is kept.
-/
namespace Chat

/-! ## The decoder -/

/-- `std::to_string` of a `short`. -/
def toDecimal (num : Int16) : Bytes :=
  if num.toInt < 0 then 45 :: decimal num.toInt.natAbs
  else if num.toInt = 0 then [48]
  else decimal num.toInt.natAbs

/-- `answer.find('\0')`. -/
def findNul (str : Bytes) : Option Nat := str.findIdx? (· == 0)

/-- `str.substr(0, i + 1)`; `npos + 1` is 0. -/
def upTo (str : Bytes) : Option Nat → Bytes
  | some i => str.take (i + 1)
  | none => []

/-- `bytesToShort` of the first two characters. -/
def shortAt (answer : Bytes) : Option Int16 := do
  let b0 ← at0 answer 0
  let b1 ← at0 answer 1
  return bytesToShort b0 b1

/-- input.cpp:46-70, behind the opcode. -/
def decodeNotification (answer : Bytes) : Option Bytes := do
  let type ← at0 answer 0
  let answer ← substr answer 1
  let kind := if type = 0 then ascii [ 'P', 'M', ' '] else ascii [ 'p', 'u', 'b', 'l', 'i', 'c', ' ']
  let answer := after answer (findNul answer)
  let i := findNul answer
  return ascii [ 'N', 'O', 'T', 'I', 'F', 'I', 'C', 'A', 'I', 'O', 'N', ' '] ++ kind ++
    upTo answer i ++ [32] ++ after answer i

/-- input.cpp:72-127. -/
def decodeAck (answer : Bytes) : Option Bytes := do
  let num ← shortAt answer
  let decodedAns := ascii [ 'A', 'C', 'K', ' '] ++ toDecimal num ++ [32]
  if num == 8 then
    let answer ← substr answer 2
    let num ← shortAt answer
    let decodedAns := decodedAns ++ toDecimal num ++ [32]
    let answer ← substr answer 2
    let num ← shortAt answer
    let decodedAns := decodedAns ++ toDecimal num ++ [32]
    let answer ← substr answer 2
    let num ← shortAt answer
    return decodedAns ++ toDecimal num
  else if num == 7 || num == 4 then
    let answer ← substr answer 2
    let num ← shortAt answer
    let decodedAns := decodedAns ++ toDecimal num ++ [32]
    let answer ← substr answer 2
    return (decodedAns ++ before answer (findNul answer)).map fun b => if b = 0 then 32 else b
  else return decodedAns

/-- `Input::decode`; `none` is an exception or a character read past the end. -/
def decode (answer : Bytes) : Option Bytes := do
  let num ← shortAt answer
  let answer ← substr answer 2
  if num == 9 then decodeNotification answer
  else if num == 10 then decodeAck answer
  else if num == 11 then
    let num ← shortAt answer
    return ascii [ 'E', 'R', 'R', 'O', 'R', ' '] ++ toDecimal num
  else return []

/-! ## Numbers in decimal -/

theorem toDecimal_read (num : Int16) : (sign (toDecimal num)).1 * value (sign (toDecimal num)).2 = num.toInt := by
  unfold toDecimal
  split
  · rw [sign, if_pos rfl, value_decimal]
    omega
  · split
    · next h0 =>
      rw [h0]
      decide
    · next hneg h0 =>
      have hpos : 0 < num.toInt.natAbs := by omega
      obtain ⟨b, ds, hb⟩ := List.exists_cons_of_ne_nil (decimal_ne_nil hpos)
      obtain ⟨-, hminus, hplus⟩ :=
        digit_first (decimal_isdigit num.toInt.natAbs b (by rw [hb]; exact List.mem_cons_self))
      have hval := value_decimal num.toInt.natAbs
      rw [hb] at hval ⊢
      rw [sign, if_neg hminus, if_neg hplus, hval]
      omega

theorem toDecimal_inj {a b : Int16} (h : toDecimal a = toDecimal b) : a = b := by
  have ha := toDecimal_read a
  rw [h, toDecimal_read b] at ha
  exact (Int16.toInt_inj.1 ha).symm

/-- A number is a sign and digits. -/
theorem mem_toDecimal {num : Int16} {b : UInt8} (h : b ∈ toDecimal num) : b = 45 ∨ isdigit b = true := by
  unfold toDecimal at h
  split at h
  · exact (List.mem_cons.1 h).imp id (decimal_isdigit _ b)
  · split at h
    · rw [List.mem_singleton.1 h]
      exact .inr rfl
    · exact .inr (decimal_isdigit _ b h)

theorem space_not_mem (num : Int16) : (32 : UInt8) ∉ toDecimal num := fun h => by
  rcases mem_toDecimal h with h | h <;> cases h

theorem nul_not_mem (num : Int16) : (0 : UInt8) ∉ toDecimal num := fun h => by
  rcases mem_toDecimal h with h | h <;> cases h

/-- A number and what follows the blank behind it. -/
theorem toDecimal_blank_inj {a b : Int16} {r s : Bytes}
    (h : toDecimal a ++ 32 :: r = toDecimal b ++ 32 :: s) : a = b ∧ r = s := by
  obtain ⟨hab, hrs⟩ := Lines.append_inj (space_not_mem a) (space_not_mem b) h
  exact ⟨toDecimal_inj hab, hrs⟩

theorem bytesToShort_toNat (b0 b1 : UInt8) : (bytesToShort b0 b1).toUInt16.toNat = b0.toNat * 256 + b1.toNat := by
  have h0 := b0.toNat_lt
  have h1 := b1.toNat_lt
  have hshift : (b0.toUInt16 <<< 8).toNat = b0.toNat * 256 := by
    rw [UInt16.toNat_shiftLeft, UInt8.toNat_toUInt16, Nat.shiftLeft_eq, show (8 : UInt16).toNat % 16 = 8 from rfl]
    exact Nat.mod_eq_of_lt (by omega)
  unfold bytesToShort
  rw [Int16.toUInt16_add, UInt16.toUInt16_toInt16, UInt16.toUInt16_toInt16, UInt16.toNat_add,
    hshift, UInt8.toNat_toUInt16]
  omega

/-- A count below 2^16 is the `short` that stands for it, read without a sign. -/
theorem count_inj {n m : Nat} (hn : n < 2 ^ 16) (hm : m < 2 ^ 16)
    (h : bytesToShort (UInt8.ofNat (n / 256)) (UInt8.ofNat n) =
    bytesToShort (UInt8.ofNat (m / 256)) (UInt8.ofNat m)) : n = m := by
  have h := congrArg (fun x : Int16 => x.toUInt16.toNat) h
  simp only [bytesToShort_toNat, UInt8.toNat_ofNat'] at h
  omega

/-! ## The line of a message -/

theorem at0_zero (b : UInt8) (r : Bytes) : at0 (b :: r) 0 = some b := rfl

theorem shortAt_cons (b0 b1 : UInt8) (r : Bytes) : shortAt (b0 :: b1 :: r) = some (bytesToShort b0 b1) := by
  cases r <;> rfl

theorem substr_cons2 (b0 b1 : UInt8) (r : Bytes) : substr (b0 :: b1 :: r) 2 = some r := by
  simp [substr]

theorem findNul_z (s : Str) (r : Bytes) : findNul (s.z ++ r) = some s.bytes.length := by
  unfold findNul Str.z
  rw [List.append_assoc, List.findIdx?_append, List.findIdx?_eq_none_iff.2, List.singleton_append, List.findIdx?_cons]
  · simp
  · intro b hb
    rw [beq_eq_false_iff_ne]
    rintro rfl
    exact s.nonul hb

/-- The text in front of the numbers of an answer. -/
def ackText (opcode : Int16) (rest : Bytes) : Bytes := ascii [ 'A', 'C', 'K', ' '] ++ (toDecimal opcode ++ 32 :: rest)

def Message.text : Message → Bytes
  | .notification type _ content =>
    ascii [ 'N', 'O', 'T', 'I', 'F', 'I', 'C', 'A', 'I', 'O', 'N', ' '] ++
      ((if type = 0 then ascii [ 'P', 'M', ' '] else ascii [ 'p', 'u', 'b', 'l', 'i', 'c', ' ']) ++ (content.z ++ [32]))
  | .error b2 b3 => ascii [ 'E', 'R', 'R', 'O', 'R', ' '] ++ toDecimal (bytesToShort b2 b3)
  | .ack b2 b3 _ => ackText (bytesToShort b2 b3) []
  | .stat b4 b5 b6 b7 b8 b9 =>
    ackText 8 (toDecimal (bytesToShort b4 b5) ++ 32 ::
      (toDecimal (bytesToShort b6 b7) ++ 32 :: toDecimal (bytesToShort b8 b9)))
  | .listing op names _ =>
    ackText (bytesToShort 0 op.opcode)
      (toDecimal (bytesToShort (UInt8.ofNat (names.length / 256)) (UInt8.ofNat names.length)) ++
      32 :: (names.headD ⟨[], by decide⟩).bytes)

theorem decode_notification (type : UInt8) (user content : Str) :
    decode (Message.notification type user content).bytes = some (Message.notification type user content).text := by
  have h1 : after (user.z ++ content.z) (findNul (user.z ++ content.z)) = content.z := by
    rw [findNul_z]
    simp [after, Str.z]
  have h2 : findNul content.z = some content.bytes.length := by simpa using findNul_z content []
  have h3 : upTo content.z (some content.bytes.length) = content.z := List.take_of_length_le (by simp [Str.z])
  have h4 : after content.z (some content.bytes.length) = [] := List.drop_eq_nil_of_le (by simp [Str.z])
  have h5 : substr (type :: (user.z ++ content.z)) 1 = some (user.z ++ content.z) := by simp [substr]
  change decode (0 :: 9 :: type :: (user.z ++ content.z)) = _
  rw [decode, shortAt_cons, substr_cons2]
  change decodeNotification (type :: (user.z ++ content.z)) = _
  rw [decodeNotification, at0_zero, h5]
  simp only [Option.bind_eq_bind, Option.bind_some, h1, h2, h3, h4, Option.pure_def]
  simp [Message.text]

theorem decode_error (b2 b3 : UInt8) : decode (Message.error b2 b3).bytes = some (Message.error b2 b3).text := by
  have h11 : bytesToShort 0 11 = 11 := by decide
  change decode (0 :: 11 :: b2 :: [b3]) = _
  rw [decode, shortAt_cons, substr_cons2, h11]
  rfl

/-- An answer up to its opcode. -/
theorem decode_ack (b2 b3 : UInt8) (r : Bytes) : decode (0 :: 10 :: b2 :: b3 :: r) = decodeAck (b2 :: b3 :: r) := by
  rw [decode, shortAt_cons, substr_cons2]
  rfl

theorem decode_plain (b2 b3 : UInt8) (plain : bytesToShort b2 b3 ≠ 8 ∧ bytesToShort b2 b3 ≠ 7 ∧
    bytesToShort b2 b3 ≠ 4) :
    decode (Message.ack b2 b3 plain).bytes = some (Message.ack b2 b3 plain).text := by
  obtain ⟨h8, h7, h4⟩ := plain
  change decode (0 :: 10 :: b2 :: b3 :: []) = _
  rw [decode_ack, decodeAck, shortAt_cons]
  simp [h8, h7, h4, Message.text, ackText]

theorem decode_stat (b4 b5 b6 b7 b8 b9 : UInt8) :
    decode (Message.stat b4 b5 b6 b7 b8 b9).bytes = some (Message.stat b4 b5 b6 b7 b8 b9).text := by
  have h8 : bytesToShort 0 8 = 8 := by decide
  change decode (0 :: 10 :: 0 :: 8 :: [b4, b5, b6, b7, b8, b9]) = _
  rw [decode_ack, decodeAck, shortAt_cons, h8]
  simp only [Option.bind_eq_bind, Option.bind_some, beq_self_eq_true, if_true, substr_cons2,
    shortAt_cons, Option.pure_def]
  simp [Message.text, ackText]

theorem before_zs (names : List Str) :
    before (zs names) (findNul (zs names)) = (names.headD ⟨[], by decide⟩).bytes := by
  cases names with
  | nil => rfl
  | cons a names =>
    have hz : zs (a :: names) = a.z ++ zs names := List.flatMap_cons
    rw [hz, findNul_z]
    simp [before, Str.z]

/-- The loop that replaces NULs finds none. -/
theorem nulToSpace_self {x : Bytes} (h : 0 ∉ x) : (x.map fun b => if b = 0 then 32 else b) = x := by
  have hid : ∀ b ∈ x, (if b = 0 then 32 else b) = b := by
    intro b hb
    rw [if_neg]
    rintro rfl
    exact h hb
  exact (List.map_congr_left hid).trans (List.map_id' _)

theorem nul_not_mem_ackText {opcode : Int16} {rest : Bytes} (h : 0 ∉ rest) : 0 ∉ ackText opcode rest := by
  have hnum := nul_not_mem opcode
  simp only [ackText, List.mem_append, List.mem_cons, not_or]
  exact ⟨by decide, hnum, by decide, h⟩

theorem decode_listing (op : Listing) (names : List Str) (short : names.length < 2 ^ 16) :
    decode (Message.listing op names short).bytes = some (Message.listing op names short).text := by
  have hop : (bytesToShort 0 op.opcode == 8) = false ∧
    (bytesToShort 0 op.opcode == 7 || bytesToShort 0 op.opcode == 4) = true := by
    cases op <;> decide
  have hnul : 0 ∉ (Message.listing op names short).text := by
    refine nul_not_mem_ackText ?_
    simp only [List.mem_append, List.mem_cons, not_or]
    exact ⟨nul_not_mem _, by decide, Str.nonul _⟩
  change decode (0 :: 10 :: 0 :: op.opcode :: UInt8.ofNat (names.length / 256) ::
    UInt8.ofNat names.length :: zs names) = _
  rw [decode_ack, decodeAck, shortAt_cons]
  simp only [Option.bind_eq_bind, Option.bind_some, hop, Bool.false_eq_true, if_false,
    if_true, substr_cons2, shortAt_cons,
    Option.pure_def, before_zs]
  rw [nulToSpace_self]
  · simp [Message.text, ackText]
  · simpa [Message.text, ackText] using hnul

/-- **Every message has its line.** -/
theorem decode_bytes (m : Message) : decode m.bytes = some m.text := by
  cases m with
  | notification type user content => exact decode_notification type user content
  | error b2 b3 => exact decode_error b2 b3
  | ack b2 b3 plain => exact decode_plain b2 b3 plain
  | stat b4 b5 b6 b7 b8 b9 => exact decode_stat b4 b5 b6 b7 b8 b9
  | listing op names short => exact decode_listing op names short

/-! ## What the line tells -/

/-- What a message says. -/
inductive Fields
  | notification (pm : Bool) (user content : Bytes)
  | error (opcode : Int16)
  | ack (opcode : Int16)
  | stat (posts followers following : Int16)
  | listing (op : Listing) (count : Nat) (names : List Bytes)
  deriving DecidableEq

def Message.fields : Message → Fields
  | .notification type user content => .notification (type = 0) user.bytes content.bytes
  | .error b2 b3 => .error (bytesToShort b2 b3)
  | .ack b2 b3 _ => .ack (bytesToShort b2 b3)
  | .stat b4 b5 b6 b7 b8 b9 => .stat (bytesToShort b4 b5) (bytesToShort b6 b7) (bytesToShort b8 b9)
  | .listing op names _ => .listing op names.length (names.map Str.bytes)

/-- No other message with other fields has the same line. -/
def Tells (m : Message) : Prop := ∀ m' : Message, decode m'.bytes = decode m.bytes → m'.fields = m.fields

/-- No notification, and no list of more than one name. -/
def Message.Short : Message → Prop
  | .notification _ _ _ => False
  | .listing _ names _ => names.length ≤ 1
  | _ => True

theorem ackText_inj {a b : Int16} {r s : Bytes} (h : ackText a r = ackText b s) : a = b ∧ r = s :=
  toDecimal_blank_inj (List.append_cancel_left h)

/-- A list of at most one name is its length and its first name. -/
theorem names_eq {names ns : List Str} (hlen : names.length = ns.length) (h1 : ns.length ≤ 1)
    (hhead : (names.headD ⟨[], by decide⟩).bytes = (ns.headD ⟨[], by decide⟩).bytes) :
    names.map Str.bytes = ns.map Str.bytes := by
  match names, ns with
  | [], [] => rfl
  | [a], [b] => simpa using hhead
  | _ :: _ :: _, [b] => simp at hlen

theorem listing_opcode_ne (op : Listing) {b2 b3 : UInt8} (plain : bytesToShort b2 b3 ≠ 8 ∧
    bytesToShort b2 b3 ≠ 7 ∧ bytesToShort b2 b3 ≠ 4) :
    bytesToShort b2 b3 ≠ bytesToShort 0 op.opcode := by
  cases op
  · exact plain.2.2
  · exact plain.2.1

/-- The first letter of a line. -/
def Message.letter : Message → UInt8
  | .notification _ _ _ => 78
  | .error _ _ => 69
  | _ => 65

theorem letter_eq {m m' : Message} (h : m'.text = m.text) : m'.letter = m.letter := by
  have hhead : ∀ m : Message, m.text.head? = some m.letter := fun m => by cases m <;> rfl
  have h := congrArg List.head? h
  rw [hhead, hhead, Option.some.injEq] at h
  exact h

theorem tells_of_short (m : Message) (hm : m.Short) : Tells m := by
  intro m' h
  rw [decode_bytes, decode_bytes, Option.some.injEq] at h
  have hl := letter_eq h
  cases m with
  | notification type user content => exact hm.elim
  | error b2 b3 =>
    cases m' with
    | error c2 c3 => exact congrArg Fields.error (toDecimal_inj (List.append_cancel_left h))
    | _ => cases hl
  | ack b2 b3 plain =>
    cases m' with
    | ack c2 c3 _ => exact congrArg Fields.ack (ackText_inj h).1
    | stat => exact absurd (ackText_inj h).1.symm plain.1
    | listing op => exact absurd (ackText_inj h).1.symm (listing_opcode_ne op plain)
    | _ => cases hl
  | stat b4 b5 b6 b7 b8 b9 =>
    cases m' with
    | ack c2 c3 plain => exact absurd (ackText_inj h).1 plain.1
    | stat c4 c5 c6 c7 c8 c9 =>
      obtain ⟨h1, h⟩ := toDecimal_blank_inj (ackText_inj h).2
      obtain ⟨h2, h⟩ := toDecimal_blank_inj h
      have h3 := toDecimal_inj h
      simp only [Message.fields, h1, h2, h3]
    | listing op =>
      have hop := (ackText_inj h).1
      cases op <;> exact absurd hop (by decide)
    | _ => cases hl
  | listing op names short =>
    cases m' with
    | ack c2 c3 plain => exact absurd (ackText_inj h).1 (listing_opcode_ne op plain)
    | stat =>
      have hop := (ackText_inj h).1
      cases op <;> exact absurd hop (by decide)
    | listing op' ns short' =>
      obtain ⟨hop, h⟩ := ackText_inj h
      obtain ⟨hcount, hhead⟩ := toDecimal_blank_inj h
      have hlen := count_inj short' short hcount
      obtain rfl : op' = op := by
        cases op <;> cases op' <;> first | rfl | exact absurd hop (by decide)
      simp only [Message.fields, hlen, names_eq hlen hm hhead]
    | _ => cases hl

/-- Another user, another name. -/
def Str.other (s : Str) : Str := ⟨97 :: s.bytes, by simpa using s.nonul⟩

theorem Str.other_ne (s : Str) : s.other.bytes ≠ s.bytes := fun h => by
  have := congrArg List.length h
  simp [Str.other] at this

/-- **The line tells the message** exactly when it is no notification and lists at most one name. -/
theorem decode_tells_iff (m : Message) : Tells m ↔ m.Short := by
  refine ⟨fun ht => ?_, tells_of_short m⟩
  cases m with
  | notification type user content =>
    -- the user is cut off, so another one gives the same line
    have h := ht (.notification type user.other content) (by rw [decode_bytes, decode_bytes]; rfl)
    simp only [Message.fields, Fields.notification.injEq] at h
    exact user.other_ne h.2.1
  | listing op names short =>
    cases names with
    | nil => exact Nat.zero_le 1
    | cons a names =>
      cases names with
      | nil => exact Nat.le_refl 1
      | cons b names =>
        have short' : (a :: b.other :: names).length < 2 ^ 16 := by simpa only [List.length_cons] using short
        have htext : (Message.listing op (a :: b.other :: names) short').text =
          (Message.listing op (a :: b :: names) short).text := by
          simp only [Message.text, List.length_cons, List.headD_cons]
        have h := ht (.listing op (a :: b.other :: names) short') (by rw [decode_bytes, decode_bytes, htext])
        simp only [Message.fields, Fields.listing.injEq, List.map_cons, List.cons.injEq] at h
        exact absurd h.2.2.2.1 b.other_ne
  | _ => trivial

/-- "ann" posts "hi", publicly. -/
def posted : Message := .notification 1 ⟨[97, 110, 110], by decide⟩ ⟨[104, 105], by decide⟩

theorem decode_loses_user : ¬ ∀ m, Tells m := by
  intro h
  have hsame := h posted (.notification 1 ⟨[98, 111, 98], by decide⟩ ⟨[104, 105], by decide⟩) (by decide)
  revert hsame
  decide

end Chat
