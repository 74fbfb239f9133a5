import CCppProjects.Lib.Stream
import Mathlib.Algebra.Ring.Nat
/-
# Reading the server's messages (connectionHandler.cpp, input.cpp)

| here | there |
|---|---|
| `decodeable`, `bytesToShort` | `ConnectionHandler::decodeable` (connectionHandler.cpp:144-223), without its `close` |
| `getFrameAscii` | `ConnectionHandler::getFrameAscii` (:93-120), on the bytes that are still to come |
| `logout` | `flag` as `Input::decode` sets it (input.cpp:80-84); `decodeable` closes the socket on the same frames (:188) |
| `run` | the frames `Input::run` reads before `flag` ends it (input.cpp:3-31) |
| `Message` | what a server sends: the format of the messages |

`decodeable` looks for one NUL after the count of a FOLLOW or USERLIST answer and never reads the count, which
`Input::decode` prints (input.cpp:118) and `output::encode` writes in front of its own list of names
(Output.cpp:90-106). An answer without names is never cut, one with more is cut after the first.
-/
namespace Chat

abbrev Bytes := List UInt8

/-- connectionHandler.cpp:225: a big-endian `short`. -/
def bytesToShort (b0 b1 : UInt8) : Int16 :=
  (b0.toUInt16 <<< 8).toInt16 + b1.toUInt16.toInt16

/-- The NULs from index `i` on. -/
def numOfZero (i : Nat) (str : Bytes) : Nat := (str.drop i).count 0

/-- Does the buffer end a message? Nothing shorter than four bytes does. -/
def decodeable (str : Bytes) : Bool :=
  match str with
  | b0 :: b1 :: b2 :: b3 :: _ =>
    let num := bytesToShort b0 b1
    if num == 9 then decide (2 ≤ numOfZero 3 str)
    else if num == 10 then
      let num := bytesToShort b2 b3
      if num == 8 then str.length == 10
      else if num == 7 || num == 4 then decide (1 ≤ numOfZero 6 str)
      else true
    else if num == 11 then str.length == 4
    else false
  | _ => false

/-- One byte at a time until `decodeable`; `none` while the next byte has not come. -/
def getFrameAscii (incoming : Bytes) : Option (Bytes × Bytes) := Stream.take decodeable [] incoming

/-- An ACK (10) of LOGOUT (3). -/
def logout (frame : Bytes) : Bool :=
  match frame with
  | b0 :: b1 :: b2 :: b3 :: _ => bytesToShort b0 b1 == 10 && bytesToShort b2 b3 == 3
  | _ => false

/-- Frame after frame for as long as bytes come. -/
def frames (incoming : Bytes) : List Bytes := Stream.session decodeable (fun _ => false) incoming

/-- The same until `flag` is set. -/
def run (incoming : Bytes) : List Bytes := Stream.session decodeable logout incoming

/-! ## The messages -/

/-- A string without NUL. -/
@[ext] structure Str where
  bytes : Bytes
  nonul : 0 ∉ bytes

/-- The bytes of a string and its NUL. -/
def Str.z (s : Str) : Bytes := s.bytes ++ [0]

/-- The requests whose answer lists names. -/
inductive Listing
  | follow | userlist
  deriving DecidableEq, Repr

def Listing.opcode : Listing → UInt8
  | .follow => 4
  | .userlist => 7

inductive Message
  | notification (type : UInt8) (user content : Str)
  | error (b2 b3 : UInt8)
  | ack (b2 b3 : UInt8) (plain : bytesToShort b2 b3 ≠ 8 ∧ bytesToShort b2 b3 ≠ 7 ∧ bytesToShort b2 b3 ≠ 4)
  | stat (b4 b5 b6 b7 b8 b9 : UInt8)
  | listing (op : Listing) (names : List Str) (short : names.length < 2 ^ 16)

/-- Several NUL-terminated strings. -/
def zs (names : List Str) : Bytes := names.flatMap Str.z

def Message.bytes : Message → Bytes
  | .notification type user content => [0, 9, type] ++ (user.z ++ content.z)
  | .error b2 b3 => [0, 11, b2, b3]
  | .ack b2 b3 _ => [0, 10, b2, b3]
  | .stat b4 b5 b6 b7 b8 b9 => [0, 10, 0, 8, b4, b5, b6, b7, b8, b9]
  | .listing op names _ => [0, 10, 0, op.opcode, UInt8.ofNat (names.length / 256), UInt8.ofNat names.length] ++ zs names

/-- An answer with a list of names has exactly one. -/
def Message.OneName : Message → Prop
  | .listing _ names _ => names.length = 1
  | _ => True

/-! ## What is accepted -/

open Stream

theorem decodeable_notification (type : UInt8) (q : Bytes) :
    decodeable (0 :: 9 :: type :: q) = decide (2 ≤ q.count 0) := by
  cases q with
  | nil => rfl
  | cons b q => rfl

theorem decodeable_ack (b2 b3 : UInt8) (q : Bytes) : decodeable (0 :: 10 :: b2 :: b3 :: q) =
    if bytesToShort b2 b3 == 8 then q.length == 6
    else if bytesToShort b2 b3 == 7 || bytesToShort b2 b3 == 4 then decide (1 ≤ (q.drop 2).count 0) else true := by
  have hlen : ((q.length + 1 + 1 + 1 + 1 : Nat) == 10) = (q.length == 6) := by
    rw [Bool.eq_iff_iff, beq_iff_eq, beq_iff_eq]
    omega
  have h10 : bytesToShort 0 10 = 10 := by decide
  simp only [decodeable, numOfZero, List.drop_succ_cons, List.length_cons, hlen, h10]
  rfl

theorem decodeable_listing (op : Listing) (n m : UInt8) (q : Bytes) :
    decodeable (0 :: 10 :: 0 :: op.opcode :: n :: m :: q) = decide (1 ≤ q.count 0) := by
  rw [decodeable_ack]
  cases op <;> rfl

/-- The first three bytes decide nothing. -/
theorem framed_header {b0 b1 b2 : UInt8} {m : Bytes} (hm : m ≠ []) :
    Framed decodeable (b0 :: b1 :: b2 :: m) ↔ Framed (fun p => decodeable (b0 :: b1 :: b2 :: p)) m := by
  rw [framed_cons (by simp), framed_cons (by simp), framed_cons hm]
  simp [decodeable]

theorem framed_notification (type : UInt8) (user content : Str) :
    Framed decodeable (Message.notification type user content).bytes := by
  have hne : user.z ++ content.z ≠ [] := by simp [Str.z]
  change Framed decodeable (0 :: 9 :: type :: (user.z ++ content.z))
  rw [framed_header hne]
  simp only [decodeable_notification]
  have hcount : (user.z ++ content.bytes).count 0 = 1 := by
    simp [Str.z, List.count_eq_zero.2 user.nonul, List.count_eq_zero.2 content.nonul]
  have hframed := framed_count (0 : UInt8) (user.z ++ content.bytes)
  rw [hcount, List.append_assoc] at hframed
  exact hframed

theorem framed_error (b2 b3 : UInt8) : Framed decodeable (Message.error b2 b3).bytes := by
  change Framed decodeable (0 :: 11 :: b2 :: [b3])
  rw [framed_header (by simp)]
  exact framed_single rfl

theorem framed_ack (b2 b3 : UInt8) (plain : bytesToShort b2 b3 ≠ 8 ∧ bytesToShort b2 b3 ≠ 7 ∧ bytesToShort b2 b3 ≠ 4) :
    Framed decodeable (Message.ack b2 b3 plain).bytes := by
  change Framed decodeable (0 :: 10 :: b2 :: [b3])
  rw [framed_header (by simp)]
  refine framed_single ?_
  obtain ⟨h8, h7, h4⟩ := plain
  rw [decodeable_ack]
  simp [h8, h7, h4]

theorem framed_stat (b4 b5 b6 b7 b8 b9 : UInt8) : Framed decodeable (Message.stat b4 b5 b6 b7 b8 b9).bytes := by
  change Framed decodeable (0 :: 10 :: 0 :: 8 :: [b4, b5, b6, b7, b8, b9])
  have hstat : ∀ q : Bytes, decodeable (0 :: 10 :: 0 :: 8 :: q) = (q.length == 6) := by
    intro q
    rw [decodeable_ack]
    rfl
  rw [framed_header (by simp), framed_cons (by simp)]
  simp only [hstat]
  refine ⟨rfl, by simp, rfl, fun p hp _ hna => ?_⟩
  rw [beq_eq_false_iff_ne]
  exact fun h => hna (hp.eq_of_length h)

/-- A list answer is cut at the first NUL behind the count: right for one name, wrong for none and for more. -/
theorem framed_names_iff (op : Listing) (names : List Str) (short : names.length < 2 ^ 16) :
    Framed decodeable (Message.listing op names short).bytes ↔ names.length = 1 := by
  change Framed decodeable (0 :: 10 :: 0 :: op.opcode :: UInt8.ofNat (names.length / 256) ::
    UInt8.ofNat names.length :: zs names) ↔ _
  generalize UInt8.ofNat (names.length / 256) = n, UInt8.ofNat names.length = m
  cases names with
  | nil =>
    refine iff_of_false (fun h => ?_) (by simp)
    have hacc := h.2.1
    rw [decodeable_listing] at hacc
    cases hacc
  | cons a names =>
    have hz : zs (a :: names) = a.bytes ++ [0] ++ zs names := by simp [zs, Str.z]
    have hne : zs (a :: names) ≠ [] := by simp [hz]
    rw [framed_header (by simp), framed_cons (by simp), framed_cons (by simp), framed_cons hne]
    simp only [decodeable_listing]
    have hearly : ∀ q : Bytes, q.length ≤ 2 → decodeable (0 :: 10 :: 0 :: op.opcode :: q) = false := by
      intro q hq
      rw [decodeable_ack, List.drop_eq_nil_of_le hq]
      cases op <;> rfl
    have hcount : a.bytes.count 0 = 0 := List.count_eq_zero.2 a.nonul
    simp only [hearly [] (by simp), hearly [n] (by simp), true_and]
    have hm : decide (1 ≤ List.count (0 : UInt8) []) = false := by decide
    simp only [hm, true_and]
    cases names with
    | nil =>
      refine iff_of_true ?_ rfl
      have hframed := framed_count (0 : UInt8) a.bytes
      rw [hcount] at hframed
      rw [hz]
      simpa [zs] using hframed
    | cons b names =>
      refine iff_of_false ?_ (by simp)
      apply not_framed_of_count (p := a.bytes ++ [0])
      · rw [hz]
        exact List.prefix_append ..
      · simp
      · rw [hz]
        intro h
        have := congrArg List.length h
        simp [zs, Str.z] at this
      · simp

/-- The client reads a message as it was sent. -/
theorem framed_iff (m : Message) : Framed decodeable m.bytes ↔ m.OneName := by
  cases m with
  | notification type user content => exact iff_of_true (framed_notification type user content) trivial
  | error b2 b3 => exact iff_of_true (framed_error b2 b3) trivial
  | ack b2 b3 plain => exact iff_of_true (framed_ack b2 b3 plain) trivial
  | stat b4 b5 b6 b7 b8 b9 => exact iff_of_true (framed_stat b4 b5 b6 b7 b8 b9) trivial
  | listing op names short => exact framed_names_iff op names short

/-! ## The stream -/

/-- A LOGOUT answer. -/
def Message.Logout : Message → Prop
  | .ack b2 b3 _ => bytesToShort b2 b3 = 3
  | _ => False

theorem logout_iff (m : Message) : logout m.bytes = true ↔ m.Logout := by
  cases m with
  | notification type user content =>
    have hz : user.z ++ content.z ≠ [] := by simp [Str.z]
    obtain ⟨b, q, hq⟩ := List.exists_cons_of_ne_nil hz
    simp only [Message.bytes, hq]
    exact iff_of_false Bool.false_ne_true id
  | error b2 b3 => exact iff_of_false Bool.false_ne_true id
  | ack b2 b3 plain =>
    change (true && bytesToShort b2 b3 == 3) = true ↔ _
    simp [Message.Logout]
  | stat b4 b5 b6 b7 b8 b9 => exact iff_of_false Bool.false_ne_true id
  | listing op names short => cases op <;> exact iff_of_false Bool.false_ne_true id

/-- **Frames end where messages end** exactly when every list of names is a list of one. The client reads them all
if also no message comes after the answer to LOGOUT, at which it leaves. -/
theorem frames_iff (ms : List Message) :
    (frames (ms.flatMap Message.bytes) = ms.map Message.bytes ↔ ∀ m ∈ ms, m.OneName) ∧
      (run (ms.flatMap Message.bytes) = ms.map Message.bytes ↔ (∀ m ∈ ms, m.OneName) ∧
      ∀ m ∈ ms.dropLast, ¬ m.Logout) := by
  have hframed : (∀ b ∈ ms.map Message.bytes, Framed decodeable b) ↔ ∀ m ∈ ms, m.OneName := by
    simp [framed_iff]
  have hquit : (∀ b ∈ (ms.map Message.bytes).dropLast, logout b = false) ↔ ∀ m ∈ ms.dropLast, ¬ m.Logout := by
    rw [← List.map_dropLast, List.forall_mem_map]
    simp only [← logout_iff, Bool.not_eq_true]
  constructor
  · rw [frames, List.flatMap_def, session_flatten_iff, hframed]
    simp
  · rw [run, List.flatMap_def, session_flatten_iff, hframed, hquit]

/-- The answer to a FOLLOW of two users, "a" and "b". -/
def followed : Message := .listing .follow [⟨[97], by decide⟩, ⟨[98], by decide⟩] (by decide)

theorem followed_bytes : followed.bytes = [0, 10, 0, 4, 0, 2, 97, 0, 98, 0] := rfl

/-- The second name stays behind: it begins a frame of its own. -/
theorem frames_not_always : ¬ ∀ ms : List Message, frames (ms.flatMap Message.bytes) = ms.map Message.bytes := by
  intro h
  have hcut : getFrameAscii [0, 10, 0, 4, 0, 2, 97, 0, 98, 0] = some ([0, 10, 0, 4, 0, 2, 97, 0], [98, 0]) := by decide
  have h2 := h [followed]
  rw [List.flatMap_singleton, List.map_singleton, followed_bytes, frames, session_some hcut] at h2
  simp at h2

end Chat
