import CCppProjects.Chat.Input
/-
# The end of the stream (connectionHandler.cpp:38-57, 93-120)

`getBytes` reports that the connection is closed through a result that `getFrameAscii` does not read. The
character it left alone is appended once more, and again, until the buffer happens to be accepted. So a frame
is right exactly when it was complete before the end (`reported_iff`), and `false` is never returned
(`getFrameClosed_true`).
-/
namespace Chat

open Stream

/-- `getBytes(&ch, 1)` on a connection that is closed behind `incoming`: its result, `ch` and what is still to
come. -/
def getBytes (ch : UInt8) : Bytes → Bool × UInt8 × Bytes
  | [] => (false, ch, [])
  | b :: incoming => (true, b, incoming)

/-- `getFrameAscii` on such a connection, with at most so many rounds of its loop; `none` while it still goes on. -/
def getFrameClosed : Nat → UInt8 → Bytes → Bytes → Option (Bool × Bytes)
  | 0, _, _, _ => none
  | n + 1, ch, frame, incoming =>
    let (_, ch, incoming) := getBytes ch incoming
    let frame := frame ++ [ch]
    if decodeable frame then some (true, frame) else getFrameClosed n ch frame incoming

/-- The loop ends, with `true` only for an accepted frame of received bytes, and with `false` when there is none. -/
def Reported (ch : UInt8) (incoming : Bytes) : Prop :=
  ∃ n ok frame, getFrameClosed n ch [] incoming = some (ok, frame) ∧
  (ok = true → frame <+: incoming ∧ decodeable frame = true) ∧
  ((∀ p, p <+: incoming → decodeable p = false) → ok = false)

variable {ch : UInt8} {frame incoming : Bytes}

theorem getFrameClosed_true : ∀ {n : Nat} {ch : UInt8} {frame incoming : Bytes} {ok : Bool} {f : Bytes},
    getFrameClosed n ch frame incoming = some (ok, f) → ok = true ∧ decodeable f = true
  | 0, _, _, _, _, _, h => by cases h
  | n + 1, ch, frame, incoming, ok, f, h => by
    rw [getFrameClosed] at h
    dsimp only at h
    split at h
    · next hd =>
      cases h
      exact ⟨rfl, hd⟩
    · exact getFrameClosed_true h

/-- Up to the end of the stream the loop is the one on an open connection. -/
theorem getFrameClosed_of_take {f r : Bytes} (h : take decodeable frame incoming = some (f, r)) :
    ∃ n, getFrameClosed n ch frame incoming = some (true, f) := by
  induction incoming generalizing ch frame with
  | nil => cases h
  | cons b incoming ih =>
    rw [take] at h
    by_cases hd : decodeable (frame ++ [b]) = true
    · rw [if_pos hd] at h
      cases h
      refine ⟨1, ?_⟩
      rw [getFrameClosed]
      exact if_pos hd
    · rw [if_neg hd] at h
      obtain ⟨n, hn⟩ := ih h
      refine ⟨n + 1, ?_⟩
      rw [getFrameClosed]
      exact (if_neg hd).trans hn

theorem take_received {f r : Bytes} (h : take decodeable [] incoming = some (f, r)) :
    f <+: incoming ∧ decodeable f = true := by
  obtain ⟨m, rfl, rfl, hm⟩ := take_eq h
  exact ⟨List.prefix_append _ r, hm.2.1⟩

/-- A disconnect is reported exactly when it does not matter: the stream begins with an accepted frame. -/
theorem reported_iff (ch : UInt8) (incoming : Bytes) : Reported ch incoming ↔ ∃ p, p <+: incoming ∧
    decodeable p = true := by
  constructor
  · rintro ⟨n, ok, frame, hrun, hframe, -⟩
    exact ⟨frame, hframe (getFrameClosed_true hrun).1⟩
  · rintro ⟨p, hp, hd⟩
    have hne : p ≠ [] := by
      rintro rfl
      cases hd
    obtain ⟨f, r, hf⟩ := take_of_prefix hne [] hp hd
    obtain ⟨n, hn⟩ := getFrameClosed_of_take hf
    refine ⟨n, true, f, hn, fun _ => take_received hf, fun hnone => ?_⟩
    rw [hnone p hp] at hd
    cases hd

/-- Cut inside a notification of type 1, the loop waits for two NULs among its own ones. -/
theorem reported_not_always : ¬ ∀ ch incoming, Reported ch incoming := by
  intro h
  obtain ⟨n, ok, frame, hrun, hframe, -⟩ := h 0 [0, 9, 1]
  obtain ⟨hp, hd⟩ := hframe (getFrameClosed_true hrun).1
  have hlen := hp.length_le
  obtain ⟨t, ht⟩ := hp
  match frame, ht with
  | [], _ | [_], _ | [_, _], _ | [_, _, _], _ => cases hd
  | _ :: _ :: _ :: _ :: _, _ =>
    simp only [List.length_cons, List.length_nil] at hlen
    omega

end Chat
