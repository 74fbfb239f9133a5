import Mathlib.Data.List.Infix
/-
# Messages on a stream

A reader takes items until `done` holds of what it has (`take`) and goes on until `quit` holds of a frame
(`session`). A message is `Framed` when `done` holds of the whole of it and of no shorter part:
`session_flatten_iff` says that exactly such messages come out of the stream as they went in.
`SelfDelimiting` is the same question for a code nobody reads yet: its words can be split off the front of
any stream, so a stream of them has one reading (`SelfDelimiting.flatMap_inj`).
-/
namespace Stream

variable {α β : Type*}

/-! ## Reading -/

section Reading

variable (done quit : List α → Bool)

/-- Items go to the end of `buf` until `done` holds; also what is left. -/
def take (buf : List α) : List α → Option (List α × List α)
  | [] => none
  | a :: s => if done (buf ++ [a]) then some (buf ++ [a], s) else take (buf ++ [a]) s

/-- Accepted as a whole, and at no point before. -/
def Framed (m : List α) : Prop :=
  m ≠ [] ∧ done m = true ∧ ∀ p, p <+: m → p ≠ [] → p ≠ m → done p = false

variable {done quit}

theorem take_length {buf f r : List α} : ∀ {s : List α}, take done buf s = some (f, r) → r.length < s.length
  | [], h => by cases h
  | a :: s, h => by
    rw [take] at h
    split at h
    · cases h
      simp
    · have := take_length h
      simp only [List.length_cons]
      omega

theorem take_eq {buf f r : List α} : ∀ {s : List α}, take done buf s = some (f, r) →
    ∃ m, f = buf ++ m ∧ s = m ++ r ∧ Framed (fun p => done (buf ++ p)) m
  | [], h => by cases h
  | a :: s, h => by
    rw [take] at h
    split at h
    · rename_i hd
      cases h
      refine ⟨[a], rfl, rfl, by simp, hd, ?_⟩
      intro p hp hne hna
      rcases List.prefix_concat_iff.1 (show p <+: [] ++ [a] from hp) with h1 | h1
      · exact absurd h1 hna
      · exact absurd (List.prefix_nil.1 h1) hne
    · rename_i hd
      obtain ⟨m, rfl, rfl, -, hm, hpre⟩ := take_eq h
      refine ⟨a :: m, by simp, by simp, by simp, by simpa using hm, ?_⟩
      intro p hp hne hna
      obtain rfl | ⟨q, rfl, hq⟩ := List.prefix_cons_iff.1 hp
      · exact absurd rfl hne
      · by_cases hq0 : q = []
        · subst hq0
          simpa using hd
        · have := hpre q hq hq0 fun h => hna (by rw [h])
          simpa using this

/-- Where some beginning of the stream is accepted, the reader stops. -/
theorem take_of_prefix {p : List α} (hne : p ≠ []) : ∀ (buf : List α) {s : List α}, p <+: s →
    done (buf ++ p) = true → ∃ f r, take done buf s = some (f, r) := by
  induction p with
  | nil => exact absurd rfl hne
  | cons a p ih =>
    intro buf s hp hd
    obtain ⟨q, rfl⟩ := hp
    rw [List.cons_append, take]
    split
    · exact ⟨_, _, rfl⟩
    · next hnot =>
      have hp0 : p ≠ [] := by
        rintro rfl
        exact hnot hd
      exact ih hp0 _ (List.prefix_append p q) (by simpa using hd)

theorem take_framed {buf m r : List α} (h : Framed (fun p => done (buf ++ p)) m) :
    take done buf (m ++ r) = some (buf ++ m, r) := by
  induction m generalizing buf with
  | nil => exact absurd rfl h.1
  | cons a m ih =>
    obtain ⟨-, hd, hpre⟩ := h
    rw [List.cons_append, take]
    by_cases hm : m = []
    · subst hm
      rw [if_pos hd]
      rfl
    · have ha : done (buf ++ [a]) = false := hpre [a] ⟨m, rfl⟩ (by simp) (by simpa using Ne.symm hm)
      rw [if_neg (by rw [ha]; exact Bool.false_ne_true), ih, List.append_assoc]
      · rfl
      · refine ⟨hm, by simpa using hd, fun p hp hne hna => ?_⟩
        have := hpre (a :: p) (List.cons_prefix_cons.2 ⟨rfl, hp⟩) (by simp) (by simpa using hna)
        simpa using this

/-- What is read from a stream: a framed part at its front. -/
theorem take_iff {s f r : List α} : take done [] s = some (f, r) ↔ s = f ++ r ∧ Framed done f := by
  constructor
  · intro h
    obtain ⟨m, rfl, rfl, hm⟩ := take_eq h
    exact ⟨rfl, hm⟩
  · rintro ⟨rfl, hf⟩
    exact take_framed hf

variable (done quit)

/-- Frame after frame, up to the first that ends the session. -/
def session (s : List α) : List (List α) :=
  match _h : take done [] s with
  | none => []
  | some (f, r) => f :: if quit f then [] else session r
termination_by s.length
decreasing_by exact take_length _h

variable {done quit}

theorem session_nil : session done quit [] = [] := by
  unfold session
  rfl

theorem session_none {s : List α} (h : take done [] s = none) : session done quit s = [] := by
  unfold session
  split
  · rfl
  · rename_i h1
    rw [h] at h1
    cases h1

theorem session_some {s f r : List α} (h : take done [] s = some (f, r)) :
    session done quit s = f :: if quit f then [] else session done quit r := by
  rw [session]
  split
  · rename_i h1
    rw [h] at h1
    cases h1
  · rename_i h1
    rw [h] at h1
    cases h1
    rfl

/-- **Frames are the messages** exactly when every message is framed and only the last may end the session. -/
theorem session_flatten_iff : ∀ (ms : List (List α)), session done quit ms.flatten = ms ↔
    (∀ m ∈ ms, Framed done m) ∧ ∀ m ∈ ms.dropLast, quit m = false
  | [] => by simp [session_nil]
  | m :: ms => by
    have ih := session_flatten_iff ms
    have hmore : (if quit m then [] else session done quit ms.flatten) = ms ↔
        (∀ k ∈ ms, Framed done k) ∧ ∀ k ∈ (m :: ms).dropLast, quit k = false := by
      cases ms with
      | nil => simp [session_nil]
      | cons k ks =>
        rw [List.dropLast_cons_cons, List.forall_mem_cons]
        cases hq : quit m with
        | true => simp [hq]
        | false => simpa [hq] using ih
    rw [List.forall_mem_cons, and_assoc, ← hmore, List.flatten_cons]
    constructor
    · intro h
      cases ht : take done [] (m ++ ms.flatten) with
      | none =>
        rw [session_none ht] at h
        cases h
      | some fr =>
        obtain ⟨f, r⟩ := fr
        rw [session_some ht] at h
        obtain ⟨rfl, hrest⟩ := List.cons.inj h
        obtain ⟨hs, hf⟩ := take_iff.1 ht
        obtain rfl := List.append_cancel_left hs
        exact ⟨hf, hrest⟩
    · rintro ⟨hf, hrest⟩
      rw [session_some (take_iff.2 ⟨rfl, hf⟩), hrest]

/-! ## Framed messages, item by item -/

/-- One item of a longer message. -/
theorem framed_cons {a : α} {m : List α} (hm : m ≠ []) :
    Framed done (a :: m) ↔ done [a] = false ∧ Framed (fun p => done (a :: p)) m := by
  constructor
  · rintro ⟨-, hd, hpre⟩
    refine ⟨hpre [a] ⟨m, rfl⟩ (by simp) (by simpa using Ne.symm hm), hm, hd, fun p hp hne hna => ?_⟩
    exact hpre (a :: p) (List.cons_prefix_cons.2 ⟨rfl, hp⟩) (by simp) (by simpa using hna)
  · rintro ⟨ha, -, hd, hpre⟩
    refine ⟨by simp, hd, fun p hp hne hna => ?_⟩
    obtain rfl | ⟨q, rfl, hq⟩ := List.prefix_cons_iff.1 hp
    · exact absurd rfl hne
    · by_cases hq0 : q = []
      · subst hq0
        exact ha
      · exact hpre q hq hq0 fun h => hna (by rw [h])

theorem framed_single {a : α} (h : done [a] = true) : Framed done [a] := by
  refine ⟨by simp, h, fun p hp hne hna => ?_⟩
  obtain rfl | ⟨q, rfl, hq⟩ := List.prefix_cons_iff.1 hp
  · exact absurd rfl hne
  · exact absurd (by rw [List.prefix_nil.1 hq]) hna

variable [DecidableEq α]

/-- A reader that counts terminators stops at the last one. -/
theorem framed_count (z : α) (w : List α) : Framed (fun p => decide (w.count z + 1 ≤ p.count z)) (w ++ [z]) := by
  refine ⟨by simp, by simp, fun p hp _ hna => ?_⟩
  rcases List.prefix_concat_iff.1 hp with h | h
  · exact absurd h hna
  · have := h.sublist.count_le z
    simp only [decide_eq_false_iff_not]
    omega

/-- It stops at no terminator but the last it waits for. -/
theorem not_framed_of_count {z : α} {k : Nat} {p m : List α} (hp : p <+: m) (hne : p ≠ []) (hpm : p ≠ m)
    (hk : k ≤ p.count z) : ¬ Framed (fun p => decide (k ≤ p.count z)) m := by
  intro h
  have := h.2.2 p hp hne hpm
  simp only [decide_eq_false_iff_not] at this
  exact this hk

end Reading

/-! ## Self-delimiting codes -/

section Code

/-- A code whose words can be split off the front of any stream. -/
def SelfDelimiting (enc : β → List α) : Prop :=
  ∀ a b s t, enc a ++ s = enc b ++ t → a = b ∧ s = t

/-- **One reading**: equal streams come from equal sequences. -/
theorem SelfDelimiting.flatMap_inj {enc : β → List α} (h : SelfDelimiting enc) (hne : ∀ a, enc a ≠ []) :
    ∀ {xs ys : List β}, xs.flatMap enc = ys.flatMap enc → xs = ys
  | [], [], _ => rfl
  | [], y :: ys, he => by
    have := List.append_eq_nil_iff.1 he.symm
    exact absurd this.1 (hne y)
  | x :: xs, [], he => by
    have := List.append_eq_nil_iff.1 he
    exact absurd this.1 (hne x)
  | x :: xs, y :: ys, he => by
    obtain ⟨rfl, hrest⟩ := h x y _ _ he
    rw [h.flatMap_inj hne hrest]

/-- A string up to its terminator. -/
theorem terminated_inj {z : α} {u v s t : List α} (hu : z ∉ u) (hv : z ∉ v) (h : u ++ z :: s = v ++ z :: t) :
    u = v ∧ s = t := by
  induction u generalizing v with
  | nil =>
    cases v with
    | nil => exact ⟨rfl, (List.cons.inj h).2⟩
    | cons b v => exact absurd ((List.cons.inj h).1 ▸ List.mem_cons_self) hv
  | cons a u ih =>
    cases v with
    | nil => exact absurd ((List.cons.inj h).1 ▸ List.mem_cons_self) hu
    | cons b v =>
      obtain ⟨rfl, hrest⟩ := List.cons.inj h
      obtain ⟨rfl, hst⟩ :=
        ih (fun hz => hu (List.mem_cons_of_mem _ hz)) (fun hz => hv (List.mem_cons_of_mem _ hz)) hrest
      exact ⟨rfl, hst⟩

/-- So many terminated strings one after the other. -/
theorem terminated_list_inj {z : α} {s t : List α} : ∀ {us vs : List (List α)}, us.length = vs.length →
    (∀ u ∈ us, z ∉ u) → (∀ v ∈ vs, z ∉ v) →
    (us.flatMap fun u => u ++ [z]) ++ s = (vs.flatMap fun v => v ++ [z]) ++ t → us = vs ∧ s = t
  | [], [], _, _, _, h => ⟨rfl, h⟩
  | u :: us, v :: vs, hlen, hu, hv, h => by
    simp only [List.flatMap_cons, List.append_assoc, List.singleton_append] at h
    obtain ⟨rfl, hrest⟩ := terminated_inj (hu u List.mem_cons_self) (hv v List.mem_cons_self) h
    obtain ⟨rfl, hst⟩ := terminated_list_inj (Nat.succ.inj hlen) (fun w hw => hu w (List.mem_cons_of_mem _ hw))
      (fun w hw => hv w (List.mem_cons_of_mem _ hw)) hrest
    exact ⟨rfl, hst⟩

end Code

end Stream
