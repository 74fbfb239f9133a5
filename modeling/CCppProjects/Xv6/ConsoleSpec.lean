import CCppProjects.Xv6.Console
/-
# What a terminal shows and what its readers get

| here | where it is used |
|---|---|
| `Wf` | the buffer between any two operations; `key_spec`, `readLoop_got` keep it |
| `Got` | the ways out of the loop of `consoleread`, with the bytes that leave the buffer |
| `Good` | the system: no reader sleeps while there is something to read |
| `Told`, `Returned` | every run, every return: `console_discipline` |

The test for `'\n'` in the loop of `C('U')` never stops it: the line being edited has no newline. A buffer that is
full is never being edited, so what is typed into it is not lost before somebody could read it.
-/
namespace Xv6

open Lts

namespace Console

/-- No newline, no end of file. -/
def Clean (cs : List UInt8) : Prop := ∀ c ∈ cs, c ≠ newline ∧ c ≠ eof

theorem Clean.text_eq {cs : List UInt8} (h : Clean cs) : text cs = cs :=
  List.filter_eq_self.2 fun c hc => by simpa using (h c hc).2

theorem text_append (cs ds : List UInt8) : text (cs ++ ds) = text cs ++ text ds := List.filter_append ..

theorem text_eof (cs : List UInt8) : text (eof :: cs) = text cs := by
  simp [text]

theorem shown_append (s : List UInt8) (es fs : List Echo) : shown s (es ++ fs) = shown (shown s es) fs :=
  List.foldl_append ..

/-! ## The buffer -/

structure Wf (i : Input) : Prop where
  ordered : i.Ordered
  clean : Clean i.line
  full : i.held.length = INPUT_BUF → i.line = []
  plain : ∀ c ∈ i.held, c ≠ 0 ∧ c ≠ 13

/-- A round of `consoleintr` leads from `i` to `j`: the readers' part only grows, and when it does there is a
`wakeup`; what is echoed turns what was on the terminal into what is. -/
structure Keyed (i j : Input) (es : List Echo) (wakes : Bool) : Prop where
  wf : Wf j
  shows : ∀ s, shown (s ++ i.held) es = s ++ j.held
  quiet : wakes = false → j.ready = i.ready

theorem Keyed.rfl {i : Input} (h : Wf i) : Keyed i i [] false := ⟨h, fun _ => by rfl, fun _ => by rfl⟩

theorem Wf.erase {i : Input} (h : Wf i) (hne : i.e ≠ i.w) : Keyed i i.erase [.back] false := by
  obtain ⟨ho, hready, hline⟩ := h.ordered.erase hne
  have hne' : i.line ≠ [] := mt h.ordered.line_eq_nil.1 hne
  have hheld : i.erase.held = i.held.dropLast := by
    rw [Input.held_eq, Input.held_eq, hready, hline, List.dropLast_append_of_ne_nil hne']
  have hpos : i.held ≠ [] := by
    rw [Input.held_eq]
    exact List.append_ne_nil_of_right_ne_nil _ hne'
  refine ⟨⟨ho, ?_, ?_, ?_⟩, ?_, fun _ => hready⟩
  · intro c hc
    rw [hline] at hc
    exact h.clean c (List.dropLast_subset _ hc)
  · intro hf
    rw [hheld, List.length_dropLast] at hf
    have hsmall := h.ordered.small
    have hlt := List.length_pos_iff.2 hpos
    rw [← Input.held_length] at hsmall
    omega
  · intro c hc
    rw [hheld] at hc
    exact h.plain c (List.dropLast_subset _ hc)
  · intro s
    rw [hheld, ← List.dropLast_append_of_ne_nil hpos]
    rfl

/-- `C('U')` takes the whole line away. -/
theorem killLine_spec : ∀ (k : Nat) (i : Input), Wf i → (i.e - i.w).toNat = k →
    Keyed i (killLine k i).1 (killLine k i).2 false ∧ (killLine k i).1.line = []
  | 0, i, h, hk => by
    have hline : i.line = [] := List.length_eq_zero_iff.1 (h.ordered.line_length.trans hk)
    exact ⟨.rfl h, hline⟩
  | k + 1, i, h, hk => by
    have hne : i.e ≠ i.w := by
      intro he
      rw [he] at hk
      simp at hk
    -- the character before `input.e` is the last of the line
    have hlast : i.buf (Input.slot (i.e - 1)) ≠ newline := by
      have hmem : i.buf (Input.slot (i.e - 1)) ∈ i.line := h.ordered.last_mem hne
      exact (h.clean _ hmem).1
    have herase := h.erase hne
    have hcount : (i.erase.e - i.erase.w).toNat = k := by
      have hsub : i.e - 1 - i.w = (i.e - i.w) - 1 := by grind
      have hpred := Input.toNat_pred (x := i.e - i.w) (by omega)
      change (i.e - 1 - i.w).toNat = k
      rw [hsub]
      omega
    obtain ⟨hrec, hnil⟩ := killLine_spec k i.erase herase.wf hcount
    rw [killLine, if_pos ⟨hne, hlast⟩]
    refine ⟨⟨hrec.wf, fun s => ?_, fun _ => (hrec.quiet rfl).trans (herase.quiet rfl)⟩, hnil⟩
    calc shown (s ++ i.held) (.back :: (killLine k i.erase).2)
        = shown (shown (s ++ i.held) [.back]) (killLine k i.erase).2 := rfl
      _ = s ++ (killLine k i.erase).1.held := by rw [herase.shows, hrec.shows]

/-- A character goes to the end of the line, and the line to the readers when it is complete or the buffer is full. -/
theorem Wf.store {i : Input} (h : Wf i) {c : UInt8} (hlt : (i.e - i.r).toNat < INPUT_BUF) (h0 : c ≠ 0) (h13 : c ≠ 13) :
    Keyed i (i.store c).commit [.put c] true ∧
      (c ≠ newline → c ≠ eof → (i.store c).e ≠ i.r + UInt32.ofNat INPUT_BUF →
        Keyed i (i.store c) [.put c] false) := by
  obtain ⟨ho, hready, hline⟩ := h.ordered.store c hlt
  have hheld := Input.held_store c hlt
  have hplain : ∀ d ∈ (i.store c).held, d ≠ 0 ∧ d ≠ 13 := by
    intro d hd
    rw [hheld, List.mem_append, List.mem_singleton] at hd
    obtain hd | rfl := hd
    · exact h.plain d hd
    · exact ⟨h0, h13⟩
  have hshow : ∀ s, shown (s ++ i.held) [.put c] = s ++ (i.store c).held := by
    intro s
    rw [hheld, ← List.append_assoc]
    rfl
  constructor
  · obtain ⟨ho', hready', hline'⟩ := ho.commit
    refine ⟨⟨ho', ?_, fun _ => hline', hplain⟩, hshow, fun h => by cases h⟩
    rw [hline']
    intro d hd
    cases hd
  · intro hn he hroom
    refine ⟨⟨ho, ?_, ?_, hplain⟩, hshow, fun _ => hready⟩
    · intro d hd
      rw [hline, List.mem_append, List.mem_singleton] at hd
      obtain hd | rfl := hd
      · exact h.clean d hd
      · exact ⟨hn, he⟩
    · intro hf
      refine absurd ?_ hroom
      rw [Input.held_length] at hf
      have hsub : (i.store c).e - i.r = UInt32.ofNat INPUT_BUF := UInt32.toNat_inj.1 hf
      grind

theorem key_spec {i : Input} (h : Wf i) (c : UInt8) : Keyed i (key i c).1 (key i c).2.1 (key i c).2.2 := by
  unfold key
  by_cases hp : c = ctrl 'P'
  · rw [if_pos hp]
    exact .rfl h
  rw [if_neg hp]
  by_cases hu : c = ctrl 'U'
  · rw [if_pos hu]
    exact (killLine_spec _ i h rfl).1
  rw [if_neg hu]
  by_cases hb : c = ctrl 'H' ∨ c = 127
  · rw [if_pos hb]
    by_cases hne : i.e ≠ i.w
    · rw [if_pos hne]
      exact h.erase hne
    · rw [if_neg hne]
      exact .rfl h
  rw [if_neg hb]
  by_cases hroom : c ≠ 0 ∧ i.e - i.r < UInt32.ofNat INPUT_BUF
  · rw [if_pos hroom]
    have hlt : (i.e - i.r).toNat < INPUT_BUF := UInt32.lt_iff_toNat_lt.1 hroom.2
    have h0 : (if c = 13 then newline else c) ≠ 0 := by
      split
      · decide
      · exact hroom.1
    have h13 : (if c = 13 then newline else c) ≠ 13 := by
      split
      · decide
      · assumption
    dsimp only
    generalize (if c = 13 then newline else c) = d at h0 h13
    obtain ⟨hcommit, hstay⟩ := h.store hlt h0 h13
    split
    · exact hcommit
    · rename_i hend
      push Not at hend
      exact hstay hend.1 hend.2.1 hend.2.2
  · rw [if_neg hroom]
    exact .rfl h

/-! ## The loop of `consoleread` -/

/-- The ways out of the loop with `n` bytes to go, from `i` to `j`: the bytes stored, and what leaves the buffer. -/
inductive Got (target n : Nat) (i j : Input) : List UInt8 → Stop → Prop
  | full (cs : List UInt8) : cs.length = n → Clean cs → i.ready = cs ++ j.ready → Got target n i j cs .done
  | line (cs : List UInt8) : cs.length < n → Clean cs → i.ready = cs ++ newline :: j.ready →
      Got target n i j (cs ++ [newline]) .done
  | eof (cs rest : List UInt8) : cs.length < n → Clean cs → i.ready = cs ++ eof :: rest →
      j.ready = (if n - cs.length < target then eof :: rest else rest) → Got target n i j cs .done
  | empty (cs : List UInt8) : cs.length < n → Clean cs → i.ready = cs → j.ready = [] → Got target n i j cs .empty

theorem Clean.cons {c : UInt8} {cs : List UInt8} (hn : c ≠ newline) (he : c ≠ Console.eof) (h : Clean cs) :
    Clean (c :: cs) := by
  intro d hd
  obtain rfl | hd := List.mem_cons.1 hd
  · exact ⟨hn, he⟩
  · exact h d hd

theorem Clean.nil : Clean [] := fun _ h => by cases h

/-- One more byte in front. -/
theorem Got.cons {target n : Nat} {i i' j : Input} {c : UInt8} {cs : List UInt8} {stop : Stop}
    (hi : i.ready = c :: i'.ready) (hn : c ≠ newline) (he : c ≠ Console.eof) (h : Got target n i' j cs stop) :
    Got target (n + 1) i j (c :: cs) stop := by
  cases h with
  | full _ hlen hc hr =>
    exact .full _ (by rw [List.length_cons, hlen]) (hc.cons hn he) (by rw [hi, hr]; rfl)
  | line ds hlen hc hr =>
    exact .line (c :: ds) (by rw [List.length_cons]; omega) (hc.cons hn he) (by rw [hi, hr]; rfl)
  | eof _ rest hlen hc hr hj =>
    refine .eof (c :: cs) rest (by rw [List.length_cons]; omega) (hc.cons hn he) (by rw [hi, hr]; rfl) ?_
    rw [hj, List.length_cons, Nat.succ_sub_succ]
  | empty _ hlen hc hr hj =>
    exact .empty _ (by rw [List.length_cons]; omega) (hc.cons hn he) (by rw [hi, hr]) hj

theorem readLoop_got (target : Nat) : ∀ (n : Nat) (i : Input), i.Ordered →
    Got target n i (readLoop target n i).1 (readLoop target n i).2.1 (readLoop target n i).2.2 ∧
      (readLoop target n i).1.Ordered ∧ (readLoop target n i).1.line = i.line
  | 0, i, h => ⟨.full [] rfl .nil rfl, h, rfl⟩
  | n + 1, i, h => by
    by_cases hr : i.r = i.w
    · rw [readLoop, if_pos hr]
      have hnil := h.ready_eq_nil.2 hr
      exact ⟨.empty [] (by simp) .nil hnil hnil, h, rfl⟩
    · obtain ⟨ho, hready, hline⟩ := h.take hr
      rw [readLoop, if_neg hr]
      dsimp only
      by_cases he : i.buf (Input.slot i.r) = eof
      · rw [if_pos he]
        rw [he] at hready
        refine ⟨.eof [] i.take.ready (by simp) .nil hready ?_, ?_⟩
        · change _ = if n + 1 < target then _ else _
          split
          · rw [Input.untake_take, hready]
          · rfl
        · split
          · rw [Input.untake_take]
            exact ⟨h, rfl⟩
          · exact ⟨ho, hline⟩
      rw [if_neg he]
      by_cases hn : i.buf (Input.slot i.r) = newline
      · rw [if_pos hn, hn]
        rw [hn] at hready
        exact ⟨.line [] (by simp) .nil hready, ho, hline⟩
      · rw [if_neg hn]
        obtain ⟨hgot, ho', hline'⟩ := readLoop_got target n i.take ho
        exact ⟨hgot.cons hready hn he, ho', hline'.trans hline⟩

/-- What leaves the buffer is stored for the reader, the end of file excepted. -/
theorem Got.eaten {target n : Nat} {i j : Input} {cs : List UInt8} {stop : Stop} (h : Got target n i j cs stop) :
    ∃ gone, i.ready = gone ++ j.ready ∧ cs = text gone := by
  cases h with
  | full _ _ hc hr => exact ⟨cs, hr, hc.text_eq.symm⟩
  | line ds _ hc hr =>
    refine ⟨ds ++ [newline], by rw [hr]; simp, ?_⟩
    rw [text_append, hc.text_eq]
    rfl
  | eof _ rest _ hc hr hj =>
    split at hj
    · exact ⟨cs, by rw [hr, hj], hc.text_eq.symm⟩
    · refine ⟨cs ++ [Console.eof], by rw [hr, hj]; simp, ?_⟩
      rw [text_append, hc.text_eq, text_eof]
      exact (List.append_nil _).symm
  | empty _ _ hc hr hj => exact ⟨cs, by rw [hr, hj, List.append_nil], hc.text_eq.symm⟩

theorem Wf.read {i j : Input} {gone : List UInt8} (h : Wf i) (hj : j.Ordered) (hline : j.line = i.line)
    (hr : i.ready = gone ++ j.ready) : Wf j ∧ i.held = gone ++ j.held := by
  have hheld : i.held = gone ++ j.held := by
    rw [Input.held_eq, Input.held_eq, hline, hr, List.append_assoc]
  refine ⟨⟨hj, hline ▸ h.clean, fun hf => ?_, fun c hc => ?_⟩, hheld⟩
  · rw [hline]
    apply h.full
    have hsmall := h.ordered.small
    rw [← Input.held_length, hheld, List.length_append] at hsmall
    rw [hheld, List.length_append]
    omega
  · apply h.plain c
    rw [hheld]
    exact List.mem_append_right _ hc

/-! ## Steps and runs -/

/-- A call in progress has stored only characters of an unfinished line, and only so many as fit. -/
structure Good (s : Sys) : Prop where
  wf : Wf s.input
  calls : ∀ (pid : Nat) (n : Int) (dst : List UInt8) (asleep : Bool), s.calls pid = .read n dst asleep →
    Clean dst ∧ dst.length ≤ n.toNat ∧ (asleep = true → s.input.ready = [])

theorem good_init : Good init := by
  have hheld : init.input.held = [] := List.length_eq_zero_iff.1 (Input.held_length _)
  have hline : init.input.line = [] := by
    rw [Input.line, hheld]
    rfl
  refine ⟨⟨⟨?_, ?_⟩, ?_, fun _ => hline, ?_⟩, fun pid n dst asleep h => by cases h⟩
  · exact Nat.le_refl 0
  · exact Nat.zero_le _
  · rw [hline]
    exact .nil
  · rw [hheld]
    intro c hc
    cases hc

theorem wake_eq_read {c : Call} {n : Int} {dst : List UInt8} {asleep : Bool} (h : c.wake = .read n dst asleep) :
    asleep = false ∧ ∃ b, c = .read n dst b := by
  cases c with
  | idle => cases h
  | read m ds b =>
    cases h
    exact ⟨rfl, b, rfl⟩

theorem Good.key {s : Sys} (h : Good s) (c : UInt8) :
    Good (s.key c).1 ∧ ∀ x, shown (x ++ s.input.held) (s.key c).2 = x ++ (s.key c).1.input.held := by
  have hk := key_spec h.wf c
  unfold Sys.key
  dsimp only
  generalize Console.key s.input c = k at hk
  obtain ⟨j, es, wakes⟩ := k
  cases wakes with
  | false =>
    refine ⟨⟨hk.wf, fun pid n dst asleep hcall => ?_⟩, hk.shows⟩
    obtain ⟨hc, hn, ha⟩ := h.calls pid n dst asleep hcall
    exact ⟨hc, hn, fun hs => (hk.quiet rfl).trans (ha hs)⟩
  | true =>
    refine ⟨⟨hk.wf, fun pid n dst asleep hcall => ?_⟩, hk.shows⟩
    obtain ⟨rfl, b, hb⟩ := wake_eq_read hcall
    obtain ⟨hc, hn, -⟩ := h.calls pid n dst b hb
    exact ⟨hc, hn, fun hs => by cases hs⟩

theorem Good.intr : ∀ (cs : List UInt8) {s : Sys}, Good s → Good (s.consoleintr cs).1 ∧
    ∀ x, shown (x ++ s.input.held) (s.consoleintr cs).2 = x ++ (s.consoleintr cs).1.input.held
  | [], _, h => ⟨h, fun _ => rfl⟩
  | c :: cs, s, h => by
    obtain ⟨h1, hs1⟩ := h.key c
    obtain ⟨h2, hs2⟩ := Good.intr cs h1
    refine ⟨h2, fun x => ?_⟩
    change shown (x ++ s.input.held) ((s.key c).2 ++ _) = _
    rw [shown_append, hs1, hs2]
    rfl

theorem Good.setCall {s : Sys} (h : Good s) (pid : Nat) {c : Call}
    (hc : ∀ (n : Int) (dst : List UInt8) (asleep : Bool), c = .read n dst asleep →
      Clean dst ∧ dst.length ≤ n.toNat ∧ (asleep = true → s.input.ready = [])) : Good (s.setCall pid c) := by
  refine ⟨h.wf, fun p n dst asleep hcall => ?_⟩
  change Function.update s.calls pid c p = _ at hcall
  by_cases hp : p = pid
  · rw [hp, Function.update_self] at hcall
    exact hc n dst asleep hcall
  · rw [Function.update_of_ne hp] at hcall
    exact h.calls p n dst asleep hcall

/-- The readers' part shrinks, nobody falls asleep. -/
theorem Good.input {s : Sys} (h : Good s) {j : Input} {gone : List UInt8} (hj : Wf j)
    (hr : s.input.ready = gone ++ j.ready) : Good { s with input := j } := by
  refine ⟨hj, fun p n dst asleep hcall => ?_⟩
  obtain ⟨hc, hn, ha⟩ := h.calls p n dst asleep hcall
  refine ⟨hc, hn, fun hs => ?_⟩
  have hnil := ha hs
  rw [hr] at hnil
  exact (List.append_eq_nil_iff.1 hnil).2

/-- How a call for `n` bytes returns: killed while it waits, or with as much as there was room for, or with a line, or
before an end of file. An end of file that ends a read of some bytes is kept for the next. -/
inductive Returned (s t : Sys) (pid : Nat) (n : Int) : Int → List UInt8 → Prop
  | killed (dst : List UInt8) : s.killed pid = true → t.input.ready = [] → Clean dst → dst.length < n.toNat →
      Returned s t pid n (-1) dst
  | full (dst : List UInt8) : dst.length = n.toNat → Clean dst → Returned s t pid n dst.length dst
  | line (dst : List UInt8) : dst.length < n.toNat → Clean dst →
      Returned s t pid n (dst.length + 1) (dst ++ [newline])
  | kept (dst rest : List UInt8) : dst ≠ [] → dst.length < n.toNat → Clean dst → t.input.ready = eof :: rest →
      Returned s t pid n dst.length dst
  | eof (rest : List UInt8) : 0 < n.toNat → s.input.ready = eof :: rest → t.input.ready = rest → Returned s t pid n 0 []

theorem Clean.append {cs ds : List UInt8} (h : Clean cs) (h' : Clean ds) : Clean (cs ++ ds) :=
  fun c hc => (List.mem_append.1 hc).elim (h c) (h' c)

/-- The return of a call that had stored `dst`, from the way out of its loop. -/
theorem Got.returned {s t : Sys} {pid : Nat} {n : Int} {dst cs : List UInt8} (hd : Clean dst)
    (hn : dst.length ≤ n.toNat)
    (h : Got n.toNat (n.toNat - dst.length) s.input t.input cs .done) :
    Returned s t pid n (dst ++ cs).length (dst ++ cs) := by
  cases h with
  | full _ hlen hc hr =>
    refine .full _ ?_ (hd.append hc)
    rw [List.length_append]
    omega
  | line ds hlen hc hr =>
    have hlast : (dst ++ ds ++ [newline]).length = (dst ++ ds).length + 1 := List.length_append
    rw [← List.append_assoc, hlast, Int.natCast_add]
    refine .line _ ?_ (hd.append hc)
    rw [List.length_append]
    omega
  | eof _ rest hlen hc hr hj =>
    have hlen' : (dst ++ cs).length < n.toNat := by
      rw [List.length_append]
      omega
    by_cases hnil : dst ++ cs = []
    · obtain ⟨rfl, rfl⟩ := List.append_eq_nil_iff.1 hnil
      rw [if_neg (by simp)] at hj
      exact .eof rest hlen' hr hj
    · have hpos := List.length_pos_iff.2 hnil
      rw [List.length_append] at hpos hlen'
      rw [if_pos (by omega)] at hj
      refine .kept _ rest hnil ?_ (hd.append hc) hj
      rw [List.length_append]
      omega

theorem Good.read {s : Sys} (h : Good s) {pid : Nat} {n : Int} {dst : List UInt8}
    (hcall : s.calls pid = .read n dst false) :
    Good (s.consoleread pid n dst).1 ∧
      (∃ gone, s.input.held = gone ++ (s.consoleread pid n dst).1.input.held ∧
        (s.consoleread pid n dst).2.copied = text gone) ∧
      (s.consoleread pid n dst).2.echoed = [] ∧
      ∀ (v : Int) (out : List UInt8), (s.consoleread pid n dst).2.ret = some (v, out) →
        Returned s (s.consoleread pid n dst).1 pid n v out := by
  obtain ⟨hd, hn, -⟩ := h.calls pid n dst false hcall
  obtain ⟨hgot, ho, hline⟩ := readLoop_got n.toNat (n.toNat - dst.length) s.input h.wf.ordered
  unfold Sys.consoleread
  generalize readLoop n.toNat (n.toNat - dst.length) s.input = r at hgot ho hline
  obtain ⟨j, cs, stop⟩ := r
  dsimp only at hgot ho hline
  obtain ⟨gone, hr, htext⟩ := hgot.eaten
  obtain ⟨hwf, hheld⟩ := h.wf.read ho hline hr
  have hinput := h.input hwf hr
  cases stop with
  | done =>
    refine ⟨hinput.setCall pid (fun n ds a hc => by cases hc), ⟨gone, hheld, htext⟩, rfl, fun v out hv => ?_⟩
    cases hv
    exact Got.returned (t := Sys.setCall { s with input := j } pid .idle) hd hn hgot
  | empty =>
    cases hgot with
    | empty _ hlen hc _ hj =>
      have hlen' : (dst ++ cs).length < n.toNat := by
        rw [List.length_append]
        omega
      dsimp only
      split
      · rename_i hk
        refine ⟨hinput.setCall pid (fun n ds a hc => by cases hc), ⟨gone, hheld, htext⟩, rfl, fun v out hv => ?_⟩
        cases hv
        exact .killed _ hk hj (hd.append hc) hlen'
      · refine ⟨hinput.setCall pid (fun m ds a he => ?_), ⟨gone, hheld, htext⟩, rfl, fun v out hv => by cases hv⟩
        cases he
        exact ⟨hd.append hc, hlen'.le, fun _ => hj⟩

/-- What one step does to the terminal, to the buffer and to the readers. -/
theorem step_spec {s t : Sys} {l : Act × Seen} (h : Good s) (hstep : Step s l t) :
    Good t ∧ ∃ gone, l.2.copied = text gone ∧
    ∀ x, shown (x ++ s.input.held) l.2.echoed = x ++ gone ++ t.input.held := by
  obtain ⟨a, seen⟩ := l
  unfold Step at hstep
  cases a with
  | intr keys =>
    cases hstep
    obtain ⟨hg, hs⟩ := h.intr keys
    exact ⟨hg, [], rfl, fun x => by rw [List.append_nil]; exact hs x⟩
  | read pid n =>
    simp only [next] at hstep
    split at hstep
    · cases hstep
      refine ⟨h.setCall pid fun m ds a hc => ?_, [], rfl, fun x => by rw [List.append_nil]; rfl⟩
      cases hc
      exact ⟨.nil, Nat.zero_le _, fun hc => by cases hc⟩
    · cases hstep
  | run pid =>
    simp only [next] at hstep
    split at hstep
    · rename_i n dst hcall
      obtain ⟨hg, ⟨gone, hheld, hcopied⟩, he, -⟩ := h.read hcall
      rw [Option.some.inj hstep] at hg hheld hcopied he
      refine ⟨hg, gone, hcopied, fun x => ?_⟩
      rw [he, hheld, ← List.append_assoc]
      rfl
    · cases hstep
  | kill pid =>
    cases hstep
    refine ⟨⟨h.wf, fun p n dst asleep hcall => ?_⟩, [], rfl, fun x => by rw [List.append_nil]; rfl⟩
    change Function.update s.calls pid (s.calls pid).wake p = _ at hcall
    by_cases hp : p = pid
    · rw [hp, Function.update_self] at hcall
      obtain ⟨rfl, b, hb⟩ := wake_eq_read hcall
      obtain ⟨hc, hn, -⟩ := h.calls pid n dst b hb
      exact ⟨hc, hn, fun hs => by cases hs⟩
    · rw [Function.update_of_ne hp] at hcall
      exact h.calls p n dst asleep hcall

theorem run_spec {s t : Sys} {ls : List (Act × Seen)} (h : Run Step s ls t) (hs : Good s) :
    Good t ∧ ∃ gone, copied ls = text gone ∧
      ∀ x, shown (x ++ s.input.held) (echoed ls) = x ++ gone ++ t.input.held := by
  induction h with
  | nil s => exact ⟨hs, [], rfl, fun x => by rw [List.append_nil]; rfl⟩
  | @cons s u t l ls hstep _ ih =>
    obtain ⟨hu, gone, hc, hshow⟩ := step_spec hs hstep
    obtain ⟨ht, gone', hc', hshow'⟩ := ih hu
    refine ⟨ht, gone ++ gone', ?_, fun x => ?_⟩
    · rw [text_append, ← hc, ← hc']
      rfl
    · calc shown (x ++ s.input.held) (l.2.echoed ++ echoed ls)
          = shown (x ++ gone ++ u.input.held) (echoed ls) := by rw [shown_append, hshow]
        _ = x ++ (gone ++ gone') ++ t.input.held := by rw [hshow', List.append_assoc x]

/-- After the steps `ls`: the terminal shows what the readers got, what they can get and the line being edited. That
line has no newline and no end of file, a full buffer leaves nothing to edit, and nobody sleeps at a buffer with
something in it. -/
structure Told (ls : List (Act × Seen)) (t : Sys) : Prop where
  terminal : ∃ gone, shown [] (echoed ls) = gone ++ t.input.ready ++ t.input.line ∧ copied ls = text gone
  edited : Clean t.input.line
  small : t.input.ready.length + t.input.line.length ≤ INPUT_BUF
  full : t.input.ready.length + t.input.line.length = INPUT_BUF → t.input.line = []
  awake : t.input.ready ≠ [] → ∀ (pid : Nat) (n : Int) (dst : List UInt8), t.calls pid ≠ .read n dst true

/-- **The line discipline.** After any interrupts and any steps of any readers, what the keys have put on the terminal
is what the readers have got and what the buffer holds; and every read returns at most what was asked for, at most a
line, and short only at the end of a line, at an end of file, or killed. -/
theorem console_discipline {ls : List (Act × Seen)} {t : Sys} (h : Run Step init ls t) :
    Told ls t ∧ ∀ (pid : Nat) (n v : Int) (dst out : List UInt8) (seen : Seen) (u : Sys),
      t.calls pid = .read n dst false → Step t (.run pid, seen) u → seen.ret = some (v, out) →
        Returned t u pid n v out := by
  obtain ⟨hg, gone, hc, hshow⟩ := run_spec h good_init
  have hnil : init.input.held = [] := List.length_eq_zero_iff.1 (Input.held_length _)
  have hlen : t.input.held.length = t.input.ready.length + t.input.line.length := by
    rw [Input.held_eq, List.length_append]
  refine ⟨⟨⟨gone, ?_, hc⟩, hg.wf.clean, ?_, ?_, ?_⟩, ?_⟩
  · have := hshow []
    rwa [hnil, List.nil_append, Input.held_eq, List.nil_append, ← List.append_assoc] at this
  · rw [← hlen, Input.held_length]
    exact hg.wf.ordered.small
  · rw [← hlen]
    exact hg.wf.full
  · intro hne pid n dst hcall
    exact hne ((hg.calls pid n dst true hcall).2.2 rfl)
  · intro pid n v dst out seen u hcall hstep hret
    obtain ⟨-, -, -, hr⟩ := hg.read hcall
    have hnext : some (t.consoleread pid n dst) = some (u, seen) := by
      simpa [Step, next, hcall] using hstep
    rw [Option.some.inj hnext] at hr
    exact hr v out hret

/-- Process 1 waits for a line; `h`, `x`, a backspace, `i` and return are typed; process 1 reads on. -/
def typed : List (Act × Seen) :=
  [(.read 1 10, .none), (.run 1, .none), (.intr [104, 120, 8, 105, 13], ⟨[.put 104, .put 120, .back, .put 105,
    .put newline], [], none⟩), (.run 1, ⟨[], [104, 105, newline], some (3, [104, 105, newline])⟩), (.read 1 10, .none)]

theorem console_discipline_typed : ∃ t, Run Step init typed t ∧ Told typed t ∧
    ∀ (pid : Nat) (n v : Int) (dst out : List UInt8) (seen : Seen) (u : Sys),
      t.calls pid = .read n dst false → Step t (.run pid, seen) u → seen.ret = some (v, out) →
        Returned t u pid n v out := by
  have hrun : ∃ t, Run Step init typed t :=
    ⟨_, .cons rfl (.cons rfl (.cons rfl (.cons rfl (.cons rfl (.nil _)))))⟩
  obtain ⟨t, ht⟩ := hrun
  exact ⟨t, ht, console_discipline ht⟩

end Console

end Xv6
