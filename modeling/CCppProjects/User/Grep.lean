import CCppProjects.Lib.Lines
/-
# grep (grep.c)

| here | there |
|---|---|
| `matchRe`, `matchhere`, `matchstar` | `match`, `matchhere`, `matchstar` (grep.c:79-106), on strings without their NUL |
| `strchr` | `strchr(p, '\n')`: stops at a NUL |
| `scan`   | the inner loop (:20-26): the lines it meets and what `p` points to after it |
| `kept`   | `m` and `memmove` (:27-32): what stays in `buf` for the next round |
| `grep`   | the loop over the chunks that `read` returns (:16-34) |

`if(p == buf) m = 0` drops what has been read of a line whose end is not in the buffer yet, and everything
from a NUL on is out of reach of `strchr`. So `grep` writes the lines that match, however they arrive, exactly
when there is no NUL and every chunk has a line end (`grep_lines`).
-/
namespace Grep

open Lines

abbrev Bytes := List UInt8

/-- '\n'. -/
def nl : UInt8 := 10

/-! ## Matching -/

/-- `c*re` at the beginning of the text, `here` what matches `re` there. -/
def matchstar (here : Bytes → Bool) (c : UInt8) : Bytes → Bool
  | [] => here []
  | t :: ts => here (t :: ts) || ((t == c || c == 46) && matchstar here c ts)

/-- grep.c:92-104; 42 is `*`, 36 `$`, 46 `.`. -/
def matchhere : Bytes → Bytes → Bool
  | [], _ => true
  | [c], text =>
    if c = 36 then text.isEmpty
    else match text with
      | t :: _ => c == 46 || c == t
      | [] => false
  | c :: d :: re, text =>
    if d = 42 then matchstar (matchhere re) c text
    else match text with
      | t :: ts => (c == 46 || c == t) && matchhere (d :: re) ts
      | [] => false

/-- The loop of `match`: `re` at some place of the text, its end included. -/
def matchAnywhere (re : Bytes) : Bytes → Bool
  | [] => matchhere re []
  | t :: ts => matchhere re (t :: ts) || matchAnywhere re ts

/-- grep.c:79-90; 94 is `^`. -/
def matchRe (re text : Bytes) : Bool :=
  match re with
  | 94 :: re => matchhere re text
  | re => matchAnywhere re text

/-- The string a `char *` points to. -/
def cstr (bytes : Bytes) : Bytes := bytes.takeWhile (· ≠ 0)

/-! ## One buffer -/

/-- `strchr(p, c)` as the bytes before the place found and those behind it. -/
def strchr (c : UInt8) : Bytes → Option (Bytes × Bytes)
  | [] => none
  | b :: bs =>
    if b = 0 then none
    else if b = c then some ([], bs)
    else (strchr c bs).map fun (line, rest) => (b :: line, rest)

theorem strchr_eq {c : UInt8} : ∀ {bs line rest : Bytes}, strchr c bs = some (line, rest) →
    bs = line ++ c :: rest ∧ c ∉ line ∧ 0 ∉ line
  | [], _, _, h => by cases h
  | b :: bs, line, rest, h => by
    rw [strchr] at h
    split at h
    · cases h
    · next h0 =>
      split at h
      · next hc =>
        cases h
        exact ⟨by rw [hc]; rfl, by simp, by simp⟩
      · next hc =>
        obtain ⟨⟨line', rest'⟩, h', he⟩ := Option.map_eq_some_iff.1 h
        cases he
        obtain ⟨rfl, hline, hzero⟩ := strchr_eq h'
        exact ⟨rfl, by simpa using ⟨Ne.symm hc, hline⟩, by simpa using ⟨Ne.symm h0, hzero⟩⟩

theorem strchr_line {c : UInt8} : ∀ {line : Bytes}, c ∉ line → 0 ∉ line → c ≠ 0 →
    ∀ rest, strchr c (line ++ c :: rest) = some (line, rest)
  | [], _, _, hc, rest => by simp [strchr, hc]
  | b :: line, hline, hzero, hc, rest => by
    rw [List.mem_cons, not_or] at hline hzero
    rw [List.cons_append, strchr, if_neg (Ne.symm hzero.1), if_neg (Ne.symm hline.1),
      strchr_line hline.2 hzero.2 hc rest]
    rfl

theorem strchr_none {c : UInt8} {bs : Bytes} (h : c ∉ bs) : strchr c bs = none := by
  cases hs : strchr c bs with
  | none => rfl
  | some x =>
    obtain ⟨rfl, -⟩ := strchr_eq hs
    simp at h

/-- The inner loop: the lines before which it finds a line end, and what is left at `p`. -/
def scan (p : Bytes) : List Bytes × Bytes :=
  match _h : strchr nl p with
  | none => ([], p)
  | some (line, rest) => (line :: (scan rest).1, (scan rest).2)
termination_by p.length
decreasing_by all_goals
  obtain ⟨rfl, -⟩ := strchr_eq _h
  simp only [List.length_append, List.length_cons]
  omega

/-- What stays in the buffer: nothing when `p` has not moved. -/
def kept (buf : Bytes) : Bytes := if (scan buf).2.length = buf.length then [] else (scan buf).2

/-- The loop of `grep` from the bytes in the buffer, over what each `read` adds to them: what it writes. -/
def grep (pattern : Bytes) : Bytes → List Bytes → Bytes
  | _, [] => []
  | held, chunk :: chunks =>
    text nl ((scan (held ++ chunk)).1.filter (matchRe pattern)) ++ grep pattern (kept (held ++ chunk)) chunks

/-- Chunks as `read(fd, buf+m, sizeof(buf)-m-1)` may return them: not empty, not more than asked for. -/
def Reads : Bytes → List Bytes → Prop
  | _, [] => True
  | held, chunk :: chunks => chunk ≠ [] ∧ chunk.length ≤ 1024 - held.length - 1 ∧ Reads (kept (held ++ chunk)) chunks

theorem scan_none {p : Bytes} (h : strchr nl p = none) : scan p = ([], p) := by
  rw [scan]
  split
  · rfl
  · next h' =>
    rw [h] at h'
    cases h'

theorem scan_some {p line rest : Bytes} (h : strchr nl p = some (line, rest)) :
    scan p = (line :: (scan rest).1, (scan rest).2) := by
  rw [scan]
  split
  · next h' =>
    rw [h] at h'
    cases h'
  · next h' =>
    rw [h] at h'
    cases h'
    rfl

/-- Lines without NUL and the beginning of another one. -/
theorem scan_text (ls : List Bytes) {tail : Bytes} (hls : ∀ l ∈ ls, nl ∉ l ∧ 0 ∉ l) (htail : nl ∉ tail) :
    scan (text nl ls ++ tail) = (ls, tail) := by
  induction ls with
  | nil => exact scan_none (strchr_none htail)
  | cons l ls ih =>
    rw [List.forall_mem_cons] at hls
    have hfound : strchr nl (text nl (l :: ls) ++ tail) = some (l, text nl ls ++ tail) := by
      rw [text_cons, List.append_assoc, List.cons_append]
      exact strchr_line hls.1.1 hls.1.2 (by decide) _
    rw [scan_some hfound, ih hls.2]

/-- The lines met and what is left are what was there; no line has a NUL. -/
theorem scan_spec (p : Bytes) : text nl (scan p).1 ++ (scan p).2 = p ∧ ∀ l ∈ (scan p).1, 0 ∉ l := by
  induction p using scan.induct with
  | case1 p h =>
    rw [scan_none h]
    simp
  | case2 p line rest h ih =>
    obtain ⟨hp, -, hzero⟩ := strchr_eq h
    rw [scan_some h, text_cons, List.append_assoc, List.cons_append, ih.1, List.forall_mem_cons]
    exact ⟨hp.symm, hzero, ih.2⟩

/-! ## All chunks -/

section Run

variable {ls : List Bytes} {held chunk : Bytes} {chunks : List Bytes} {pattern : Bytes}

theorem matchRe_nil (t : Bytes) : matchRe [] t = true := by
  cases t <;> simp [matchRe, matchAnywhere, matchhere]

theorem grep_nil_pattern (held chunk : Bytes) (chunks : List Bytes) :
    grep [] held (chunk :: chunks) = text nl (scan (held ++ chunk)).1 ++ grep [] (kept (held ++ chunk)) chunks := by
  rw [grep, List.filter_eq_self.2 fun l _ => matchRe_nil l]

theorem kept_length (buf : Bytes) : (kept buf).length ≤ (scan buf).2.length := by
  unfold kept
  split
  · exact Nat.zero_le _
  · exact Nat.le_refl _

/-- Nothing written has a NUL. -/
theorem zero_not_mem_grep (pattern : Bytes) : ∀ (chunks : List Bytes) (held : Bytes), 0 ∉ grep pattern held chunks
  | [], _ => by simp [grep]
  | chunk :: chunks, held => by
    rw [grep, List.mem_append, not_or]
    refine ⟨fun h => ?_, zero_not_mem_grep pattern chunks _⟩
    obtain ⟨l, hl, h⟩ := List.mem_flatMap.1 h
    rcases List.mem_append.1 h with h | h
    · exact (scan_spec _).2 l (List.mem_filter.1 hl).1 h
    · rw [List.mem_singleton] at h
      cases h

/-- With the pattern that matches everything no more is written than has been read. -/
theorem grep_length_le : ∀ (chunks : List Bytes) (held : Bytes), (grep [] held chunks).length ≤
    held.length + chunks.flatten.length
  | [], _ => by simp [grep]
  | chunk :: chunks, held => by
    have h1 := congrArg List.length (scan_spec (held ++ chunk)).1
    have h2 := kept_length (held ++ chunk)
    have h3 := grep_length_le chunks (kept (held ++ chunk))
    rw [grep_nil_pattern]
    simp only [List.length_append, List.flatten_cons] at h1 h3 ⊢
    omega

/-- A buffer without NUL in which a line ends: its lines are met and the beginning of the next one stays. -/
theorem scan_whole (buf : Bytes) (h0 : 0 ∉ buf) (hnl : nl ∈ buf) : ∃ ms tail, buf = text nl ms ++ tail ∧
    (∀ l ∈ ms, nl ∉ l) ∧
    nl ∉ tail ∧ (scan buf).1 = ms ∧ kept buf = tail := by
  obtain ⟨ms, tail, rfl, hms, htail⟩ := exists_text nl buf
  rw [List.mem_append, not_or] at h0
  have hscan : scan (text nl ms ++ tail) = (ms, tail) :=
    scan_text ms (fun l hl => ⟨hms l hl, fun h => h0.1 (mem_text hl h)⟩) htail
  refine ⟨ms, tail, rfl, hms, htail, by rw [hscan], ?_⟩
  have hne : ms ≠ [] := by
    rintro rfl
    exact htail (by simpa using hnl)
  obtain ⟨m, ms', rfl⟩ := List.exists_cons_of_ne_nil hne
  unfold kept
  rw [hscan, if_neg]
  simp only [text_cons, List.length_append, List.length_cons]
  omega

/-- Less, when a chunk leaves no line end in the buffer. -/
theorem grep_length_lt : ∀ (chunks : List Bytes) (held : Bytes), nl ∉ held → 0 ∉ held →
    0 ∉ chunks.flatten → Reads held chunks →
    (∃ chunk ∈ chunks, nl ∉ chunk) → (grep [] held chunks).length < held.length + chunks.flatten.length
  | [], _, _, _, _, _, h => by simp at h
  | chunk :: chunks, held, hheld, h0, hz, hreads, hbad => by
    rw [List.flatten_cons, List.mem_append, not_or] at hz
    rw [grep_nil_pattern]
    by_cases hnl : nl ∈ chunk
    · obtain ⟨ms, tail, hbuf, -, htail, hms, hkept⟩ :=
        scan_whole (held ++ chunk) (by simpa using ⟨h0, hz.1⟩) (by simp [hnl])
      have hlater : ∃ chunk ∈ chunks, nl ∉ chunk := by
        obtain ⟨c, hc, hcnl⟩ := hbad
        rcases List.mem_cons.1 hc with rfl | hc
        · exact absurd hnl hcnl
        · exact ⟨c, hc, hcnl⟩
      have htail0 : 0 ∉ tail := by
        have h : 0 ∉ held ++ chunk := by simpa using ⟨h0, hz.1⟩
        rw [hbuf, List.mem_append, not_or] at h
        exact h.2
      have h1 := grep_length_lt chunks tail htail htail0 hz.2 (hkept ▸ hreads.2.2) hlater
      have h2 := congrArg List.length hbuf
      rw [hms, hkept]
      simp only [List.length_append, List.flatten_cons] at h1 h2 ⊢
      omega
    · have hnone : scan (held ++ chunk) = ([], held ++ chunk) := scan_none (strchr_none (by simp [hheld, hnl]))
      have hkept : kept (held ++ chunk) = [] := by
        unfold kept
        rw [hnone]
        exact if_pos rfl
      have h3 := grep_length_le chunks []
      have hpos : 0 < chunk.length := List.length_pos_iff.2 hreads.1
      rw [hnone, hkept]
      simp only [text_nil, List.nil_append, List.length_append, List.flatten_cons, List.length_nil] at h3 ⊢
      omega

/-- Where every chunk has a line end, the lines that match are written, whatever the chunks. -/
theorem grep_whole (pattern : Bytes) : ∀ (chunks : List Bytes) (held : Bytes) (ls : List Bytes), (∀ l ∈ ls, nl ∉ l) →
    0 ∉ text nl ls → nl ∉ held → held ++ chunks.flatten = text nl ls → (∀ chunk ∈ chunks, nl ∈ chunk) →
    grep pattern held chunks = text nl (ls.filter (matchRe pattern))
  | [], held, ls, _, _, hheld, htext, _ => by
    rw [List.flatten_nil, List.append_nil] at htext
    have hls : ls = [] := text_eq_nil (htext ▸ hheld)
    rw [hls]
    rfl
  | chunk :: chunks, held, ls, hls, h0, hheld, htext, hall => by
    rw [List.forall_mem_cons] at hall
    rw [List.flatten_cons, ← List.append_assoc] at htext
    have hbuf0 : 0 ∉ held ++ chunk := fun h => h0 (htext ▸ List.mem_append_left _ h)
    obtain ⟨ms, tail, hbuf, hmsnl, htail, hms, hkept⟩ := scan_whole _ hbuf0 (List.mem_append_right _ hall.1)
    rw [hbuf, List.append_assoc] at htext
    obtain ⟨ns, rfl, hrest⟩ := text_prefix hmsnl hls htext
    have hns0 : 0 ∉ text nl ns := by
      rw [text_append, List.mem_append, not_or] at h0
      exact h0.2
    rw [grep, hms, hkept, List.filter_append, text_append,
      grep_whole pattern chunks tail ns (fun l hl => hls l (List.mem_append_right _ hl)) hns0 htail hrest hall.2]

end Run

theorem cstr_eq {l : Bytes} (h : 0 ∉ l) : cstr l = l := by
  induction l with
  | nil => rfl
  | cons b l ih =>
    rw [List.mem_cons, not_or] at h
    rw [cstr, List.takeWhile_cons, if_pos (by simpa using Ne.symm h.1)]
    exact congrArg (b :: ·) (ih h.2)

/-- **Input in any chunks.** Whatever the pattern, `grep` writes the lines that match, each once and in order,
exactly when no line has a NUL and no chunk lies inside a line. -/
theorem grep_lines (ls chunks : List Bytes) (hls : ∀ l ∈ ls, nl ∉ l)
    (hinput : chunks.flatten = text nl ls) (hreads : Reads [] chunks) :
    (∀ pattern, grep pattern [] chunks = text nl (ls.filter fun l => matchRe pattern (cstr l))) ↔
      (∀ l ∈ ls, 0 ∉ l) ∧ ∀ chunk ∈ chunks, nl ∈ chunk := by
  constructor
  · intro h
    -- the empty pattern matches every line, so all that was read is written
    have hall := h []
    rw [List.filter_eq_self.2 fun l _ => matchRe_nil (cstr l)] at hall
    have hzero : 0 ∉ text nl ls := hall ▸ zero_not_mem_grep [] chunks []
    refine ⟨fun l hl h0 => hzero (mem_text hl h0), ?_⟩
    by_contra hsome
    push Not at hsome
    have hlt := grep_length_lt chunks [] (by simp) (by simp) (hinput ▸ hzero) hreads hsome
    rw [hall, hinput] at hlt
    simp at hlt
  · rintro ⟨h0, hnl⟩ pattern
    have hzero : 0 ∉ text nl ls := by
      intro h
      obtain ⟨l, hl, h⟩ := List.mem_flatMap.1 h
      rcases List.mem_append.1 h with h | h
      · exact h0 l hl h
      · rw [List.mem_singleton] at h
        cases h
    rw [grep_whole pattern chunks [] ls hls hzero (by simp) (by simpa using hinput) hnl]
    congr 1
    refine List.filter_congr fun l hl => ?_
    rw [cstr_eq (h0 l hl)]

/-- "a", "hello" and "by" in three chunks; the first two end inside a line. -/
def threeChunks : List Bytes := [[97, 10, 104, 101], [108, 108, 111, 10, 98], [121, 10]]

theorem threeChunks_reads : Reads [] threeChunks := by
  have h1 : kept [97, 10, 104, 101] = [104, 101] := by
    rw [kept, show scan [97, 10, 104, 101] = ([[97]], [104, 101]) from scan_text [[97]] (by decide) (by decide)]
    rfl
  have h2 : kept [104, 101, 108, 108, 111, 10, 98] = [98] := by
    rw [kept, show scan [104, 101, 108, 108, 111, 10, 98] = ([[104, 101, 108, 108, 111]], [98]) from
      scan_text [[104, 101, 108, 108, 111]] (by decide) (by decide)]
    rfl
  simp [Reads, threeChunks, h1, h2]

theorem grep_lines_carried : grep [104, 46, 42, 111] [] threeChunks =
    text nl ([[97], [104, 101, 108, 108, 111], [98, 121]].filter fun l => matchRe [104, 46, 42, 111] (cstr l)) :=
  (grep_lines [[97], [104, 101, 108, 108, 111], [98, 121]] threeChunks (by decide) (by decide)
    threeChunks_reads).2
    ⟨by decide, by decide⟩ [104, 46, 42, 111]

/-- "hello" in two chunks: its first half is dropped. -/
theorem grep_drops_half : ¬ ∀ (pattern : Bytes) (ls chunks : List Bytes),
    (∀ l ∈ ls, nl ∉ l ∧ l.length + 1 < 1024) → chunks.flatten = text nl ls →
    Reads [] chunks → grep pattern [] chunks = text nl (ls.filter fun l => matchRe pattern (cstr l)) := by
  intro h
  have hfirst : scan [104, 101] = ([], [104, 101]) := scan_none (by decide)
  have hkept : kept [104, 101] = [] := by
    unfold kept
    rw [hfirst]
    rfl
  have hrest : scan [108, 108, 111, 10] = ([[108, 108, 111]], []) := scan_text [[108, 108, 111]] (by decide) (by decide)
  have hall := h [104, 101, 108, 108, 111] [[104, 101, 108, 108, 111]] [[104, 101], [108, 108, 111, 10]]
    (by decide) (by decide)
    ⟨by decide, by decide, by decide, by simp [hkept], trivial⟩
  rw [grep, grep, grep, List.nil_append, hkept, List.nil_append, hfirst, hrest] at hall
  revert hall
  decide

end Grep
