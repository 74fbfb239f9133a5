import CCppProjects.Rest.Line
import Mathlib.Data.List.Chain
import Mathlib.Data.List.TakeWhile
/-
# The words of a line (Restaurant.cpp:270-293)

| here | there |
|---|---|
| `charAt` | `str[i]`: behind the last character is a NUL, behind that nothing |
| `innerLoop` | `:279-283`, which reads `str[i]` before it looks at the length |
| `wordsFrom` | the loop over `i` (`:276-291`); its `if` holds of every character, and `counter` is never read |
| `words` | the maximal runs of characters other than separators |

`getWordVec` of the command loop is what the two loops come to (`wordsFrom_eq`). A separator ends a word even where no
word has begun, so a line must not begin with one or have two in a row.
-/
namespace Rest

/-! ## The loops -/

/-- `str[i]`. -/
def charAt (str : Line) (i : Nat) : Except Fault Char :=
  match str[i]? with
  | some c => .ok c
  | none => if i = str.length then .ok (Char.ofNat 0) else .error .badIndex

/-- `i++` of an `int`. -/
def inc (i : Nat) : Except Fault Nat := if i + 1 < 2 ^ 31 then .ok (i + 1) else .error .overflow

/-- Restaurant.cpp:279-283. -/
def innerLoop (str : Line) (temp : Line) (i : Nat) : Except Fault (Line × Nat) := do
  let c ← charAt str i
  if h : (c ≠ ' ' ∧ c ≠ ',') ∧ i < str.length then do
    let _ ← inc i
    innerLoop str (temp ++ [c]) (i + 1)
  else .ok (temp, i)
termination_by str.length - i

/-- Restaurant.cpp:276-291, from `i` on; every round takes a character. -/
def wordsFrom (str : Line) : Nat → Nat → List Line → Except Fault (List Line)
  | 0, _, inputVec => .ok inputVec
  | rounds + 1, i, inputVec =>
    if i < str.length then do
      let c ← charAt str i
      let (inputVec, i) ← if c ≠ ' ' ∨ c ≠ ',' then do
          let (temp, i) ← innerLoop str [] i
          .ok (inputVec ++ [temp], i)
        else .ok (inputVec, i)
      let _ ← charAt str i
      let i ← inc i
      wordsFrom str rounds i inputVec
    else .ok inputVec

/-! ## What a line should fall into -/

/-- The pieces between separators that are not empty. -/
def words (str : Line) : List Line := (str.splitOnP separator).filter fun w => w ≠ []

/-- No separator at the beginning, and no two in a row. -/
structure Single (str : Line) : Prop where
  head : ∀ c, str.head? = some c → separator c = false
  chain : str.IsChain fun a b => separator a = false ∨ separator b = false

/-- The largest value of `i`. -/
def lastIndex (str : Line) : Nat :=
  match str.getLast? with
  | none => 0
  | some c => if separator c then str.length else str.length + 1

/-! ## Words and separators -/

section

variable {w s rest : Line} {c : Char}

/-- A line is a word, or a word, a separator and a line. -/
theorem line_induction {P : Line → Prop} (hnil : P []) (hword : ∀ w, w ≠ [] → (∀ c ∈ w, separator c = false) → P w)
    (hsep : ∀ w c s, (∀ c ∈ w, separator c = false) → separator c = true → P s → P (w ++ c :: s)) (s : Line) : P s := by
  induction h : s.length using Nat.strongRecOn generalizing s with
  | ind n ih =>
    have hw : ∀ c ∈ s.takeWhile fun c => !separator c, separator c = false := fun c hc => by
      simpa using List.mem_takeWhile_imp hc
    have hs : s = s.takeWhile (fun c => !separator c) ++ s.dropWhile fun c => !separator c :=
      (List.takeWhile_append_dropWhile ..).symm
    cases hd : s.dropWhile fun c => !separator c with
    | nil =>
      rw [hd, List.append_nil] at hs
      rw [← hs] at hw
      by_cases hnil' : s = []
      · rw [hnil']
        exact hnil
      · exact hword s hnil' hw
    | cons c rest =>
      have hc : separator c = true := by
        have hne : s.dropWhile (fun c => !separator c) ≠ [] := by simp [hd]
        have := List.head_dropWhile_not (fun c => !separator c) hne
        simpa [hd] using this
      rw [hd] at hs
      rw [hs]
      refine hsep _ c rest hw hc (ih rest.length ?_ rest rfl)
      rw [← h, hs, List.length_append, List.length_cons]
      omega

theorem getWordVec_word (hne : w ≠ []) (hw : ∀ c ∈ w, separator c = false) : getWordVec w = [w] := by
  induction w with
  | nil => exact absurd rfl hne
  | cons c w ih =>
    rw [List.forall_mem_cons] at hw
    cases w with
    | nil => simp [getWordVec, hw.1]
    | cons d w => rw [getWordVec, if_neg (by simp [hw.1]), ih (List.cons_ne_nil d w) hw.2]

theorem getWordVec_sep (hw : ∀ c ∈ w, separator c = false) (hc : separator c = true) :
    getWordVec (w ++ c :: s) = w :: getWordVec s := by
  induction w with
  | nil => simp [getWordVec, hc]
  | cons d w ih =>
    rw [List.forall_mem_cons] at hw
    rw [List.cons_append, getWordVec, if_neg (by simp [hw.1]), ih hw.2]

theorem words_word (hne : w ≠ []) (hw : ∀ c ∈ w, separator c = false) : words w = [w] := by
  simp [words, List.splitOnP_eq_singleton hw, hne]

theorem words_sep (hw : ∀ c ∈ w, separator c = false) (hc : separator c = true) :
    words (w ++ c :: s) = if w = [] then words s else w :: words s := by
  rw [words, List.splitOnP_append_cons_of_forall_mem hw c hc, List.filter_cons]
  by_cases h : w = []
  · simp [h, words]
  · simp [h, words]

/-- The words are what is left without the empty ones. -/
theorem words_eq_filter (s : Line) : words s = (getWordVec s).filter fun w => w ≠ [] := by
  induction s using line_induction with
  | hnil => rfl
  | hword w hne hw => simp [words_word hne hw, getWordVec_word hne hw, hne]
  | hsep w c s hw hc ih =>
    rw [words_sep hw hc, getWordVec_sep hw hc, List.filter_cons, ih]
    by_cases h : w = []
    · simp [h]
    · simp [h]

theorem single_word (hw : ∀ c ∈ w, separator c = false) : Single w := by
  constructor
  · exact fun c hc => hw c (List.mem_of_head? hc)
  · exact List.isChain_iff_forall_rel_of_append_cons_cons.2 fun {a} _ _ _ h => .inl (hw a (by simp [h]))

theorem single_sep (hw : ∀ c ∈ w, separator c = false) (hc : separator c = true) : Single (w ++ c :: s) ↔
    w ≠ [] ∧ Single s := by
  cases w with
  | nil =>
    refine iff_of_false (fun h => ?_) fun h => h.1 rfl
    have := h.head c rfl
    rw [hc] at this
    cases this
  | cons d w =>
    have hchain : (d :: w ++ c :: s).IsChain (fun a b => separator a = false ∨ separator b = false) ↔
        (∀ y ∈ s.head?, separator y = false) ∧ s.IsChain fun a b => separator a = false ∨ separator b = false := by
      rw [List.isChain_append, List.isChain_cons (x := c)]
      constructor
      · exact fun h => ⟨fun y hy => (h.2.1.1 y hy).resolve_left (by simp [hc]), h.2.1.2⟩
      · exact fun h => ⟨(single_word hw).chain, ⟨fun y hy => .inr (h.1 y hy), h.2⟩,
          fun x hx _ _ => .inl (hw x (List.mem_of_getLast? hx))⟩
    constructor
    · exact fun h => ⟨List.cons_ne_nil d w, (hchain.1 h.chain).1, (hchain.1 h.chain).2⟩
    · rintro ⟨-, h⟩
      refine ⟨fun e he => ?_, hchain.2 ⟨h.head, h.chain⟩⟩
      obtain rfl : d = e := by simpa using he
      exact hw d List.mem_cons_self

theorem no_empty_iff (s : Line) : (∀ w ∈ getWordVec s, w ≠ []) ↔ Single s := by
  induction s using line_induction with
  | hnil => exact iff_of_true (by simp [getWordVec]) (single_word (by simp))
  | hword w hne hw => exact iff_of_true (by simp [getWordVec_word hne hw, hne]) (single_word hw)
  | hsep w c s hw hc ih => rw [getWordVec_sep hw hc, List.forall_mem_cons, ih, single_sep hw hc]

/-! ## What the loops come to -/

theorem charAt_append (pre : Line) (c : Char) (s : Line) : charAt (pre ++ c :: s) pre.length = .ok c := by
  rw [charAt, List.getElem?_append_right (Nat.le_refl _), Nat.sub_self]
  rfl

theorem charAt_end (pre : Line) : charAt pre pre.length = .ok (Char.ofNat 0) := by
  rw [charAt, List.getElem?_eq_none (Nat.le_refl _)]
  exact if_pos rfl

theorem charAt_ok (pre s : Line) : ∃ c, charAt (pre ++ s) pre.length = .ok c := by
  cases s with
  | nil => exact ⟨_, by rw [List.append_nil, charAt_end]⟩
  | cons c s => exact ⟨c, charAt_append pre c s⟩

theorem separator_iff : separator c = false ↔ c ≠ ' ' ∧ c ≠ ',' := by
  simp [separator]

/-- The inner loop takes the word and stops at the separator or the end behind it. -/
theorem innerLoop_word (hw : ∀ c ∈ w, separator c = false) (hrest : ∀ c, rest.head? = some c →
    separator c = true) (pre temp : Line)
    (hpre : pre.length < 2 ^ 31) : innerLoop (pre ++ (w ++ rest)) temp pre.length =
      if pre.length + w.length < 2 ^ 31 then .ok (temp ++ w, pre.length + w.length) else .error .overflow := by
  induction w generalizing pre temp with
  | nil =>
    have hfits : pre.length + ([] : Line).length < 2 ^ 31 := hpre
    rw [innerLoop, List.nil_append, if_pos hfits, List.append_nil]
    cases rest with
    | nil =>
      rw [List.append_nil, charAt_end, ok_bind, dif_neg fun h => Nat.lt_irrefl _ h.2]
      rfl
    | cons c rest =>
      have hc := hrest c rfl
      rw [charAt_append, ok_bind, dif_neg fun h => by simp [separator_iff.2 h.1] at hc]
      rfl
  | cons d w ih =>
    rw [List.forall_mem_cons] at hw
    have hin : pre.length < (pre ++ (d :: w ++ rest)).length := by
      simp only [List.length_append, List.length_cons]
      omega
    rw [innerLoop, List.cons_append, charAt_append, ok_bind, dif_pos ⟨separator_iff.1 hw.1, hin⟩, inc]
    by_cases hnext : pre.length + 1 < 2 ^ 31
    · have hlen : (pre ++ [d]).length = pre.length + 1 := by simp
      have := ih hw.2 (pre ++ [d]) (temp ++ [d]) (by omega)
      rw [hlen, List.append_assoc, List.singleton_append] at this
      rw [if_pos hnext, ok_bind, this, List.append_assoc, List.singleton_append, List.length_cons,
        Nat.add_assoc, Nat.add_comm 1]
    · rw [if_neg hnext, if_neg (by simp only [List.length_cons]; omega)]
      rfl

/-- A round of the outer loop: a word, or none, and what stands behind it. -/
theorem wordsFrom_round (rest : Line) (hw : ∀ c ∈ w, separator c = false)
    (hrest : ∀ c, rest.head? = some c → separator c = true) (hne : w ++ rest ≠ []) (pre : Line)
    (hpre : pre.length < 2 ^ 31) (rounds : Nat) (inputVec : List Line) :
    wordsFrom (pre ++ (w ++ rest)) (rounds + 1) pre.length inputVec =
      if pre.length + w.length + 1 < 2 ^ 31 then wordsFrom (pre ++ (w ++ rest)) rounds
        (pre.length + w.length + 1) (inputVec ++ [w])
      else .error .overflow := by
  have hin : pre.length < (pre ++ (w ++ rest)).length := by
    have := List.length_pos_of_ne_nil hne
    rw [List.length_append]
    omega
  have hor : ∀ c : Char, c ≠ ' ' ∨ c ≠ ',' := by
    intro c
    by_cases h : c = ' '
    · exact .inr (by rw [h]; decide)
    · exact .inl h
  obtain ⟨c, hc⟩ := charAt_ok pre (w ++ rest)
  rw [wordsFrom, if_pos hin, hc, ok_bind, if_pos (hor c), innerLoop_word hw hrest pre [] hpre]
  by_cases hfits : pre.length + w.length < 2 ^ 31
  · obtain ⟨e, he⟩ := charAt_ok (pre ++ w) rest
    rw [List.length_append, List.append_assoc] at he
    rw [if_pos hfits, ok_bind, List.nil_append]
    dsimp only
    rw [ok_bind]
    dsimp only
    rw [he, ok_bind, inc]
    by_cases hnext : pre.length + w.length + 1 < 2 ^ 31
    · rw [if_pos hnext, if_pos hnext, ok_bind]
    · rw [if_neg hnext, if_neg hnext]
      rfl
  · rw [if_neg hfits, if_neg (by omega)]
    rfl

theorem lastIndex_word (hne : w ≠ []) (hw : ∀ c ∈ w, separator c = false) : lastIndex w = w.length + 1 := by
  have hc := List.getLast?_eq_some_getLast hne
  simp [lastIndex, hc, hw _ (List.getLast_mem hne)]

theorem lastIndex_sep (hc : separator c = true) : lastIndex (w ++ c :: s) = w.length + 1 + lastIndex s := by
  rw [lastIndex, List.getLast?_append, List.getLast?_cons, lastIndex]
  cases hl : s.getLast? with
  | none =>
    obtain rfl : s = [] := by simpa using hl
    simp [hc]
  | some e =>
    simp only [Option.getD_some, Option.some_or, List.length_append, List.length_cons]
    split <;> omega

/-- The loops give `getWordVec` as long as the index is an `int`. -/
theorem wordsFrom_eq (s pre : Line) (hpre : pre.length < 2 ^ 31) (rounds : Nat) (hr : s.length ≤ rounds)
    (inputVec : List Line) :
    wordsFrom (pre ++ s) rounds pre.length inputVec =
      if pre.length + lastIndex s < 2 ^ 31 then .ok (inputVec ++ getWordVec s) else .error .overflow := by
  have hdone : ∀ (str : Line) (rounds i : Nat) (inputVec : List Line), str.length ≤ i →
    wordsFrom str rounds i inputVec = .ok inputVec := by
    intro str rounds i inputVec hi
    cases rounds with
    | zero => rfl
    | succ rounds => rw [wordsFrom, if_neg (by omega)]
  induction s using line_induction generalizing pre rounds inputVec with
  | hnil => rw [List.append_nil, hdone pre rounds _ _ (Nat.le_refl _),
      if_pos (by simpa [lastIndex] using hpre), getWordVec, List.append_nil]
  | hword w hne hw =>
    obtain ⟨k, rfl⟩ : ∃ k, rounds = k + 1 := ⟨rounds - 1, by have := List.length_pos_of_ne_nil hne; omega⟩
    have hround := wordsFrom_round [] hw (by simp) (by simpa using hne) pre hpre k inputVec
    rw [List.append_nil, hdone _ k _ _ (by rw [List.length_append]; omega)] at hround
    rw [hround, lastIndex_word hne hw, getWordVec_word hne hw, Nat.add_assoc]
  | hsep w c s hw hc ih =>
    rw [List.length_append, List.length_cons] at hr
    obtain ⟨k, rfl⟩ : ∃ k, rounds = k + 1 := ⟨rounds - 1, by omega⟩
    rw [wordsFrom_round (c :: s) hw (by simpa using hc) (by simp) pre hpre, lastIndex_sep hc, getWordVec_sep hw hc]
    by_cases hfits : pre.length + w.length + 1 < 2 ^ 31
    · have hlen : (pre ++ (w ++ [c])).length = pre.length + w.length + 1 := by
        simp only [List.length_append, List.length_singleton]
        omega
      have hrest := ih (pre ++ (w ++ [c])) (by omega) k (by omega) (inputVec ++ [w])
      rw [hlen, List.append_assoc, List.append_assoc, List.singleton_append, List.append_assoc inputVec,
        List.singleton_append] at hrest
      rw [if_pos hfits, hrest, Nat.add_assoc pre.length, Nat.add_assoc pre.length]
    · rw [if_neg hfits, if_neg (by omega)]

/-- The words come out, and nothing else, exactly if each is ended by one separator. -/
theorem getWordVec_words_iff (str : Line) : wordsFrom str str.length 0 [] = .ok (words str) ↔
    lastIndex str < 2 ^ 31 ∧ Single str := by
  have hrun := wordsFrom_eq str [] (by decide) str.length (Nat.le_refl _) []
  rw [List.length_nil, List.nil_append, List.nil_append, Nat.zero_add] at hrun
  rw [hrun, ← no_empty_iff, words_eq_filter]
  by_cases hfits : lastIndex str < 2 ^ 31
  · rw [if_pos hfits, Except.ok.injEq, eq_comm, List.filter_eq_self]
    constructor
    · exact fun h => ⟨hfits, fun w hw => by simpa using h w hw⟩
    · exact fun h w hw => by simpa using h.2 w hw
  · rw [if_neg hfits]
    exact iff_of_false (fun h => by cases h) fun h => hfits h.1

/-- An empty word between the command and its table. -/
theorem getWordVec_two_spaces : wordsFrom "order  1".toList 8 0 [] = .ok [ "order".toList, [], "1".toList] ∧
    wordsFrom "order  1".toList 8 0 [] ≠ .ok (words "order  1".toList) := by
  have hrun : wordsFrom "order  1".toList 8 0 [] = .ok [ "order".toList, [], "1".toList] :=
    wordsFrom_eq "order  1".toList [] (by decide) 8 (by decide) []
  refine ⟨hrun, ?_⟩
  rw [hrun]
  decide

end

end Rest
