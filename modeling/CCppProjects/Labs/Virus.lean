import CCppProjects.Lib.Sat
import Mathlib.Algebra.Order.BigOperators.Group.List
import Mathlib.Algebra.Order.Group.Nat
/-
# The virus scanner (lab3/task2b/task2b.c:70-143)

| here | there |
|---|---|
| `Virus` | `struct virus` behind its block: `data` is what has been read into `virusName` and `sig` |
| `usable n` | the bytes of the block that `malloc(n)` gives |
| `readVirus` | `:81-89`; the block for a record of `L` bytes is asked for with `L - 2` |
| `detect_virus` | `:93-109` |
| `detect` | `:123-140`: `fileBuffer` is what the array held before the file was read into it |
| `Report` | the three lines printed for a match |

Every offset below the file's size is compared over the whole signature, so a comparison runs on behind the file
(`Clear.apart`) and near the end of the array out of it (`Clear.inside`), and the offset behind the last byte is never
looked at (`Clear.nonempty`). `virus_exact_iff` says when none of it shows.
-/
namespace Scanner

inductive Fault
  | null     -- `malloc` of a negative number
  | overrun  -- a write behind a block or an array
  | outside  -- a read behind what has been written
  deriving DecidableEq

structure Virus where
  SigSize : Nat
  data : List UInt8
  deriving DecidableEq

structure Report where
  location : Nat
  name : List UInt8
  size : Nat
  deriving DecidableEq

/-! ## Reading the signatures -/

/-- `:84-87`, for a length `val` with `rest` behind it. -/
def newVirus (usable : Nat → Nat) (val : Nat) (rest : List UInt8) : Except Fault Virus :=
  if val < 2 then .error .null
  else if usable (val - 2) < 2 then .error .overrun
  else if usable (val - 2) < 2 + (rest.take (val - 2)).length then .error .overrun
  else .ok ⟨(val + 2 ^ 16 - 18) % 2 ^ 16, rest.take (val - 2)⟩

def list_append (virus_list : List Virus) (data : Virus) : List Virus := data :: virus_list

/-- The loop (`:81-89`); a round takes two bytes and more, so there are no more rounds than bytes. -/
def readVirusFrom (usable : Nat → Nat) : Nat → List UInt8 → List Virus → Except Fault (List Virus)
  | rounds + 1, lo :: hi :: rest, vir_list => do
    let val := lo.toNat + 256 * hi.toNat
    let v ← newVirus usable val rest
    readVirusFrom usable rounds (rest.drop (val - 2)) (list_append vir_list v)
  | _, _, vir_list => .ok vir_list

def readVirus (usable : Nat → Nat) (input : List UInt8) (vir_list : List Virus) : Except Fault (List Virus) :=
  readVirusFrom usable input.length input vir_list

/-! ## Searching -/

def difference : List UInt8 → List UInt8 → Int
  | x :: xs, y :: ys => if x = y then difference xs ys else x.toNat - y.toNat
  | _, _ => 0

def memcmp (s₁ s₂ : List UInt8) (n : Nat) : Except Fault Int :=
  if n ≤ s₁.length ∧ n ≤ s₂.length then .ok (difference (s₁.take n) (s₂.take n)) else .error .outside

/-- What `%s` prints of the bytes at a pointer. -/
def text (s : List UInt8) : Except Fault (List UInt8) :=
  if 0 ∈ s then .ok (s.takeWhile (· ≠ 0)) else .error .outside

/-- The loop over `i` (`:97-105`), for `rounds` more offsets. -/
def search (vir : Virus) (buffer : List UInt8) : Nat → Nat → List Report → Except Fault (List Report)
  | 0, _, out => .ok out
  | rounds + 1, i, out => do
    let cmp ← memcmp (vir.data.drop 16) (buffer.drop i) vir.SigSize
    let out ← if cmp = 0 then do
        let name ← text vir.data
        .ok (out ++ [⟨i, name, vir.SigSize⟩])
      else .ok out
    search vir buffer rounds (i + 1) out

def detect_virus (buffer : List UInt8) (size : Nat) : List Virus → List Report → Except Fault (List Report)
  | [], out => .ok out
  | vir :: next, out => do
    let out ← search vir buffer size 0 out
    detect_virus buffer size next out

def detect (vir_list : List Virus) (input fileBuffer : List UInt8) : Except Fault (List Report) :=
  if fileBuffer.length < input.length then .error .overrun
  else detect_virus (input ++ fileBuffer.drop input.length) input.length vir_list []

/-! ## What should be reported -/

/-- A record of the signature file. -/
structure Record where
  name : List UInt8
  sig : List UInt8
  name_length : name.length = 16
  sig_length : sig.length + 18 < 2 ^ 16

namespace Record

/-- The total length `L`. -/
def length (r : Record) : Nat := r.sig.length + 18

def bytes (r : Record) : List UInt8 :=
  [UInt8.ofNat r.length, UInt8.ofNat (r.length / 256)] ++ r.name ++ r.sig

def virus (r : Record) : Virus := ⟨r.sig.length, r.name ++ r.sig⟩

def report (r : Record) (i : Nat) : Report := ⟨i, (r.name ++ r.sig).takeWhile (· ≠ 0), r.sig.length⟩

end Record

/-- The offsets at which the signature occurs in the file. -/
def occurrences (sig file : List UInt8) : List Nat :=
  (List.range (file.length + 1)).filter fun i => sig.isPrefixOf (file.drop i)

/-- The list holds the records, last first, and of each the occurrences are reported, whatever the array held. -/
def Exact (usable : Nat → Nat) (rs : List Record) (file : List UInt8) : Prop :=
  readVirus usable (rs.flatMap Record.bytes) [] = .ok (rs.map Record.virus).reverse ∧
    ∀ fileBuffer : List UInt8, fileBuffer.length = 10000 →
      detect (rs.map Record.virus).reverse file fileBuffer =
        .ok (rs.reverse.flatMap fun r => (occurrences r.sig file).map r.report)

/-- A record that is read and searched for as it should be. -/
structure Clear (usable : Nat → Nat) (r : Record) (file : List UInt8) : Prop where
  /-- The block has room for the two bytes it is short of. -/
  fits : r.length ≤ usable (r.length - 2)
  nonempty : r.sig ≠ []
  inside : file = [] ∨ file.length - 1 + r.sig.length ≤ 10000
  /-- No end of the file is the beginning of the signature. -/
  apart : ∀ i < file.length, file.length < i + r.sig.length → ¬ file.drop i <+: r.sig
  /-- The name that is printed ends before the record does. -/
  named : r.sig <:+: file → 0 ∈ r.name ++ r.sig

/-! ## Reading -/

section

variable {usable : Nat → Nat} {r : Record} {rs : List Record}

theorem Record.bytes_cons (r : Record) : r.bytes =
    UInt8.ofNat r.length :: UInt8.ofNat (r.length / 256) :: (r.name ++ r.sig) := rfl

theorem Record.data_length (r : Record) : (r.name ++ r.sig).length = r.length - 2 := by
  rw [List.length_append, r.name_length, Record.length]
  omega

theorem Record.val (r : Record) : (UInt8.ofNat r.length).toNat +
    256 * (UInt8.ofNat (r.length / 256)).toNat = r.length := by
  have h := r.sig_length
  simp only [UInt8.toNat_ofNat', Record.length]
  omega

theorem newVirus_record (r : Record) (rest : List UInt8) : newVirus usable r.length (r.name ++ r.sig ++ rest) =
    if r.length ≤ usable (r.length - 2) then .ok r.virus else .error .overrun := by
  have hlen := r.data_length
  have htake : (r.name ++ r.sig ++ rest).take (r.length - 2) = r.name ++ r.sig := List.take_left' hlen
  have hL : r.length = r.sig.length + 18 := rfl
  have hsig := r.sig_length
  have hsize : (r.length + 2 ^ 16 - 18) % 2 ^ 16 = r.sig.length := by omega
  rw [newVirus, htake, if_neg (by omega), hlen, hsize]
  by_cases hfit : r.length ≤ usable (r.length - 2)
  · rw [if_neg (by omega), if_neg (by omega), if_pos hfit, Record.virus]
  · rw [if_neg hfit]
    split
    · rfl
    · rw [if_pos (by omega)]

/-- The records are read one by one, and each must fit. -/
theorem readVirusFrom_records : ∀ {rs : List Record} {rounds : Nat} {acc list : List Virus},
    (rs.flatMap Record.bytes).length ≤ rounds →
    (readVirusFrom usable rounds (rs.flatMap Record.bytes) acc = .ok list ↔
      (∀ r ∈ rs, r.length ≤ usable (r.length - 2)) ∧ list = (rs.map Record.virus).reverse ++ acc)
  | [], rounds, acc, list, _ => by
    cases rounds <;> simp [readVirusFrom, eq_comm]
  | r :: rs, rounds, acc, list, hn => by
    rw [List.flatMap_cons, Record.bytes_cons, List.cons_append, List.cons_append] at hn ⊢
    obtain ⟨rounds, rfl⟩ := Nat.exists_eq_add_of_le' (Nat.le_trans (Nat.le_add_left 1 _) hn)
    have hdrop : (r.name ++ r.sig ++ rs.flatMap Record.bytes).drop (r.length - 2) = rs.flatMap Record.bytes :=
      List.drop_left' r.data_length
    rw [readVirusFrom]
    simp only [r.val, newVirus_record, hdrop]
    have hrest : (rs.flatMap Record.bytes).length ≤ rounds := by
      simp only [List.length_cons, List.length_append] at hn
      omega
    by_cases hfit : r.length ≤ usable (r.length - 2)
    · rw [if_pos hfit, ok_bind, readVirusFrom_records hrest, List.forall_mem_cons, and_iff_right hfit]
      simp [list_append]
    · rw [if_neg hfit, List.forall_mem_cons]
      simp only [hfit, false_and, iff_false]
      nofun

theorem readVirus_records : readVirus usable (rs.flatMap Record.bytes) [] = .ok (rs.map Record.virus).reverse ↔
    ∀ r ∈ rs, r.length ≤ usable (r.length - 2) := by
  rw [readVirus, readVirusFrom_records (Nat.le_refl _)]
  simp

/-! ## Searching -/

theorem difference_eq_zero : ∀ {xs ys : List UInt8}, xs.length = ys.length → (difference xs ys = 0 ↔ xs = ys)
  | [], [], _ => by simp [difference]
  | x :: xs, y :: ys, h => by
    rw [difference]
    by_cases hxy : x = y
    · rw [if_pos hxy, difference_eq_zero (by simpa using h), hxy, List.cons_inj_right]
    · rw [if_neg hxy]
      have hne : x.toNat ≠ y.toNat := fun h => hxy (UInt8.toNat_inj.1 h)
      simp only [List.cons.injEq, hxy, false_and, iff_false]
      omega

/-- The comparison stays inside the array, and what a match prints has an end. -/
def Safe (r : Record) (buffer : List UInt8) (i : Nat) : Prop :=
  r.sig.length ≤ (buffer.drop i).length ∧ (r.sig <+: buffer.drop i → 0 ∈ r.name ++ r.sig)

variable {buffer file : List UInt8} {out res : List Report} {i : Nat}

theorem memcmp_sig (h : r.sig.length ≤ (buffer.drop i).length) : ∃ cmp,
    memcmp (r.virus.data.drop 16) (buffer.drop i) r.virus.SigSize = .ok cmp ∧ (cmp = 0 ↔ r.sig <+: buffer.drop i) := by
  have hdata : r.virus.data.drop 16 = r.sig := by rw [Record.virus, List.drop_left' r.name_length]
  refine ⟨_, by rw [memcmp, hdata, if_pos ⟨Nat.le_refl _, h⟩], ?_⟩
  have hlen : r.sig.length = ((buffer.drop i).take r.sig.length).length := by
    rw [List.length_take]
    omega
  change difference (r.sig.take r.sig.length) ((buffer.drop i).take r.sig.length) = 0 ↔ _
  rw [List.take_length, difference_eq_zero hlen, List.prefix_iff_eq_take]

/-- One offset: the reports of this one, then those of the rest. -/
theorem search_succ (rounds : Nat) : search r.virus buffer (rounds + 1) i out = .ok res ↔
    Safe r buffer i ∧ search r.virus buffer rounds (i + 1)
      (out ++ if r.sig <+: buffer.drop i then [r.report i] else []) = .ok res := by
  rw [search]
  by_cases h : r.sig.length ≤ (buffer.drop i).length
  · obtain ⟨cmp, hrun, hcmp⟩ := memcmp_sig h
    rw [hrun, ok_bind]
    by_cases hit : r.sig <+: buffer.drop i
    · by_cases hname : 0 ∈ r.name ++ r.sig
      · have htext : text r.virus.data = .ok ((r.name ++ r.sig).takeWhile (· ≠ 0)) := if_pos hname
        simp only [hcmp.2 hit, if_true, htext, ok_bind, hit, Safe, h, hname, true_and, imp_true_iff]
        rfl
      · have htext : text r.virus.data = .error .outside := if_neg hname
        simp only [hcmp.2 hit, if_true, htext, Safe, hit, hname, forall_true_left, and_false, false_and, iff_false]
        nofun
    · simp only [mt hcmp.1 hit, if_false, ok_bind, hit, Safe, h, false_imp_iff, and_self, true_and, List.append_nil]
  · have hrun : memcmp (r.virus.data.drop 16) (buffer.drop i) r.virus.SigSize = .error .outside :=
      if_neg fun hc => h hc.2
    simp only [hrun, Safe, h, false_and, iff_false]
    nofun

/-- The offsets below `n` at which the signature is found in the array. -/
def hits (sig buffer : List UInt8) (n : Nat) : List Nat := (List.range n).filter fun i => sig.isPrefixOf (buffer.drop i)

theorem search_ok_iff (rounds : Nat) : search r.virus buffer rounds i out = .ok res ↔
    (∀ j ∈ List.range' i rounds, Safe r buffer j) ∧
      res = out ++ ((List.range' i rounds).filter fun j => r.sig.isPrefixOf (buffer.drop j)).map r.report := by
  induction rounds generalizing i out with
  | zero => simp [search, eq_comm]
  | succ rounds ih =>
    rw [search_succ, ih, List.range'_succ, List.forall_mem_cons, and_assoc]
    by_cases hit : r.sig <+: buffer.drop i
    · rw [List.filter_cons_of_pos (by simpa using hit)]
      simp [hit]
    · rw [List.filter_cons_of_neg (by simpa using hit)]
      simp [hit]

theorem detect_virus_ok_iff (n : Nat) : ∀ {rs : List Record} {out : List Report},
    detect_virus buffer n (rs.map Record.virus) out = .ok res ↔
      (∀ r ∈ rs, ∀ i < n, Safe r buffer i) ∧ res = out ++ rs.flatMap fun r => (hits r.sig buffer n).map r.report
  | [], out => by simp [detect_virus, eq_comm]
  | r :: rs, out => by
    have hone : ∀ out', search r.virus buffer n 0 out = .ok out' ↔
        (∀ i < n, Safe r buffer i) ∧ out' = out ++ (hits r.sig buffer n).map r.report := fun out' => by
      rw [search_ok_iff, ← List.range_eq_range']
      simp [hits]
    rw [List.map_cons, detect_virus, List.forall_mem_cons, List.flatMap_cons, ← List.append_assoc]
    constructor
    · intro hrun
      obtain ⟨out', hsearch, hnext⟩ := bind_ok hrun
      obtain ⟨hsafe, rfl⟩ := (hone _).1 hsearch
      obtain ⟨hrest, hres⟩ := (detect_virus_ok_iff n).1 hnext
      exact ⟨⟨hsafe, hrest⟩, hres⟩
    · rintro ⟨⟨hsafe, hrest⟩, hres⟩
      rw [(hone _).2 ⟨hsafe, rfl⟩, ok_bind]
      exact (detect_virus_ok_iff n).2 ⟨hrest, hres⟩

/-! ## Occurrences -/

/-- What the array holds behind the file does not matter where the comparison ends before. -/
theorem prefix_drop_append {sig tail : List UInt8} (h : i + sig.length ≤ file.length) :
    sig <+: (file ++ tail).drop i ↔ sig <+: file.drop i := by
  rw [List.drop_append_of_le_length (by omega)]
  constructor
  · intro hp
    exact List.prefix_of_prefix_length_le hp (List.prefix_append ..) (by rw [List.length_drop]; omega)
  · intro hp
    exact hp.trans (List.prefix_append ..)

/-- Where it ends behind the file, the end of the file must begin the signature. -/
theorem drop_prefix_of_hit {sig tail : List UInt8} (hi : i ≤ file.length) (h : file.length < i + sig.length)
    (hp : sig <+: (file ++ tail).drop i) : file.drop i <+: sig := by
  rw [List.drop_append_of_le_length hi] at hp
  exact List.prefix_of_prefix_length_le (List.prefix_append ..) hp (by rw [List.length_drop]; omega)

theorem length_of_prefix_drop {sig : List UInt8} (hne : sig ≠ []) (hp : sig <+: file.drop i) :
    i < file.length ∧ i + sig.length ≤ file.length := by
  have hpos := List.length_pos_iff.2 hne
  have := hp.length_le
  rw [List.length_drop] at this
  omega

theorem occurrences_eq {sig : List UInt8} (hne : sig ≠ []) :
    occurrences sig file = (List.range file.length).filter fun i => sig.isPrefixOf (file.drop i) := by
  rw [occurrences, List.range_succ, List.filter_append, List.filter_cons_of_neg (by simpa using hne), List.filter_nil,
    List.append_nil]

/-- An occurrence is found, whatever follows. -/
theorem occurrences_sublist {sig : List UInt8} (hne : sig ≠ []) (tail : List UInt8) :
    (occurrences sig file).Sublist (hits sig (file ++ tail) file.length) := by
  rw [occurrences_eq hne]
  refine List.monotone_filter_right _ fun i hi => ?_
  rw [List.isPrefixOf_iff_prefix] at hi ⊢
  exact (prefix_drop_append (length_of_prefix_drop hne hi).2).2 hi

/-! ## Clear records -/

theorem Clear.hits_eq (hc : Clear usable r file) (tail : List UInt8) :
    hits r.sig (file ++ tail) file.length = occurrences r.sig file := by
  rw [occurrences_eq hc.nonempty]
  refine List.filter_congr fun i hi => ?_
  rw [List.mem_range] at hi
  rw [Bool.eq_iff_iff, List.isPrefixOf_iff_prefix, List.isPrefixOf_iff_prefix]
  by_cases hlen : i + r.sig.length ≤ file.length
  · exact prefix_drop_append hlen
  · constructor
    · intro hp
      exact absurd (drop_prefix_of_hit (Nat.le_of_lt hi) (by omega) hp) (hc.apart i hi (by omega))
    · intro hp
      exact absurd (length_of_prefix_drop hc.nonempty hp).2 hlen

theorem Clear.safe (hc : Clear usable r file) {tail : List UInt8} (htail : (file ++ tail).length = 10000)
    (hi : i < file.length) : Safe r (file ++ tail) i := by
  constructor
  · rw [List.length_drop, htail]
    rcases hc.inside with hnil | hin
    · rw [hnil] at hi
      exact absurd hi (Nat.not_lt_zero i)
    · omega
  · intro hp
    refine hc.named ?_
    by_cases hlen : i + r.sig.length ≤ file.length
    · exact ((prefix_drop_append hlen).1 hp).isInfix.trans (List.drop_suffix i file).isInfix
    · exact absurd (drop_prefix_of_hit (Nat.le_of_lt hi) (by omega) hp) (hc.apart i hi (by omega))

/-! ## The scanner -/

theorem detect_ok_iff (rs : List Record) (hf : file.length ≤ 10000) {fileBuffer : List UInt8}
    (hb : fileBuffer.length = 10000) :
    detect (rs.map Record.virus).reverse file fileBuffer = .ok res ↔
      (∀ r ∈ rs, ∀ i < file.length, Safe r (file ++ fileBuffer.drop file.length) i) ∧
        res = rs.reverse.flatMap fun r =>
          (hits r.sig (file ++ fileBuffer.drop file.length) file.length).map r.report := by
  rw [detect, if_neg (by omega), ← List.map_reverse, detect_virus_ok_iff]
  simp

/-- Two chains of lists, one with the longer lists, are equal only list by list. -/
theorem flatMap_eq_of_length_le {α β : Type} {f g : α → List β} :
    ∀ {l : List α}, (∀ a ∈ l, (f a).length ≤ (g a).length) →
    l.flatMap f = l.flatMap g → ∀ a ∈ l, f a = g a
  | [], _, _ => by simp
  | a :: l, hle, heq => by
    rw [List.forall_mem_cons] at hle
    rw [List.flatMap_cons, List.flatMap_cons] at heq
    have hrest : (l.flatMap f).length ≤ (l.flatMap g).length := by
      rw [List.length_flatMap, List.length_flatMap]
      exact List.sum_le_sum hle.2
    have hlen : (f a).length = (g a).length := by
      have := congrArg List.length heq
      rw [List.length_append, List.length_append] at this
      omega
    obtain ⟨hhead, htail⟩ := List.append_inj heq hlen
    exact List.forall_mem_cons.2 ⟨hhead, flatMap_eq_of_length_le hle.2 htail⟩

section

variable (hdetect : ∀ fileBuffer : List UInt8, fileBuffer.length = 10000 →
  (∀ r ∈ rs, ∀ i < file.length, Safe r (file ++ fileBuffer.drop file.length) i) ∧
    (rs.reverse.flatMap fun r => (occurrences r.sig file).map r.report) =
      rs.reverse.flatMap fun r => (hits r.sig (file ++ fileBuffer.drop file.length) file.length).map r.report)
include hdetect

/-- Of an empty signature the last occurrence is missing. -/
theorem nonempty_of_exact (hr : r ∈ rs) : r.sig ≠ [] := by
  intro hnil
  obtain ⟨-, heq⟩ := hdetect (List.replicate 10000 0) List.length_replicate
  -- only records with empty signatures print a size of 0
  have hfilter := congrArg (List.filter fun p : Report => p.size = 0) heq
  rw [List.filter_flatMap, List.filter_flatMap] at hfilter
  have hsize : ∀ (q : Record) (l : List Nat), ((l.map q.report).filter fun p : Report => p.size = 0) =
      if q.sig = [] then l.map q.report else [] := fun q l => by
    rw [List.filter_map]
    by_cases hq : q.sig = []
    · simp [hq, Record.report, Function.comp_def]
    · simp [hq, Record.report, Function.comp_def]
  have hlen : ∀ q : Record, q.sig = [] → (occurrences q.sig file).length = file.length + 1 ∧
      ∀ b, (hits q.sig b file.length).length = file.length := fun q hq => by
    rw [hq]
    simp [occurrences, hits, List.filter_eq_self.2]
  have hone := flatMap_eq_of_length_le (fun q hq => ?_) hfilter.symm r (by simpa using hr)
  · simp only [hsize, hnil, if_true] at hone
    have := congrArg List.length hone
    rw [List.length_map, List.length_map, ← hnil, (hlen r hnil).1, (hlen r hnil).2] at this
    omega
  · simp only [hsize]
    by_cases hq : q.sig = []
    · rw [if_pos hq, if_pos hq, List.length_map, List.length_map, (hlen q hq).1, (hlen q hq).2]
      omega
    · rw [if_neg hq, if_neg hq]

/-- What is found is an occurrence. -/
theorem occurrences_of_exact {fileBuffer : List UInt8} (hb : fileBuffer.length = 10000) (hr : r ∈ rs) :
    occurrences r.sig file = hits r.sig (file ++ fileBuffer.drop file.length) file.length := by
  have hle : ∀ q ∈ rs.reverse, ((occurrences q.sig file).map q.report).length ≤
      ((hits q.sig (file ++ fileBuffer.drop file.length) file.length).map q.report).length := fun q hq => by
    rw [List.length_map, List.length_map]
    exact (occurrences_sublist (nonempty_of_exact hdetect (List.mem_reverse.1 hq)) _).length_le
  have hone := flatMap_eq_of_length_le hle (hdetect fileBuffer hb).2 r (List.mem_reverse.2 hr)
  refine List.map_injective_iff.2 (fun i j hij => ?_) hone
  exact (Report.mk.inj hij).1

theorem clear_of_exact (hf : file.length ≤ 10000) (hr : r ∈ rs) (hfits : r.length ≤ usable (r.length - 2)) :
    Clear usable r file := by
  have hne := nonempty_of_exact hdetect hr
  have hpos := List.length_pos_iff.2 hne
  have harray : ∀ fileBuffer : List UInt8, fileBuffer.length = 10000 →
      (file ++ fileBuffer.drop file.length).length = 10000 := fun b hb => by
    rw [List.length_append, List.length_drop]
    omega
  have hinside : ∀ i < file.length, i + r.sig.length ≤ 10000 := fun i hi => by
    have hz : (List.replicate 10000 (0 : UInt8)).length = 10000 := List.length_replicate
    have := ((hdetect _ hz).1 r hr i hi).1
    rw [List.length_drop, harray _ hz] at this
    omega
  refine ⟨hfits, hne, ?_, fun i hi hlen hp => ?_, fun hin => ?_⟩
  · rcases List.eq_nil_or_concat file with hnil | ⟨xs, x, hx⟩
    · exact .inl hnil
    · have hlen : file.length = xs.length + 1 := by simp [hx]
      have := hinside xs.length (by omega)
      exact .inr (by omega)
  · -- an array that goes on as the signature does
    let fileBuffer := List.replicate file.length 0 ++ r.sig.drop (file.length - i) ++
      List.replicate (10000 - (i + r.sig.length)) 0
    have hi' := hinside i hi
    have hb : fileBuffer.length = 10000 := by
      simp only [fileBuffer, List.length_append, List.length_replicate, List.length_drop]
      omega
    have hdrop : fileBuffer.drop file.length =
        r.sig.drop (file.length - i) ++ List.replicate (10000 - (i + r.sig.length)) 0 := by
      simp only [fileBuffer, List.append_assoc]
      exact List.drop_left' List.length_replicate
    have hsig : r.sig = file.drop i ++ r.sig.drop (file.length - i) := by
      have := List.prefix_iff_eq_append.1 hp
      rw [List.length_drop] at this
      exact this.symm
    have hhit : r.sig <+: (file ++ fileBuffer.drop file.length).drop i := by
      rw [List.drop_append_of_le_length (Nat.le_of_lt hi), hdrop, ← List.append_assoc, ← hsig]
      exact List.prefix_append ..
    have hmem : i ∈ occurrences r.sig file := by
      rw [occurrences_of_exact hdetect hb hr]
      exact List.mem_filter.2 ⟨List.mem_range.2 hi, List.isPrefixOf_iff_prefix.2 hhit⟩
    have hocc := List.isPrefixOf_iff_prefix.1 (List.mem_filter.1 hmem).2
    exact absurd (length_of_prefix_drop hne hocc).2 (by omega)
  · obtain ⟨xs, ys, hxy⟩ := hin
    have hlen := congrArg List.length hxy
    rw [List.length_append, List.length_append] at hlen
    have hz : (List.replicate 10000 (0 : UInt8)).length = 10000 := List.length_replicate
    refine ((hdetect _ hz).1 r hr xs.length (by omega)).2 ?_
    refine (prefix_drop_append (by omega)).2 ?_
    rw [← hxy, List.append_assoc, List.drop_left]
    exact List.prefix_append ..

end

end

/-- For a file that fits the array, the records are read and their occurrences reported, whatever the array held
before, exactly when every record is clear. -/
theorem virus_exact_iff (usable : Nat → Nat) (rs : List Record) (file : List UInt8) (hf : file.length ≤ 10000) :
    Exact usable rs file ↔ ∀ r ∈ rs, Clear usable r file := by
  rw [Exact, readVirus_records]
  constructor
  · rintro ⟨hfits, hdetect⟩ r hr
    exact clear_of_exact (fun b hb => (detect_ok_iff rs hf hb).1 (hdetect b hb)) hf hr (hfits r hr)
  · intro hclear
    refine ⟨fun r hr => (hclear r hr).fits, fun b hb => (detect_ok_iff rs hf hb).2 ⟨fun r hr i hi => ?_, ?_⟩⟩
    · refine (hclear r hr).safe ?_ hi
      rw [List.length_append, List.length_drop]
      omega
    · refine List.flatMap_congr fun r hr => ?_
      rw [(hclear r (List.mem_reverse.1 hr)).hits_eq]

/-- The bytes of the block that the C library's `malloc` gives on a 64-bit machine. -/
def glibc (n : Nat) : Nat := max 24 ((n + 23) / 16 * 16 - 8)

/-- The name "v" and the signature "ab". -/
def ab : Record := ⟨118 :: List.replicate 15 0, [97, 98], by decide, by decide⟩

/-- A file "a" is reported where a "b" was left in the array. -/
theorem leftover_reported : glibc (ab.length - 2) = 24 ∧ ¬ Exact glibc [ab] [97] := by
  refine ⟨by decide, fun ⟨_, hdetect⟩ => ?_⟩
  have hb : (98 :: 98 :: List.replicate 9998 (0 : UInt8)).length = 10000 := by
    rw [List.length_cons, List.length_cons, List.length_replicate]
  have heq := ((detect_ok_iff [ab] (by decide) hb).1 (hdetect _ hb)).2
  have hocc : occurrences ab.sig [97] = [] := by decide
  have hhit : hits ab.sig ([97] ++ (98 :: 98 :: List.replicate 9998 0).drop 1) 1 = [0] := rfl
  simp only [List.reverse_singleton, List.flatMap_singleton, hocc] at heq
  rw [show List.length [(97 : UInt8)] = 1 from rfl, hhit] at heq
  cases heq

theorem clear_reported : ([120, 97, 98, 120] : List UInt8).length ≤ 10000 ∧ Exact glibc [ab] [120, 97, 98, 120] := by
  refine ⟨by decide, (virus_exact_iff glibc [ab] [120, 97, 98, 120] (by decide)).2 fun r hr => ?_⟩
  rw [List.mem_singleton.1 hr]
  exact ⟨by decide, by decide, .inr (by decide), by decide, fun _ => by decide⟩

end Scanner
