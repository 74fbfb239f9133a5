import CCppProjects.Rest.Config
import Mathlib.Data.List.TakeWhile
/-
# What the constructor makes of a file

A lemma for each part of the file: it says when the part is read and what `Reader` holds after it. Together
they say for which files the tables and the menu are those of the file (`config_built_iff`):

| what stands in the file           | what becomes of it                                                       |
|-----------------------------------|---------------------------------------------------------------------------|
| ten tables or more                | only the first digit counts, the capacities run past the end of `capacitys` |
| an empty line that ends in CRLF   | it is not empty: minus 35 tables, or a table without seats, or a dish      |
| a CR inside a name                | the name ends there                                                        |
| a number that is no `int`         | it overflows; a price already where `price * 10 + c` does                  |
-/
namespace Rest

variable {garbage : Nat → Bool} {r r' : Reader} {f : Filler} {fs : List Filler} {rest : List (List Char)} {eol : Eol}

/-- A line of the file after another. -/
def readLines (garbage : Nat → Bool) (r : Reader) (lines : List (List Char)) : Except Fault Reader :=
  lines.foldlM (readLine garbage) r

theorem readLines_cons (r : Reader) (l : List Char) (ls : List (List Char)) :
    readLines garbage r (l :: ls) = readLine garbage r l >>= fun r => readLines garbage r ls := List.foldlM_cons

/-- An empty line that ends in CRLF is not empty for the constructor. -/
def Filler.Clean (f : Filler) : Prop := f ≠ .empty .crlf

theorem Filler.line_of_clean (hf : f.Clean) (r : Reader) : readLine garbage r f.line = .ok r := by
  cases f with
  | comment text _ eol => rfl
  | empty eol =>
    cases eol with
    | lf => rfl
    | crlf => exact absurd rfl hf

theorem Filler.eq_of_not_clean (hf : ¬ f.Clean) : f.line = [ '\r'] := by
  rw [Filler.Clean, not_not] at hf
  rw [hf]
  rfl

theorem stops_iff {c : Char} : stops c = false ↔ c ≠ ',' ∧ c ≠ '\r' := by
  simp [stops]

/-! ## The number of tables -/

/-- After the first line: as many capacities as its first digit says, all 0. -/
def counted (d : Nat) : Reader := { numOfTables := d, capacitys := List.replicate d 0 }

theorem readLine_count {d : Nat} {ds : List Char} (h10 : d < 10) :
    readLine garbage {} (d.digitChar :: ds) = .ok (counted d) := by
  have hsharp : ∀ d : Nat, d < 10 → d.digitChar ≠ '#' := by decide
  have hcode : code d.digitChar - 48 = d := by
    rw [code_digitChar h10]
    omega
  rw [readLine, if_neg (hsharp d h10), if_pos rfl, readCount, hcode]
  rfl

/-- With minus 35 tables and no capacities nothing but comments and empty lines can be read. -/
theorem stuck (h0 : r.numOfTables ≠ 0) (hnil : r.capacitys = []) {d : Nat} {ds : List Char} (h10 : d < 10) :
    ∀ fs : List Filler, readLines garbage r (fs.map Filler.line ++ (d.digitChar :: ds) :: rest) ≠ .ok r'
  | [] => by
    have hsharp : ∀ d : Nat, d < 10 → d.digitChar ≠ '#' := by decide
    rw [List.map_nil, List.nil_append, readLines_cons, readLine, if_neg (hsharp d h10), if_neg h0, hnil]
    exact fun h => by cases h
  | f :: fs => by
    rw [List.map_cons, List.cons_append, readLines_cons]
    by_cases hf : f.Clean
    · rw [f.line_of_clean hf, ok_bind]
      exact stuck h0 hnil h10 fs
    · rw [Filler.eq_of_not_clean hf, readLine, if_neg (by decide), if_neg h0, hnil]
      exact fun h => by cases h

theorem before_iff {d : Nat} {ds : List Char} (h10 : d < 10) :
    readLines garbage {} (fs.map Filler.line ++ (d.digitChar :: ds) :: rest) = .ok r ↔
      (∀ f ∈ fs, f.Clean) ∧ readLines garbage (counted d) rest = .ok r := by
  induction fs with
  | nil =>
    rw [List.map_nil, List.nil_append, readLines_cons, readLine_count h10, ok_bind]
    simp
  | cons f fs ih =>
    rw [List.map_cons, List.cons_append, readLines_cons, List.forall_mem_cons]
    by_cases hf : f.Clean
    · rw [f.line_of_clean hf, ok_bind, ih]
      simp only [hf, true_and]
    · rw [Filler.eq_of_not_clean hf]
      refine iff_of_false ?_ fun h => hf h.1.1
      exact stuck (r := readCount {} '\r') (by decide) rfl h10 fs

/-! ## Nothing is taken back -/

/-- Tables and dishes are only added. -/
structure Grows (r r' : Reader) : Prop where
  tables : r.tables <+: r'.tables
  menu : r.menu <+: r'.menu

theorem Grows.refl (r : Reader) : Grows r r := ⟨List.prefix_rfl, List.prefix_rfl⟩

theorem Grows.trans {r1 r2 r3 : Reader} (h : Grows r1 r2) (h' : Grows r2 r3) : Grows r1 r3 :=
  ⟨h.tables.trans h'.tables, h.menu.trans h'.menu⟩

theorem digit_grows {i : Nat} {c : Char} (h : digit i r c = .ok r') : Grows r r' := by
  unfold digit at h
  split at h
  · cases h
  · obtain ⟨v, -, h⟩ := bind_ok h
    obtain ⟨v', -, h⟩ := bind_ok h
    cases h
    exact ⟨List.prefix_rfl, List.prefix_rfl⟩

theorem endCapacity_grows {i : Nat} (h : endCapacity garbage i r = .ok r') : Grows r r' := by
  unfold endCapacity at h
  split at h
  · split at h <;> cases h
    exact ⟨List.prefix_append .., List.prefix_rfl⟩
  · cases h
    exact .refl r

theorem readCapacities_grows : ∀ {line : List Char} {i : Nat} {r : Reader}, readCapacities
    garbage line i r = .ok r' → Grows r r'
  | [], _, _, h => endCapacity_grows h
  | c :: line, i, r, h => by
    rw [readCapacities] at h
    split at h
    · obtain ⟨r1, h1, h⟩ := bind_ok h
      exact (digit_grows h1).trans (readCapacities_grows h)
    · obtain ⟨r1, h1, h⟩ := bind_ok h
      exact (endCapacity_grows h1).trans (readCapacities_grows h)

/-- A dish is added, its name what stands before the first comma or CR. -/
theorem readDish_ok {line : List Char} (h : readDish r line = .ok r') : ∃ x : Dish, ∃ k : Int,
    r' = { r with menu := r.menu ++ [x], dishId := k } ∧ x.name = String.ofList (line.takeWhile fun c => !stops c) := by
  obtain ⟨end0, h0, h⟩ := bind_ok h
  obtain ⟨end1, -, h⟩ := bind_ok h
  obtain ⟨end2, -, h⟩ := bind_ok h
  obtain ⟨price, -, h⟩ := bind_ok h
  obtain ⟨k, -, h⟩ := bind_ok h
  cases h
  refine ⟨_, k, rfl, ?_⟩
  have hend : end0 = (line.takeWhile fun c => !stops c).length := by
    rw [fieldEnd, if_pos (Nat.zero_le _)] at h0
    cases h0
    simp
  have hname : slice line 0 end0 = line.takeWhile fun c => !stops c := by
    rw [slice, List.drop_zero, Nat.sub_zero, hend]
    exact (List.prefix_iff_eq_take.1 (List.takeWhile_prefix _)).symm
  exact congrArg String.ofList hname

theorem readCount_grows (c : Char) : Grows r (readCount r c) := by
  rw [readCount]
  constructor
  · exact List.prefix_rfl
  · exact List.prefix_rfl

theorem readLine_grows {line : List Char} (h : readLine garbage r line = .ok r') : Grows r r' := by
  cases line with
  | nil =>
    cases h
    exact .refl r
  | cons c cs =>
    rw [readLine] at h
    by_cases hsharp : c = '#'
    · rw [if_pos hsharp] at h
      cases h
      exact .refl r
    rw [if_neg hsharp] at h
    by_cases h0 : r.numOfTables = 0
    · rw [if_pos h0] at h
      rw [← Except.ok.inj h]
      exact readCount_grows c
    rw [if_neg h0] at h
    cases hc : r.capacitys[0]? with
    | none =>
      rw [hc] at h
      cases h
    | some v =>
      simp only [hc] at h
      by_cases hv : v = 0
      · rw [if_pos hv] at h
        exact readCapacities_grows h
      · rw [if_neg hv] at h
        obtain ⟨x, k, rfl, -⟩ := readDish_ok h
        exact ⟨List.prefix_rfl, List.prefix_append ..⟩

theorem readLines_grows : ∀ {ls : List (List Char)} {r : Reader}, readLines garbage r ls = .ok r' → Grows r r'
  | [], _, h => by
    cases h
    exact .refl _
  | l :: ls, r, h => by
    rw [readLines_cons] at h
    obtain ⟨r1, h1, h⟩ := bind_ok h
    exact (readLine_grows h1).trans (readLines_grows h)

/-! ## The capacities -/

/-- An empty line that ends in CRLF makes a table without seats. -/
theorem between_iff {d : Nat} (h0 : 0 < d) (hseats : ∀ t ∈ r.tables, t.capacity ≠ 0) :
    readLines garbage (counted d) (fs.map Filler.line ++ rest) = .ok r ↔
      (∀ f ∈ fs, f.Clean) ∧ readLines garbage (counted d) rest = .ok r := by
  induction fs with
  | nil => simp
  | cons f fs ih =>
    rw [List.map_cons, List.cons_append, readLines_cons, List.forall_mem_cons]
    by_cases hf : f.Clean
    · rw [f.line_of_clean hf, ok_bind, ih]
      simp only [hf, true_and]
    · refine iff_of_false (fun h => ?_) fun h => hf h.1.1
      rw [Filler.eq_of_not_clean hf] at h
      obtain ⟨r1, h1, hrest⟩ := bind_ok h
      obtain ⟨k, rfl⟩ : ∃ k, d = k + 1 := ⟨d - 1, by omega⟩
      have hline : readLine garbage (counted (k + 1)) [ '\r'] = readCapacities garbage [ '\r'] 0 (counted (k + 1)) := by
        rw [readLine, if_neg (by decide), if_neg (by simp [counted]; omega)]
        rfl
      rw [hline, readCapacities, if_neg (by decide)] at h1
      obtain ⟨r0, hend, h1⟩ := bind_ok h1
      have hzero : ∃ t ∈ r0.tables, t.capacity = 0 := by
        rw [endCapacity, if_pos (by simp [counted])] at hend
        cases hend
        exact ⟨tableOf 0 (garbage 0), by simp [counted], rfl⟩
      obtain ⟨t, ht, hcap⟩ := hzero
      exact hseats t ((endCapacity_grows h1).trans (readLines_grows hrest) |>.tables.subset ht) hcap

/-- When the capacities `done` have been read and ended. -/
def counting (garbage : Nat → Bool) (d : Nat) (done : List Nat) : Reader :=
  { numOfTables := d, capacitys := done.map Nat.cast ++ List.replicate (d - done.length) 0, tables := tablesFrom garbage 0 done }

/-- When also the digits of `n` have been read. -/
def reading (garbage : Nat → Bool) (d : Nat) (done : List Nat) (n : Nat) : Reader :=
  { counting garbage d done with capacitys := (done ++ [n]).map Nat.cast ++ List.replicate (d - (done.length + 1)) 0 }

variable {d n : Nat} {done ns : List Nat}

theorem digit_read {i v e : Nat} (hv : r.capacitys[i]? = some (v : Int)) (he : e < 10) :
    digit i r e.digitChar = if v * 10 + e < 2 ^ 31
      then .ok { r with capacitys := r.capacitys.set i ((v * 10 + e : Nat) : Int) } else .error .overflow := by
  have h10 : (v : Int) * 10 = (v * 10 : Nat) := by omega
  rw [digit, hv, code_digitChar he]
  dsimp only
  rw [h10]
  by_cases hbig : v * 10 + e < 2 ^ 31
  · have hsum : ((v * 10 : Nat) : Int) + (48 + (e : Int) - 48) = (v * 10 + e : Nat) := by omega
    rw [if_pos hbig, int_of_lt (by omega), ok_bind, hsum, int_of_lt hbig, ok_bind]
  · rw [if_neg hbig]
    by_cases hten : v * 10 < 2 ^ 31
    · have hsum : ((v * 10 : Nat) : Int) + (48 + (e : Int) - 48) = (v * 10 + e : Nat) := by omega
      rw [int_of_lt hten, ok_bind, hsum, int_of_ge hbig]
      rfl
    · rw [int_of_ge hten]
      rfl

/-- The digits of a number, one after the other, make the number. -/
theorem digits_read {i : Nat} (hi : r.capacitys[i]? = some 0) (n : Nat) :
    (decimal n).foldlM (digit i) r =
      if n < 2 ^ 31 then .ok { r with capacitys := r.capacitys.set i (n : Int) } else .error .overflow := by
  induction n using decimal_induction with
  | hdigit e he =>
    have := digit_read (v := 0) hi he
    rw [Nat.zero_mul, Nat.zero_add] at this
    rw [decimal_digit he, foldlM_one]
    exact this
  | hstep n e h0 he ih =>
    rw [decimal_step h0 he, List.foldlM_append, ih]
    by_cases hsmall : n < 2 ^ 31
    · have hlt : i < r.capacitys.length := (List.getElem?_eq_some_iff.1 hi).1
      have hn : (r.capacitys.set i (n : Int))[i]? = some (n : Int) := List.getElem?_set_self hlt
      rw [if_pos hsmall, ok_bind, foldlM_one,
        digit_read (r := { r with capacitys := r.capacitys.set i (n : Int) }) hn he]
      simp only [List.set_set]
    · rw [if_neg hsmall, if_neg (by omega)]
      rfl

theorem readCapacities_digits {xs rest : List Char} (i : Nat) (hxs : ∀ c ∈ xs, stops c = false) (r : Reader) :
    readCapacities garbage (xs ++ rest) i r = xs.foldlM (digit i) r >>= fun r => readCapacities garbage rest i r := by
  induction xs generalizing r with
  | nil => rfl
  | cons c xs ih =>
    rw [List.forall_mem_cons, stops_iff] at hxs
    rw [List.cons_append, readCapacities, if_pos hxs.1, List.foldlM_cons, bind_assoc]
    congr 1
    funext r
    exact ih hxs.2 r

theorem counting_next (h : done.length < d) : (counting garbage d done).capacitys[done.length]? = some 0 := by
  rw [counting, List.getElem?_append_right (by simp), List.length_map, Nat.sub_self,
    List.getElem?_replicate, if_pos (by omega)]

/-- A number is read at the place it belongs to unless there is none, or the number is no `int`. -/
theorem number_read (rest : List Char) :
    readCapacities garbage (decimal n ++ rest) done.length (counting garbage d done) = .ok r' ↔
    (done.length < d ∧ n < 2 ^ 31) ∧ readCapacities garbage rest done.length (reading garbage d done n) = .ok r' := by
  rw [readCapacities_digits _ (decimal_stops n)]
  by_cases hd : done.length < d
  · rw [digits_read (counting_next hd)]
    by_cases hn : n < 2 ^ 31
    · have hset :
        { counting garbage d done with capacitys := (counting garbage d done).capacitys.set done.length (n : Int) } =
          reading garbage d done n := by
        obtain ⟨k, hk⟩ : ∃ k, d - done.length = k + 1 := ⟨d - done.length - 1, by omega⟩
        have hk' : d - (done.length + 1) = k := by omega
        simp [counting, reading, hk, hk', List.set_append_right, List.replicate_succ]
      rw [if_pos hn, ok_bind, hset]
      simp only [hd, hn, true_and]
    · rw [if_neg hn]
      refine iff_of_false (fun h => by cases h) fun h => hn h.1.2
  · refine iff_of_false (fun h => ?_) fun h => hd h.1.1
    obtain ⟨r1, h1, -⟩ := bind_ok h
    obtain ⟨e, ds, he, -⟩ : ∃ e ds, decimal n = e :: ds ∧ True := by
      cases hn : decimal n with
      | nil => exact absurd hn Nat.toDigits_ne_nil
      | cons e ds => exact ⟨e, ds, rfl, trivial⟩
    have hnone : (counting garbage d done).capacitys[done.length]? = none := by
      rw [counting, List.getElem?_eq_none_iff]
      simp
      omega
    rw [he, List.foldlM_cons, digit, hnone] at h1
    cases h1

/-- The comma, the CR or the end of the line makes the table. -/
theorem reading_end (h : done.length < d) :
    endCapacity garbage done.length (reading garbage d done n) = .ok (counting garbage d (done ++ [n])) := by
  have hn : (reading garbage d done n).capacitys[done.length]? = some (n : Int) := by
    simp [reading]
  have hlt : ((done.length : Nat) : Int) < (reading garbage d done n).numOfTables := by
    simpa [reading, counting] using h
  rw [endCapacity, if_pos hlt, hn]
  simp [reading, counting, tablesFrom, tableOf, Table.new, List.zipIdx_append]

/-- Behind the last capacity there is nothing to end any more. -/
theorem eol_read (h : done.length + 1 = d) :
    readCapacities garbage eol.rest done.length (reading garbage d done n) =
    .ok (counting garbage d (done ++ [n])) := by
  cases eol with
  | lf => exact reading_end (by omega)
  | crlf =>
    have hlast : endCapacity garbage (done.length + 1) (counting garbage d (done ++ [n])) =
      .ok (counting garbage d (done ++ [n])) := by
      rw [endCapacity, if_neg (by simp [counting]; omega)]
    rw [Eol.rest, readCapacities, if_neg (by decide), reading_end (by omega), ok_bind, readCapacities, hlast]

theorem commas_read (done : List Nat) (hns : ns ≠ []) (hd : d ≤ done.length + ns.length) :
    readCapacities garbage (commas ns ++ eol.rest) done.length (counting garbage d done) = .ok r' ↔
      (done.length + ns.length = d ∧ ∀ n ∈ ns, n < 2 ^ 31) ∧ r' = counting garbage d (done ++ ns) := by
  induction ns generalizing done with
  | nil => exact absurd rfl hns
  | cons n ns ih =>
    cases ns with
    | nil =>
      rw [commas, number_read]
      rw [List.length_singleton] at hd ⊢
      constructor
      · rintro ⟨⟨hlt, hn⟩, hrest⟩
        rw [eol_read (by omega)] at hrest
        exact ⟨⟨by omega, by simpa using hn⟩, (Except.ok.inj hrest).symm⟩
      · rintro ⟨⟨hlen, hn⟩, rfl⟩
        exact ⟨⟨by omega, hn n (List.mem_singleton_self n)⟩, eol_read hlen⟩
    | cons m ns =>
      rw [commas, List.append_assoc, number_read, List.cons_append, and_congr_right_iff.2
        fun h : done.length < d ∧ n < 2 ^ 31 => by
        rw [readCapacities, if_neg (by decide), reading_end h.1, ok_bind]]
      have hlen : (done ++ [n]).length = done.length + 1 := by simp
      rw [← hlen, ih _ (List.cons_ne_nil m ns) (by simp at hd ⊢; omega), List.append_assoc]
      simp only [List.length_append, List.length_cons, List.length_nil, List.forall_mem_cons,
        List.cons_append, List.nil_append]
      constructor
      · rintro ⟨⟨-, hn⟩, ⟨hsum, hrest⟩, rfl⟩
        exact ⟨⟨by omega, hn, hrest⟩, rfl⟩
      · rintro ⟨⟨hsum, hn, hrest⟩, rfl⟩
        exact ⟨⟨by omega, hn⟩, ⟨by omega, hrest⟩, rfl⟩

/-! ## The dishes -/

/-- With the tables there and the dishes `served` on the menu. -/
def serving (garbage : Nat → Bool) (ns : List Nat) (served : List DishLine) : Reader :=
  { counting garbage ns.length ns with menu := menuFrom 0 served, dishId := served.length }

variable {served ds : List DishLine} {x : DishLine} {after : List Filler}

theorem readLine_serving (hns : ns ≠ []) (hpos : ∀ n ∈ ns, 0 < n) {c : Char} {cs : List Char} (hsharp : c ≠ '#') :
    readLine garbage (serving garbage ns served) (c :: cs) = readDish (serving garbage ns served) (c :: cs) := by
  cases ns with
  | nil => exact absurd rfl hns
  | cons n ns =>
    have hn := hpos n List.mem_cons_self
    have htables : (serving garbage (n :: ns) served).numOfTables ≠ 0 := by
      simp [serving, counting]
      omega
    have hfirst : (serving garbage (n :: ns) served).capacitys[0]? = some (n : Int) := by
      simp [serving, counting]
    rw [readLine, if_neg hsharp, if_neg htables, hfirst]
    exact if_neg (by omega)

/-- A CR alone has no type and no price. -/
theorem readDish_cr (r : Reader) : readDish r [ '\r'] = .error .badIndex := rfl

theorem fillers_iff (hns : ns ≠ []) (hpos : ∀ n ∈ ns, 0 < n) :
    readLines garbage (serving garbage ns served) (fs.map Filler.line ++ rest) = .ok r ↔
      (∀ f ∈ fs, f.Clean) ∧ readLines garbage (serving garbage ns served) rest = .ok r := by
  induction fs with
  | nil => simp
  | cons f fs ih =>
    rw [List.map_cons, List.cons_append, readLines_cons, List.forall_mem_cons]
    by_cases hf : f.Clean
    · rw [f.line_of_clean hf, ok_bind, ih]
      simp only [hf, true_and]
    · rw [Filler.eq_of_not_clean hf, readLine_serving hns hpos (by decide), readDish_cr]
      exact iff_of_false (fun h => by cases h) fun h => hf h.1.1

theorem takeWhile_stop {xs ys : List Char} {c : Char} (hxs : ∀ e ∈ xs, stops e = false) (hc : stops c = true) :
    (xs ++ c :: ys).takeWhile (fun e => !stops e) = xs := by
  rw [List.takeWhile_append_of_pos (by simpa using hxs), List.takeWhile_cons_of_neg (by simp [hc]), List.append_nil]

theorem eol_stops (xs : List Char) (hxs : ∀ e ∈ xs, stops e = false) :
    (xs ++ eol.rest).takeWhile (fun e => !stops e) = xs := by
  cases eol with
  | lf => rw [Eol.rest, List.append_nil, List.takeWhile_eq_self_iff.2 (by simpa using hxs)]
  | crlf =>
    have hcr : stops '\r' = true := by decide
    exact takeWhile_stop hxs hcr

theorem DishType.word_stops (t : DishType) : ∀ c ∈ t.word, stops c = false := by
  cases t <;> simp [DishType.word, stops]

theorem DishType.ofText_word (t : DishType) : DishType.ofText t.word = t := by
  cases t <;> decide

theorem name_stops (hcr : '\r' ∉ x.name) : ∀ c ∈ x.name, stops c = false := fun _ hc =>
  stops_iff.2 ⟨fun h => x.comma (h ▸ hc), fun h => hcr (h ▸ hc)⟩

/-- A line without a CR in the name falls into its three fields. -/
theorem readDish_line (hcr : '\r' ∉ x.name) (r : Reader) : readDish r x.line =
    if x.price + 48 < 2 ^ 31 then int (r.dishId + 1) >>= fun dishId =>
      let d : Dish := { id := r.dishId, name := String.ofList x.name, price := x.price, type := x.type }
      .ok { r with menu := r.menu ++ [d], dishId }
    else .error .overflow := by
  have hline : x.line = x.name ++ ',' :: (x.type.word ++ ',' :: (decimal x.price ++ x.eol.rest)) := rfl
  have hend0 : fieldEnd x.line 0 = .ok x.name.length := by
    rw [fieldEnd, if_pos (Nat.zero_le _), List.drop_zero, hline, takeWhile_stop (name_stops hcr)
      (by decide), Nat.zero_add]
  have hdrop1 : x.line.drop (x.name.length + 1) = x.type.word ++ ',' :: (decimal x.price ++ x.eol.rest) := by
    rw [hline, ← List.drop_drop, List.drop_left]
    rfl
  have hend1 : fieldEnd x.line (x.name.length + 1) = .ok (x.name.length + 1 + x.type.word.length) := by
    rw [fieldEnd, if_pos (by simp [hline]), hdrop1, takeWhile_stop x.type.word_stops (by decide)]
  have hdrop2 : x.line.drop (x.name.length + 1 + x.type.word.length + 1) = decimal x.price ++ x.eol.rest := by
    rw [Nat.add_assoc (x.name.length + 1), ← List.drop_drop, hdrop1, ← List.drop_drop, List.drop_left]
    rfl
  have hend2 : fieldEnd x.line (x.name.length + 1 + x.type.word.length + 1) =
      .ok (x.name.length + 1 + x.type.word.length + 1 + (decimal x.price).length) := by
    rw [fieldEnd, if_pos (by simp [hline]; omega), hdrop2, eol_stops _ (decimal_stops x.price)]
  have hname : slice x.line 0 x.name.length = x.name := by
    rw [slice, List.drop_zero, Nat.sub_zero, hline, List.take_left]
  have htype : slice x.line (x.name.length + 1) (x.name.length + 1 + x.type.word.length) = x.type.word := by
    rw [slice, hdrop1, Nat.add_sub_cancel_left, List.take_left]
  have hprice : slice x.line (x.name.length + 1 + x.type.word.length + 1)
      (x.name.length + 1 + x.type.word.length + 1 + (decimal x.price).length) = decimal x.price := by
    rw [slice, hdrop2, Nat.add_sub_cancel_left, List.take_left]
  rw [readDish, hend0, ok_bind, hend1, ok_bind, hend2, ok_bind, hname, htype, hprice, price_decimal, x.type.ofText_word]
  by_cases hp : x.price + 48 < 2 ^ 31
  · rw [if_pos hp, if_pos hp, ok_bind]
  · rw [if_neg hp, if_neg hp]
    rfl

theorem menuFrom_snoc (served : List DishLine) (x : DishLine) : menuFrom 0 (served ++ [x]) =
    menuFrom 0 served ++ [{ id := served.length, name := String.ofList x.name, price := x.price, type := x.type }] := by
  simp [menuFrom, List.zipIdx_append]

theorem serving_snoc (k : Int) (hk : k = (served.length + 1 : Nat)) :
    { serving garbage ns served with
      menu := (serving garbage ns served).menu ++
        [{ id := (serving garbage ns served).dishId, name := String.ofList x.name, price := x.price, type := x.type }]
      dishId := k } = serving garbage ns (served ++ [x]) := by
  simp [serving, menuFrom_snoc, hk]

/-- What stands between the names of the file and the menu. -/
def DishLine.Plain (x : DishLine) : Prop := (∀ f ∈ x.before, f.Clean) ∧ '\r' ∉ x.name ∧ x.price + 48 < 2 ^ 31

/-- A name that is cut at a CR is on the menu for good. -/
theorem name_cut (hcr : '\r' ∈ x.name) (h : readLines garbage (serving garbage ns served) (x.line :: rest) = .ok r)
    (hns : ns ≠ []) (hpos : ∀ n ∈ ns, 0 < n) : r.menu ≠ menuFrom 0 (served ++ x :: ds) := by
  intro hmenu
  obtain ⟨c, cs, hline⟩ : ∃ c cs, x.name = c :: cs := List.exists_cons_of_ne_nil x.nonempty
  have hsharp : c ≠ '#' := by simpa [hline] using x.sharp
  rw [readLines_cons, DishLine.line, hline, List.cons_append,
    readLine_serving hns hpos hsharp, ← List.cons_append, ← hline,
    ← DishLine.line] at h
  obtain ⟨r1, h1, h⟩ := bind_ok h
  obtain ⟨y, k, rfl, hy⟩ := readDish_ok h1
  have hpre := (readLines_grows h).menu
  have hat : r.menu[served.length]? = some y := by
    obtain ⟨more, hmore⟩ := hpre
    rw [← hmore]
    simp [serving, menuFrom]
  have hx : (menuFrom 0 (served ++ x :: ds))[served.length]? =
      some { id := served.length, name := String.ofList x.name, price := x.price, type := x.type } := by
    simp [menuFrom]
  rw [hmenu, hx, Option.some.injEq] at hat
  rw [← hat] at hy
  rw [String.ofList_injective hy] at hcr
  exact absurd (List.mem_takeWhile_imp hcr) (by decide)

theorem dish_line_head (x : DishLine) : ∃ c cs, x.line = c :: cs ∧ c ≠ '#' := by
  obtain ⟨c, cs, hname⟩ := List.exists_cons_of_ne_nil x.nonempty
  refine ⟨c, cs ++ ',' :: (x.type.word ++ ',' :: (decimal x.price ++ x.eol.rest)), ?_, ?_⟩
  · rw [DishLine.line, hname, List.cons_append]
  · simpa [hname] using x.sharp

theorem readLine_dish (hns : ns ≠ []) (hpos : ∀ n ∈ ns, 0 < n) (x : DishLine) :
    readLine garbage (serving garbage ns served) x.line = readDish (serving garbage ns served) x.line := by
  obtain ⟨c, cs, hline, hsharp⟩ := dish_line_head x
  rw [hline, readLine_serving hns hpos hsharp]

/-- The rest of the file gives the rest of the menu if each dish is plain and there are not too many. -/
theorem dishes_iff (served : List DishLine) (hns : ns ≠ []) (hpos : ∀ n ∈ ns, 0 < n)
    (hserved : served.length < 2 ^ 31) :
    (∃ r, readLines garbage (serving garbage ns served) (dishLines ds after) = .ok r ∧
        r.tables = tablesFrom garbage 0 ns ∧ r.menu = menuFrom 0 (served ++ ds)) ↔
      (∀ x ∈ ds, x.Plain) ∧ (∀ f ∈ after, f.Clean) ∧ (served ++ ds).length < 2 ^ 31 := by
  induction ds generalizing served with
  | nil =>
    have hlines : dishLines [] after = after.map Filler.line ++ [] := by simp [dishLines]
    rw [hlines, List.append_nil served]
    constructor
    · rintro ⟨r, hread, -⟩
      exact ⟨by simp, ((fillers_iff hns hpos).1 hread).1, hserved⟩
    · rintro ⟨-, hclean, -⟩
      exact ⟨serving garbage ns served, (fillers_iff hns hpos).2 ⟨hclean, rfl⟩, rfl, rfl⟩
  | cons x ds ih =>
    have hlines : dishLines (x :: ds) after = x.before.map Filler.line ++ x.line :: dishLines ds after := by
      simp [dishLines]
    simp only [hlines, fillers_iff hns hpos, List.forall_mem_cons, DishLine.Plain]
    by_cases hcr : '\r' ∈ x.name
    · refine iff_of_false ?_ fun h => h.1.1.2.1 hcr
      rintro ⟨r, ⟨-, hread⟩, -, hmenu⟩
      exact name_cut hcr hread hns hpos hmenu
    have hnext : (served ++ [x]).length = served.length + 1 := by simp
    rw [List.append_cons served x ds]
    have hstep : readLines garbage (serving garbage ns served) (x.line :: dishLines ds after) =
        if x.price + 48 < 2 ^ 31 ∧ served.length + 1 < 2 ^ 31 then
          readLines garbage (serving garbage ns (served ++ [x])) (dishLines ds after)
        else .error .overflow := by
      have hid : (serving garbage ns served).dishId + 1 = (served.length + 1 : Nat) := rfl
      rw [readLines_cons, readLine_dish hns hpos, readDish_line hcr, hid]
      by_cases hp : x.price + 48 < 2 ^ 31
      · by_cases hk : served.length + 1 < 2 ^ 31
        · rw [if_pos hp, int_of_lt hk, ok_bind, ok_bind, if_pos ⟨hp, hk⟩, serving_snoc _ rfl]
        · rw [if_pos hp, int_of_ge hk, if_neg fun h => hk h.2]
          rfl
      · rw [if_neg hp, if_neg fun h => hp h.1]
        rfl
    rw [hstep]
    by_cases hok : x.price + 48 < 2 ^ 31 ∧ served.length + 1 < 2 ^ 31
    · simp only [if_pos hok]
      have := ih (served ++ [x]) (by omega)
      constructor
      · rintro ⟨r, ⟨hclean, hread⟩, hbuilt⟩
        obtain ⟨hplain, hafter, hlen⟩ := this.1 ⟨r, hread, hbuilt⟩
        exact ⟨⟨⟨hclean, hcr, hok.1⟩, hplain⟩, hafter, hlen⟩
      · rintro ⟨⟨⟨hclean, -⟩, hplain⟩, hafter, hlen⟩
        obtain ⟨r, hread, hbuilt⟩ := this.2 ⟨hplain, hafter, hlen⟩
        exact ⟨r, ⟨hclean, hread⟩, hbuilt⟩
    · simp only [if_neg hok]
      refine iff_of_false ?_ ?_
      · rintro ⟨r, ⟨-, hread⟩, -⟩
        cases hread
      · rintro ⟨⟨⟨-, -, hp⟩, -⟩, -, hlen⟩
        rw [List.length_append, hnext] at hlen
        exact hok ⟨hp, by omega⟩

/-! ## The file -/

theorem getlines_line {l : List Char} (hl : '\n' ∉ l) (cur more : List Char) :
    getlines cur (l ++ '\n' :: more) = (cur ++ l) :: getlines [] more := by
  induction l generalizing cur with
  | nil => simp [getlines]
  | cons c l ih =>
    rw [List.mem_cons, not_or] at hl
    rw [List.cons_append, getlines, if_neg (Ne.symm hl.1), ih hl.2, List.append_assoc, List.singleton_append]

/-- `getline` gives back the lines of a text. -/
theorem getlines_text {ls : List (List Char)} (hls : ∀ l ∈ ls, '\n' ∉ l) : getlines [] (Lines.text '\n' ls) = ls := by
  induction ls with
  | nil => rfl
  | cons l ls ih =>
    rw [List.forall_mem_cons] at hls
    rw [Lines.text_cons, getlines_line hls.1, List.nil_append, ih hls.2]

theorem Eol.oneLine (eol : Eol) : '\n' ∉ eol.rest := by
  cases eol <;> decide

theorem Filler.oneLine (f : Filler) : '\n' ∉ f.line := by
  cases f with
  | comment text h eol => simpa [Filler.line] using ⟨h, eol.oneLine⟩
  | empty eol => exact eol.oneLine

theorem decimal_oneLine (n : Nat) : '\n' ∉ decimal n := by
  induction n using decimal_induction with
  | hdigit d hd =>
    have hall : ∀ d : Nat, d < 10 → '\n' ≠ d.digitChar := by decide
    rw [decimal_digit hd, List.mem_singleton]
    exact hall d hd
  | hstep n d hn hd ih =>
    have hall : ∀ d : Nat, d < 10 → '\n' ≠ d.digitChar := by decide
    rw [decimal_step hn hd, List.mem_append, List.mem_singleton, not_or]
    exact ⟨ih, hall d hd⟩

theorem commas_oneLine : ∀ ns : List Nat, '\n' ∉ commas ns
  | [] => by simp [commas]
  | [n] => decimal_oneLine n
  | n :: m :: ns => by
    have := commas_oneLine (m :: ns)
    simpa [commas] using ⟨decimal_oneLine n, this⟩

theorem DishLine.line_oneLine (x : DishLine) : '\n' ∉ x.line := by
  have hword : '\n' ∉ x.type.word := by cases x.type <;> decide
  simpa [DishLine.line] using ⟨x.oneLine, hword, decimal_oneLine x.price, x.eol.oneLine⟩

theorem Config.oneLine (c : Config) : ∀ l ∈ c.lines, '\n' ∉ l := by
  have hfillers : ∀ fs : List Filler, ∀ l ∈ fs.map Filler.line, '\n' ∉ l := by
    intro fs l hl
    obtain ⟨f, -, rfl⟩ := List.mem_map.1 hl
    exact f.oneLine
  simp only [Config.lines, dishLines, List.forall_mem_append, List.forall_mem_cons]
  refine ⟨hfillers _, ?_, hfillers _, ?_, ?_, hfillers _⟩
  · simpa using ⟨decimal_oneLine _, c.countEol.oneLine⟩
  · simpa using ⟨commas_oneLine _, c.capacitiesEol.oneLine⟩
  · intro l hl
    obtain ⟨x, -, hx⟩ := List.mem_flatMap.1 hl
    rw [List.mem_append, List.mem_singleton] at hx
    obtain hx | rfl := hx
    · exact hfillers _ l hx
    · exact x.line_oneLine

/-- The files that are read as they were written. -/
structure Config.Plain (c : Config) : Prop where
  before : ∀ f ∈ c.before, f.Clean
  tables : c.capacities.length < 10
  between : ∀ f ∈ c.between, f.Clean
  capacities : ∀ n ∈ c.capacities, n < 2 ^ 31
  dishes : ∀ x ∈ c.dishes, x.Plain
  after : ∀ f ∈ c.after, f.Clean
  ids : c.dishes.length < 2 ^ 31

theorem decimal_sharp (n : Nat) : ∃ e es, decimal n = e :: es ∧ e ≠ '#' := by
  have hall : ∀ d : Nat, d < 10 → d.digitChar ≠ '#' := by decide
  induction n using decimal_induction with
  | hdigit d hd => exact ⟨d.digitChar, [], decimal_digit hd, hall d hd⟩
  | hstep n d hn hd ih =>
    obtain ⟨e, es, he, hsharp⟩ := ih
    exact ⟨e, es ++ [d.digitChar], by rw [decimal_step hn hd, he, List.cons_append], hsharp⟩

/-- The line of capacities comes when no table is there yet. -/
theorem readLine_capacities (hd : 0 < d) (hns : ns ≠ []) : readLine garbage (counted d) (commas ns ++ eol.rest) =
    readCapacities garbage (commas ns ++ eol.rest) 0 (counted d) := by
  obtain ⟨c, cs, hline, hsharp⟩ : ∃ c cs, commas ns = c :: cs ∧ c ≠ '#' := by
    cases ns with
    | nil => exact absurd rfl hns
    | cons n ns =>
      obtain ⟨e, es, hn, hsharp⟩ := decimal_sharp n
      cases ns with
      | nil => exact ⟨e, es, hn, hsharp⟩
      | cons m ns => exact ⟨e, es ++ ',' :: commas (m :: ns), by rw [commas, hn, List.cons_append], hsharp⟩
  obtain ⟨k, rfl⟩ : ∃ k, d = k + 1 := ⟨d - 1, by omega⟩
  have htables : (counted (k + 1)).numOfTables ≠ 0 := by
    simp [counted]
    omega
  have hfirst : (counted (k + 1)).capacitys[0]? = some 0 := by simp [counted]
  rw [hline, List.cons_append, readLine, if_neg hsharp, if_neg htables, hfirst]
  exact if_pos rfl

/-- The constructor builds what a file says exactly if the file is plain. -/
theorem config_built_iff (c : Config) (garbage : Nat → Bool) :
    (∃ r, readConfig garbage c.text = .ok r ∧ c.Built garbage r) ↔ c.Plain := by
  have hread : readConfig garbage c.text = readLines garbage {} c.lines := by
    rw [readConfig, Config.text, getlines_text c.oneLine, readLines]
  have hsome : 0 < c.capacities.length := List.length_pos_of_ne_nil c.some
  obtain ⟨d, ds, hdigits, h0, h10, hle, hone⟩ := decimal_head c.capacities.length hsome
  have hseats : ∀ t ∈ tablesFrom garbage 0 c.capacities, t.capacity ≠ 0 := by
    intro t ht
    obtain ⟨⟨n, i⟩, hn, rfl⟩ := List.mem_map.1 ht
    have := c.positive n (List.fst_mem_of_mem_zipIdx hn)
    simp only [Table.new]
    omega
  have hserving : counting garbage c.capacities.length c.capacities = serving garbage c.capacities [] := rfl
  rw [hread, Config.lines, hdigits, List.cons_append]
  constructor
  · rintro ⟨r, hr, htables, hmenu⟩
    obtain ⟨hbefore, hr⟩ := (before_iff h10).1 hr
    obtain ⟨hbetween, hr⟩ := (between_iff h0 (htables ▸ hseats)).1 hr
    rw [readLines_cons, readLine_capacities h0 c.some] at hr
    obtain ⟨r1, h1, hr⟩ := bind_ok hr
    obtain ⟨⟨hlen, hsize⟩, rfl⟩ := (commas_read [] c.some (by simpa using hle)).1 h1
    rw [List.length_nil, Nat.zero_add] at hlen
    rw [← hlen, List.nil_append, hserving] at hr
    obtain ⟨hplain, hafter, hids⟩ := (dishes_iff [] c.some c.positive (by decide)).1 ⟨r, hr, htables, hmenu⟩
    exact ⟨hbefore, by omega, hbetween, hsize, hplain, hafter, hids⟩
  · intro h
    obtain ⟨r, hr, hbuilt⟩ := (dishes_iff [] c.some c.positive (by decide)).2 ⟨h.dishes, h.after, h.ids⟩
    have hlen : c.capacities.length = d := hone.1 h.tables
    have hcapacities : readLine garbage (counted d) (commas c.capacities ++ c.capacitiesEol.rest) =
      .ok (serving garbage c.capacities []) := by
      rw [readLine_capacities h0 c.some, ← hserving, hlen]
      exact (commas_read [] c.some (by simpa using hle)).2 ⟨⟨by simpa using hlen, h.capacities⟩, rfl⟩
    have hrest : readLines garbage (counted d) ((commas c.capacities ++ c.capacitiesEol.rest) ::
      dishLines c.dishes c.after) = .ok r := by
      rw [readLines_cons, hcapacities, ok_bind, hr]
    exact ⟨r, (before_iff h10).2 ⟨h.before, (between_iff h0 (hbuilt.1 ▸ hseats)).2 ⟨h.between, hrest⟩⟩, hbuilt⟩

/-- Ten tables for one. -/
def tenTables : Config :=
  { before := [], countEol := .lf, between := [], capacities := List.replicate 10 1, capacitiesEol := .lf, dishes := [], after := []
    some := by decide
    positive := by decide }

/-- Of ten only the one is seen: the second capacity is written past the end of `capacitys`. -/
theorem tenTables_fault : tenTables.text = "10\n1,1,1,1,1,1,1,1,1,1\n".toList ∧
    ∀ garbage, ¬ ∃ r, readConfig garbage tenTables.text = .ok r ∧ tenTables.Built garbage r := by
  have htext : tenTables.text = "10\n1,1,1,1,1,1,1,1,1,1\n".toList := by decide +kernel
  refine ⟨htext, fun garbage => ?_⟩
  rintro ⟨r, hr, -⟩
  rw [htext] at hr
  have hfault : readConfig garbage "10\n1,1,1,1,1,1,1,1,1,1\n".toList = .error .badIndex := rfl
  rw [hfault] at hr
  cases hr

end Rest
