import CCppProjects.Xv6.Umalloc
/-
# What the operations of the user heap do to its free list

`Free base h l`: `l` are the blocks on the free list in the order of their addresses. `search` finds the
last of them below a block (`search_spec`), `free` puts a block in its place (`free_spec`), `take` takes one
or its tail (`take_spec`) and `malloc` finds the one to take (`malloc_spec`).
-/
namespace Xv6.Umalloc

open Circle Extents

variable {base bp n p q x : Nat} {h h' : Heap} {l xs ys us : List Nat}

/-- A block with its header. -/
def Heap.block (h : Heap) (p : Nat) : Ext := ⟨p, 8 * (h.hdr p).size⟩

structure Free (base : Nat) (h : Heap) (l : List Nat) : Prop where
  entry : h.freep ∈ base :: l
  ring : Linked h.next (base :: l ++ [base])
  apart : Apart (l.map h.block)
  zero : (h.hdr base).size = 0
  low : ∀ p ∈ l, base + 8 ≤ p
  high : ∀ p ∈ l, (h.block p).stop ≤ UINT

/-- The address is in a block of the list. -/
def Heap.InFree (h : Heap) (l : List Nat) (x : Nat) : Prop := Covers (l.map h.block) x

/-! ## Headers -/

@[simp] theorem Heap.set_hdr_self (h : Heap) (p : Nat) (a : Header) : (h.set p a).hdr p = a := Function.update_self ..

theorem Heap.set_hdr_ne {a : Header} (hx : x ≠ p) : (h.set p a).hdr x = h.hdr x := Function.update_of_ne hx ..

@[simp] theorem Heap.set_freep (h : Heap) (p : Nat) (a : Header) : (h.set p a).freep = h.freep := rfl

@[simp] theorem Heap.set_areas (h : Heap) (p : Nat) (a : Header) : (h.set p a).areas = h.areas := rfl

@[simp] theorem Heap.block_start (h : Heap) (p : Nat) : (h.block p).start = p := rfl

theorem Heap.block_congr (hx : h'.hdr x = h.hdr x) : h'.block x = h.block x := by rw [block, block, hx]

theorem Heap.map_block_congr (hl : ∀ x ∈ l, h'.hdr x = h.hdr x) : l.map h'.block = l.map h.block :=
  List.map_congr_left fun x hx => block_congr (hl x hx)

theorem Heap.block_set_ptr (h : Heap) (p n : Nat) : (h.set p { h.hdr p with ptr := n }).block = h.block := by
  funext x
  by_cases hx : x = p
  · subst hx
    simp [block]
  · exact block_congr (set_hdr_ne hx)

@[simp] theorem Heap.set_next_self (h : Heap) (p : Nat) (a : Header) : (h.set p a).next p = a.ptr := by simp [next]

theorem Heap.next_congr (hx : h'.hdr x = h.hdr x) : h'.next x = h.next x := by rw [next, next, hx]

/-- `p + p->s.size` is another header behind `p` only when the block ends there. -/
theorem Heap.after_eq_iff (hp : (h.block p).stop ≤ UINT) (hq : 0 < q) (hqu : q < UINT) :
    h.after p = q ↔ (h.block p).stop = q := by
  rw [after]
  simp only [block, Ext.stop] at hp ⊢
  rcases Nat.lt_or_eq_of_le hp with hlt | heq
  · rw [Nat.mod_eq_of_lt hlt]
  · rw [heq, Nat.mod_self]
    omega

namespace Free

variable (hf : Free base h l)
include hf

theorem pos (hp : p ∈ l) : 0 < (h.hdr p).size := by
  have := hf.apart.pos _ (List.mem_map_of_mem hp)
  simpa [Heap.block] using this

/-- The blocks come in the order of their addresses, behind `base`. -/
theorem sorted : (base :: l).Pairwise (· < ·) := by
  refine List.pairwise_cons.2 ⟨fun p hp => Nat.lt_of_lt_of_le (by omega) (hf.low p hp), ?_⟩
  refine (List.pairwise_map.1 hf.apart.gaps).imp fun {p q} hpq => ?_
  rw [Heap.block_start, Ext.stop, Heap.block_start] at hpq
  omega

theorem lt_uint (hp : p ∈ l) : p < UINT := by
  have h1 := hf.high p hp
  have h2 := hf.pos hp
  simp only [Heap.block, Ext.stop] at h1
  omega

theorem inFree_self (hp : p ∈ l) : h.InFree l p :=
  ⟨h.block p, List.mem_map_of_mem hp, Ext.has_start (by simpa [Heap.block] using hf.pos hp)⟩

/-- There are fewer blocks than rounds. -/
theorem length_lt : l.length + 1 < ROUNDS + 1 := by
  have hunit : ∀ e ∈ l.map h.block, 8 ≤ e.len := by
    rintro e he
    obtain ⟨p, hp, rfl⟩ := List.mem_map.1 he
    have := hf.pos hp
    simp only [Heap.block]
    omega
  have hfit : 8 * (l.map h.block).length + 0 ≤ UINT :=
    hf.apart.length_le hunit (fun _ _ => Nat.zero_le _) (by simpa using hf.high) (Nat.zero_le _)
  rw [List.length_map] at hfit
  rw [ROUNDS]
  omega

end Free

/-! ## search -/

/-- The test that ends the loop of `free`. -/
def Here (h : Heap) (bp p : Nat) : Prop :=
  (p < bp ∧ bp < h.next p) ∨ (h.next p ≤ p ∧ (p < bp ∨ bp < h.next p))

/-- Round a list of which one node passes the test. -/
theorem search_linked {zs : List Nat} {a : Nat} (hl : Linked h.next (a :: zs)) (hp : p ∈ a :: zs)
    (hh : ∀ q ∈ a :: zs, Here h bp q ↔ q = p) (hn : zs.length < n) : search bp h n a = some p := by
  induction zs generalizing a n with
  | nil =>
    obtain ⟨n, rfl⟩ := Nat.exists_eq_succ_of_ne_zero (Nat.ne_zero_of_lt hn)
    obtain rfl := List.mem_singleton.1 hp
    exact if_pos ((hh p hp).2 rfl)
  | cons b zs ih =>
    obtain ⟨n, rfl⟩ := Nat.exists_eq_succ_of_ne_zero (Nat.ne_zero_of_lt hn)
    rw [List.length_cons] at hn
    obtain ⟨hab, hl⟩ := linked_cons.1 hl
    by_cases hap : a = p
    · subst hap
      exact if_pos ((hh a hp).2 rfl)
    · have hnot : ¬ Here h bp a := fun ha => hap ((hh a (List.mem_cons_self ..)).1 ha)
      refine (if_neg hnot).trans ?_
      rw [hab]
      have hp' : p ∈ b :: zs := (List.mem_cons.1 hp).resolve_left fun e => hap e.symm
      exact ih hl hp' (fun q hq => hh q (List.mem_cons_of_mem _ hq)) (by omega)

/-- The loop of `free` ends at the last node below the block. -/
theorem search_spec (hf : Free base h l) (hp : p ∈ base :: l) (hpb : p < bp)
    (hgap : ∀ q ∈ base :: l, q ≤ p ∨ bp < q) : search bp h ROUNDS h.freep = some p := by
  have here : ∀ q ∈ base :: l, Here h bp q ↔ q = p := by
    intro q hq
    have hb : base ≤ p := by
      rcases List.mem_cons.1 hp with rfl | hp
      · exact le_rfl
      · exact Nat.le_trans (Nat.le_add_right _ 8) (hf.low p hp)
    have hq' := hgap q hq
    rcases hf.ring.next_least hf.sorted hq with ⟨hn, hlt, hleast⟩ | ⟨hn, hmax⟩
    · have h1 := hgap _ (List.mem_cons_of_mem _ hn)
      have h2 := hleast p hp
      rw [Here]
      omega
    · have h1 := hmax p hp
      rw [Here, hn]
      omega
  obtain ⟨zs, hring, hperm⟩ := hf.ring.rotate hf.entry
  have hlen : zs.length + 1 = l.length + 1 := by simpa using hperm.length_eq
  have hlt := hf.length_lt
  exact search_linked (List.IsChain.left_of_append hring) (hperm.mem_iff.2 hp)
    (fun q hq => here q (hperm.mem_iff.1 hq)) (by omega)

/-! ## free -/

@[simp] theorem joinNext_areas (bp n : Nat) (h : Heap) : (joinNext bp n h).areas = h.areas := by
  rw [joinNext]
  split <;> rfl

@[simp] theorem joinPrev_areas (bp p : Nat) (h : Heap) : (joinPrev bp p h).areas = h.areas := by
  rw [joinPrev]
  split <;> rfl

theorem joinNext_hdr (hx : x ≠ bp) (n : Nat) : (joinNext bp n h).hdr x = h.hdr x := by
  rw [joinNext]
  split <;> exact Heap.set_hdr_ne hx

theorem joinPrev_hdr (hx : x ≠ p) (bp : Nat) : (joinPrev bp p h).hdr x = h.hdr x := by
  rw [joinPrev]
  split <;> exact Heap.set_hdr_ne hx

/-- `bp` is in front of the part of the list behind it, joined with the first block there if it touches it. -/
theorem joinNext_spec (hring : Linked h.next (p :: ys ++ [base])) (hb : 0 < base) (hbp : base < bp)
    (hys : ∀ q ∈ ys, bp < q ∧ (h.block q).stop ≤ UINT ∧ q < UINT) (hhigh : (h.block bp).stop ≤ UINT) :
    ∃ ys', JoinRight (h.block bp) (ys.map h.block) ((joinNext bp (h.next p) h).block bp) (ys'.map h.block) ∧
      Linked (joinNext bp (h.next p) h).next (bp :: ys' ++ [base]) ∧ ys' ⊆ ys ∧
      ((joinNext bp (h.next p) h).block bp).stop ≤ UINT := by
  have hstop : bp ≤ (h.block bp).stop := Nat.le_add_right _ _
  cases ys with
  | nil =>
    have hn : h.next p = base := (linked_cons.1 hring).1
    have hne : h.after bp ≠ base := mt (Heap.after_eq_iff hhigh hb (by omega)).1 (by omega)
    rw [hn, joinNext, if_neg hne]
    rw [Heap.block_set_ptr]
    exact ⟨[], .keep (by simp), linked_cons.2 ⟨by simp, List.isChain_singleton base⟩, List.Subset.refl _, hhigh⟩
  | cons n ys =>
    obtain ⟨hn, hring⟩ := linked_cons.1 hring
    obtain ⟨hbn, hnstop, hnlt⟩ := hys n (List.mem_cons_self ..)
    have hout : ∀ q ∈ n :: ys, q ≠ bp := fun q hq => Nat.ne_of_gt (hys q hq).1
    rw [hn, joinNext]
    by_cases hj : (h.block bp).stop = n
    · -- they touch: the sum of the sizes does not wrap around
      have hsum : (h.hdr bp).size + (h.hdr n).size < UINT := by
        simp only [Heap.block, Ext.stop] at hj hnstop
        rw [UINT] at hnstop ⊢
        omega
      rw [if_pos ((Heap.after_eq_iff hhigh (by omega) hnlt).2 hj), Nat.mod_eq_of_lt hsum]
      refine ⟨ys, ?_, ?_, List.subset_cons_self n ys, ?_⟩
      · have hjoin : JoinRight (h.block bp) ((n :: ys).map h.block) ⟨bp, (h.block bp).len + (h.block n).len⟩
            (ys.map h.block) := .join hj
        simpa [Heap.block, Nat.mul_add] using hjoin
      · have hys : Linked (h.set bp ⟨h.next n, (h.hdr bp).size + (h.hdr n).size⟩).next (n :: ys ++ [base]) :=
          hring.congr fun q hq => Heap.next_congr (Heap.set_hdr_ne (hout q hq))
        cases ys with
        | nil =>
          have h1 := (linked_cons.1 hring).1
          exact linked_cons.2 ⟨by simp [h1], List.isChain_singleton base⟩
        | cons m ys =>
          have h1 := (linked_cons.1 hring).1
          exact linked_cons.2 ⟨by simp [h1], (linked_cons.1 hys).2⟩
      · simp only [Heap.block, Ext.stop, Heap.set_hdr_self] at hj hnstop ⊢
        omega
    · rw [if_neg (mt (Heap.after_eq_iff hhigh (by omega) hnlt).1 hj)]
      rw [Heap.block_set_ptr]
      refine ⟨n :: ys, ?_, linked_cons.2 ⟨by simp, ?_⟩, List.Subset.refl _, hhigh⟩
      · exact .keep (by simpa using hj)
      · exact hring.congr fun q hq => Heap.next_congr (Heap.set_hdr_ne (hout q hq))

/-- The part of the list up to `p` is in front of `bp`, `p` joined with it if they touch. -/
theorem joinPrev_spec (hp : base :: xs = us ++ [p]) (hxs : Linked h.next (us ++ [p]))
    (hring : Linked h.next (bp :: ys ++ [base])) (hzero : (h.hdr base).size = 0)
    (hlt : (us ++ [p]).Pairwise (· < ·)) (hpb : p < bp) (hys : ∀ q ∈ ys, bp < q) (hpstop : (h.block p).stop ≤ bp)
    (hhigh : (h.block bp).stop ≤ UINT) (hpos : 0 < (h.hdr bp).size) :
    ∃ l' xs' e, JoinLeft (h.block bp) (xs.map h.block) xs' e ∧
      l'.map (joinPrev bp p h).block = xs' ++ e :: ys.map h.block ∧
      Linked (joinPrev bp p h).next (base :: l' ++ [base]) ∧ p ∈ base :: l' ∧ (∀ q ∈ l', q ∈ xs ∨ q = bp ∨ q ∈ ys) ∧
      ((joinPrev bp p h).hdr base).size = 0 := by
  have hus : ∀ q ∈ us, q ≠ p := fun q hq => Nat.ne_of_lt ((List.pairwise_append.1 hlt).2.2 q hq p (by simp))
  have hysne : ∀ q ∈ bp :: ys, q ≠ p := by
    rintro q hq rfl
    rcases List.mem_cons.1 hq with rfl | hq
    · omega
    · have := hys q hq
      omega
  have hsize : bp < UINT := by
    simp only [Heap.block, Ext.stop] at hhigh
    omega
  rw [joinPrev]
  by_cases hj : (h.block p).stop = bp
  · have hsum : (h.hdr p).size + (h.hdr bp).size < UINT := by
      simp only [Heap.block, Ext.stop] at hj hhigh
      rw [UINT] at hhigh ⊢
      omega
    rw [if_pos ((Heap.after_eq_iff (by omega) (by omega) hsize).2 hj), Nat.mod_eq_of_lt hsum]
    -- `base` holds nothing and touches no block
    obtain ⟨xs', rfl, rfl⟩ : ∃ xs', us = base :: xs' ∧ xs = xs' ++ [p] := by
      cases us with
      | nil =>
        obtain ⟨rfl, _⟩ := List.cons.inj hp
        simp only [Heap.block, Ext.stop, hzero] at hj
        omega
      | cons u us =>
        obtain ⟨rfl, hx⟩ := List.cons.inj hp
        exact ⟨us, rfl, hx⟩
    refine ⟨xs' ++ p :: ys, xs'.map h.block, ⟨p, (h.block p).len + (h.block bp).len⟩, ?_, ?_, ?_, by simp, by grind, ?_⟩
    · rw [List.map_append, List.map_singleton]
      exact .join hj
    · rw [List.map_append, List.map_cons,
        Heap.map_block_congr fun q hq => Heap.set_hdr_ne (hus q (List.mem_cons_of_mem _ hq)),
        Heap.map_block_congr fun q hq => Heap.set_hdr_ne (hysne q (List.mem_cons_of_mem _ hq))]
      simp [Heap.block, Nat.mul_add]
    · have h1 : Linked (h.set p ⟨h.next bp, (h.hdr p).size + (h.hdr bp).size⟩).next (base :: xs' ++ [p]) :=
        hxs.congr fun q hq => Heap.next_congr (Heap.set_hdr_ne (hus q hq))
      have h2 : Linked (h.set p ⟨h.next bp, (h.hdr p).size + (h.hdr bp).size⟩).next (bp :: ys ++ [base]) :=
        hring.congr fun q hq => Heap.next_congr (Heap.set_hdr_ne (hysne q hq))
      have h3 : Linked (h.set p ⟨h.next bp, (h.hdr p).size + (h.hdr bp).size⟩).next (p :: ys ++ [base]) := by
        cases ys with
        | nil => exact linked_cons.2 ⟨by simp [(linked_cons.1 hring).1], List.isChain_singleton base⟩
        | cons y ys => exact linked_cons.2 ⟨by simp [(linked_cons.1 hring).1], (linked_cons.1 h2).2⟩
      simpa using h1.join h3
    · rw [Heap.set_hdr_ne (hus base (List.mem_cons_self ..))]
      exact hzero
  · have hne : h.after p ≠ bp := mt (Heap.after_eq_iff (by omega) (by omega) hsize).1 hj
    rw [if_neg hne]
    refine ⟨xs ++ bp :: ys, xs.map h.block, h.block bp, .keep ?_, ?_, ?_, ?_, by grind, ?_⟩
    · intro e he
      cases xs using List.reverseRecOn with
      | nil => simp at he
      | append_singleton xs q =>
        obtain ⟨_, hqp⟩ : base :: xs = us ∧ [q] = [p] := List.append_inj' hp rfl
        obtain rfl := (List.cons.inj hqp).1
        obtain rfl : h.block q = e := by simpa using he
        exact hj
    · rw [Heap.block_set_ptr, List.map_append, List.map_cons]
    · have h1 : Linked (h.set p { h.hdr p with ptr := bp }).next (us ++ [p]) :=
        hxs.congr fun q hq => Heap.next_congr (Heap.set_hdr_ne (hus q hq))
      have h2 : Linked (h.set p { h.hdr p with ptr := bp }).next (bp :: ys ++ [base]) :=
        hring.congr fun q hq => Heap.next_congr (Heap.set_hdr_ne (hysne q hq))
      have h3 := h1.join (linked_cons.2 ⟨by simp, h2⟩)
      rw [← List.cons_append, hp]
      simpa using h3
    · rw [← List.cons_append, hp]
      simp
    · by_cases hbp : base = p
      · subst hbp
        simpa using hzero
      · rw [Heap.set_hdr_ne hbp]
        exact hzero

/-- A block that meets nothing on the free list lies between two parts of it. -/
theorem Free.place (hf : Free base h l) (hlow : base + 8 ≤ bp) (hpos : 0 < (h.hdr bp).size)
    (hd : ∀ x, (h.block bp).Has x → ¬ h.InFree l x) :
    ∃ xs ys us p, l = xs ++ ys ∧ base :: xs = us ++ [p] ∧ (∀ q ∈ xs, q < bp ∧ (h.block q).stop ≤ bp) ∧
      (∀ q ∈ ys, bp < q ∧ (h.block bp).stop ≤ q) ∧ p < bp ∧ (h.block p).stop ≤ bp := by
  have hlen : 0 < (h.block bp).len := by
    simp only [Heap.block]
    omega
  have hsep : ∀ q ∈ l, (h.block q).stop ≤ bp ∨ (h.block bp).stop ≤ q := fun q hq =>
    Ext.before_or_after (fun x hx hqx => hd x hx ⟨_, List.mem_map_of_mem hq, hqx⟩) hlen
      (hf.apart.pos _ (List.mem_map_of_mem hq))
  have hstop : ∀ q, q ≤ (h.block q).stop := fun q => Nat.le_add_right _ _
  have hbp : bp ∉ l := fun hl => hd bp (Ext.has_start hlen) (hf.inFree_self hl)
  obtain ⟨xs, ys, rfl, hx, hy⟩ := exists_split (List.pairwise_cons.1 hf.sorted).2 bp hbp
  obtain ⟨us, p, hp⟩ : ∃ us p, base :: xs = us ++ [p] := ⟨_, _, (List.dropLast_append_getLast (by simp)).symm⟩
  have hx' : ∀ q ∈ xs, q < bp ∧ (h.block q).stop ≤ bp := fun q hq =>
    ⟨hx q hq, (hsep q (List.mem_append_left _ hq)).resolve_right (by have := hx q hq; have := hstop bp; omega)⟩
  have hy' : ∀ q ∈ ys, bp < q ∧ (h.block bp).stop ≤ q := fun q hq =>
    ⟨hy q hq, (hsep q (List.mem_append_right _ hq)).resolve_left (by have := hy q hq; have := hstop q; omega)⟩
  refine ⟨xs, ys, us, p, rfl, hp, hx', hy', ?_⟩
  have hmem : p ∈ base :: xs := by
    rw [hp]
    simp
  rcases List.mem_cons.1 hmem with rfl | hpx
  · simp only [Heap.block, Ext.stop, hf.zero]
    omega
  · exact hx' p hpx

/-- The two joins, at the place the block belongs. -/
theorem join_spec (hb : 0 < base) (hf : Free base h (xs ++ ys)) (hp : base :: xs = us ++ [p]) (hlow : base < bp)
    (hpos : 0 < (h.hdr bp).size) (hhigh : (h.block bp).stop ≤ UINT) (hx : ∀ q ∈ xs, q < bp ∧ (h.block q).stop ≤ bp)
    (hy : ∀ q ∈ ys, bp < q ∧ (h.block bp).stop ≤ q) (hpb : p < bp) (hpstop : (h.block p).stop ≤ bp) :
    ∃ h' l', joinPrev bp p (joinNext bp (h.next p) h) = h' ∧ Linked h'.next (base :: l' ++ [base]) ∧ p ∈ base :: l' ∧
      (∀ q ∈ l', q ∈ xs ++ ys ∨ q = bp) ∧ (h'.hdr base).size = 0 ∧ Apart (l'.map h'.block) ∧
      (∀ x, h'.InFree l' x ↔ h.InFree (xs ++ ys) x ∨ (h.block bp).Has x) ∧
      ∃ q ∈ l', (h.hdr bp).size ≤ (h'.hdr q).size := by
  have husp : (us ++ [p]).Pairwise (· < ·) := hp ▸ hf.sorted.sublist ((List.sublist_append_left xs ys).cons_cons base)
  have hus : ∀ q ∈ us, q ≠ bp := fun q hq => by
    have := (List.pairwise_append.1 husp).2.2 q hq p (List.mem_singleton.2 rfl)
    omega
  have hring := hf.ring
  rw [← List.cons_append, hp, List.append_assoc, List.append_assoc] at hring
  obtain ⟨hr1, hr2⟩ := hring.split
  obtain ⟨ys', hjr, hr3, hsub, hstop⟩ := joinNext_spec hr2 hb (by omega)
    (fun q hq => ⟨(hy q hq).1, hf.high q (List.mem_append_right _ hq), hf.lt_uint (List.mem_append_right _ hq)⟩) hhigh
  generalize hh1 : joinNext bp (h.next p) h = h1 at hjr hr3 hstop
  have hdr1 : ∀ q, q ≠ bp → h1.hdr q = h.hdr q := fun q hq => hh1 ▸ joinNext_hdr hq _
  have hxs1 : xs.map h1.block = xs.map h.block := Heap.map_block_congr fun q hq => hdr1 q (Nat.ne_of_lt (hx q hq).1)
  have hys1 : ys'.map h1.block = ys'.map h.block :=
    Heap.map_block_congr fun q hq => hdr1 q (Nat.ne_of_gt (hy q (hsub hq)).1)
  have hgrow := hjr.len_le
  have hpos1 : 0 < (h1.hdr bp).size := by
    simp only [Heap.block] at hgrow
    omega
  have hpstop1 : (h1.block p).stop ≤ bp := by
    rw [Heap.block_congr (hdr1 p (Nat.ne_of_lt hpb))]
    exact hpstop
  have hzero1 : (h1.hdr base).size = 0 := by
    rw [hdr1 base (by omega)]
    exact hf.zero
  have hr4 : Linked h1.next (us ++ [p]) := hr1.congr fun q hq => Heap.next_congr (hdr1 q (hus q hq))
  obtain ⟨l', xs', e, hjl, hmap, hring', hp', hmem, hzero'⟩ := joinPrev_spec hp hr4 hr3 hzero1 husp hpb
    (fun q hq => (hy q (hsub hq)).1) hpstop1 hstop hpos1
  rw [hxs1] at hjl
  rw [hys1] at hmap
  have hap := hf.apart
  rw [List.map_append] at hap
  have hlen : 0 < (h.block bp).len := by
    simp only [Heap.block]
    omega
  obtain ⟨hput, hcov, hle⟩ := hap.put hlen (List.forall_mem_map.2 fun q hq => (hx q hq).2)
    (List.forall_mem_map.2 fun q hq => (hy q hq).2) hjr hjl
  rw [← hmap] at hput hcov
  rw [← List.map_append] at hcov
  refine ⟨_, l', rfl, hring', hp', fun q hq => ?_, hzero', hput, hcov, ?_⟩
  · rcases hmem q hq with h1 | h1 | h1
    · exact .inl (List.mem_append_left _ h1)
    · exact .inr h1
    · exact .inl (List.mem_append_right _ (hsub h1))
  · have he : e ∈ l'.map (joinPrev bp p h1).block := by
      rw [hmap]
      simp
    obtain ⟨q, hq, rfl⟩ := List.mem_map.1 he
    refine ⟨q, hq, ?_⟩
    simp only [Heap.block] at hle
    omega

/-- **`free` puts a block in its place.** Nothing is written but headers of the free list and the block's own. -/
theorem free_spec (hb : 0 < base) (hf : Free base h l) (hlow : base + 8 ≤ bp)
    (hpos : 0 < (h.hdr bp).size) (hhigh : (h.block bp).stop ≤ UINT) (hd : ∀ x, (h.block bp).Has x → ¬ h.InFree l x) :
    ∃ h' l', free (bp + 8) h = some h' ∧ Free base h' l' ∧ h'.areas = h.areas ∧
      (∀ x, h'.InFree l' x ↔ h.InFree l x ∨ (h.block bp).Has x) ∧
      (∀ x, ¬ h.InFree l x → x ≠ base → x ≠ bp → h'.hdr x = h.hdr x) ∧
      ∃ q ∈ l', (h.hdr bp).size ≤ (h'.hdr q).size := by
  obtain ⟨xs, ys, us, p, rfl, hp, hx, hy, hpb, hpstop⟩ := hf.place hlow hpos hd
  have hmem : p ∈ base :: xs := by
    rw [hp]
    simp
  have hsorted := hf.sorted
  rw [← List.cons_append, hp, List.append_assoc] at hsorted
  have hfound : search bp h ROUNDS h.freep = some p := by
    refine search_spec hf (by rw [← List.cons_append]; exact List.mem_append_left _ hmem) hpb fun q hq => ?_
    rw [← List.cons_append, hp, List.append_assoc] at hq
    rcases List.mem_append.1 hq with hq | hq
    · exact .inl (Nat.le_of_lt ((List.pairwise_append.1 hsorted).2.2 q hq p (List.mem_cons_self ..)))
    · rcases List.mem_cons.1 hq with rfl | hq
      · exact .inl (Nat.le_refl _)
      · exact .inr (hy q hq).1
  obtain ⟨h', l', hj, hring, hp', hl', hzero, hap, hcov, hbig⟩ :=
    join_spec hb hf hp (by omega) hpos hhigh hx hy hpb hpstop
  refine ⟨{ h' with freep := p }, l', ?_, ⟨hp', hring, hap, hzero, fun q hq => ?_, fun q hq => ?_⟩, ?_, hcov,
    fun x hx h1 h2 => ?_, hbig⟩
  · rw [free, Nat.add_sub_cancel, hfound, Option.map_some, hj]
  · rcases hl' q hq with h1 | rfl
    · exact hf.low q h1
    · exact hlow
  · refine Ext.stop_le (hap.pos _ (List.mem_map_of_mem hq)) fun x hx => ?_
    rcases (hcov x).1 ⟨_, List.mem_map_of_mem hq, hx⟩ with ⟨e, he, hxe⟩ | hx
    · obtain ⟨r, hr, rfl⟩ := List.mem_map.1 he
      exact Nat.lt_of_lt_of_le hxe.2 (hf.high r hr)
    · exact Nat.lt_of_lt_of_le hx.2 hhigh
  · rw [← hj]
    simp
  · have hxp : x ≠ p := by
      rintro rfl
      rcases List.mem_cons.1 hmem with rfl | hpx
      · exact h1 rfl
      · exact hx (hf.inFree_self (List.mem_append_left _ hpx))
    rw [← hj]
    exact (joinPrev_hdr hxp bp).trans (joinNext_hdr h2 _)

/-! ## take -/

variable {nunits : Nat}

/-- The part of the list around a node and its successor, when that is a block. -/
theorem Free.around (hf : Free base h l) (hq : q ∈ base :: l) (hsize : 0 < (h.hdr (h.next q)).size) :
    ∃ xs us vs, l = xs ++ h.next q :: vs ∧ base :: xs = us ++ [q] := by
  obtain ⟨us, ws, hl⟩ := List.append_of_mem hq
  have hring := hf.ring
  rw [hl, List.append_assoc] at hring
  cases ws with
  | nil =>
    rw [(linked_cons.1 hring.split.2).1, hf.zero] at hsize
    omega
  | cons w ws =>
    have hw : h.next q = w := (linked_cons.1 hring.split.2).1
    obtain ⟨b, xs, hxs⟩ := List.exists_cons_of_ne_nil (List.concat_ne_nil q us)
    have hl' : base :: l = b :: (xs ++ w :: ws) := by
      rw [hl, ← List.cons_append, ← hxs, List.append_assoc]
      rfl
    obtain ⟨rfl, rfl⟩ := List.cons.inj hl'
    exact ⟨xs, us, ws, by rw [hw], hxs.symm⟩

/-- A block of the right size leaves the list. -/
theorem take_all_spec (hf : Free base h l) (hq : q ∈ base :: l) (hpos : 0 < (h.hdr (h.next q)).size) :
    ∃ l', Free base { h.set q { h.hdr q with ptr := h.next (h.next q) } with freep := q } l' ∧
      ∀ x, h.InFree l' x ↔ h.InFree l x ∧ ¬ (h.block (h.next q)).Has x := by
  obtain ⟨xs, us, vs, rfl, hxs⟩ := hf.around hq hpos
  generalize hp : h.next q = p at *
  have hap := hf.apart
  rw [List.map_append, List.map_cons] at hap
  obtain ⟨hap', hcov⟩ := hap.remove
  rw [← List.map_append] at hap' hcov
  have hsub : ∀ r ∈ xs ++ vs, r ∈ xs ++ p :: vs := fun r hr =>
    (List.Sublist.append_left (List.sublist_cons_self p vs) xs).subset hr
  refine ⟨xs ++ vs, ⟨?_, ?_, ?_, ?_, fun r hr => hf.low r (hsub r hr), fun r hr => ?_⟩, fun x => ?_⟩
  · rw [← List.cons_append, hxs]
    simp
  · have hring := hf.ring
    have hsorted := hf.sorted
    rw [← List.cons_append, hxs, List.append_assoc] at hsorted
    rw [← List.cons_append, hxs, List.append_assoc, List.append_assoc] at hring
    obtain ⟨h1, h2⟩ := hring.split
    obtain ⟨_, h3, h4⟩ := List.pairwise_append.1 hsorted
    obtain ⟨h5, _⟩ := List.pairwise_cons.1 h3
    have hus : ∀ r ∈ us, r ≠ q := fun r hr => Nat.ne_of_lt (h4 r hr q (List.mem_cons_self ..))
    have hvs : ∀ r ∈ p :: vs, r ≠ q := fun r hr => Nat.ne_of_gt (h5 r hr)
    obtain ⟨_, h6⟩ := linked_cons.1 h2
    have h7 : Linked (h.set q { h.hdr q with ptr := h.next p }).next (us ++ [q]) :=
      h1.congr fun r hr => Heap.next_congr (Heap.set_hdr_ne (hus r hr))
    have h8 : Linked (h.set q { h.hdr q with ptr := h.next p }).next (p :: vs ++ [base]) :=
      h6.congr fun r hr => Heap.next_congr (Heap.set_hdr_ne (hvs r hr))
    have h9 : Linked (h.set q { h.hdr q with ptr := h.next p }).next (q :: vs ++ [base]) := by
      cases vs with
      | nil => exact linked_cons.2 ⟨by simp [(linked_cons.1 h6).1], List.isChain_singleton base⟩
      | cons v vs => exact linked_cons.2 ⟨by simp [(linked_cons.1 h6).1], (linked_cons.1 h8).2⟩
    rw [← List.cons_append, hxs, List.append_assoc, List.append_assoc]
    exact h7.join h9
  · change Apart ((xs ++ vs).map (h.set q { h.hdr q with ptr := h.next p }).block)
    rw [Heap.block_set_ptr]
    exact hap'
  · change ((h.set q { h.hdr q with ptr := h.next p }).hdr base).size = 0
    by_cases hb : base = q
    · subst hb
      simpa using hf.zero
    · rw [Heap.set_hdr_ne hb]
      exact hf.zero
  · change ((h.set q { h.hdr q with ptr := h.next p }).block r).stop ≤ UINT
    rw [Heap.block_set_ptr]
    exact hf.high r (hsub r hr)
  · rw [Heap.InFree, hcov, Heap.InFree, List.map_append, List.map_cons]

/-- The tail of a block becomes a block, whose header is inside what was the free one. -/
theorem take_tail_spec (hf : Free base h l) (hp : p ∈ l) (hn : 0 < nunits) (hlt : nunits < (h.hdr p).size) {t : Nat}
    (ht : t = p + 8 * ((h.hdr p).size - nunits)) (hq : q ∈ base :: l) :
    Free base { (h.set p ⟨(h.hdr p).ptr, (h.hdr p).size - nunits⟩).set t ⟨(h.hdr t).ptr, nunits⟩ with freep := q }
      l ∧ t ∉ base :: l ∧ (∀ x, (⟨t, 8 * nunits⟩ : Ext).Has x → h.InFree l x) ∧
      ∀ x, ((h.set p ⟨(h.hdr p).ptr, (h.hdr p).size - nunits⟩).set t ⟨(h.hdr t).ptr, nunits⟩).InFree l x ↔
        h.InFree l x ∧ ¬ (⟨t, 8 * nunits⟩ : Ext).Has x := by
  obtain ⟨xs, vs, rfl⟩ := List.append_of_mem hp
  have hsplit := hf.apart
  rw [List.map_append, List.map_cons] at hsplit
  obtain ⟨_, _, _, hbelow, habove⟩ := apart_middle.1 hsplit
  have hxs : ∀ r ∈ xs, r < p := fun r hr => by
    have := hbelow _ (List.mem_map_of_mem hr)
    simp only [Heap.block, Ext.stop] at this
    omega
  have hvs : ∀ r ∈ vs, p + 8 * (h.hdr p).size < r := fun r hr => habove _ (List.mem_map_of_mem hr)
  have hlow := hf.low p hp
  have htout : t ∉ base :: (xs ++ p :: vs) := by
    intro hmem
    simp only [List.mem_cons, List.mem_append] at hmem
    rcases hmem with h1 | h1 | h1 | h1
    · omega
    · have := hxs t h1
      omega
    · omega
    · have := hvs t h1
      omega
  generalize hh' : (h.set p ⟨(h.hdr p).ptr, (h.hdr p).size - nunits⟩).set t ⟨(h.hdr t).ptr, nunits⟩ = h'
  have hother : ∀ x, x ≠ p → x ≠ t → h'.hdr x = h.hdr x := fun x h1 h2 => by
    rw [← hh', Heap.set_hdr_ne h2, Heap.set_hdr_ne h1]
  have hpt : p ≠ t := fun e => htout (e ▸ List.mem_cons_of_mem _ hp)
  have hself : h'.hdr p = ⟨(h.hdr p).ptr, (h.hdr p).size - nunits⟩ := by
    rw [← hh', Heap.set_hdr_ne hpt, Heap.set_hdr_self]
  have hnext : ∀ x ∈ base :: (xs ++ p :: vs), h'.next x = h.next x := by
    intro x hx
    by_cases hxp : x = p
    · rw [hxp, Heap.next, hself, Heap.next]
    · exact Heap.next_congr (hother x hxp fun e => htout (e ▸ hx))
  have hblocks : (xs ++ p :: vs).map h'.block =
      xs.map h.block ++ ⟨(h.block p).start, (h.block p).len - 8 * nunits⟩ :: vs.map h.block := by
    have hx : ∀ r ∈ xs, h'.hdr r = h.hdr r := fun r hr =>
      hother r (Nat.ne_of_lt (hxs r hr)) fun e => htout (by simp [← e, hr])
    have hv : ∀ r ∈ vs, h'.hdr r = h.hdr r := fun r hr =>
      hother r (Nat.ne_of_gt (by have := hvs r hr; omega)) fun e => htout (by simp [← e, hr])
    rw [List.map_append, List.map_cons, Heap.map_block_congr hx, Heap.map_block_congr hv]
    simp only [Heap.block, hself, Nat.mul_sub]
  have htail : (⟨(h.block p).start + ((h.block p).len - 8 * nunits), 8 * nunits⟩ : Ext) = ⟨t, 8 * nunits⟩ := by
    simp only [Heap.block, ht, Nat.mul_sub]
  obtain ⟨hap, hcov⟩ := hsplit.shrink (n := 8 * nunits) (by simp only [Heap.block]; omega)
  rw [← hblocks] at hap hcov
  refine ⟨⟨hq, hf.ring.congr hnext, hap, ?_, hf.low, fun r hr => ?_⟩, htout, fun x hx => ?_, fun x => ?_⟩
  · change (h'.hdr base).size = 0
    rw [hother base (by omega) fun e => htout (by simp [← e])]
    exact hf.zero
  · change (h'.block r).stop ≤ UINT
    have hr' := hf.high r hr
    by_cases hrp : r = p
    · rw [hrp] at hr' ⊢
      simp only [Heap.block, Ext.stop, hself] at hr' ⊢
      omega
    · rw [Heap.block_congr (hother r hrp fun e => htout (e ▸ List.mem_cons_of_mem _ hr))]
      exact hr'
  · refine ⟨h.block p, List.mem_map_of_mem hp, ?_⟩
    simp only [Ext.Has, Ext.stop, Heap.block] at hx ⊢
    omega
  · rw [Heap.InFree, hcov, htail, Heap.InFree, List.map_append, List.map_cons]

theorem take_of_lt (hn : 0 < nunits) (hlt : nunits < (h.hdr p).size) (hhigh : (h.block p).stop ≤ UINT) {t : Nat}
    (ht : t = p + 8 * ((h.hdr p).size - nunits)) : take nunits q p h = (t + 8,
      { (h.set p ⟨(h.hdr p).ptr, (h.hdr p).size - nunits⟩).set t ⟨(h.hdr t).ptr, nunits⟩ with freep := q }) := by
  simp only [Heap.block, Ext.stop] at hhigh
  have hafter : (h.set p ⟨(h.hdr p).ptr, (h.hdr p).size - nunits⟩).after p = t := by
    rw [Heap.after, Heap.set_hdr_self, Nat.mod_eq_of_lt (by dsimp only; omega), ht]
  have htp : t ≠ p := by omega
  rw [take, if_neg (by omega)]
  simp only [hafter, Heap.set_hdr_ne htp]

/-- **`take` hands out a block of the free list, or its tail.** -/
theorem take_spec (hf : Free base h l) (hq : q ∈ base :: l) (hn : 0 < nunits)
    (hfit : nunits ≤ (h.hdr (h.next q)).size) :
    ∃ bp h' l', take nunits q (h.next q) h = (bp + 8, h') ∧ Free base h' l' ∧ h'.areas = h.areas ∧ base + 8 ≤ bp ∧
      (h'.hdr bp).size = nunits ∧ (∀ x, h'.InFree l' x ↔ h.InFree l x ∧ ¬ (h'.block bp).Has x) ∧
      (∀ x, (h'.block bp).Has x → h.InFree l x) ∧ ∀ x, ¬ h.InFree l x → x ≠ base → h'.hdr x = h.hdr x := by
  have hpos : 0 < (h.hdr (h.next q)).size := by omega
  have hpl : h.next q ∈ l := by
    obtain ⟨xs, us, vs, hl, _⟩ := hf.around hq hpos
    rw [hl]
    simp
  have hqne : ∀ x, ¬ h.InFree l x → x ≠ base → x ≠ q := by
    rintro x hx hb rfl
    exact hx (hf.inFree_self ((List.mem_cons.1 hq).resolve_left hb))
  by_cases heq : (h.hdr (h.next q)).size = nunits
  · rw [take, if_pos heq]
    obtain ⟨l', hf', hcov⟩ := take_all_spec hf hq hpos
    have hblock := Heap.block_set_ptr h q (h.next (h.next q))
    have hframe : ∀ x, x ≠ q → (h.set q { h.hdr q with ptr := h.next (h.next q) }).hdr x = h.hdr x :=
      fun x hx => Heap.set_hdr_ne hx
    have hareas : (h.set q { h.hdr q with ptr := h.next (h.next q) }).areas = h.areas := rfl
    generalize h.set q { h.hdr q with ptr := h.next (h.next q) } = h' at *
    have hsame : h'.block (h.next q) = h.block (h.next q) := by rw [hblock]
    refine ⟨_, _, l', rfl, hf', hareas, hf.low _ hpl, ?_, fun x => ?_, fun x hx => ?_, fun x hx hb => ?_⟩
    · have := congrArg Ext.len hsame
      simp only [Heap.block] at this
      change (h'.hdr (h.next q)).size = nunits
      omega
    · change Covers (l'.map h'.block) x ↔ _ ∧ ¬ (h'.block (h.next q)).Has x
      rw [hblock]
      exact hcov x
    · have hx : (h'.block (h.next q)).Has x := hx
      exact ⟨_, List.mem_map_of_mem hpl, hsame ▸ hx⟩
    · exact hframe x (hqne x hx hb)
  · obtain ⟨hf', htout, hin, hcov⟩ := take_tail_spec hf hpl hn (by omega) rfl hq
    rw [take_of_lt hn (by omega) (hf.high _ hpl) rfl]
    have hlow := hf.low _ hpl
    have ht : h.next q ≤ h.next q + 8 * ((h.hdr (h.next q)).size - nunits) := Nat.le_add_right _ _
    generalize h.next q + 8 * ((h.hdr (h.next q)).size - nunits) = t at *
    have hframe : ∀ x, x ≠ h.next q → x ≠ t → ((h.set (h.next q) ⟨(h.hdr (h.next q)).ptr,
        (h.hdr (h.next q)).size - nunits⟩).set t ⟨(h.hdr t).ptr, nunits⟩).hdr x = h.hdr x := fun x h1 h2 => by
      rw [Heap.set_hdr_ne h2, Heap.set_hdr_ne h1]
    refine ⟨t, _, l, rfl, hf', rfl, by omega, by simp, fun x => ?_, fun x hx => ?_, fun x hx hb => ?_⟩
    · refine (hcov x).trans (and_congr_right' (not_congr ?_))
      simp [Heap.block]
    · exact hin x (by simpa [Heap.block] using hx)
    · have hxp : x ≠ h.next q := by
        rintro rfl
        exact hx (hf.inFree_self hpl)
      have hxt : x ≠ t := by
        rintro rfl
        exact hx (hin x (Ext.has_start (by dsimp only; omega)))
      exact hframe x hxp hxt

end Xv6.Umalloc
