import CCppProjects.Xv6.UmallocSpec
/-
# The user heap hands out disjoint blocks

`Sound`: what `malloc` has handed out and `free` has not taken back lies in memory from `sbrk`, is as large as
asked for and meets neither another such block nor the free list, which is one circular list of blocks in the
order of their addresses with a gap between any two. It holds in every state of every run whose calls `Fits`:

* up to 7 bytes below 2^32 the rounding of `malloc` wraps around to one unit, which is the header alone;
* from 2^31 bytes on `morecore` asks `sbrk` for a negative number of bytes, and uses the area nevertheless.
-/
namespace Xv6.Umalloc

open Circle Extents Lts

variable {base bp k n p q x : Nat} {h h' : Heap} {l : List Nat} {sbrk : Option Nat} {s s' : State}

/-- A block on the free list has `k` units. -/
def Heap.Enough (h : Heap) (k : Nat) : Prop := h.freep ≠ 0 ∧ ∃ i, k ≤ (h.hdr (h.next^[i] h.freep)).size

theorem Free.enough_iff (hb : 0 < base) (hf : Free base h l) : h.Enough k ↔ ∃ p ∈ base :: l, k ≤ (h.hdr p).size := by
  have hne : h.freep ≠ 0 := by
    rcases List.mem_cons.1 hf.entry with h1 | h1
    · omega
    · have := hf.low _ h1
      omega
  constructor
  · rintro ⟨_, i, hi⟩
    exact ⟨_, hf.ring.iterate_mem hf.entry i, hi⟩
  · rintro ⟨p, hp, hk⟩
    obtain ⟨zs, hring, hperm⟩ := hf.ring.rotate hf.entry
    obtain ⟨i, rfl⟩ := Linked.exists_iterate (List.IsChain.left_of_append hring) (hperm.mem_iff.2 hp)
    exact ⟨hne, i, hk⟩

/-! ## malloc -/

/-- The loop of `malloc` back at `freep` without a fit. -/
def ask (nunits n : Nat) (sbrk : List (Option Nat)) (h : Heap) : Option (Nat × Heap) :=
  match sbrk with
  | [] => none
  | none :: _ => some (0, h)
  | some a :: sbrk => (morecore nunits a h).bind fun h => mallocLoop nunits n h.freep (h.next h.freep) sbrk h

theorem mallocLoop_succ (sbrk : List (Option Nat)) (prevp : Nat) : mallocLoop k (n + 1) prevp p sbrk h =
    if k ≤ (h.hdr p).size then some (take k prevp p h) else if p = h.freep then ask k n sbrk h
    else mallocLoop k n p (h.next p) sbrk h := by
  rw [mallocLoop.eq_def]
  rfl

/-- One round from `prevp` on: the first fit is taken, or none fits. -/
theorem mallocLoop_walk {rest : List Nat} {prevp : Nat} (sbrk : List (Option Nat))
    (hl : Linked h.next (prevp :: rest ++ [h.freep])) (hne : h.freep ∉ rest) (hn : rest.length < n) :
    (∃ q ∈ prevp :: rest, k ≤ (h.hdr (h.next q)).size ∧
      mallocLoop k n prevp (h.next prevp) sbrk h = some (take k q (h.next q) h)) ∨
    ((∀ q ∈ prevp :: rest, (h.hdr (h.next q)).size < k) ∧
      ∃ m, n ≤ m + rest.length + 1 ∧ mallocLoop k n prevp (h.next prevp) sbrk h = ask k m sbrk h) := by
  induction rest generalizing prevp n with
  | nil =>
    obtain ⟨m, rfl⟩ := Nat.exists_eq_succ_of_ne_zero (Nat.ne_zero_of_lt hn)
    have hnext : h.next prevp = h.freep := (linked_cons.1 hl).1
    rw [Nat.succ_eq_add_one, mallocLoop_succ]
    by_cases hk : k ≤ (h.hdr (h.next prevp)).size
    · exact .inl ⟨prevp, List.mem_cons_self .., hk, if_pos hk⟩
    · refine .inr ⟨?_, m, by simp, by rw [if_neg hk, if_pos hnext]⟩
      simpa using hk
  | cons b rest ih =>
    obtain ⟨m, rfl⟩ := Nat.exists_eq_succ_of_ne_zero (Nat.ne_zero_of_lt hn)
    obtain ⟨hnext, hl⟩ := linked_cons.1 hl
    obtain ⟨hb, hne⟩ := not_or.1 (mt List.mem_cons.2 hne)
    rw [Nat.succ_eq_add_one, mallocLoop_succ]
    rw [List.length_cons] at hn
    by_cases hk : k ≤ (h.hdr (h.next prevp)).size
    · exact .inl ⟨prevp, List.mem_cons_self .., hk, if_pos hk⟩
    · rw [if_neg hk, hnext, if_neg fun e => hb e.symm]
      rcases ih (n := m) hl hne (by omega) with ⟨q, hq, hfit, heq⟩ | ⟨hnone, m', hm, heq⟩
      · exact .inl ⟨q, List.mem_cons_of_mem _ hq, hfit, heq⟩
      · refine .inr ⟨fun q hq => ?_, m', by rw [List.length_cons]; omega, heq⟩
        rcases List.mem_cons.1 hq with rfl | hq
        · exact Nat.lt_of_not_le hk
        · exact hnone q hq

/-- The loop from `freep` on: it takes a block that fits, or asks for memory when there is none. -/
theorem mallocLoop_spec (hf : Free base h l) (sbrk : List (Option Nat)) (hn : l.length < n) :
    (∃ q ∈ base :: l, k ≤ (h.hdr (h.next q)).size ∧
      mallocLoop k n h.freep (h.next h.freep) sbrk h = some (take k q (h.next q) h)) ∨
    ((∀ q ∈ base :: l, (h.hdr q).size < k) ∧
      ∃ m, n ≤ m + l.length + 1 ∧ mallocLoop k n h.freep (h.next h.freep) sbrk h = ask k m sbrk h) := by
  obtain ⟨zs, hring, hperm⟩ := hf.ring.rotate hf.entry
  have hlen : zs.length = l.length := by simpa using hperm.length_eq
  have hnodup : (base :: l).Nodup := hf.sorted.imp fun h => Nat.ne_of_lt h
  have hne : h.freep ∉ zs := (List.nodup_cons.1 (hperm.nodup_iff.2 hnodup)).1
  rcases mallocLoop_walk (k := k) sbrk hring hne (hlen ▸ hn) with ⟨q, hq, hfit, heq⟩ | ⟨hnone, m, hm, heq⟩
  · exact .inl ⟨q, hperm.mem_iff.1 hq, hfit, heq⟩
  · refine .inr ⟨fun q hq => ?_, m, hlen ▸ hm, heq⟩
    -- every node is the successor of one
    obtain ⟨us, vs, huv⟩ := List.append_of_mem (hperm.mem_iff.2 hq)
    cases us using List.reverseRecOn with
    | nil =>
      obtain ⟨rfl, rfl⟩ := List.cons.inj huv
      have hlast := (List.dropLast_append_getLast (List.cons_ne_nil h.freep zs)).symm
      rw [hlast, List.append_assoc] at hring
      have := hnone _ (List.getLast_mem (List.cons_ne_nil h.freep zs))
      rwa [(linked_cons.1 hring.split.2).1] at this
    | append_singleton us u =>
      rw [huv, List.append_assoc, List.append_assoc] at hring
      have := hnone u (by rw [huv]; simp)
      rwa [(linked_cons.1 hring.split.2).1] at this

theorem obtained_of_lt (hk : 8 * growth k < 2 ^ 31) : obtained (growth k) = 8 * growth k := by
  have h1 : growth k * 8 % UINT = 8 * growth k := by
    rw [Nat.mul_comm]
    exact Nat.mod_eq_of_lt (by rw [UINT]; omega)
  rw [obtained, h1, if_pos hk]

theorem le_growth (k : Nat) : k ≤ growth k ∧ 0 < growth k := by
  rw [growth]
  split <;> omega

/-- From `h` with free list `l` the heap `h'` is reached, with `l'`, and the block `bp` of `k` units handed out.
`new` is what `sbrk` has given for it. -/
structure Grant (base k : Nat) (h : Heap) (l : List Nat) (new : List Ext) (bp : Nat) (h' : Heap) (l' : List Nat) :
    Prop where
  free : Free base h' l'
  areas : h'.areas = new ++ h.areas
  low : base + 8 ≤ bp
  size : (h'.hdr bp).size = k
  room : ∀ x, h'.InFree l' x ∨ (h'.block bp).Has x ↔ h.InFree l x ∨ Covers new x
  apart : ∀ x, (h'.block bp).Has x → ¬ h'.InFree l' x
  frame : ∀ x, ¬ h.InFree l x → ¬ Covers new x → x ≠ base → h'.hdr x = h.hdr x

theorem grant_of_take {h1 : Heap} {l1 : List Nat} {new : List Ext} (hf : Free base h1 l1) (hq : q ∈ base :: l1)
    (hk : 0 < k) (hfit : k ≤ (h1.hdr (h1.next q)).size) (hareas : h1.areas = new ++ h.areas)
    (hcov : ∀ x, h1.InFree l1 x ↔ h.InFree l x ∨ Covers new x)
    (hframe : ∀ x, ¬ h.InFree l x → ¬ Covers new x → x ≠ base → h1.hdr x = h.hdr x) :
    ∃ bp h' l', take k q (h1.next q) h1 = (bp + 8, h') ∧ Grant base k h l new bp h' l' := by
  obtain ⟨bp, h', l', heq, hf', ha, hlow, hsize, hin, hsub, hfr⟩ := take_spec hf hq hk hfit
  refine ⟨bp, h', l', heq, hf', ha.trans hareas, hlow, hsize, fun x => ?_, fun x hx hin' => ((hin x).1 hin').2 hx,
    fun x g1 g2 g3 => ?_⟩
  · rw [← hcov, hin]
    constructor
    · rintro (hx | hx)
      · exact hx.1
      · exact hsub x hx
    · intro hx
      by_cases hb : (h'.block bp).Has x
      · exact .inr hb
      · exact .inl ⟨hx, hb⟩
  · have hout : ¬ h1.InFree l1 x := fun hx => ((hcov x).1 hx).elim g1 g2
    exact (hfr x hout g3).trans (hframe x g1 g2 g3)

/-- A fresh area becomes a free block that is large enough. -/
theorem morecore_spec (hb : 0 < base) (hf : Free base h l) (hbelow : ∀ x, h.InFree l x → Covers h.areas x)
    (hbig : 8 * growth k < 2 ^ 31) {a : Nat} (ha : ∀ e ∈ h.areas, e.stop ≤ a) (hlow : base + 8 ≤ a)
    (hhigh : a + obtained (growth k) ≤ UINT) :
    ∃ h' l', morecore k a h = some h' ∧ Free base h' l' ∧ h'.areas = [⟨a, 8 * growth k⟩] ++ h.areas ∧
      (∀ x, h'.InFree l' x ↔ h.InFree l x ∨ Covers [⟨a, 8 * growth k⟩] x) ∧
      (∀ x, ¬ h.InFree l x → ¬ Covers [⟨a, 8 * growth k⟩] x → x ≠ base → h'.hdr x = h.hdr x) ∧
      ∃ q ∈ l', k ≤ (h'.hdr q).size := by
  have hpos := (le_growth k).2
  rw [morecore, obtained_of_lt hbig]
  rw [obtained_of_lt hbig] at hhigh
  have hfresh : ∀ x, h.InFree l x → x < a := fun x hx => by
    obtain ⟨e, he, hxe⟩ := hbelow x hx
    exact Nat.lt_of_lt_of_le hxe.2 (ha e he)
  have hal : a ∉ base :: l := fun hmem => by
    rcases List.mem_cons.1 hmem with rfl | hmem
    · omega
    · exact Nat.lt_irrefl _ (hfresh a (hf.inFree_self hmem))
  -- the header of the area is not one of the list
  generalize hh1 : ({ h with areas := ⟨a, 8 * growth k⟩ :: h.areas } : Heap).set a
    { h.hdr a with size := growth k } = h1
  have hother : ∀ x, x ≠ a → h1.hdr x = h.hdr x := fun x hx => hh1 ▸ Heap.set_hdr_ne hx
  have hin : ∀ x ∈ base :: l, h1.hdr x = h.hdr x := fun x hx => hother x fun e => hal (e ▸ hx)
  have hblocks : l.map h1.block = l.map h.block := Heap.map_block_congr fun x hx => hin x (List.mem_cons_of_mem _ hx)
  have hblock : h1.block a = ⟨a, 8 * growth k⟩ := by simp [Heap.block, ← hh1]
  have hf1 : Free base h1 l := by
    refine ⟨?_, hf.ring.congr fun x hx => Heap.next_congr (hin x hx), hblocks ▸ hf.apart, ?_, hf.low, fun x hx => ?_⟩
    · rw [← hh1]
      exact hf.entry
    · rw [hin base (List.mem_cons_self ..)]
      exact hf.zero
    · rw [Heap.block_congr (hin x (List.mem_cons_of_mem _ hx))]
      exact hf.high x hx
  have hfree1 : ∀ x, h1.InFree l x ↔ h.InFree l x := fun x => by rw [Heap.InFree, hblocks, Heap.InFree]
  have hsize : (h1.hdr a).size = growth k := by simp [← hh1]
  obtain ⟨h', l', heq, hf', hareas, hcov, hframe, q, hq, hle⟩ := free_spec hb hf1 hlow (by omega)
    (by rw [hblock]; exact hhigh) (fun x hx hin => by
      rw [hblock] at hx
      exact Nat.lt_irrefl x (Nat.lt_of_lt_of_le (hfresh x ((hfree1 x).1 hin)) hx.1))
  refine ⟨h', l', heq, hf', ?_, fun x => ?_, fun x g1 g2 g3 => ?_, q, hq, ?_⟩
  · rw [hareas, ← hh1]
    rfl
  · rw [hcov, hfree1, hblock, covers_cons, or_iff_left covers_nil]
  · have hxa : x ≠ a := by
      rintro rfl
      exact g2 (covers_cons.2 (.inl (Ext.has_start (by dsimp only; omega))))
    exact (hframe x (fun hx => g1 ((hfree1 x).1 hx)) g3 hxa).trans (hother x hxa)
  · have := (le_growth k).1
    omega

/-- **`malloc` returns**: the null pointer, or a block that was free or in the area just obtained. -/
theorem malloc_spec (hb : 0 < base) (hf : Free base h l) (hbelow : ∀ x, h.InFree l x → Covers h.areas x) (hk : 0 < k)
    (hsbrk : ∀ a ∈ sbrk, (∀ e ∈ h.areas, e.stop ≤ a) ∧ base + 8 ≤ a ∧ a + obtained (growth k) ≤ UINT)
    (hfits : h.Enough k ∨ sbrk = none ∨ 8 * growth k < 2 ^ 31) :
    (¬ h.Enough k ∧ sbrk = none ∧ mallocLoop k (2 * ROUNDS) h.freep (h.next h.freep) [sbrk] h = some (0, h)) ∨
    (h.Enough k ∨ sbrk ≠ none) ∧
      ∃ new bp h' l', mallocLoop k (2 * ROUNDS) h.freep (h.next h.freep) [sbrk] h = some (bp + 8, h') ∧
        Grant base k h l new bp h' l' ∧ ∀ e ∈ new, sbrk = some e.start ∧ e.len = obtained (growth k) := by
  have hlen := hf.length_lt
  rcases mallocLoop_spec (k := k) (n := 2 * ROUNDS) hf [sbrk] (by omega) with ⟨q, hq, hfit, heq⟩ | ⟨hnone, m, hm, heq⟩
  · obtain ⟨bp, h', l', htake, hgrant⟩ := grant_of_take (h := h) (l := l) hf hq hk hfit (List.nil_append _).symm
      (by simp) (by simp)
    have henough : h.Enough k := (hf.enough_iff hb).2 ⟨h.next q, hf.ring.iterate_mem hq 1, hfit⟩
    exact .inr ⟨.inl henough, [], bp, h', l', by rw [heq, htake], hgrant, by simp⟩
  · have hnot : ¬ h.Enough k := by
      rw [hf.enough_iff hb]
      rintro ⟨p, hp, hk⟩
      have := hnone p hp
      omega
    cases sbrk with
    | none => exact .inl ⟨hnot, rfl, heq⟩
    | some a =>
      have hbig : 8 * growth k < 2 ^ 31 := by
        rcases hfits with h1 | h1 | h1
        · exact absurd h1 hnot
        · cases h1
        · exact h1
      obtain ⟨ha, hlow, hhigh⟩ := hsbrk a rfl
      obtain ⟨h1, l1, hmore, hf1, hareas, hcov, hframe, r, hr, hle⟩ := morecore_spec hb hf hbelow hbig ha hlow hhigh
      have hlen1 := hf1.length_lt
      rw [heq, ask, hmore, Option.bind_some]
      rcases mallocLoop_spec (k := k) (n := m) hf1 [] (by omega) with ⟨q, hq, hfit, heq1⟩ | ⟨hnone1, _⟩
      · obtain ⟨bp, h', l', htake, hgrant⟩ := grant_of_take hf1 hq hk hfit hareas hcov hframe
        refine .inr ⟨.inr (Option.some_ne_none a), _, bp, h', l', by rw [heq1, htake], hgrant, fun e he => ?_⟩
        obtain rfl := List.mem_singleton.1 he
        exact ⟨rfl, (obtained_of_lt hbig).symm⟩
      · have := hnone1 r (List.mem_cons_of_mem _ hr)
        omega

/-! ## Programs -/

/-- The block of a pointer the program holds. -/
def State.held (s : State) (r : Nat × Nat) : Ext := s.block (r.1 - 8)

structure Sound (base : Nat) (s : State) : Prop where
  held : ∀ r ∈ s.live, base + 16 ≤ r.1 ∧ r.2 + 8 ≤ (s.held r).len ∧ ∀ x, (s.held r).Has x → Covers s.areas x
  disjoint : s.live.Pairwise fun r q => ∀ x, (s.held r).Has x → ¬ (s.held q).Has x
  list : (s.freep = 0 ∧ s.live = []) ∨ ∃ l, Free base s.toHeap l ∧ (∀ x, s.InFree l x → Covers s.areas x) ∧
    ∀ r ∈ s.live, ∀ x, (s.held r).Has x → ¬ s.InFree l x

structure Inv (base : Nat) (s : State) : Prop extends Sound base s where
  areas : ∀ e ∈ s.areas, base + 8 ≤ e.start ∧ e.stop ≤ UINT

/-- The request is met as it is, or not at all. -/
def Call.Fits (s : State) : Call → Prop
  | .malloc n sbrk => (¬ s.Enough (units n) ∧ sbrk = none) ∨
      (n + 8 ≤ UINT ∧ (s.Enough (units n) ∨ 8 * growth (units n) < 2 ^ 31))
  | .free _ => True

theorem le_units (hn : n + 8 ≤ UINT) : n + 8 ≤ 8 * units n := by
  rw [units, Nat.mod_eq_of_lt (by omega)]
  omega

theorem units_pos (n : Nat) : 0 < units n := Nat.succ_pos _

theorem Sound.has_start (hs : Sound base s) {r : Nat × Nat} (hr : r ∈ s.live) : (s.held r).Has (r.1 - 8) :=
  Ext.has_start (e := s.held r) (by have := (hs.held r hr).2.1; omega)

/-- After the first `if` of `malloc` there is a list, with the same blocks. -/
theorem start_spec (hb : 0 < base) (hs : Inv base s) : ∃ l, Free base (start base s.toHeap) l ∧
    (∀ x, (start base s.toHeap).InFree l x → Covers s.areas x) ∧
    (∀ r ∈ s.live, (start base s.toHeap).hdr (r.1 - 8) = s.hdr (r.1 - 8) ∧
      ∀ x, (s.held r).Has x → ¬ (start base s.toHeap).InFree l x) ∧
    (start base s.toHeap).areas = s.areas ∧ ∀ k, 0 < k → ((start base s.toHeap).Enough k ↔ s.Enough k) := by
  rcases hs.list with ⟨hz, hlive⟩ | ⟨l, hf, hcov, hd⟩
  · rw [start, if_pos hz]
    have hf : Free base { s.set base ⟨base, 0⟩ with freep := base } [] := by
      refine ⟨List.mem_singleton.2 rfl, linked_cons.2 ⟨?_, List.isChain_singleton base⟩, ⟨.nil, by simp⟩, ?_, by simp,
        by simp⟩
      · exact Heap.set_next_self ..
      · exact congrArg Header.size (Heap.set_hdr_self s.toHeap base ⟨base, 0⟩)
    refine ⟨[], hf, by simp [Heap.InFree], by simp [hlive], rfl, fun k hk => ⟨fun hE => ?_, fun hE => absurd hz hE.1⟩⟩
    obtain ⟨p, hp, hle⟩ := (hf.enough_iff hb).1 hE
    obtain rfl := List.mem_singleton.1 hp
    rw [hf.zero] at hle
    omega
  · have hne : s.freep ≠ 0 := by
      rcases List.mem_cons.1 hf.entry with h1 | h1
      · omega
      · have := hf.low _ h1
        omega
    rw [start, if_neg hne]
    exact ⟨l, hf, hcov, fun r hr => ⟨rfl, hd r hr⟩, rfl, fun k _ => Iff.rfl⟩

/-- What is held is kept when its headers are, and the free list meets none of it. -/
theorem Inv.keep {live : List (Nat × Nat)} (hs : Inv base s) (hf : Free base h l)
    (hcov : ∀ x, h.InFree l x → Covers s.areas x) (hareas : h.areas = s.areas) (hsub : live.Sublist s.live)
    (hlive : ∀ r ∈ live, h.hdr (r.1 - 8) = s.hdr (r.1 - 8) ∧ ∀ x, (s.held r).Has x → ¬ h.InFree l x) :
    Inv base { h with live := live } := by
  have hsame : ∀ r ∈ live, h.block (r.1 - 8) = s.held r := fun r hr => Heap.block_congr (hlive r hr).1
  refine ⟨⟨fun r hr => ?_, List.Pairwise.imp_of_mem ?_ (hs.disjoint.sublist hsub), .inr ⟨l, hf, ?_, ?_⟩⟩, ?_⟩
  · change base + 16 ≤ r.1 ∧ r.2 + 8 ≤ (h.block (r.1 - 8)).len ∧ ∀ x, (h.block (r.1 - 8)).Has x → Covers h.areas x
    rw [hsame r hr, hareas]
    exact hs.held r (hsub.subset hr)
  · intro r q hr hq hrq x
    change (h.block (r.1 - 8)).Has x → ¬ (h.block (q.1 - 8)).Has x
    rw [hsame r hr, hsame q hq]
    exact hrq x
  · intro x hx
    change Covers h.areas x
    rw [hareas]
    exact hcov x hx
  · intro r hr x hx
    change (h.block (r.1 - 8)).Has x at hx
    rw [hsame r hr] at hx
    exact (hlive r hr).2 x hx
  · intro e he
    change e ∈ h.areas at he
    rw [hareas] at he
    exact hs.areas e he

/-- A grant to a program keeps what it holds. -/
theorem Inv.grant {new : List Ext} {l' : List Nat} (hs : Inv base s) (hf : ∀ x, h.InFree l x → Covers s.areas x)
    (hlive : ∀ r ∈ s.live, h.hdr (r.1 - 8) = s.hdr (r.1 - 8) ∧ ∀ x, (s.held r).Has x → ¬ h.InFree l x)
    (hareas : h.areas = s.areas) (hg : Grant base (units n) h l new bp h' l') (hn : n + 8 ≤ UINT)
    (hnew : ∀ e ∈ new, (∀ f ∈ s.areas, f.stop ≤ e.start) ∧ base + 8 ≤ e.start ∧ e.stop ≤ UINT) :
    Inv base { h' with live := (bp + 8, n) :: s.live } := by
  -- a new area meets nothing that was there
  have hfresh : ∀ x, Covers s.areas x → ¬ Covers new x := by
    rintro x ⟨f, hf, hxf⟩ ⟨e, he, hxe⟩
    exact Nat.lt_irrefl x (Nat.lt_of_lt_of_le hxf.2 (Nat.le_trans ((hnew e he).1 f hf) hxe.1))
  have hout : ∀ r ∈ s.live, ∀ x, (s.held r).Has x → ¬ h.InFree l x ∧ ¬ Covers new x := fun r hr x hx =>
    ⟨(hlive r hr).2 x hx, hfresh x ((hs.held r hr).2.2 x hx)⟩
  have hsame : ∀ r ∈ s.live, h'.block (r.1 - 8) = s.held r := fun r hr => by
    obtain ⟨h1, h2⟩ := hout r hr _ (hs.has_start hr)
    have hlow := (hs.held r hr).1
    exact Heap.block_congr ((hg.frame _ h1 h2 (by omega)).trans (hlive r hr).1)
  have hcov : ∀ x, Covers s.areas x ∨ Covers new x → Covers h'.areas x := fun x hx => by
    rw [hg.areas, hareas, covers_append]
    exact hx.symm
  have hroom : ∀ x, h'.InFree l' x ∨ (h'.block bp).Has x → Covers h'.areas x := fun x hx =>
    hcov x (((hg.room x).1 hx).imp_left (hf x))
  have hapart : ∀ r ∈ s.live, ∀ x, (s.held r).Has x → ¬ (h'.InFree l' x ∨ (h'.block bp).Has x) := fun r hr x hx hin =>
    ((hg.room x).1 hin).elim (hout r hr x hx).1 (hout r hr x hx).2
  have hlen : n + 8 ≤ (h'.block bp).len := by
    rw [Heap.block, hg.size]
    exact le_units hn
  refine ⟨⟨fun r hr => ?_, List.pairwise_cons.2 ⟨fun r hr x hx hrx => ?_, ?_⟩, .inr ⟨l', hg.free,
    fun x hx => hroom x (.inl hx), fun r hr x hx hin => ?_⟩⟩, fun e he => ?_⟩
  · rcases List.mem_cons.1 hr with rfl | hr
    · have hlow := hg.low
      exact ⟨by dsimp only; omega, hlen, fun x hx => hroom x (.inr hx)⟩
    · change base + 16 ≤ r.1 ∧ r.2 + 8 ≤ (h'.block (r.1 - 8)).len ∧ ∀ x, (h'.block (r.1 - 8)).Has x → _
      rw [hsame r hr]
      exact (hs.held r hr).imp id (And.imp id fun h x hx => hcov x (.inl (h x hx)))
  · change (h'.block (r.1 - 8)).Has x at hrx
    rw [hsame r hr] at hrx
    exact hapart r hr x hrx (.inr hx)
  · refine List.Pairwise.imp_of_mem ?_ hs.disjoint
    intro r q hr hq hrq x
    change (h'.block (r.1 - 8)).Has x → ¬ (h'.block (q.1 - 8)).Has x
    rw [hsame r hr, hsame q hq]
    exact hrq x
  · rcases List.mem_cons.1 hr with rfl | hr
    · exact hg.apart x hx hin
    · change (h'.block (r.1 - 8)).Has x at hx
      rw [hsame r hr] at hx
      exact hapart r hr x hx (.inl hin)
  · change e ∈ h'.areas at he
    rw [hg.areas, hareas] at he
    rcases List.mem_append.1 he with he | he
    · exact (hnew e he).2
    · exact hs.areas e he

theorem step_malloc (hb : 0 < base) (hs : Inv base s) (hok : (Call.malloc n sbrk).Ok base s)
    (hfits : (Call.malloc n sbrk).Fits s) : ∃ s', step base s (.malloc n sbrk) = some s' ∧ Inv base s' := by
  obtain ⟨l, hf, hcov, hlive, hareas, henough⟩ := start_spec hb hs
  generalize hh : start base s.toHeap = h at *
  have hpos := units_pos n
  have hmalloc : malloc base n sbrk s.toHeap = mallocLoop (units n) (2 * ROUNDS) h.freep (h.next h.freep) [sbrk] h := by
    rw [malloc, hh]
  have hfits' : h.Enough (units n) ∨ sbrk = none ∨ 8 * growth (units n) < 2 ^ 31 := by
    rw [henough _ hpos]
    rcases hfits with h1 | h1
    · exact .inr (.inl h1.2)
    · exact h1.2.imp_right .inr
  rcases malloc_spec hb hf (hareas ▸ hcov) hpos (by rw [hareas]; exact hok.2) hfits' with
    ⟨_, _, heq⟩ | ⟨hsome, new, bp, h', l', heq, hg, hnew⟩
  · -- no block and no memory: the null pointer
    exact ⟨{ h with live := s.live }, by rw [step, hmalloc, heq]; rfl, hs.keep hf hcov hareas (.refl _) hlive⟩
  · have hn : n + 8 ≤ UINT := by
      rcases hfits with ⟨h1, h2⟩ | h1
      · exact absurd hsome (not_or.2 ⟨fun hE => h1 ((henough _ hpos).1 hE), not_not.2 h2⟩)
      · exact h1.1
    refine ⟨{ h' with live := (bp + 8, n) :: s.live }, by rw [step, hmalloc, heq]; rfl, ?_⟩
    refine hs.grant hcov hlive hareas hg hn fun e he => ?_
    obtain ⟨h1, h2⟩ := hnew e he
    obtain ⟨h3, h4, h5⟩ := hok.2 _ h1
    exact ⟨h3, h4, by rw [Ext.stop, h2]; exact h5⟩

/-- What stays live is another block than the one given back. -/
theorem Sound.disjoint_erased {ap : Nat} {r : Nat × Nat} (hs : Sound base s) (hr : (ap, n) ∈ s.live)
    (hr' : r ∈ s.live.eraseP (·.1 == ap)) (x : Nat) (hx : (s.held r).Has x) : ¬ (s.held (ap, n)).Has x := by
  obtain ⟨a, l₁, l₂, _, ha, hl, he⟩ := List.exists_of_eraseP (p := (·.1 == ap)) hr (beq_self_eq_true ap)
  have hd := hs.disjoint
  rw [hl] at hd
  obtain ⟨_, h2, h3⟩ := List.pairwise_append.1 hd
  have hap : s.held a = s.held (ap, n) := by rw [State.held, eq_of_beq ha, State.held]
  rw [he] at hr'
  rw [← hap]
  rcases List.mem_append.1 hr' with hr' | hr'
  · exact h3 r hr' a (List.mem_cons_self ..) x hx
  · exact fun hax => (List.pairwise_cons.1 h2).1 r hr' x hax hx

theorem step_free {ap : Nat} (hb : 0 < base) (hs : Inv base s) (hok : (Call.free ap).Ok base s) :
    ∃ s', step base s (.free ap) = some s' ∧ Inv base s' := by
  obtain ⟨n, hr⟩ := hok
  obtain ⟨l, hf, hcov, hd⟩ : ∃ l, Free base s.toHeap l ∧ (∀ x, s.InFree l x → Covers s.areas x) ∧
      ∀ r ∈ s.live, ∀ x, (s.held r).Has x → ¬ s.InFree l x := by
    refine hs.list.resolve_left ?_
    rintro ⟨_, hlive⟩
    rw [hlive] at hr
    cases hr
  obtain ⟨hlow, hlen, hin⟩ := hs.held _ hr
  have hpos : 0 < (s.hdr (ap - 8)).size := by
    simp only [State.held, Heap.block] at hlen
    omega
  have hhigh : (s.held (ap, n)).stop ≤ UINT := Ext.stop_le (by omega) fun x hx => by
    obtain ⟨e, he, hxe⟩ := hin x hx
    exact Nat.lt_of_lt_of_le hxe.2 (hs.areas e he).2
  dsimp only at hlow
  obtain ⟨h', l', heq, hf', hareas, hcov', hframe, _⟩ := free_spec hb hf (by omega) hpos hhigh (hd (ap, n) hr)
  rw [Nat.sub_add_cancel (by omega)] at heq
  refine ⟨{ h' with live := s.live.eraseP (·.1 == ap) }, by rw [step, heq]; rfl, hs.keep hf' (fun x hx => ?_) hareas
    List.eraseP_sublist fun r hr' => ?_⟩
  · rcases (hcov' x).1 hx with hx | hx
    · exact hcov x hx
    · exact hin x hx
  · -- another block than the one freed
    have hmem : r ∈ s.live := List.eraseP_subset hr'
    have hdis := hs.disjoint_erased hr hr'
    have hstart := hs.has_start hmem
    have hrlow := (hs.held r hmem).1
    refine ⟨hframe _ (hd r hmem _ hstart) (by omega) fun e => ?_, fun x hx hx' => ?_⟩
    · exact hdis _ hstart (e ▸ hs.has_start hr)
    · exact ((hcov' x).1 hx').elim (hd r hmem x hx) (hdis x hx)

theorem step_spec {c : Call} (hb : 0 < base) (hs : Inv base s) (hok : c.Ok base s) (hfits : c.Fits s) :
    ∃ s', step base s c = some s' ∧ Inv base s' := by
  cases c with
  | malloc n sbrk => exact step_malloc hb hs hok hfits
  | free ap => exact step_free hb hs hok

theorem inv_init (hdr : Nat → Header) : Inv base (State.init hdr) :=
  ⟨⟨by simp [State.init], by simp [State.init], .inl ⟨rfl, rfl⟩⟩, by simp [State.init]⟩

/-- **The user heap is sound** in every state of a run whose calls fit, and the next such call returns. -/
theorem heap_sound {hdr : Nat → Header} {cs : List Call} (hb : 0 < base)
    (hr : Run (On Call.Fits (Trans base)) (State.init hdr) cs s) :
    Sound base s ∧ ∀ c : Call, c.Ok base s → c.Fits s → ∃ s', step base s c = some s' := by
  have hinv : Inv base s := hr.inv (fun s c t hs hst => by
    obtain ⟨s', heq, hs'⟩ := step_spec hb hs hst.2.1 hst.1
    rwa [Option.some.inj (hst.2.2.symm.trans heq)]) (inv_init hdr)
  exact ⟨hinv.toSound, fun c hok hfits => (step_spec hb hinv hok hfits).imp fun _ h => h.1⟩

/-- A small request with a fresh area to come, or a pointer the program has. -/
def Call.plain (base : Nat) (s : State) : Call → Bool
  | .malloc n sbrk => decide (n + 8 ≤ UINT ∧ 8 * growth (units n) < 2 ^ 31) &&
      decide (∀ a ∈ sbrk, (∀ e ∈ s.areas, e.stop ≤ a) ∧ base + 8 ≤ a ∧ a + obtained (growth (units n)) ≤ UINT)
  | .free ap => s.live.any (·.1 == ap)

theorem Call.plain_fits {c : Call} (h : c.plain base s = true) : c.Fits s ∧ c.Ok base s := by
  cases c with
  | malloc n sbrk =>
    simp only [Call.plain, Bool.and_eq_true, decide_eq_true_eq] at h
    obtain ⟨⟨hn, hgrow⟩, harea⟩ := h
    exact ⟨.inr ⟨hn, .inr hgrow⟩, by omega, harea⟩
  | free ap =>
    obtain ⟨⟨a, n⟩, hmem, ha⟩ := List.any_eq_true.1 h
    exact ⟨trivial, n, by simpa using (beq_iff_eq.1 ha) ▸ hmem⟩

/-- Three blocks of one area; the second and the first are freed and become one, beside which a fourth is
handed out. -/
def exMerged : List Call :=
  [.malloc 100 (some 8192), .malloc 20 none, .malloc 30 none, .free 40824, .free 40856, .malloc 125 none]

theorem heap_sound_merged : ∃ s, Run (On Call.Fits (Trans 4096)) (State.init fun _ => ⟨0, 0⟩) exMerged s ∧
    s.live = [(40648, 125), (40784, 30)] ∧ (s.hdr 40816).size = 18 ∧ Sound 4096 s := by
  have hx : (exMerged.foldlM (step 4096) (State.init fun _ => ⟨0, 0⟩)).map (fun s => (s.live, (s.hdr 40816).size)) =
      some ([(40648, 125), (40784, 30)], 18) := by decide +kernel
  have hplain : along (step 4096) (fun s c => c.plain 4096 s) (State.init fun _ => ⟨0, 0⟩) exMerged =
    true := by decide +kernel
  obtain ⟨s, hs, hval⟩ := Option.map_eq_some_iff.1 hx
  obtain ⟨hlive, hhdr⟩ := Prod.mk.inj hval
  have hrun : Run (fun s c t => step 4096 s c = some t) (State.init fun _ => ⟨0, 0⟩) exMerged s := .of_foldlM hs
  have hr : Run (On Call.Fits (Trans 4096)) (State.init fun _ => ⟨0, 0⟩) exMerged s :=
    (hrun.on (Steps.of_along (fun _ _ _ h => h) hplain)).mono fun s c t ⟨hc, ht⟩ =>
      ⟨(Call.plain_fits hc).1, (Call.plain_fits hc).2, ht⟩
  exact ⟨s, hr, hlive, hhdr, (heap_sound (by decide) hr).1⟩

/-- 2^32 - 1 bytes are met with a block that is all header. -/
theorem heap_not_always_sound : ∃ s, Run (Trans 4096) (State.init fun _ => ⟨0, 0⟩) [.malloc (UINT - 1) (some 8192)] s ∧
    (40960, UINT - 1) ∈ s.live ∧ (s.held (40960, UINT - 1)).len = 8 ∧ ¬ Sound 4096 s := by
  have h1 : (step 4096 (State.init fun _ => ⟨0, 0⟩) (.malloc (UINT - 1) (some 8192))).map
      (fun s => (s.live, (s.held (40960, UINT - 1)).len)) = some ([(40960, UINT - 1)], 8) := by
    decide +kernel
  obtain ⟨s, hs, hval⟩ := Option.map_eq_some_iff.1 h1
  obtain ⟨hlive, hlen⟩ := Prod.mk.inj hval
  have hmem : (40960, UINT - 1) ∈ s.live := by
    rw [hlive]
    simp
  refine ⟨s, .single ⟨⟨by decide, fun a ha => ?_⟩, hs⟩, hmem, hlen, fun hsound => ?_⟩
  · obtain rfl := Option.some.inj ha
    decide
  · have := (hsound.held _ hmem).2.1
    rw [hlen, UINT] at this
    omega

end Xv6.Umalloc
