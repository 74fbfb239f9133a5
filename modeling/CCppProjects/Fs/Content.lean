import CCppProjects.Fs.Blocks
/-
# Reading, writing and freeing content

`Wrote` says what a loop of `writei` leaves: the bytes of `src` from `off` on, and every other byte of every
inode as it was. `itrunc` returns each block of its inode once.
-/
namespace Fs

open Function (update)

section Patch

variable {a : Block} {st k : Nat} {bytes : List UInt8}

theorem patch_inside (h : st ≤ k) (h' : k - st < bytes.length) : some (patch a st bytes k) = bytes[k - st]? := by
  simp [patch, h, List.getElem?_eq_getElem h']

theorem patch_outside (h : k < st ∨ st + bytes.length ≤ k) : patch a st bytes k = a k := by
  unfold patch
  split
  · rw [List.getElem?_eq_none (by omega), Option.getD_none]
  · rfl

end Patch

section Content

variable {sb : Superblock} {s t : Fs} {i j b k off n p : Nat} {sl : Slot} {ip : Inode}
    {src bytes : List UInt8} {x : UInt8}

/-- The address of a byte within its block, and what is left of the block. -/
theorem pos_cases (off : Nat) : off / BSIZE * BSIZE + off % BSIZE = off ∧ off % BSIZE < BSIZE :=
  ⟨Nat.div_add_mod' off BSIZE, Nat.mod_lt _ (by decide)⟩

theorem pos_within (off : Nat) {p : Nat} (h : p < BSIZE - off % BSIZE) : (off + p) / BSIZE = off / BSIZE ∧
    (off + p) % BSIZE = off % BSIZE + p := by
  unfold BSIZE at *
  omega

/-- A block of content can be patched: no slot moves, and no other byte changes. -/
theorem setBlock_spec (h : Owned sb s) (hb : s.own (i, .data k) = some b) (a : Block) :
    Owned sb (s.setBlock b a) ∧ (∀ q, (s.setBlock b a).own q = s.own q) ∧
      ∀ j p, (s.setBlock b a).byteAt j p = if j = i ∧ p / BSIZE = k then some (a (p % BSIZE)) else s.byteAt j p := by
  have hown : ∀ q, (s.setBlock b a).own q = s.own q := by
    rintro ⟨j, sl⟩
    refine own_congr rfl fun c hc => Function.update_of_ne ?_ ..
    rintro rfl
    cases h.owns.once hc hb
  refine ⟨⟨h.owns.congr (fun _ => rfl) hown, h.marked⟩, hown, ?_⟩
  intro j p
  by_cases hjp : j = i ∧ p / BSIZE = k
  · obtain ⟨rfl, rfl⟩ := hjp
    rw [if_pos ⟨rfl, rfl⟩]
    refine byteAt_eq_some.2 ⟨b, (hown _).trans hb, ?_⟩
    simp [setBlock]
  · rw [if_neg hjp, byteAt, byteAt, hown]
    cases hc : s.own (j, .data (p / BSIZE)) with
    | none => rfl
    | some c =>
      have hcb : c ≠ b := by
        rintro rfl
        obtain ⟨rfl, hk⟩ := Prod.mk.inj (h.owns.once hc hb)
        exact hjp ⟨rfl, Slot.data.inj hk⟩
      simp [setBlock, Function.update_of_ne hcb]

/-! ## Reading -/

/-- A byte that can be read is in a block that `bmap` finds. -/
theorem bmap_byteAt (sb : Superblock) (ht : ip.type ≠ .free) (hx : (s.iupdate i ip).byteAt i p = some x) :
    ∃ b, bmap sb s ip (p / BSIZE) = .ok (b, ip, s) ∧ (s.iupdate i ip).own (i, .data (p / BSIZE)) = some b := by
  obtain ⟨b, hb, -⟩ := byteAt_eq_some.1 hx
  exact ⟨b, bmap_found (by rwa [own_ip ht] at hb), hb⟩

theorem readLoop_spec (ht : ip.type ≠ .free) : ∀ {fuel n off : Nat}, n ≤ fuel →
    (∀ k < n, ((s.iupdate i ip).byteAt i (off + k)).isSome) →
    ∃ bytes, readLoop sb fuel s ip off n = .ok (bytes, ip, s) ∧ bytes.length = n ∧
      ∀ k < n, bytes[k]? = (s.iupdate i ip).byteAt i (off + k)
  | 0, n, off, hn, _ => by
    obtain rfl : n = 0 := by omega
    exact ⟨[], rfl, rfl, fun k hk => absurd hk (Nat.not_lt_zero k)⟩
  | fuel + 1, n, off, hn, hread => by
    by_cases h0 : n = 0
    · subst h0
      exact ⟨[], by simp [readLoop], rfl, fun k hk => absurd hk (Nat.not_lt_zero k)⟩
    obtain ⟨x, hx⟩ := Option.isSome_iff_exists.1 (hread 0 (by omega))
    rw [Nat.add_zero] at hx
    obtain ⟨b, hbmap, hb⟩ := bmap_byteAt sb ht hx
    have hpos := (pos_cases off).2
    have hm : 0 < min n (BSIZE - off % BSIZE) := by omega
    have hnext : ∀ k < n - min n (BSIZE - off % BSIZE),
      ((s.iupdate i ip).byteAt i (off + min n (BSIZE - off % BSIZE) + k)).isSome := by
      intro k hk
      rw [Nat.add_assoc]
      exact hread _ (by omega)
    obtain ⟨rest, hrest, hlen, hbytes⟩ := readLoop_spec ht (by omega : n - min n (BSIZE - off % BSIZE) ≤ fuel) hnext
    refine ⟨(List.range (min n (BSIZE - off % BSIZE))).map (fun k => s.blocks b (off % BSIZE + k)) ++ rest, ?_, ?_, ?_⟩
    · simp only [readLoop, h0, if_false, hbmap, ok_bind, hrest]
    · simp only [List.length_append, List.length_map, List.length_range, hlen]
      omega
    · intro k hk
      by_cases hkm : k < min n (BSIZE - off % BSIZE)
      · obtain ⟨hdiv, hmod⟩ := pos_within off (p := k) (by omega)
        rw [List.getElem?_append_left (by simpa using hkm), List.getElem?_map, List.getElem?_range hkm]
        exact (byteAt_eq_some.2 ⟨b, hdiv ▸ hb, by rw [hmod]; rfl⟩).symm
      · have hpast : ((List.range (min n (BSIZE - off % BSIZE))).map fun k =>
          s.blocks b (off % BSIZE + k)).length ≤ k := by
          rw [List.length_map, List.length_range]
          omega
        rw [List.getElem?_append_right hpast, List.length_map, List.length_range]
        rw [hbytes _ (by omega), Nat.add_assoc, Nat.add_sub_cancel' (by omega)]

/-! ## Writing -/

/-- What the loop of `writei` leaves from `off` on. -/
structure Wrote (sb : Superblock) (s : Fs) (i : Nat) (ip : Inode) (off : Nat) (src : List UInt8)
    (ip' : Inode) (s' : Fs) : Prop where
  owned : Owned sb (s'.iupdate i ip')
  inside : ∀ k < src.length, (s'.iupdate i ip').byteAt i (off + k) = src[k]?
  outside : ∀ j p x, (s.iupdate i ip).byteAt j p = some x → (j ≠ i ∨ p < off ∨ off + src.length ≤ p) →
    (s'.iupdate i ip').byteAt j p = some x
  dinodes : s'.dinodes = s.dinodes
  icache : s'.icache = s.icache
  fields : ip' = { ip with addrs := ip'.addrs }
  same : (∀ k < src.length, ((s.iupdate i ip).byteAt i (off + k)).isSome) → ip' = ip

/-- One round: the next `m` bytes, within one block. -/
theorem Found.write {m : Nat} {ip₁ : Inode} {s₁ : Fs} (h : Found sb s i ip (.data (off / BSIZE)) b ip₁ s₁)
    (hm : m ≤ BSIZE - off % BSIZE) (hlen : src.length = m) (hip : ((s.iupdate i ip).byteAt i off).isSome → ip₁ = ip)
    (hpos : 0 < m) : Wrote sb s i ip off src ip₁ (s₁.setBlock b (patch (s₁.blocks b) (off % BSIZE) src)) := by
  obtain ⟨howned, hown, hbyte⟩ := setBlock_spec h.owned h.at_slot (patch (s₁.blocks b) (off % BSIZE) src)
  refine ⟨howned, ?_, ?_, h.dinodes, h.icache, h.fields, fun hall => hip (hall 0 (by omega))⟩
  · intro k hk
    obtain ⟨hdiv, hmod⟩ := pos_within off (p := k) (by omega)
    refine (hbyte i (off + k)).trans ?_
    rw [if_pos ⟨rfl, hdiv⟩, hmod, patch_inside (by omega) (by omega), Nat.add_sub_cancel_left]
  · intro j p x hx hne
    refine (hbyte j p).trans ?_
    have hkeep := h.keeps j p x hx
    split
    · next hjp =>
      obtain ⟨rfl, hdiv⟩ := hjp
      have hp := pos_cases p
      have hoff := pos_cases off
      rw [hdiv] at hp
      rw [patch_outside (by omega)]
      obtain ⟨c, hc, hcx⟩ := byteAt_eq_some.1 hkeep
      rw [hdiv, h.at_slot] at hc
      rw [← hcx, ← Option.some.inj hc]
      rfl
    · exact hkeep

/-- Two stretches, one after the other. -/
theorem Wrote.append {ip₁ ip₂ : Inode} {s₁ s₂ : Fs} {src' : List UInt8} (h₁ : Wrote sb s i ip off src ip₁ s₁)
    (h₂ : Wrote sb s₁ i ip₁ (off + src.length) src' ip₂ s₂) : Wrote sb s i ip off (src ++ src') ip₂ s₂ := by
  refine ⟨h₂.owned, ?_, ?_, h₂.dinodes.trans h₁.dinodes, h₂.icache.trans h₁.icache, by rw [h₂.fields, h₁.fields], ?_⟩
  · intro k hk
    by_cases hlt : k < src.length
    · rw [List.getElem?_append_left hlt, ← h₁.inside k hlt]
      obtain ⟨x, hx⟩ := Option.isSome_iff_exists.1
        (by simpa [h₁.inside k hlt] using hlt : ((s₁.iupdate i ip₁).byteAt i (off + k)).isSome)
      rw [hx]
      exact h₂.outside i _ x hx (by omega)
    · rw [List.length_append] at hk
      rw [List.getElem?_append_right (by omega), ← h₂.inside _ (by omega), Nat.add_assoc,
        Nat.add_sub_cancel' (by omega)]
  · intro j p x hx hne
    rw [List.length_append] at hne
    exact h₂.outside j p x (h₁.outside j p x hx (by omega)) (by omega)
  · intro hall
    obtain rfl := h₁.same fun k hk => hall k (by rw [List.length_append]; omega)
    refine h₂.same fun k hk => ?_
    obtain ⟨x, hx⟩ := Option.isSome_iff_exists.1 (hall (src.length + k) (by rw [List.length_append]; omega))
    rw [← Nat.add_assoc] at hx
    rw [h₁.outside i _ x hx (by omega), Option.isSome_some]

theorem Wrote.nil (h : Owned sb (s.iupdate i ip)) : Wrote sb s i ip off [] ip s :=
  ⟨h, by simp, fun _ _ _ hx _ => hx, rfl, rfl, rfl, fun _ => rfl⟩

theorem writeLoop_spec : ∀ {fuel : Nat} {s : Fs} {ip : Inode} {off : Nat} {src : List UInt8}, ip.type ≠ .free →
    Owned sb (s.iupdate i ip) → src.length ≤ fuel → off + src.length ≤ MAXFILE * BSIZE →
    Sat (writeLoop sb fuel s ip off src) (· = .outOfBlocks) fun r => r.1 = off + src.length ∧
    Wrote sb s i ip off src r.2.1 r.2.2
  | 0, s, ip, off, src, _, h, hf, _ => by
    obtain rfl : src = [] := List.length_eq_zero_iff.1 (by omega)
    exact .ok ⟨rfl, .nil h⟩
  | fuel + 1, s, ip, off, src, ht, h, hf, hmax => by
    unfold writeLoop
    refine Sat.ite (fun h0 => ?_) fun h0 => ?_
    · subst h0
      exact .ok ⟨rfl, .nil h⟩
    have hpos := pos_cases off
    have hsrc : 0 < src.length := List.length_pos_iff.2 h0
    have hk : off / BSIZE < MAXFILE := by
      apply Nat.div_lt_of_lt_mul
      rw [Nat.mul_comm]
      omega
    refine Sat.bind (bmap_spec hk ht h) ?_
    rintro ⟨b, ip₁, s₁⟩ hbmap (hfound : Found sb s i ip _ b ip₁ s₁)
    have hip : ((s.iupdate i ip).byteAt i off).isSome → ip₁ = ip := by
      intro hx
      obtain ⟨x, hx⟩ := Option.isSome_iff_exists.1 hx
      obtain ⟨c, hc, -⟩ := bmap_byteAt sb ht hx
      rw [hc] at hbmap
      cases hbmap
      rfl
    let m := min src.length (BSIZE - off % BSIZE)
    have hm : m ≤ src.length := Nat.min_le_left ..
    have htake : (src.take m).length = m := List.length_take_of_le hm
    have h₁ := hfound.write (m := m) (Nat.min_le_right ..) htake hip (by omega)
    have ht₁ : ip₁.type ≠ .free := by
      rw [h₁.fields]
      exact ht
    have hdrop : (src.drop m).length = src.length - m := List.length_drop ..
    have hfuel : (src.drop m).length ≤ fuel := by omega
    have hmax' : off + m + (src.drop m).length ≤ MAXFILE * BSIZE := by omega
    refine (writeLoop_spec ht₁ h₁.owned hfuel hmax').mono (fun _ he => he) ?_
    rintro ⟨off', ip', s'⟩ ⟨hoff, h₂⟩
    refine ⟨?_, ?_⟩
    · change off' = off + src.length
      change off' = off + m + (src.drop m).length at hoff
      omega
    · have := h₁.append (by rwa [htake])
      rwa [List.take_append_drop] at this

/-! ## Freeing -/

/-- The bits of the blocks in `B` cleared, and nothing else. -/
structure Freed (s : Fs) (B : Nat → Prop) (t : Fs) : Prop where
  bits : ∀ b, t.bitmap b = true ↔ s.bitmap b = true ∧ ¬ B b
  rest : t = { s with bitmap := t.bitmap }

theorem Freed.trans {u : Fs} {B C D : Nat → Prop} (h : Freed s B t) (h' : Freed t C u)
    (hD : ∀ b, D b ↔ B b ∨ C b) : Freed s D u := by
  constructor
  · intro b
    rw [h'.bits, h.bits, hD, not_or, and_assoc]
  · rw [h'.rest, h.rest]

/-- Marked blocks that differ are freed one after the other. -/
theorem bfreeIf_all {κ : Type*} (f : κ → Nat) : ∀ (l : List κ) (s : Fs), l.Pairwise (fun k m => f k ≠ 0 → f k ≠ f m) →
    (∀ k ∈ l, f k ≠ 0 → s.bitmap (f k) = true) →
    ∃ t, l.foldlM (fun t k => bfreeIf t (f k)) s = .ok t ∧ Freed s (fun b => ∃ k ∈ l, f k ≠ 0 ∧ f k = b) t
  | [], s, _, _ => ⟨s, rfl, by simp, rfl⟩
  | k :: l, s, hd, hb => by
    obtain ⟨hk, hd⟩ := List.pairwise_cons.1 hd
    have hfirst : ∃ u, bfreeIf s (f k) = .ok u ∧ Freed s (fun b => f k ≠ 0 ∧ f k = b) u := by
      by_cases h0 : f k = 0
      · exact ⟨s, by simp [bfreeIf, h0], by simp [h0], rfl⟩
      · refine ⟨{ s with bitmap := update s.bitmap (f k) false }, ?_, ?_, rfl⟩
        · simp [bfreeIf, h0, bfree, hb k (by simp) h0]
        · intro b
          by_cases hbk : b = f k
          · simp [hbk, h0]
          · simp [Function.update_of_ne hbk, Ne.symm hbk]
    obtain ⟨u, hu, hfu⟩ := hfirst
    have hb' : ∀ m ∈ l, f m ≠ 0 → u.bitmap (f m) = true := by
      intro m hm h0
      rw [hfu.bits]
      exact ⟨hb m (List.mem_cons_of_mem _ hm) h0, fun ⟨hk0, hkm⟩ => hk m hm hk0 hkm⟩
    obtain ⟨t, ht, hft⟩ := bfreeIf_all f l u hd hb'
    refine ⟨t, ?_, hfu.trans hft fun b => by simp⟩
    rw [List.foldlM_cons, hu, ok_bind]
    exact ht

/-- Different slots of an inode hold different blocks. -/
theorem slots_ne {l : Slot} {c : Nat} (h : Owned sb (s.iupdate i ip)) (ht : ip.type ≠ .free)
    (hb : blockAt s.blocks ip sl = some b)
    (hc : blockAt s.blocks ip l = some c) (hne : sl ≠ l) : b ≠ c := by
  rintro rfl
  rw [← own_ip ht] at hb hc
  exact hne (Prod.mk.inj (h.owns.once hb hc)).2

theorem slot_marked (h : Owned sb (s.iupdate i ip)) (ht : ip.type ≠ .free) (hb : blockAt s.blocks ip sl = some b) :
    s.bitmap b = true := by
  rw [← own_ip ht] at hb
  exact h.owns.marked hb

/-- The direct blocks. -/
theorem freeDirect_spec (h : Owned sb (s.iupdate i ip)) (ht : ip.type ≠ .free) :
    ∃ t, (List.range NDIRECT).foldlM (fun t k => bfreeIf t (ip.addrs k)) s = .ok t ∧
      Freed s (fun b => ∃ k < NDIRECT, blockAt s.blocks ip (.data k) = some b) t := by
  have hslot : ∀ k < NDIRECT, blockAt s.blocks ip (.data k) = addr? (ip.addrs k) := fun k hk => by simp [blockAt, hk]
  have hd : (List.range NDIRECT).Pairwise fun k m => ip.addrs k ≠ 0 → ip.addrs k ≠ ip.addrs m := by
    refine List.nodup_range.imp_of_mem fun {k m} hk hm hne h0 heq => ?_
    rw [List.mem_range] at hk hm
    have hk' := (hslot k hk).trans (addr?_eq_some.2 ⟨h0, rfl⟩)
    have hm' := (hslot m hm).trans (addr?_eq_some.2 ⟨heq ▸ h0, rfl⟩)
    exact slots_ne h ht hk' hm' (fun hkm => hne (Slot.data.inj hkm)) heq
  have hb : ∀ k ∈ List.range NDIRECT, ip.addrs k ≠ 0 → s.bitmap (ip.addrs k) = true := by
    intro k hk h0
    rw [List.mem_range] at hk
    exact slot_marked h ht ((hslot k hk).trans (addr?_eq_some.2 ⟨h0, rfl⟩))
  obtain ⟨t, ht', hf⟩ := bfreeIf_all ip.addrs _ s hd hb
  refine ⟨t, ht', fun b => ?_, hf.rest⟩
  rw [hf.bits]
  refine and_congr_right fun _ => not_congr ⟨?_, ?_⟩
  · rintro ⟨k, hk, h0⟩
    rw [List.mem_range] at hk
    exact ⟨k, hk, (hslot k hk).trans (addr?_eq_some.2 h0)⟩
  · rintro ⟨k, hk, hkb⟩
    rw [hslot k hk] at hkb
    exact ⟨k, List.mem_range.2 hk, addr?_eq_some.1 hkb⟩

/-- The blocks behind the pointer block, and the pointer block. -/
theorem freeIndirect_spec (h : Owned sb (s.iupdate i ip)) (ht : ip.type ≠ .free) (hblocks : t.blocks = s.blocks)
    (hbits : ∀ sl b, (∀ k < NDIRECT, sl ≠ .data k) → blockAt s.blocks ip sl = some b → t.bitmap b = true) :
    ∃ u, freeIndirect t (ip.addrs NDIRECT) = .ok u ∧
      Freed t (fun b => ∃ sl, (∀ k < NDIRECT, sl ≠ .data k) ∧ blockAt s.blocks ip sl = some b) u := by
  unfold freeIndirect
  by_cases hp : ip.addrs NDIRECT = 0
  · refine ⟨t, by simp [hp], fun b => ?_, rfl⟩
    refine (and_iff_left ?_).symm
    rintro ⟨sl, hsl, hb⟩
    cases sl with
    | pointer => simp [blockAt, hp, addr?] at hb
    | data k =>
      have hk : ¬ k < NDIRECT := fun hk => hsl k hk rfl
      simp [blockAt, hp, hk] at hb
  · have hslot : ∀ m < NINDIRECT, blockAt s.blocks ip (.data (NDIRECT + m)) = addr?
      (word (s.blocks (ip.addrs NDIRECT)) m) :=
      fun m hm => blockAt_indirect hm hp
    have hpointer : blockAt s.blocks ip .pointer = some (ip.addrs NDIRECT) := addr?_eq_some.2 ⟨hp, rfl⟩
    have hbehind : ∀ m, ∀ k < NDIRECT, Slot.data (NDIRECT + m) ≠ .data k := by
      intro m k hk he
      have := Slot.data.inj he
      omega
    have hd : (List.range NINDIRECT).Pairwise fun k m => word (t.blocks (ip.addrs NDIRECT)) k ≠ 0 →
        word (t.blocks (ip.addrs NDIRECT)) k ≠ word (t.blocks (ip.addrs NDIRECT)) m := by
      rw [hblocks]
      refine List.nodup_range.imp_of_mem fun {k m} hk hm hne h0 heq => ?_
      rw [List.mem_range] at hk hm
      have hk' := (hslot k hk).trans (addr?_eq_some.2 ⟨h0, rfl⟩)
      have hm' := (hslot m hm).trans (addr?_eq_some.2 ⟨heq ▸ h0, rfl⟩)
      refine slots_ne h ht hk' hm' (fun hkm => hne ?_) heq
      have := Slot.data.inj hkm
      omega
    have hb : ∀ k ∈ List.range NINDIRECT, word (t.blocks (ip.addrs NDIRECT)) k ≠ 0 →
        t.bitmap (word (t.blocks (ip.addrs NDIRECT)) k) = true := by
      rw [hblocks]
      intro k hk h0
      rw [List.mem_range] at hk
      exact hbits _ _ (hbehind k) ((hslot k hk).trans (addr?_eq_some.2 ⟨h0, rfl⟩))
    obtain ⟨v, hv, hf⟩ := bfreeIf_all (word (t.blocks (ip.addrs NDIRECT))) _ t hd hb
    have hlast : v.bitmap (ip.addrs NDIRECT) = true := by
      rw [hf.bits]
      refine ⟨hbits _ _ (by simp) hpointer, ?_⟩
      rintro ⟨k, hk, h0, heq⟩
      rw [List.mem_range] at hk
      rw [hblocks] at h0 heq
      exact slots_ne h ht ((hslot k hk).trans (addr?_eq_some.2 ⟨h0, rfl⟩)) hpointer (by simp) heq
    refine ⟨{ v with bitmap := update v.bitmap (ip.addrs NDIRECT) false }, ?_, fun b => ?_, ?_⟩
    · rw [if_neg hp, hv, ok_bind, bfree, if_pos hlast]
    · have hcases : (∃ sl, (∀ k < NDIRECT, sl ≠ .data k) ∧ blockAt s.blocks ip sl = some b) ↔
          ip.addrs NDIRECT = b ∨ ∃ k ∈ List.range NINDIRECT, word (t.blocks (ip.addrs NDIRECT)) k ≠ 0 ∧
          word (t.blocks (ip.addrs NDIRECT)) k = b := by
        rw [hblocks]
        constructor
        · rintro ⟨sl, hsl, hb⟩
          cases sl with
          | pointer => exact .inl (addr?_eq_some.1 hb).2
          | data k =>
            have hk : ¬ k < NDIRECT := fun hk => hsl k hk rfl
            simp only [blockAt, hk, if_false] at hb
            split at hb
            · next hm =>
              refine .inr ⟨k - NDIRECT, ?_, addr?_eq_some.1 hb⟩
              have := hm.1
              unfold MAXFILE at this
              rw [List.mem_range]
              omega
            · cases hb
        · rintro (rfl | ⟨k, hk, h0⟩)
          · exact ⟨.pointer, by simp, hpointer⟩
          · rw [List.mem_range] at hk
            exact ⟨_, hbehind k, (hslot k hk).trans (addr?_eq_some.2 h0)⟩
      rw [hcases]
      by_cases hbp : b = ip.addrs NDIRECT
      · simp [hbp]
      · simp only [Function.update_of_ne hbp]
        rw [hf.bits]
        simp [Ne.symm hbp]
    · rw [hf.rest]

/-- **itrunc** cannot fail, and gives back exactly the inode's blocks, whatever type the inode gets next. -/
theorem itrunc_spec (h : Owned sb (s.iupdate i ip)) (ht : ip.type ≠ .free) :
    ∃ ip' t, itrunc s i ip = .ok (ip', t) ∧ ip' = { ip with addrs := ip'.addrs, size := 0 } ∧
      t = { s with bitmap := t.bitmap, dinodes := update s.dinodes i ip' } ∧
      ∀ type, Owned sb (t.iupdate i { ip' with type }) ∧ ∀ q, (t.iupdate i { ip' with type }).own q =
      if q.1 = i then none else s.own q := by
  obtain ⟨u, hu, hfu⟩ := freeDirect_spec h ht
  have hblocks : u.blocks = s.blocks := by rw [hfu.rest]
  have hbits : ∀ sl b, (∀ k < NDIRECT, sl ≠ .data k) → blockAt s.blocks ip sl = some b → u.bitmap b = true := by
    intro sl b hsl hb
    rw [hfu.bits]
    refine ⟨slot_marked h ht hb, ?_⟩
    rintro ⟨k, hk, hkb⟩
    exact slots_ne h ht hb hkb (hsl k hk) rfl
  obtain ⟨v, hv, hfv⟩ := freeIndirect_spec h ht hblocks hbits
  have hall : Freed s (fun b => ∃ sl, blockAt s.blocks ip sl = some b) v := by
    refine hfu.trans hfv fun b => ?_
    constructor
    · rintro ⟨sl, hb⟩
      by_cases hsl : ∃ k < NDIRECT, sl = .data k
      · obtain ⟨k, hk, rfl⟩ := hsl
        exact .inl ⟨k, hk, hb⟩
      · exact .inr ⟨sl, fun k hk he => hsl ⟨k, hk, he⟩, hb⟩
    · rintro (⟨k, -, hb⟩ | ⟨sl, -, hb⟩)
      · exact ⟨_, hb⟩
      · exact ⟨_, hb⟩
  let ip' : Inode := { ip with addrs := fun k => if k ≤ NDIRECT then 0 else ip.addrs k, size := 0 }
  refine ⟨ip', v.iupdate i ip', ?_, rfl, ?_, fun type => ?_⟩
  · unfold itrunc
    rw [hu, ok_bind, hv, ok_bind]
  · rw [hall.rest]
    rfl
  · have hempty : ∀ sl, blockAt v.blocks { ip' with type } sl = none := by
      intro sl
      cases sl with
      | pointer => rfl
      | data k =>
        by_cases hk : k < NDIRECT
        · simp [blockAt, ip', hk, Nat.le_of_lt hk, addr?]
        · simp [blockAt, ip', hk]
    have hown : ∀ q, ((v.iupdate i ip').iupdate i { ip' with type }).own q = if q.1 = i then none else s.own q := by
      rintro ⟨j, sl⟩
      by_cases hj : j = i
      · subst hj
        rw [own_self, if_pos rfl]
        split
        · rfl
        · exact hempty sl
      · rw [own_of_ne hj, own_of_ne hj, if_neg hj]
        refine own_congr (by rw [hall.rest]) fun b _ => ?_
        rw [hall.rest]
    refine ⟨⟨h.owns.drop (K := fun q => q.1 = i) (fun b _ => ?_) (fun q hq => ?_) (fun q hq => ?_),
      fun b hb => ?_⟩, hown⟩
    · refine (hall.bits b).trans (and_congr_right fun _ => not_congr ?_)
      constructor
      · rintro ⟨sl, hb⟩
        exact ⟨(i, sl), rfl, by rw [own_ip ht]; exact hb⟩
      · rintro ⟨⟨j, sl⟩, rfl, hb⟩
        rw [own_ip ht] at hb
        exact ⟨sl, hb⟩
    · rw [hown, if_pos hq]
    · rw [hown, if_neg hq]
      obtain ⟨j, sl⟩ := q
      exact (own_of_ne hq).symm
    · refine (hall.bits b).2 ⟨h.marked b hb, ?_⟩
      rintro ⟨sl, hsl⟩
      rw [← own_ip ht] at hsl
      have := (h.owns.range hsl).1
      omega

end Content

end Fs
