import CCppProjects.Fs.Disk
import CCppProjects.Lib.Owner
/-
# Who owns which block

A block is owned by a slot of an inode: the `k`-th block of its content, or its pointer block. `bmap` gives a
slot without a block a fresh one; every byte that could be read before reads the same.
-/
namespace Fs

open Function (update)

/-- A place that holds a block number: index `k` of the content, or `addrs[NDIRECT]`. -/
inductive Slot
  | data (k : Nat)
  | pointer
  deriving DecidableEq, Repr

/-- A block number, where 0 is none. -/
def addr? (a : Nat) : Option Nat := if a = 0 then none else some a

/-- The block in a slot of an inode. -/
def blockAt (blocks : Nat → Block) (d : Inode) : Slot → Option Nat
  | .data k =>
    if k < NDIRECT then addr? (d.addrs k)
    else if k < MAXFILE ∧ d.addrs NDIRECT ≠ 0 then addr? (word (blocks (d.addrs NDIRECT)) (k - NDIRECT))
    else none
  | .pointer => addr? (d.addrs NDIRECT)

/-- The block in a slot of an allocated inode. -/
def own (s : Fs) (p : Nat × Slot) : Option Nat :=
  if (s.dinodes p.1).type = .free then none else blockAt s.blocks (s.dinodes p.1) p.2

/-- A byte of the content, where its block is allocated. -/
def byteAt (s : Fs) (i p : Nat) : Option UInt8 := (s.own (i, .data (p / BSIZE))).map fun b => s.blocks b (p % BSIZE)

/-- The data blocks are owned by one slot each, the bitmap marks these and every block before them. -/
structure Owned (sb : Superblock) (s : Fs) : Prop where
  owns : Owner.Owns (fun b => sb.data ≤ b ∧ b < sb.size) s.bitmap s.own
  marked : ∀ b < sb.data, s.bitmap b = true

/-- Every byte of `s` is in `t`. -/
def Keeps (s t : Fs) : Prop := ∀ i p x, s.byteAt i p = some x → t.byteAt i p = some x

section Words

variable {a : Block} {j l v : Nat}

theorem word_setWord (hv : v < UINT) : word (setWord a j v) l = if l = j then v else word a l := by
  have h0 : (4 * l) / 4 = l ∧ (4 * l) % 4 = 0 := by omega
  have h1 : (4 * l + 1) / 4 = l ∧ (4 * l + 1) % 4 = 1 := by omega
  have h2 : (4 * l + 2) / 4 = l ∧ (4 * l + 2) % 4 = 2 := by omega
  have h3 : (4 * l + 3) / 4 = l ∧ (4 * l + 3) % 4 = 3 := by omega
  simp only [word, setWord, h0, h1, h2, h3]
  by_cases hl : l = j
  · unfold UINT at hv
    simp only [hl, if_true, UInt8.toNat_ofNat']
    omega
  · simp only [hl, if_false]

@[simp] theorem word_zero : word zero l = 0 := rfl

theorem addr?_eq_some {b c : Nat} : addr? b = some c ↔ b ≠ 0 ∧ b = c := by
  unfold addr?
  split <;> simp_all

theorem addr?_eq_none {b : Nat} : addr? b = none ↔ b = 0 := by
  unfold addr?
  split <;> simp_all

end Words

section Own

variable {sb : Superblock} {s t : Fs} {i j b c k : Nat} {sl : Slot} {ip d : Inode} {a : Block}

theorem iupdate_dinodes : (s.iupdate i ip).dinodes i = ip := Function.update_self ..

theorem own_self : (s.iupdate i ip).own (i, sl) = if ip.type = .free then none else blockAt s.blocks ip sl := by
  simp [own, iupdate]

theorem own_ip (ht : ip.type ≠ .free) : (s.iupdate i ip).own (i, sl) = blockAt s.blocks ip sl := by
  rw [own_self, if_neg ht]

theorem own_of_ne (h : j ≠ i) : (s.iupdate i ip).own (j, sl) = s.own (j, sl) := by
  simp [own, iupdate, Function.update_of_ne h]

theorem Superblock.data_pos : 0 < sb.data := Nat.succ_pos _

theorem Keeps.refl (s : Fs) : Keeps s s := fun _ _ _ h => h

theorem Keeps.trans {u : Fs} (h : Keeps s t) (h' : Keeps t u) : Keeps s u := fun i p x hx => h' i p x (h i p x hx)

/-- A pointer block of an allocated inode is owned as such. -/
theorem own_pointer (ht : (s.dinodes j).type ≠ .free) (h : (s.dinodes j).addrs NDIRECT = b) (hb : b ≠ 0) :
    s.own (j, .pointer) = some b := by
  simp [own, ht, blockAt, addr?_eq_some, h, hb]

/-- Slots see no more of the blocks than their own pointer block. -/
theorem blockAt_congr {blocks blocks' : Nat → Block} (h : d.addrs NDIRECT ≠ 0 →
    blocks (d.addrs NDIRECT) = blocks' (d.addrs NDIRECT)) :
    blockAt blocks d sl = blockAt blocks' d sl := by
  cases sl with
  | pointer => rfl
  | data k =>
    by_cases hp : d.addrs NDIRECT = 0
    · simp [blockAt, hp]
    · simp only [blockAt, h hp]

/-- Blocks that are not an inode's pointer block can change without its slots noticing. -/
theorem own_congr (hd : t.dinodes j = s.dinodes j) (h : ∀ b, s.own (j, .pointer) = some b → t.blocks b = s.blocks b) :
    t.own (j, sl) = s.own (j, sl) := by
  by_cases ht : (s.dinodes j).type = .free
  · simp [own, hd, ht]
  · simp only [own, hd, ht, if_false]
    exact blockAt_congr fun hp => h _ (own_pointer ht rfl hp)

theorem byteAt_eq_some {p : Nat} {x : UInt8} : s.byteAt i p = some x ↔
    ∃ b, s.own (i, .data (p / BSIZE)) = some b ∧ s.blocks b (p % BSIZE) = x := by
  simp [byteAt]

/-- Bytes stay where slots and the blocks of content stay. -/
theorem Keeps.of_own (hown : ∀ i k b, s.own (i, .data k) = some b → t.own (i, .data k) = some b ∧
    t.blocks b = s.blocks b) :
    Keeps s t := by
  intro i p x hx
  obtain ⟨b, hb, rfl⟩ := byteAt_eq_some.1 hx
  obtain ⟨h1, h2⟩ := hown _ _ _ hb
  exact byteAt_eq_some.2 ⟨b, h1, by rw [h2]⟩

/-- The fresh block `b` goes to the slot `p`; apart from it only pointer blocks change. -/
theorem Owned.add {p : Nat × Slot} (h : Owned sb s) (hb : s.bitmap b = false) (hsize : b < sb.size)
    (hbits : t.bitmap = update s.bitmap b true) (hp : t.own p = some b) (hnone : s.own p = none)
    (hrest : ∀ q, q ≠ p → t.own q = s.own q)
    (hblocks : ∀ c, c ≠ b → (∀ i, s.own (i, .pointer) ≠ some c) → t.blocks c = s.blocks c) :
    Owned sb t ∧ Keeps s t := by
  have hdata : sb.data ≤ b := by
    by_contra hlt
    rw [h.marked b (by omega)] at hb
    cases hb
  refine ⟨⟨h.owns.add ⟨hdata, hsize⟩ hb ?_ hp hnone hrest, ?_⟩, ?_⟩
  · intro c
    rw [hbits, Function.update_apply]
  · intro c hc
    rw [hbits, Function.update_of_ne (by omega)]
    exact h.marked c hc
  · apply Keeps.of_own
    intro j k c hc
    refine ⟨?_, hblocks c (fun hcb => h.owns.unowned hb _ (hcb ▸ hc)) fun l hl => ?_⟩
    · rw [hrest _ fun hq => ?_]
      · exact hc
      · rw [← hq, hc] at hnone
        cases hnone
    · cases h.owns.once hc hl

end Own

/-! ## Allocation -/

section Alloc

variable {sb : Superblock} {s t : Fs} {i j b c k : Nat} {sl : Slot} {ip : Inode}

theorem balloc_cases (sb : Superblock) (s : Fs) :
    (∃ b, s.bitmap b = false ∧ b < sb.size ∧ balloc sb s = .ok (b, s.mark b)) ∨ balloc sb s = .error .outOfBlocks := by
  unfold balloc
  split
  · next b hb =>
    have hfree := List.find?_some hb
    have hmem := List.mem_of_find?_eq_some hb
    exact .inl ⟨b, by simpa using hfree, by simpa using hmem, rfl⟩
  · exact .inr rfl

/-- A block was found or made for a slot of inode `i`, which is being worked on as `ip`. -/
structure Found (sb : Superblock) (s : Fs) (i : Nat) (ip : Inode) (sl : Slot) (b : Nat)
    (ip' : Inode) (s' : Fs) : Prop where
  owned : Owned sb (s'.iupdate i ip')
  keeps : Keeps (s.iupdate i ip) (s'.iupdate i ip')
  at_slot : (s'.iupdate i ip').own (i, sl) = some b
  rest : ∀ q, q ≠ (i, sl) → q.2 ≠ .pointer → (s'.iupdate i ip').own q = (s.iupdate i ip).own q
  dinodes : s'.dinodes = s.dinodes
  icache : s'.icache = s.icache
  fields : ip' = { ip with addrs := ip'.addrs }

/-- Where `addrs[k]` is, as a slot. -/
def direct (k : Nat) : Slot := if k < NDIRECT then .data k else .pointer

theorem blockAt_direct {blocks : Nat → Block} (hk : k ≤ NDIRECT) :
    blockAt blocks ip (direct k) = addr? (ip.addrs k) := by
  by_cases h : k < NDIRECT
  · simp [direct, h, blockAt]
  · obtain rfl : k = NDIRECT := by omega
    simp [direct, blockAt]

/-- A fresh zeroed block in `addrs[k]` changes no other slot. -/
theorem blockAt_setAddr {blocks : Nat → Block} (hk : k ≤ NDIRECT) (h0 : ip.addrs k = 0) (hb : ip.addrs NDIRECT ≠ b)
    (hsl : sl ≠ direct k) : blockAt (update blocks b zero) (ip.setAddr k b) sl = blockAt blocks ip sl := by
  by_cases hlt : k < NDIRECT
  · have hp : (ip.setAddr k b).addrs NDIRECT = ip.addrs NDIRECT := Function.update_of_ne (by omega) ..
    cases sl with
    | pointer => simp only [blockAt, hp]
    | data m =>
      have hm : m ≠ k := by
        rintro rfl
        simp [direct, hlt] at hsl
      simp only [blockAt, hp, Function.update_of_ne hb]
      simp only [Inode.setAddr, Function.update_of_ne hm]
  · obtain rfl : k = NDIRECT := by omega
    have hp : (ip.setAddr NDIRECT b).addrs NDIRECT = b := by simp [Inode.setAddr]
    cases sl with
    | pointer => simp [direct] at hsl
    | data m =>
      simp only [blockAt, hp, h0, ne_eq, not_true_eq_false, and_false, if_false, Function.update_self, word_zero]
      by_cases hm : m < NDIRECT
      · simp only [hm, if_true, Inode.setAddr]
        rw [Function.update_of_ne (by omega)]
      · simp [hm, addr?]

theorem addrAt_spec (hk : k ≤ NDIRECT) (ht : ip.type ≠ .free) (h : Owned sb (s.iupdate i ip)) :
    Sat (addrAt sb s ip k) (· = .outOfBlocks) fun r => Found sb s i ip (direct k) r.1 r.2.1 r.2.2 := by
  unfold addrAt
  refine Sat.ite (fun h0 => ?_) fun h0 => ?_
  · rcases balloc_cases sb s with ⟨b, hfree, hsize, hb⟩ | hb
    · rw [hb, ok_bind]
      have hunowned := h.owns.unowned (b := b) hfree
      have hnone : (s.iupdate i ip).own (i, direct k) = none := by
        rw [own_ip ht, blockAt_direct hk, addr?_eq_none, h0]
      have hb0 : b ≠ 0 := by
        rintro rfl
        have hmarked := h.marked 0 Superblock.data_pos
        rw [show (s.iupdate i ip).bitmap = s.bitmap from rfl, hfree] at hmarked
        cases hmarked
      have ht' : (ip.setAddr k b).type ≠ .free := ht
      have hat : ((s.mark b).iupdate i (ip.setAddr k b)).own (i, direct k) = some b := by
        rw [own_ip ht', blockAt_direct hk, addr?_eq_some]
        simp [Inode.setAddr, hb0]
      have hrest : ∀ q, q ≠ (i, direct k) → ((s.mark b).iupdate i (ip.setAddr k b)).own q = (s.iupdate i ip).own q := by
        rintro ⟨j, sl⟩ hq
        by_cases hj : j = i
        · subst hj
          rw [own_ip ht', own_ip ht]
          refine blockAt_setAddr hk h0 (fun hp => ?_) fun hsl => hq (by rw [hsl])
          apply hunowned (j, .pointer)
          rw [own_ip ht]
          simp [blockAt, addr?_eq_some, hp, hb0]
        · rw [own_of_ne hj, own_of_ne hj]
          refine own_congr rfl fun c hc => Function.update_of_ne ?_ ..
          rintro rfl
          exact hunowned (j, .pointer) ((own_of_ne hj).trans hc)
      obtain ⟨howned, hkeeps⟩ := h.add (t := (s.mark b).iupdate i (ip.setAddr k b)) hfree hsize rfl hat hnone hrest
        fun c hc _ => Function.update_of_ne hc ..
      exact .ok ⟨howned, hkeeps, hat, fun q hq _ => hrest q hq, rfl, rfl, rfl⟩
    · rw [hb]
      exact .error rfl
  · have hat : (s.iupdate i ip).own (i, direct k) = some (ip.addrs k) := by
      rw [own_ip ht, blockAt_direct hk, addr?_eq_some]
      exact ⟨h0, rfl⟩
    exact .ok ⟨h, .refl _, hat, fun _ _ _ => rfl, rfl, rfl, rfl⟩

theorem blockAt_indirect {blocks : Nat → Block} {m : Nat} (hm : m < NINDIRECT) (hp : ip.addrs NDIRECT ≠ 0) :
    blockAt blocks ip (.data (NDIRECT + m)) = addr? (word (blocks (ip.addrs NDIRECT)) m) := by
  have hk : NDIRECT + m < MAXFILE := by
    unfold MAXFILE
    omega
  have hge : ¬ NDIRECT + m < NDIRECT := by omega
  simp [blockAt, hge, hk, hp]

/-- A new number in the pointer block changes no other slot of the inode. -/
theorem blockAt_setWord {blocks : Nat → Block} {m p : Nat} (hp : ip.addrs NDIRECT = p) (hb : b < UINT)
    (hsl : sl ≠ .data (NDIRECT + m)) :
    blockAt (update blocks p (setWord (blocks p) m b)) ip sl = blockAt blocks ip sl := by
  cases sl with
  | pointer => rfl
  | data l =>
    simp only [blockAt, hp, Function.update_self, word_setWord hb]
    by_cases hl : l < NDIRECT
    · simp only [hl, if_true]
    · have hne : l - NDIRECT ≠ m := by
        rintro rfl
        exact hsl (by rw [Nat.add_sub_cancel' (by omega)])
      simp only [hne, if_false]

theorem indirectAt_spec {m p : Nat} (hm : m < NINDIRECT) (ht : ip.type ≠ .free) (h : Owned sb (s.iupdate i ip))
    (hp : (s.iupdate i ip).own (i, .pointer) = some p) :
    Sat (indirectAt sb s p m) (· = .outOfBlocks) fun r => Found sb s i ip (.data (NDIRECT + m)) r.1 ip r.2 := by
  obtain ⟨hp0, hpa⟩ : ip.addrs NDIRECT ≠ 0 ∧ ip.addrs NDIRECT = p := by
    rw [own_ip ht] at hp
    exact addr?_eq_some.1 hp
  have hslot : ∀ u : Fs, (u.iupdate i ip).own (i, .data (NDIRECT + m)) = addr? (word (u.blocks p) m) := fun u => by
    rw [own_ip ht, blockAt_indirect hm hp0, hpa]
  unfold indirectAt
  refine Sat.ite (fun h0 => ?_) fun h0 => ?_
  · rcases balloc_cases sb s with ⟨b, hfree, hsize, hb⟩ | hb
    · rw [hb, ok_bind]
      have hunowned := h.owns.unowned (b := b) hfree
      have hnone : (s.iupdate i ip).own (i, .data (NDIRECT + m)) = none := by
        rw [hslot, addr?_eq_none, h0]
      have hpb : p ≠ b := fun hpb => hunowned _ (hpb ▸ hp)
      have huint : b < UINT := Nat.lt_trans hsize sb.size_lt
      have hb0 : b ≠ 0 := by
        rintro rfl
        have hmarked := h.marked 0 Superblock.data_pos
        rw [show (s.iupdate i ip).bitmap = s.bitmap from rfl, hfree] at hmarked
        cases hmarked
      let t := (s.mark b).setBlock p (setWord ((s.mark b).blocks p) m b)
      have hold : (s.mark b).blocks p = s.blocks p := Function.update_of_ne hpb ..
      have hat : (t.iupdate i ip).own (i, .data (NDIRECT + m)) = some b := by
        rw [hslot, addr?_eq_some]
        simp [t, setBlock, word_setWord huint, hb0]
      have hrest : ∀ q, q ≠ (i, .data (NDIRECT + m)) → (t.iupdate i ip).own q = (s.iupdate i ip).own q := by
        rintro ⟨j, sl⟩ hq
        by_cases hj : j = i
        · subst hj
          rw [own_ip ht, own_ip ht]
          refine (blockAt_setWord hpa huint fun hsl => hq (by rw [hsl])).trans (blockAt_congr fun _ => ?_)
          rw [hpa]
          exact hold
        · rw [own_of_ne hj, own_of_ne hj]
          refine own_congr rfl fun c hc => ?_
          have hcb : c ≠ b := fun hcb => hunowned (j, .pointer) ((own_of_ne hj).trans (hcb ▸ hc))
          have hcp : c ≠ p := by
            rintro rfl
            have := h.owns.once ((own_of_ne hj).trans hc) hp
            exact hj (Prod.mk.inj this).1
          exact (Function.update_of_ne hcp ..).trans (Function.update_of_ne hcb ..)
      obtain ⟨howned, hkeeps⟩ := h.add (t := t.iupdate i ip) hfree hsize rfl hat hnone hrest fun c hc hnp =>
        (Function.update_of_ne (fun hcp : c = p => hnp i (hcp ▸ hp)) ..).trans (Function.update_of_ne hc ..)
      exact .ok ⟨howned, hkeeps, hat, fun q hq _ => hrest q hq, rfl, rfl, rfl⟩
    · rw [hb]
      exact .error rfl
  · have hat : (s.iupdate i ip).own (i, .data (NDIRECT + m)) = some (word (s.blocks p) m) := by
      rw [hslot, addr?_eq_some]
      exact ⟨h0, rfl⟩
    exact .ok ⟨h, .refl _, hat, fun _ _ _ => rfl, rfl, rfl, rfl⟩

/-- First the pointer block, then the slot behind it. -/
theorem Found.behind {ip₁ ip₂ : Inode} {s₁ s₂ : Fs} {p m : Nat} (h₁ : Found sb s i ip .pointer p ip₁ s₁)
    (h₂ : Found sb s₁ i ip₁ (.data m) b ip₂ s₂) : Found sb s i ip (.data m) b ip₂ s₂ := by
  refine ⟨h₂.owned, h₁.keeps.trans h₂.keeps, h₂.at_slot, ?_, h₂.dinodes.trans h₁.dinodes, h₂.icache.trans h₁.icache, ?_⟩
  · intro q hq hnp
    exact (h₂.rest q hq hnp).trans (h₁.rest q (fun hqp => hnp (by rw [hqp])) hnp)
  · rw [h₂.fields, h₁.fields]

/-- `bmap` changes nothing where the slot has a block. -/
theorem bmap_found (h : blockAt s.blocks ip (.data k) = some b) : bmap sb s ip k = .ok (b, ip, s) := by
  unfold bmap
  simp only [blockAt] at h
  by_cases hlt : k < NDIRECT
  · obtain ⟨h0, rfl⟩ := addr?_eq_some.1 (by simpa [hlt] using h)
    simp [hlt, addrAt, h0]
  · simp only [hlt, if_false] at h ⊢
    split at h
    · next hm =>
      obtain ⟨h0, rfl⟩ := addr?_eq_some.1 h
      have hn : k - NDIRECT < NINDIRECT := by
        have := hm.1
        unfold MAXFILE at this
        omega
      simp [hn, addrAt, hm.2, ok_bind, indirectAt, h0]
    · cases h

/-- **bmap** gives every index below MAXFILE its block, or runs out of blocks. -/
theorem bmap_spec (hk : k < MAXFILE) (ht : ip.type ≠ .free) (h : Owned sb (s.iupdate i ip)) :
    Sat (bmap sb s ip k) (· = .outOfBlocks) fun r => Found sb s i ip (.data k) r.1 r.2.1 r.2.2 := by
  unfold bmap
  refine Sat.ite (fun hlt => ?_) fun hge => Sat.ite (fun hm => ?_) fun hm => ?_
  · have hspec : Sat (addrAt sb s ip k) (· = .outOfBlocks) fun r => Found sb s i ip (direct k) r.1 r.2.1 r.2.2 :=
      addrAt_spec (by omega) ht h
    rwa [direct, if_pos hlt] at hspec
  · obtain ⟨m, rfl⟩ : ∃ m, k = NDIRECT + m := ⟨k - NDIRECT, by omega⟩
    rw [Nat.add_sub_cancel_left] at hm ⊢
    have hpointer : direct NDIRECT = .pointer := rfl
    refine Sat.bind (addrAt_spec (Nat.le_refl _) ht h) fun ⟨p, ip₁, s₁⟩ _ h₁ => ?_
    simp only [hpointer] at h₁
    have ht₁ : ip₁.type ≠ .free := by
      rw [h₁.fields]
      exact ht
    refine Sat.bind (indirectAt_spec hm ht₁ h₁.owned h₁.at_slot) fun ⟨b, s₂⟩ _ h₂ => ?_
    exact .ok (h₁.behind h₂)
  · unfold MAXFILE at hk
    omega

end Alloc

end Fs
