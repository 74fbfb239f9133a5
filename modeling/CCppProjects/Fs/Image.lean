import CCppProjects.Fs.Arrays
import CCppProjects.Fs.Mkfs
/-
# mkfs and the kernel lay out the disk in the same way

`view` is the file system the kernel would find if `mkfs` stopped and wrote the bitmap: every write of `mkfs`
is an operation of the kernel on it (`view_wsect`, `view_winode`), its loop for the content is the one of
`writei` (`iappendLoop_sim`). What the kernel's operations keep, `mkfs` keeps.
-/
namespace Mkfs

open Fs (Block zero word setWord patch BSIZE NDIRECT NINDIRECT MAXFILE BPB word_setWord)
open Function (update)

variable {s s' t : Img} {d d' : Dinode} {buf : Block} {b i j k l n x inum off : Nat} {p : List UInt8}

/-! ## Inodes in a sector -/

theorem word_foldl_setWord (m : Nat) {f : Nat → Nat} (hf : ∀ j < n, f j < Fs.UINT) :
    word ((List.range n).foldl (fun b j => setWord b (m + j) (f j)) buf) l =
      if m ≤ l ∧ l < m + n then f (l - m) else word buf l := by
  induction n with
  | zero =>
    rw [if_neg (by omega)]
    rfl
  | succ n ih =>
    rw [List.range_succ, List.foldl_append, List.foldl_cons, List.foldl_nil, word_setWord (hf n (by omega)),
      ih fun j hj => hf j (by omega)]
    by_cases hl : l = m + n
    · rw [if_pos hl, if_pos (by omega), hl, Nat.add_sub_cancel_left]
    · rw [if_neg hl]
      by_cases hin : m ≤ l ∧ l < m + n
      · rw [if_pos hin, if_pos (by omega)]
      · rw [if_neg hin, if_neg (by omega)]

/-- The fields have the sizes they have on disk. -/
structure Dinode.Fits (d : Dinode) : Prop where
  type : d.type < 65536
  major : d.major < 65536
  minor : d.minor < 65536
  nlink : d.nlink < 65536
  size : d.size < Fs.UINT
  addrs : ∀ j, d.addrs j < Fs.UINT
  none : ∀ j, NDIRECT < j → d.addrs j = 0

theorem Dinode.Fits.word_lt (h : d.Fits) (j : Nat) : d.word j < Fs.UINT := by
  have hu : Fs.UINT = 4294967296 := rfl
  match j with
  | 0 =>
    have := h.type
    have := h.major
    simp only [Dinode.word]
    omega
  | 1 =>
    have := h.minor
    have := h.nlink
    simp only [Dinode.word]
    omega
  | 2 => exact h.size
  | j + 3 => exact h.addrs j

theorem word_putDinode (h : d.Fits) (k : Nat) :
    word (putDinode buf k d) l = if l / 16 = k then d.word (l % 16) else word buf l := by
  rw [putDinode, word_foldl_setWord _ fun j _ => h.word_lt j]
  by_cases hl : l / 16 = k
  · rw [if_pos hl, if_pos (by omega)]
    congr 1
    omega
  · rw [if_neg hl, if_neg (by omega)]

/-- An inode written is read back. -/
theorem getDinode_putDinode (h : d.Fits) (k : Nat) : getDinode (putDinode buf k d) k = d := by
  have hw : ∀ j < 16, word (putDinode buf k d) (16 * k + j) = d.word j := fun j hj => by
    rw [word_putDinode h, if_pos (by omega)]
    congr 1
    omega
  have h0 := hw 0 (by omega)
  have h1 := hw 1 (by omega)
  have h2 := hw 2 (by omega)
  have ht := h.type
  have hm := h.minor
  rw [Nat.add_zero] at h0
  obtain ⟨type, major, minor, nlink, size, addrs⟩ := d
  simp only [Dinode.word] at h0 h1 h2 ht hm
  simp only [getDinode, h0, h1, h2, Dinode.mk.injEq, true_and]
  refine ⟨by omega, by omega, by omega, by omega, ?_⟩
  funext j
  by_cases hj : j ≤ NDIRECT
  · have hj' : j ≤ 12 := hj
    rw [if_pos hj, Nat.add_assoc, hw (3 + j) (by omega), Nat.add_comm]
    rfl
  · rw [if_neg hj]
    exact (h.none j (by omega)).symm

/-- The others in the sector are not touched. -/
theorem getDinode_putDinode_ne (h : d.Fits) (hk : k ≠ i) : getDinode (putDinode buf i d) k = getDinode buf k := by
  have hw : ∀ j < 16, word (putDinode buf i d) (16 * k + j) = word buf (16 * k + j) := fun j hj => by
    rw [word_putDinode h, if_neg (by omega)]
  have h0 := hw 0 (by omega)
  rw [Nat.add_zero] at h0
  simp only [getDinode, h0, hw 1 (by omega), hw 2 (by omega), Dinode.mk.injEq, true_and]
  funext j
  by_cases hj : j ≤ NDIRECT
  · have hj' : j ≤ 12 := hj
    rw [if_pos hj, if_pos hj, Nat.add_assoc, hw (3 + j) (by omega)]
  · rw [if_neg hj, if_neg hj]

theorem fits_getDinode (buf : Block) (k : Nat) : (getDinode buf k).Fits := by
  have hu : Fs.UINT = 4294967296 := rfl
  have h0 := word_lt buf (16 * k)
  have h1 := word_lt buf (16 * k + 1)
  refine ⟨?_, ?_, ?_, ?_, word_lt .., fun j => ?_, fun j hj => if_neg (by omega)⟩
  · exact Nat.mod_lt _ (by decide)
  · exact Nat.div_lt_of_lt_mul (by omega)
  · exact Nat.mod_lt _ (by decide)
  · exact Nat.div_lt_of_lt_mul (by omega)
  · change (if j ≤ NDIRECT then _ else 0) < Fs.UINT
    split
    · exact word_lt ..
    · exact Nat.pow_pos (by decide)

/-! ## The kernel's view -/

/-- The superblock `mkfs` writes. -/
def sb : Fs.Superblock := ⟨FSSIZE, NINODES, bmapstart, by decide⟩

def emptyInode : Fs.Inode := ⟨.free, 0, 0, fun _ => 0⟩

def dinodeAt (s : Img) (i : Nat) : Dinode := getDinode (s.sect (IBLOCK i)) (i % IPB)

def view (s : Img) : Fs where
  bitmap b := decide (b < s.freeblock)
  blocks b := if b < nmeta then zero else s.sect b
  dinodes i := if i < NINODES then (dinodeAt s i).inode else emptyInode
  icache _ := ⟨0, false, emptyInode⟩

/-- What holds from `blank` on: the data blocks not handed out are zero, and the superblock is there. -/
structure Good (s : Img) : Prop where
  len : s.len = FSSIZE
  low : nmeta ≤ s.freeblock
  high : s.freeblock ≤ FSSIZE
  zero : ∀ b, s.freeblock ≤ b → s.sect b = zero
  super : s.sect 1 = blank.sect 1

theorem iblock_range (h : inum < NINODES) : inodestart ≤ IBLOCK inum ∧ IBLOCK inum < bmapstart := by
  have h' : inum < 200 := h
  simp only [IBLOCK, inodestart, bmapstart, nlog, ninodeblocks, IPB, BSIZE, NINODES]
  omega

theorem blocks_view (h : nmeta ≤ b) : (view s).blocks b = s.sect b := if_neg (by omega)

theorem dinodes_view (h : i < NINODES) : (view s).dinodes i = (dinodeAt s i).inode := if_pos h

theorem fs_ext {f g : Fs} (hbitmap : f.bitmap = g.bitmap) (hblocks : f.blocks = g.blocks)
    (hdinodes : f.dinodes = g.dinodes)
    (hicache : f.icache = g.icache) : f = g := by
  obtain ⟨_, _, _, _⟩ := f
  obtain ⟨_, _, _, _⟩ := g
  simp_all

@[simp] theorem wsect_sect_self (x : Nat) (buf : Block) (s : Img) : (wsect x buf s).sect x = buf :=
  Function.update_self ..

theorem wsect_sect_ne (h : b ≠ x) : (wsect x buf s).sect b = s.sect b := Function.update_of_ne h ..

theorem view_wsect (hx : nmeta ≤ x) : view (wsect x buf s) = (view s).setBlock x buf := by
  have hin : ∀ i < NINODES, dinodeAt (wsect x buf s) i = dinodeAt s i := fun i hi => by
    have := (iblock_range hi).2
    have hm : bmapstart < nmeta := by decide
    rw [dinodeAt, wsect_sect_ne (by omega), dinodeAt]
  refine fs_ext rfl ?_ ?_ rfl
  · funext b
    change (if b < nmeta then zero else update s.sect x buf b) = update (view s).blocks x buf b
    by_cases hb : b = x
    · subst hb
      rw [if_neg (by omega), Function.update_self, Function.update_self]
    · rw [Function.update_of_ne hb, Function.update_of_ne hb]
      rfl
  · funext i
    change (if i < NINODES then (dinodeAt (wsect x buf s) i).inode else emptyInode) = (view s).dinodes i
    by_cases hi : i < NINODES
    · rw [if_pos hi, dinodes_view hi, hin i hi]
    · rw [if_neg hi]
      exact (if_neg hi).symm

theorem Good.wsect (h : Good s) (hx : nmeta ≤ x) (hlt : x < s.freeblock) : Good (wsect x buf s) := by
  have h1 : 1 < nmeta := by decide
  have := h.high
  refine ⟨?_, h.low, h.high, fun b hb => ?_, ?_⟩
  · have := h.len
    change max s.len (x + 1) = FSSIZE
    omega
  · have hb' : s.freeblock ≤ b := hb
    rw [wsect_sect_ne (by omega)]
    exact h.zero b hb
  · rw [wsect_sect_ne (by omega)]
    exact h.super

theorem rsect_eq_some (h : rsect x s = some buf) : x < s.len ∧ buf = s.sect x := by
  rw [rsect] at h
  split at h
  · next hx => exact ⟨hx, (Option.some.inj h).symm⟩
  · cases h

theorem rsect_of_lt (h : x < s.len) : rsect x s = some (s.sect x) := if_pos h

/-- `winode` is the kernel's `iupdate`. -/
theorem winode_sim (hg : Good s) (hi : inum < NINODES) (hd : d.Fits) (h : winode inum d s = some s') :
    view s' = (view s).iupdate inum d.inode ∧ Good s' ∧ s'.freeblock = s.freeblock ∧ dinodeAt s' inum = d ∧
      ∀ j < NINODES, j ≠ inum → dinodeAt s' j = dinodeAt s j := by
  obtain ⟨hlo, hhi⟩ := iblock_range hi
  have hmeta : bmapstart < nmeta := by decide
  have hone : 1 < inodestart := by decide
  obtain ⟨buf, hbuf, rfl⟩ := Option.map_eq_some_iff.1 h
  obtain ⟨hlt, rfl⟩ := rsect_eq_some hbuf
  have hself : dinodeAt (wsect (IBLOCK inum) (putDinode (s.sect (IBLOCK inum)) (inum % IPB) d) s) inum = d := by
    rw [dinodeAt, wsect_sect_self]
    exact getDinode_putDinode hd _
  have hne : ∀ j < NINODES, j ≠ inum →
      dinodeAt (wsect (IBLOCK inum) (putDinode (s.sect (IBLOCK inum)) (inum % IPB) d) s) j = dinodeAt s j := by
    intro j _ hj
    rw [dinodeAt, dinodeAt]
    by_cases hb : IBLOCK j = IBLOCK inum
    · rw [hb, wsect_sect_self]
      refine getDinode_putDinode_ne hd fun hmod => hj ?_
      simp only [IBLOCK] at hb
      have h1 := Nat.div_add_mod j IPB
      have h2 := Nat.div_add_mod inum IPB
      rw [hmod, show j / IPB = inum / IPB by omega] at h1
      omega
    · rw [wsect_sect_ne hb]
  have hlow := hg.low
  have hlen := hg.len
  refine ⟨?_, ⟨?_, hg.low, hg.high, fun b hb => ?_, ?_⟩, rfl, hself, hne⟩
  · refine fs_ext rfl ?_ ?_ rfl
    · funext b
      by_cases hb : b < nmeta
      · exact (if_pos hb).trans (if_pos hb).symm
      · refine (if_neg hb).trans (Eq.trans ?_ (if_neg hb).symm)
        exact Function.update_of_ne (by omega) ..
    · funext j
      change _ = update (view s).dinodes inum d.inode j
      by_cases hj : j = inum
      · subst hj
        rw [dinodes_view hi, hself, Function.update_self]
      · rw [Function.update_of_ne hj]
        by_cases hjn : j < NINODES
        · rw [dinodes_view hjn, dinodes_view hjn, hne j hjn hj]
        · exact (if_neg hjn).trans (if_neg hjn).symm
  · have hsize : nmeta ≤ FSSIZE := by decide
    change max s.len (IBLOCK inum + 1) = FSSIZE
    omega
  · have hb' : s.freeblock ≤ b := hb
    rw [wsect_sect_ne (by omega)]
    exact hg.zero b hb
  · rw [wsect_sect_ne (by omega)]
    exact hg.super

/-! ## freeinode -/

theorem winode_freeinode (h : winode inum d s = some s') : s'.freeinode = s.freeinode := by
  obtain ⟨buf, _, rfl⟩ := Option.map_eq_some_iff.1 h
  rfl

theorem addrAt_freeinode (d : Dinode) (k : Nat) (s : Img) : (addrAt d k s).2.2.freeinode = s.freeinode := by
  rw [addrAt]
  split <;> rfl

theorem blockFor_freeinode (h : blockFor d n s = some (x, d', s')) : s'.freeinode = s.freeinode := by
  rw [blockFor] at h
  split at h
  · have := congrArg (·.2.2.freeinode) (Option.some.inj h)
    exact this.symm.trans (addrAt_freeinode d n s)
  · obtain ⟨indirect, _, h⟩ := Option.map_eq_some_iff.1 h
    have ha := addrAt_freeinode d NDIRECT s
    split at h <;> exact (congrArg (·.2.2.freeinode) h).symm.trans ha

theorem iappendLoop_freeinode {fuel off' : Nat} (h : iappendLoop fuel d off p s = some (off', d', s')) :
    s'.freeinode = s.freeinode := by
  induction fuel generalizing d off p s with
  | zero => exact (congrArg (·.2.2.freeinode) (Option.some.inj h)).symm
  | succ fuel ih =>
    rw [iappendLoop] at h
    split at h
    · exact (congrArg (·.2.2.freeinode) (Option.some.inj h)).symm
    · split at h
      · cases h
      · rw [Option.bind_eq_bind, Option.bind_eq_some_iff] at h
        obtain ⟨⟨x, d1, s1⟩, hblock, h⟩ := h
        dsimp only at h
        rw [Option.bind_eq_bind, Option.bind_eq_some_iff] at h
        obtain ⟨buf, _, h⟩ := h
        rw [ih h]
        change s1.freeinode = s.freeinode
        exact blockFor_freeinode hblock

theorem iappend_freeinode (h : iappend inum p s = some s') : s'.freeinode = s.freeinode := by
  rw [iappend, Option.bind_eq_bind, Option.bind_eq_some_iff] at h
  obtain ⟨d, _, h⟩ := h
  rw [Option.bind_eq_bind, Option.bind_eq_some_iff] at h
  obtain ⟨⟨off', d1, s1⟩, hloop, h⟩ := h
  exact (winode_freeinode h).trans (iappendLoop_freeinode hloop)

/-! ## Blocks -/

theorem mark_view (hg : Good s) : (view s).mark s.freeblock = view { s with freeblock := s.freeblock + 1 } := by
  have hlow := hg.low
  refine fs_ext ?_ ?_ rfl rfl
  · funext b
    change update (view s).bitmap s.freeblock true b = decide (b < s.freeblock + 1)
    rw [Function.update_apply]
    by_cases hb : b = s.freeblock
    · rw [if_pos hb, hb]
      simp
    · rw [if_neg hb]
      change decide (b < s.freeblock) = _
      congr 1
      exact propext (by omega)
  · funext b
    change update (view s).blocks s.freeblock zero b = (view s).blocks b
    rw [Function.update_apply]
    by_cases hb : b = s.freeblock
    · rw [if_pos hb, hb, blocks_view hlow, hg.zero _ le_rfl]
    · rw [if_neg hb]

/-- `freeblock++` is what the kernel's scan of the bitmap finds. -/
theorem balloc_view (hg : Good s) (h : s.freeblock < FSSIZE) :
    Fs.balloc sb (view s) = .ok (s.freeblock, view { s with freeblock := s.freeblock + 1 }) := by
  have hfind : (List.range sb.size).find? (fun b => !(view s).bitmap b) = some s.freeblock := by
    rw [List.find?_range_eq_some]
    refine ⟨?_, List.mem_range.2 h, fun j hj => ?_⟩
    · change (!decide (s.freeblock < s.freeblock)) = true
      simp
    · change (!(!decide (j < s.freeblock))) = true
      simp [hj]
  rw [Fs.balloc, hfind, ← mark_view hg]

theorem Good.alloc (hg : Good s) (h : s.freeblock < FSSIZE) : Good { s with freeblock := s.freeblock + 1 } :=
  ⟨hg.len, Nat.le_succ_of_le hg.low, h, fun b hb => hg.zero b (Nat.le_of_succ_le hb), hg.super⟩

theorem Dinode.Fits.setAddr (h : d.Fits) (hk : k ≤ NDIRECT) {a : Nat} (ha : a < Fs.UINT) : (d.setAddr k a).Fits := by
  refine ⟨h.type, h.major, h.minor, h.nlink, h.size, fun j => ?_, fun j hj => ?_⟩
  · change update d.addrs k a j < _
    rw [Function.update_apply]
    split
    · exact ha
    · exact h.addrs j
  · exact (Function.update_of_ne (by omega) ..).trans (h.none j hj)

/-- The block in `addrs[k]`, as far as it is inside the image. -/
theorem addrAt_sim (hg : Good s) (hd : d.Fits) (hk : k ≤ NDIRECT) (h : addrAt d k s = (x, d', s')) (hx : x < s'.len) :
    Fs.addrAt sb (view s) d.inode k = .ok (x, d'.inode, view s') ∧ Good s' ∧ d'.Fits := by
  rw [addrAt] at h
  by_cases h0 : d.addrs k = 0
  · rw [if_pos h0] at h
    obtain ⟨rfl, h1⟩ := Prod.mk.inj h
    obtain ⟨rfl, rfl⟩ := Prod.mk.inj h1
    have hlt : s.freeblock < FSSIZE := hg.len ▸ hx
    have hu : FSSIZE < Fs.UINT := by decide
    refine ⟨?_, hg.alloc hlt, hd.setAddr hk (by omega)⟩
    have h0' : d.inode.addrs k = 0 := h0
    rw [Fs.addrAt, if_pos h0', balloc_view hg hlt]
    rfl
  · rw [if_neg h0] at h
    obtain ⟨rfl, h1⟩ := Prod.mk.inj h
    obtain ⟨rfl, rfl⟩ := Prod.mk.inj h1
    exact ⟨if_neg h0, hg, hd⟩

/-- Blocks in use are data blocks in the image. -/
theorem owned_range {ip : Fs.Inode} {sl : Fs.Slot} (ho : Fs.Owned sb ((view s).iupdate inum ip))
    (h : ((view s).iupdate inum ip).own (inum, sl) = some x) : nmeta ≤ x ∧ x < s.freeblock := by
  have h1 := (ho.owns.range h).1
  have h2 := ho.owns.marked h
  exact ⟨h1, of_decide_eq_true h2⟩

/-- **`blockFor` is the kernel's `bmap`.** -/
theorem blockFor_sim (hg : Good s) (hd : d.Fits) (ht : d.inode.type ≠ .free)
    (ho : Fs.Owned sb ((view s).iupdate inum d.inode)) (hn : n < MAXFILE) (h : blockFor d n s = some (x, d', s'))
    (hx : x < s'.len) :
    Fs.bmap sb (view s) d.inode n = .ok (x, d'.inode, view s') ∧ Good s' ∧ d'.Fits := by
  rw [blockFor] at h
  rw [Fs.bmap]
  by_cases hdir : n < NDIRECT
  · rw [if_pos hdir] at h ⊢
    exact addrAt_sim hg hd (by omega) (Option.some.inj h) hx
  · have hind : n - NDIRECT < NINDIRECT := by
      rw [MAXFILE] at hn
      omega
    rw [if_neg hdir] at h
    rw [if_neg hdir, if_pos hind]
    obtain ⟨ptr, d1, s1, hptr⟩ : ∃ ptr d1 s1, addrAt d NDIRECT s = (ptr, d1, s1) := ⟨_, _, _, rfl⟩
    rw [hptr] at h
    obtain ⟨indirect, hrd, hval⟩ := Option.map_eq_some_iff.1 h
    obtain ⟨hlt, rfl⟩ := rsect_eq_some hrd
    obtain ⟨ha, hg1, hd1⟩ := addrAt_sim hg hd (Nat.le_refl _) hptr hlt
    have hfound := Sat.of_ok (Fs.addrAt_spec (Nat.le_refl _) ht ho) ha
    obtain ⟨hlo, hhi⟩ := owned_range hfound.owned hfound.at_slot
    rw [ha, ok_bind]
    dsimp only
    rw [Fs.indirectAt, blocks_view hlo]
    by_cases h0 : word (s1.sect ptr) (n - NDIRECT) = 0
    · rw [if_pos h0] at hval
      obtain ⟨rfl, hval'⟩ := Prod.mk.inj hval
      obtain ⟨rfl, rfl⟩ := Prod.mk.inj hval'
      have hlen1 := hg1.len
      have hfree : s1.freeblock < FSSIZE := by
        change s1.freeblock < max s1.len (ptr + 1) at hx
        omega
      refine ⟨?_, (hg1.alloc hfree).wsect hlo (Nat.lt_succ_of_lt hhi), hd1⟩
      rw [if_pos h0, balloc_view hg1 hfree, view_wsect hlo]
      simp only [ok_bind, blocks_view hlo]
    · rw [if_neg h0] at hval
      obtain ⟨rfl, hval'⟩ := Prod.mk.inj hval
      obtain ⟨rfl, rfl⟩ := Prod.mk.inj hval'
      rw [if_neg h0]
      exact ⟨rfl, hg1, hd1⟩

/-! ## Content -/

theorem type_ne_free (hf : Fs.Found sb (view s) inum d.inode (.data k) x d'.inode (view s'))
    (ht : d.inode.type ≠ .free) :
    d'.inode.type ≠ .free := by
  rw [hf.fields]
  exact ht

/-- **The loop of `iappend` is the loop of `writei`.** Only the content from `off` on gets blocks. -/
theorem iappendLoop_sim {fuel off' : Nat} (hg : Good s) (hd : d.Fits) (ht : d.inode.type ≠ .free)
    (ho : Fs.Owned sb ((view s).iupdate inum d.inode)) (h : iappendLoop fuel d off p s = some (off', d', s')) :
    Fs.writeLoop sb fuel (view s) d.inode off p = .ok (off', d'.inode, view s') ∧ Good s' ∧ d'.Fits ∧
      ∀ j k, j ≠ inum ∨ off + p.length ≤ k * BSIZE →
        ((view s').iupdate inum d'.inode).own (j, .data k) = ((view s).iupdate inum d.inode).own (j, .data k) := by
  induction fuel generalizing d off p s with
  | zero =>
    obtain ⟨rfl, h1⟩ := Prod.mk.inj (Option.some.inj h)
    obtain ⟨rfl, rfl⟩ := Prod.mk.inj h1
    exact ⟨rfl, hg, hd, fun _ _ _ => rfl⟩
  | succ fuel ih =>
    rw [iappendLoop] at h
    rw [Fs.writeLoop]
    by_cases hp : p = []
    · rw [if_pos hp] at h ⊢
      obtain ⟨rfl, h1⟩ := Prod.mk.inj (Option.some.inj h)
      obtain ⟨rfl, rfl⟩ := Prod.mk.inj h1
      exact ⟨rfl, hg, hd, fun _ _ _ => rfl⟩
    · rw [if_neg hp] at h ⊢
      by_cases hmax : MAXFILE ≤ off / BSIZE
      · rw [if_pos hmax] at h
        cases h
      rw [if_neg hmax, Option.bind_eq_bind, Option.bind_eq_some_iff] at h
      obtain ⟨⟨x, d1, s1⟩, hblock, h⟩ := h
      dsimp only at h
      rw [Option.bind_eq_bind, Option.bind_eq_some_iff] at h
      obtain ⟨buf, hread, h⟩ := h
      obtain ⟨hx, rfl⟩ := rsect_eq_some hread
      obtain ⟨hbmap, hg1, hd1⟩ := blockFor_sim hg hd ht ho (by omega) hblock hx
      have hfound := Sat.of_ok (Fs.bmap_spec (by omega) ht ho) hbmap
      obtain ⟨hlo, hhi⟩ := owned_range hfound.owned hfound.at_slot
      have hpos := Fs.pos_cases off
      have hoff : off - off / BSIZE * BSIZE = off % BSIZE := by omega
      have hn1 : (off / BSIZE + 1) * BSIZE - off = BSIZE - off % BSIZE := by
        rw [Nat.succ_mul]
        omega
      have hplen : 0 < p.length := List.length_pos_iff.2 hp
      rw [hoff, hn1] at h
      obtain ⟨howned, hown, _⟩ := Fs.setBlock_spec hfound.owned hfound.at_slot
        (patch (s1.sect x) (off % BSIZE) (p.take (min p.length (BSIZE - off % BSIZE))))
      have hview : view (wsect x (patch (s1.sect x) (off % BSIZE) (p.take (min p.length (BSIZE - off % BSIZE)))) s1) =
          (view s1).setBlock x (patch (s1.sect x) (off % BSIZE) (p.take (min p.length (BSIZE - off % BSIZE)))) :=
        view_wsect hlo
      obtain ⟨hloop, hg', hd', htight⟩ := ih (hg1.wsect hlo hhi) hd1 (type_ne_free hfound ht)
        (by rw [hview]; exact howned) h
      rw [hview] at hloop htight
      refine ⟨?_, hg', hd', fun j k hjk => ?_⟩
      · rw [hbmap, ok_bind]
        dsimp only
        rw [blocks_view hlo]
        exact hloop
      · have hlen : (p.drop (min p.length (BSIZE - off % BSIZE))).length = p.length - min p.length
          (BSIZE - off % BSIZE) :=
          List.length_drop ..
        rw [htight j k (hjk.imp_right fun hk => by omega)]
        refine (hown _).trans (hfound.rest _ (fun he => ?_) (by simp))
        obtain ⟨hj, hk⟩ := Prod.mk.inj he
        have hk := Fs.Slot.data.inj hk
        rcases hjk with hji | hkl
        · exact hji hj
        · rw [hk] at hkl
          omega

/-- The `assert` of each round keeps the content below the largest file. -/
theorem iappendLoop_fits {fuel off' : Nat} (h : iappendLoop fuel d off p s = some (off', d', s')) (hf : p.length ≤ fuel)
    (hp : p ≠ []) : off + p.length ≤ MAXFILE * BSIZE := by
  induction fuel generalizing d off p s with
  | zero => exact absurd (List.length_eq_zero_iff.1 (by omega)) hp
  | succ fuel ih =>
    rw [iappendLoop, if_neg hp] at h
    by_cases hmax : MAXFILE ≤ off / BSIZE
    · rw [if_pos hmax] at h
      cases h
    rw [if_neg hmax, Option.bind_eq_bind, Option.bind_eq_some_iff] at h
    obtain ⟨⟨x, d1, s1⟩, _, h⟩ := h
    dsimp only at h
    rw [Option.bind_eq_bind, Option.bind_eq_some_iff] at h
    obtain ⟨buf, _, h⟩ := h
    have hpos := Fs.pos_cases off
    have hplen : 0 < p.length := List.length_pos_iff.2 hp
    have hn1 : (off / BSIZE + 1) * BSIZE - off = BSIZE - off % BSIZE := by
      rw [Nat.succ_mul]
      omega
    rw [hn1] at h
    have hlen : (p.drop (min p.length (BSIZE - off % BSIZE))).length = p.length - min p.length (BSIZE - off % BSIZE) :=
      List.length_drop ..
    by_cases hrest : p.drop (min p.length (BSIZE - off % BSIZE)) = []
    · rw [hrest, List.length_nil] at hlen
      have hblocks : (off / BSIZE + 1) * BSIZE ≤ MAXFILE * BSIZE := Nat.mul_le_mul_right _ (by omega)
      rw [Nat.succ_mul] at hblocks
      omega
    · have := ih h (by omega) hrest
      omega

/-- Without anything cached, a file system is consistent if another with the same disk is. -/
theorem consistent_recache {f g : Fs} {v : Fs.Superblock} (h : Fs.Consistent v f) (hb : g.bitmap = f.bitmap)
    (hbl : g.blocks = f.blocks) (hd : g.dinodes = f.dinodes) (hn : ∀ i, ¬ g.held i) : Fs.Consistent v g := by
  have hown : ∀ q, g.own q = f.own q := fun q => by rw [Fs.own, hd, hbl, Fs.own]
  refine ⟨⟨h.owned.owns.congr (fun b => by rw [hb]) hown, fun b hlt => by rw [hb]; exact h.owned.marked b hlt⟩,
    fun i k ht hk => ?_, fun i hi => absurd hi (hn i)⟩
  rw [hown]
  rw [hd] at ht hk
  exact h.sized i k ht hk

theorem arrays_recache {f g : Fs} (hbl : g.blocks = f.blocks) (hd : g.dinodes = f.dinodes) : g.arrays = f.arrays := by
  funext i
  simp only [Fs.arrays, Fs.content, Fs.byteAt, Fs.own, hd, hbl]

theorem not_held (s : Img) (i : Nat) : ¬ (view s).held i := fun h => absurd h.1 (by simp [view])

/-- What `mkfs` has made so far: a consistent file system with the content `A` and no block beyond it. -/
structure Made (s : Img) (A : Fs.Arrays) : Prop where
  good : Good s
  consistent : Fs.Consistent sb (view s)
  tight : ∀ i k b, (view s).own (i, .data k) = some b → k * BSIZE < ((view s).dinodes i).size
  arrays : (view s).arrays = A

variable {A : Fs.Arrays} {c : List UInt8}

theorem Made.content (h : Made s A) (hA : A i = some c) :
    ((view s).dinodes i).type ≠ .free ∧ (view s).content i = c ∧ ((view s).dinodes i).size = c.length := by
  have ha : (view s).arrays i = some c := by rw [h.arrays, hA]
  rw [Fs.arrays] at ha
  split at ha
  · cases ha
  · next ht =>
    have hc := Option.some.inj ha
    exact ⟨ht, hc, by rw [← hc, Fs.content_length]⟩

/-- **`iappend` appends.** -/
theorem Made.iappend (h : Made s A) (hi : inum < NINODES) (hA : A inum = some c) (hap : iappend inum p s = some s') :
    Made s' (update A inum (some (c ++ p))) := by
  obtain ⟨ht, hcontent, hsize⟩ := h.content hA
  rw [Mkfs.iappend, Option.bind_eq_bind, Option.bind_eq_some_iff] at hap
  obtain ⟨d, hd, hap⟩ := hap
  obtain ⟨buf, hbuf, rfl⟩ := Option.map_eq_some_iff.1 hd
  obtain ⟨_, rfl⟩ := rsect_eq_some hbuf
  change (iappendLoop p.length (dinodeAt s inum) (dinodeAt s inum).size p s).bind _ = _ at hap
  obtain ⟨⟨off', d1, s1⟩, hloop, hw⟩ := Option.bind_eq_some_iff.1 hap
  have hview : (view s).dinodes inum = (dinodeAt s inum).inode := dinodes_view hi
  rw [hview] at ht hsize
  have hself : (view s).iupdate inum (dinodeAt s inum).inode = view s := Fs.iupdate_of_eq hview.symm
  have hoff : (dinodeAt s inum).size = c.length := hsize
  have hmax : (dinodeAt s inum).size + p.length ≤ MAXFILE * BSIZE := by
    by_cases hp : p = []
    · have := h.consistent.size_le (i := inum) (by rw [hview]; exact ht)
      rw [hview] at this
      rw [hp, List.length_nil]
      exact this
    · exact iappendLoop_fits hloop (Nat.le_refl _) hp
  have howned : Fs.Owned sb ((view s).iupdate inum (dinodeAt s inum).inode) := by
    rw [hself]
    exact h.consistent.owned
  have hfits : (dinodeAt s inum).Fits := fits_getDinode _ _
  obtain ⟨hkernel, hg1, hd1, htight⟩ := iappendLoop_sim h.good hfits ht howned hloop
  obtain ⟨hend, hwrote⟩ := Sat.of_ok (Fs.writeLoop_spec ht howned (Nat.le_refl _) hmax) hkernel
  dsimp only at hend hwrote hw
  have hu : MAXFILE * BSIZE < Fs.UINT := by decide
  have hd2 : Dinode.Fits { d1 with size := off' } :=
    ⟨hd1.type, hd1.major, hd1.minor, hd1.nlink, by dsimp only; omega, hd1.addrs, hd1.none⟩
  obtain ⟨hv', hg', _⟩ := winode_sim hg1 hi hd2 hw
  rw [← hview] at hwrote
  have hsz : (Dinode.inode { d1 with size := off' }) =
      { d1.inode with size := max ((view s).dinodes inum).size ((dinodeAt s inum).size + p.length) } := by
    rw [hview]
    change _ = { d1.inode with size := max (dinodeAt s inum).size ((dinodeAt s inum).size + p.length) }
    rw [Nat.max_eq_right (by omega), ← hend]
    rfl
  obtain ⟨hcons, harr⟩ := hwrote.arrays h.consistent (by rw [hview]; exact ht) (by rw [hview]; exact Nat.le_refl _) hsz
  have hsplice : Fs.splice ((view s).content inum) (dinodeAt s inum).size p = c ++ p := by
    rw [hcontent, Fs.splice, hoff, List.take_length, List.drop_eq_nil_of_le (by omega), List.append_nil]
  refine ⟨hg', ?_, fun j k b hb => ?_, ?_⟩
  · exact consistent_recache hcons (by rw [hv']; rfl) (by rw [hv']; rfl) (by rw [hv']; rfl) (not_held s')
  · have hown : (view s').own (j, .data k) = ((view s1).iupdate inum d1.inode).own (j, .data k) := by
      rw [hv']
      by_cases hj : j = inum
      · subst hj
        rw [Fs.own_self, Fs.own_self]
        rfl
      · rw [Fs.own_of_ne hj, Fs.own_of_ne hj]
    rw [hown] at hb
    have hold : j ≠ inum ∨ (dinodeAt s inum).size + p.length ≤ k * BSIZE → k * BSIZE < ((view s).dinodes j).size := by
      intro hjk
      rw [htight j k hjk, hself] at hb
      exact h.tight j k b hb
    have hdj : j ≠ inum → (view s').dinodes j = (view s).dinodes j := fun hj => by
      rw [hv']
      refine (Function.update_of_ne hj ..).trans ?_
      rw [hwrote.dinodes]
    by_cases hj : j = inum
    · have hsize' : ((view s').dinodes j).size = off' := by
        rw [hj, hv', Fs.iupdate_dinodes]
        rfl
      by_contra hge
      have := hold (.inr (by omega))
      rw [hj, hview] at this
      change k * BSIZE < (dinodeAt s inum).size at this
      omega
    · rw [hdj hj]
      exact hold (.inl hj)
  · rw [← h.arrays, ← hsplice, ← harr]
    exact arrays_recache (by rw [hv']; rfl) (by rw [hv']; rfl)

end Mkfs
