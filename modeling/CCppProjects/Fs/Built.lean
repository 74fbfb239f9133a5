import CCppProjects.Fs.Image
/-
# The image mkfs builds

`Stage` is the image after some of the files, `Built` what the image should be when `mkfs` exits with 0. It is
not so for two kinds of lists of files (`mkfs_builds`):

* `ialloc` hands out inode numbers from `NINODES` on;
* the root directory's size is rounded up to a block it does not have when its entries fill its blocks.
-/
namespace Mkfs

open Fs (Block zero word setWord patch BSIZE NDIRECT NINDIRECT MAXFILE BPB word_setWord)
open Function (update)

variable {s s' t img : Img} {d d' : Dinode} {b i j k n inum : Nat} {p c : List UInt8} {A : Fs.Arrays} {f : File}
  {files done : List File}

/-! ## The blank image -/

theorem foldl_wsect (n : Nat) :
    (List.range n).foldl (fun s i => wsect i zero s) ⟨fun _ => zero, 0, 1, nmeta⟩ = ⟨fun _ => zero, n, 1, nmeta⟩ := by
  induction n with
  | zero => rfl
  | succ n ih =>
    rw [List.range_succ, List.foldl_append, List.foldl_cons, List.foldl_nil, ih, wsect]
    congr 1
    · exact Function.update_eq_self n (fun _ => zero)
    · exact Nat.max_eq_right (Nat.le_succ n)

theorem blank_eq : blank = wsect 1 ((List.range 7).foldl (fun b j => setWord b j
    ([FSSIZE, FSSIZE - nmeta, NINODES, nlog, 2, inodestart, bmapstart].getD j 0)) zero)
      ⟨fun _ => zero, FSSIZE, 1, nmeta⟩ := by
  rw [blank, foldl_wsect]

theorem blank_sect (h : b ≠ 1) : blank.sect b = zero := by rw [blank_eq, wsect_sect_ne h]

theorem blank_super : word (blank.sect 1) 0 = FSSIZE ∧ word (blank.sect 1) 2 = NINODES ∧
    word (blank.sect 1) 5 = inodestart ∧ word (blank.sect 1) 6 = bmapstart := by
  rw [blank_eq, wsect_sect_self]
  decide

theorem superblock_eq (h : s.sect 1 = blank.sect 1) : superblock s = sb := by
  obtain ⟨h0, h2, _, h6⟩ := blank_super
  simp only [superblock, sb, h, h0, h2, h6]

theorem blank_fields : blank.len = FSSIZE ∧ blank.freeblock = nmeta ∧ blank.freeinode = 1 := by
  rw [blank_eq]
  exact ⟨rfl, rfl, rfl⟩

/-- Nothing is made where all but the superblock is zero. -/
theorem made_nothing (hlen : s.len = FSSIZE) (hfree : s.freeblock = nmeta) (hsect : ∀ b, b ≠ 1 → s.sect b = zero)
    (hsuper : s.sect 1 = blank.sect 1) : Made s fun _ => none := by
  have htype : ∀ i, ((view s).dinodes i).type = .free := fun i => by
    by_cases hi : i < NINODES
    · have h1 := (iblock_range hi).1
      have h2 : 1 < inodestart := by decide
      rw [dinodes_view hi, dinodeAt, hsect _ (by omega)]
      rfl
    · exact congrArg Fs.Inode.type (if_neg hi)
  have hown : ∀ q, (view s).own q = none := fun q => if_pos (htype q.1)
  refine ⟨⟨hlen, hfree.ge, by rw [hfree]; decide, fun b hb => hsect b ?_, hsuper⟩,
    ⟨⟨⟨fun hq => ?_, fun hq => ?_, fun hb => ?_⟩, fun b hb => ?_⟩, fun i _ hi => absurd (htype i) hi,
      fun i hi => absurd hi (not_held _ i)⟩, fun i k b hb => ?_, ?_⟩
  · have : 1 < nmeta := by decide
    omega
  · rw [hown] at hq
    cases hq
  · rw [hown] at hq
    cases hq
  · constructor
    · intro hbit
      have hlt : _ < s.freeblock := of_decide_eq_true hbit
      rw [hfree] at hlt
      exact absurd hb.1 (Nat.not_le.2 hlt)
    · rintro ⟨q, hq⟩
      rw [hown] at hq
      cases hq
  · refine decide_eq_true ?_
    rw [hfree]
    exact hb
  · rw [hown] at hb
    cases hb
  · funext i
    exact if_pos (htype i)

theorem blank_made : Made blank fun _ => none :=
  made_nothing blank_fields.1 blank_fields.2.1 (fun _ => blank_sect) rfl

/-! ## Inodes and files -/

theorem Made.ialloc {type : Nat} (h : Made s A) (hn : s.freeinode < NINODES) (hA : A s.freeinode = none)
    (hty : type < 65536) (ht : tyOf type ≠ .free) (hi : ialloc type s = some (inum, s')) :
    inum = s.freeinode ∧ s'.freeinode = s.freeinode + 1 ∧ Made s' (update A inum (some [])) := by
  obtain ⟨t, hw, heq⟩ := Option.map_eq_some_iff.1 hi
  obtain ⟨rfl, rfl⟩ := Prod.mk.inj heq
  have hfits : Dinode.Fits ⟨type, 0, 0, 1, 0, fun _ => 0⟩ :=
    ⟨hty, Nat.zero_lt_succ _, Nat.zero_lt_succ _, Nat.lt_of_succ_le (Nat.le_add_left ..), Nat.pow_pos (by decide),
      fun _ => Nat.pow_pos (by decide), fun _ _ => rfl⟩
  have hg : Good { s with freeinode := s.freeinode + 1 } :=
    ⟨h.good.len, h.good.low, h.good.high, h.good.zero, h.good.super⟩
  obtain ⟨hv, hg', _⟩ := winode_sim hg hn hfits hw
  have hfree : ((view s).dinodes s.freeinode).type = .free := by
    have ha : (view s).arrays s.freeinode = none := by rw [h.arrays, hA]
    rw [Fs.arrays] at ha
    split at ha
    · assumption
    · cases ha
  have hv' : view t = (view s).iupdate s.freeinode ⟨tyOf type, 1, 0, fun _ => 0⟩ := hv
  obtain ⟨hcons, harr⟩ := h.consistent.fresh hfree ht
  refine ⟨rfl, winode_freeinode hw, hg', hv' ▸ hcons, fun i k b hb => ?_, ?_⟩
  · rw [hv', Fs.own_fresh _ hfree ht] at hb
    have hi : i ≠ s.freeinode := by
      rintro rfl
      rw [Fs.own, if_pos hfree] at hb
      cases hb
    rw [hv']
    change k * BSIZE < (update (view s).dinodes s.freeinode _ i).size
    rw [Function.update_of_ne hi]
    exact h.tight i k b hb
  · rw [hv', harr, h.arrays]

/-- The loop over the `read`s of a file. -/
theorem Made.reads {reads : List (List UInt8)} (h : Made s A) (hi : inum < NINODES) (hA : A inum = some c)
    (hr : reads.foldlM (fun s r => Mkfs.iappend inum r s) s = some s') :
    Made s' (update A inum (some (c ++ reads.flatten))) ∧ s'.freeinode = s.freeinode := by
  induction reads generalizing s A c with
  | nil =>
    obtain rfl : s = s' := by simpa using hr
    rw [List.flatten_nil, List.append_nil, ← hA, Function.update_eq_self]
    exact ⟨h, rfl⟩
  | cons r reads ih =>
    rw [List.foldlM_cons, Option.bind_eq_bind, Option.bind_eq_some_iff] at hr
    obtain ⟨t, ht, hr⟩ := hr
    obtain ⟨h1, h2⟩ := ih (h.iappend hi hA ht) (Function.update_self ..) hr
    rw [Function.update_idem, List.append_assoc] at h1
    exact ⟨h1, h2.trans (iappend_freeinode ht)⟩

theorem dirent_length (inum : Nat) (name : List UInt8) : (dirent inum name).length = 16 := by
  simp only [dirent, DIRSIZ, List.length_append, List.length_cons, List.length_nil, List.length_take,
    List.length_replicate]
  omega

/-- The image after some of the files: the root directory has an entry for each and two of its own. -/
structure Stage (s : Img) (done : List File) (A : Fs.Arrays) : Prop where
  made : Made s A
  freeinode : s.freeinode = 2 + done.length
  root : ∃ c, A ROOTINO = some c ∧ c.length = 16 * (2 + done.length)
  file : ∀ j, (h : j < done.length) → A (2 + j) = some done[j].bytes
  free : ∀ i, 2 + done.length ≤ i → A i = none

theorem makeRoot_spec (hm : Made s fun _ => none) (hfi : s.freeinode = 1) (h : makeRoot s = some s') :
    ∃ A, Stage s' [] A := by
  rw [makeRoot, Option.bind_eq_bind, Option.bind_eq_some_iff] at h
  obtain ⟨⟨inum, s1⟩, hal, h⟩ := h
  obtain ⟨rfl, hfi1, hm1⟩ := hm.ialloc (by rw [hfi]; decide) rfl (by decide) (by decide) hal
  rw [hfi] at hm1 hfi1 h
  dsimp only at h
  rw [if_pos (show 1 = ROOTINO from rfl), Option.bind_eq_bind, Option.bind_eq_some_iff] at h
  obtain ⟨s2, hd1, hd2⟩ := h
  have hm2 := hm1.iappend (by decide) (Function.update_self ..) hd1
  have hm3 := hm2.iappend (by decide) (Function.update_self ..) hd2
  rw [Function.update_idem, Function.update_idem] at hm3
  refine ⟨_, hm3, ?_, ⟨_, Function.update_self .., ?_⟩, fun j hj => absurd hj (Nat.not_lt_zero j), fun i hi => ?_⟩
  · rw [iappend_freeinode hd2, iappend_freeinode hd1, hfi1]
    rfl
  · simp [dirent_length]
  · rw [List.length_nil] at hi
    exact Function.update_of_ne (by omega) ..

theorem Stage.addFile (h : Stage s done A) (hn : 2 + done.length < NINODES) (hf : addFile s f = some s') :
    ∃ A', Stage s' (done ++ [f]) A' := by
  rw [Mkfs.addFile] at hf
  split at hf
  · cases hf
  rw [Option.bind_eq_bind, Option.bind_eq_some_iff] at hf
  obtain ⟨⟨inum, s1⟩, hal, hf⟩ := hf
  obtain ⟨rfl, hfi1, hm1⟩ := h.made.ialloc (h.freeinode ▸ hn) (h.free _ h.freeinode.ge) (by decide) (by decide) hal
  rw [h.freeinode] at hm1 hfi1 hf
  dsimp only at hf
  rw [Option.bind_eq_bind, Option.bind_eq_some_iff] at hf
  obtain ⟨s2, hdir, hf⟩ := hf
  obtain ⟨c, hc, hlen⟩ := h.root
  have hne : ROOTINO ≠ 2 + done.length := by
    rw [ROOTINO]
    omega
  have hm2 := hm1.iappend (by decide) ((Function.update_of_ne hne ..).trans hc) hdir
  have hinum : update (update A (2 + done.length) (some [])) ROOTINO
      (some (c ++ dirent (2 + done.length) (skip f.name))) (2 + done.length) = some [] := by
    rw [Function.update_of_ne hne.symm, Function.update_self]
  obtain ⟨hm3, hfi3⟩ := hm2.reads hn hinum hf
  refine ⟨_, hm3, ?_, ⟨c ++ dirent (2 + done.length) (skip f.name), ?_, ?_⟩, fun j hj => ?_, fun i hi => ?_⟩
  · rw [hfi3, iappend_freeinode hdir, hfi1, List.length_append, List.length_singleton]
    omega
  · rw [Function.update_of_ne hne, Function.update_self]
  · rw [List.length_append, hlen, dirent_length, List.length_append, List.length_singleton]
    omega
  · rw [List.length_append, List.length_singleton] at hj
    by_cases hlast : j = done.length
    · subst hlast
      rw [Function.update_self]
      simp [File.bytes]
    · have hroot : 2 + j ≠ ROOTINO := by
        rw [ROOTINO]
        omega
      rw [Function.update_of_ne (by omega), Function.update_of_ne hroot, Function.update_of_ne (by omega),
        h.file j (by omega), List.getElem_append_left]
  · rw [List.length_append, List.length_singleton] at hi
    have hroot : i ≠ ROOTINO := by
      rw [ROOTINO]
      omega
    rw [Function.update_of_ne (by omega), Function.update_of_ne hroot, Function.update_of_ne (by omega)]
    exact h.free i (by omega)

theorem Stage.addFiles (h : Stage s done A) (hn : 1 + done.length + files.length < NINODES)
    (hf : files.foldlM Mkfs.addFile s = some s') : ∃ A', Stage s' (done ++ files) A' := by
  induction files generalizing s done A with
  | nil =>
    obtain rfl : s = s' := by simpa using hf
    exact ⟨A, by rwa [List.append_nil]⟩
  | cons f files ih =>
    rw [List.foldlM_cons, Option.bind_eq_bind, Option.bind_eq_some_iff] at hf
    obtain ⟨t, ht, hf⟩ := hf
    rw [List.length_cons] at hn
    obtain ⟨A1, h1⟩ := h.addFile (by omega) ht
    obtain ⟨A2, h2⟩ := ih h1 (by rw [List.length_append, List.length_singleton]; omega) hf
    exact ⟨A2, by rwa [List.append_assoc] at h2⟩

/-! ## The bitmap -/

theorem setBit_testBit (buf : Block) (i b : Nat) :
    (setBit buf i (b / 8)).toNat.testBit (b % 8) = ((buf (b / 8)).toNat.testBit (b % 8) || decide (b = i)) := by
  have hb : b % 8 < 8 := Nat.mod_lt _ (by decide)
  rw [setBit, Function.update_apply]
  by_cases hbyte : b / 8 = i / 8
  · rw [if_pos hbyte, UInt8.toNat_ofNat', Nat.testBit_mod_two_pow, Nat.testBit_or, Nat.one_shiftLeft,
      Nat.testBit_two_pow, hbyte, decide_eq_true hb, Bool.true_and]
    congr 1
    exact decide_eq_decide.2 (by omega)
  · have hne : b ≠ i := fun h => hbyte (by rw [h])
    rw [if_neg hbyte, decide_eq_false hne, Bool.or_false]

theorem foldl_setBit_testBit (n b : Nat) :
    ((List.range n).foldl setBit zero (b / 8)).toNat.testBit (b % 8) = decide (b < n) := by
  induction n with
  | zero => exact Nat.zero_testBit _
  | succ n ih =>
    rw [List.range_succ, List.foldl_append, List.foldl_cons, List.foldl_nil, setBit_testBit, ih, ← Bool.decide_or]
    exact decide_eq_decide.2 (by omega)

/-- With the bitmap written, the kernel finds what `view` has. -/
theorem balloc_kernel (hg : Good s) (h : balloc s.freeblock s = some img) :
    superblock img = sb ∧ kernel img = view s ∧ img.freeinode = s.freeinode := by
  rw [balloc] at h
  split at h
  case isFalse => cases h
  obtain rfl := Option.some.inj h
  have hone : 1 ≠ bmapstart := by decide
  have hsuper : (wsect bmapstart ((List.range s.freeblock).foldl setBit zero) s).sect 1 = blank.sect 1 := by
    rw [wsect_sect_ne hone]
    exact hg.super
  have hsb := superblock_eq hsuper
  have hhigh := hg.high
  have hsize : FSSIZE = 1000 := rfl
  have hbpb : BPB = 4096 := rfl
  refine ⟨hsb, fs_ext ?_ ?_ ?_ rfl, rfl⟩
  · funext b
    simp only [kernel, hsb, view]
    by_cases hb : b < sb.size
    · have hb' : b < 1000 := hb
      rw [decide_eq_true hb, Bool.true_and, Nat.div_eq_of_lt (show b < BPB by omega),
        Nat.mod_eq_of_lt (show b < BPB by omega),
        Nat.add_zero]
      change ((wsect bmapstart _ s).sect bmapstart (b / 8)).toNat.testBit (b % 8) = _
      rw [wsect_sect_self, foldl_setBit_testBit]
    · have hb' : ¬ b < 1000 := hb
      rw [decide_eq_false hb, Bool.false_and, decide_eq_false (by omega)]
  · funext b
    simp only [kernel, hsb, view]
    by_cases hb : b < nmeta
    · rw [if_pos (by exact hb), if_pos hb]
    · have hmeta : bmapstart < nmeta := by decide
      rw [if_neg (by exact hb), if_neg hb, wsect_sect_ne (by omega)]
  · funext i
    have hino : word ((wsect bmapstart ((List.range s.freeblock).foldl setBit zero) s).sect 1) 5 = inodestart := by
      rw [hsuper]
      exact blank_super.2.2.1
    simp only [kernel, hsb, view, hino]
    by_cases hi : i < NINODES
    · have hlt : i / IPB + inodestart < bmapstart := (iblock_range hi).2
      rw [if_pos (by exact hi), if_pos hi, wsect_sect_ne (Nat.ne_of_lt hlt)]
      rfl
    · rw [if_neg (by exact hi), if_neg hi]
      rfl

/-! ## The root directory's size -/

/-- The size after the rounding. -/
def rounded (n : Nat) : Nat := (n / BSIZE + 1) * BSIZE

theorem fixSize_spec (hg : Good s) (h : fixSize s = some s') (hr : rounded ((view s).dinodes ROOTINO).size < Fs.UINT) :
    Good s' ∧ s'.freeinode = s.freeinode ∧ s'.freeblock = s.freeblock ∧
      view s' = (view s).iupdate ROOTINO
      { (view s).dinodes ROOTINO with size := rounded ((view s).dinodes ROOTINO).size } := by
  have hroot : ROOTINO < NINODES := by decide
  rw [fixSize, Option.bind_eq_bind, Option.bind_eq_some_iff] at h
  obtain ⟨d, hd, hw⟩ := h
  obtain ⟨buf, hbuf, rfl⟩ := Option.map_eq_some_iff.1 hd
  obtain ⟨_, rfl⟩ := rsect_eq_some hbuf
  change winode ROOTINO { dinodeAt s ROOTINO with size := rounded (dinodeAt s ROOTINO).size } s = _ at hw
  rw [dinodes_view hroot] at hr ⊢
  have hf : (dinodeAt s ROOTINO).Fits := fits_getDinode _ _
  have hfits : Dinode.Fits { dinodeAt s ROOTINO with size := rounded (dinodeAt s ROOTINO).size } :=
    ⟨hf.type, hf.major, hf.minor, hf.nlink, hr, hf.addrs, hf.none⟩
  obtain ⟨hv, hg', hfree, _⟩ := winode_sim hg hroot hfits hw
  exact ⟨hg', winode_freeinode hw, hfree, hv⟩

/-- Rounding up stays within the last block unless the content fills its blocks. -/
theorem Made.round (h : Made s A) (hA : A i = some c) :
    (∀ q, ((view s).iupdate i { (view s).dinodes i with size := rounded c.length }).own q = (view s).own q) ∧
      (Fs.Consistent sb ((view s).iupdate i { (view s).dinodes i with size := rounded c.length }) ↔
      c.length % BSIZE ≠ 0) := by
  obtain ⟨ht, -, hsize⟩ := h.content hA
  have hown : ∀ q, ((view s).iupdate i { (view s).dinodes i with size := rounded c.length }).own q = (view s).own q :=
    Fs.own_iupdate rfl rfl
  have hpos := Fs.pos_cases c.length
  refine ⟨hown, fun hc hfull => ?_, fun hpart => ⟨⟨h.consistent.owned.owns.congr (fun _ => rfl) hown,
    h.consistent.owned.marked⟩, fun j k hj hk => ?_, fun j hj => absurd hj (not_held s j)⟩⟩
  · -- the block behind the content was never allocated
    obtain ⟨b, hb⟩ := hc.sized i (c.length / BSIZE) (by rw [Fs.iupdate_dinodes]; exact ht)
      (by rw [Fs.iupdate_dinodes]; exact Nat.mul_lt_mul_of_pos_right (Nat.lt_succ_self _) (by decide))
    rw [hown] at hb
    have hlt := h.tight i _ b hb
    rw [hsize] at hlt
    omega
  · rw [hown]
    by_cases hji : j = i
    · subst hji
      refine h.consistent.sized j k ht ?_
      rw [Fs.iupdate_dinodes] at hk
      have hle : k * BSIZE ≤ c.length / BSIZE * BSIZE :=
        Nat.mul_le_mul_right _ (Nat.le_of_lt_succ (Nat.lt_of_mul_lt_mul_right hk))
      rw [hsize]
      omega
    · have hd : ((view s).iupdate i { (view s).dinodes i with size := rounded c.length }).dinodes j =
        (view s).dinodes j :=
        Function.update_of_ne hji ..
      rw [hd] at hj hk
      exact h.consistent.sized j k hj hk

/-! ## The whole of main -/

theorem ialloc_freeinode {type : Nat} (h : ialloc type s = some (inum, s')) : s'.freeinode = s.freeinode + 1 := by
  obtain ⟨t, hw, heq⟩ := Option.map_eq_some_iff.1 h
  obtain ⟨-, rfl⟩ := Prod.mk.inj heq
  exact winode_freeinode hw

theorem reads_freeinode {reads : List (List UInt8)} (h : reads.foldlM (fun s r => iappend inum r s) s = some s') :
    s'.freeinode = s.freeinode := by
  induction reads generalizing s with
  | nil => exact (congrArg Img.freeinode (Option.some.inj h)).symm
  | cons r reads ih =>
    rw [List.foldlM_cons, Option.bind_eq_bind, Option.bind_eq_some_iff] at h
    obtain ⟨t, ht, h⟩ := h
    rw [ih h, iappend_freeinode ht]

theorem makeRoot_freeinode (h : makeRoot s = some s') : s'.freeinode = s.freeinode + 1 := by
  rw [makeRoot, Option.bind_eq_bind, Option.bind_eq_some_iff] at h
  obtain ⟨⟨inum, s1⟩, hal, h⟩ := h
  dsimp only at h
  split at h
  case isFalse => cases h
  rw [Option.bind_eq_bind, Option.bind_eq_some_iff] at h
  obtain ⟨s2, hd1, hd2⟩ := h
  rw [iappend_freeinode hd2, iappend_freeinode hd1, ialloc_freeinode hal]

theorem addFiles_freeinode (h : files.foldlM addFile s = some s') : s'.freeinode = s.freeinode + files.length := by
  induction files generalizing s with
  | nil => exact (congrArg Img.freeinode (Option.some.inj h)).symm
  | cons f files ih =>
    rw [List.foldlM_cons, Option.bind_eq_bind, Option.bind_eq_some_iff] at h
    obtain ⟨t, ht, h⟩ := h
    have hadd : t.freeinode = s.freeinode + 1 := by
      rw [addFile] at ht
      split at ht
      · cases ht
      rw [Option.bind_eq_bind, Option.bind_eq_some_iff] at ht
      obtain ⟨⟨inum, s1⟩, hal, ht⟩ := ht
      dsimp only at ht
      rw [Option.bind_eq_bind, Option.bind_eq_some_iff] at ht
      obtain ⟨s2, hdir, ht⟩ := ht
      rw [reads_freeinode ht, iappend_freeinode hdir, ialloc_freeinode hal]
    rw [ih h, hadd, List.length_cons]
    omega

theorem fixSize_freeinode (h : fixSize s = some s') : s'.freeinode = s.freeinode := by
  rw [fixSize, Option.bind_eq_bind, Option.bind_eq_some_iff] at h
  obtain ⟨d, -, hw⟩ := h
  exact winode_freeinode hw

theorem balloc_freeinode (h : balloc n s = some img) : img.freeinode = s.freeinode := by
  rw [balloc] at h
  split at h
  · obtain rfl := Option.some.inj h
    rfl
  · cases h

theorem main_cases (h : main files = some img) : ∃ s1 s2 s3, makeRoot blank = some s1 ∧
    files.foldlM addFile s1 = some s2 ∧
    fixSize s2 = some s3 ∧ balloc s3.freeblock s3 = some img := by
  simp only [main, Option.bind_eq_bind, Option.bind_eq_some_iff] at h
  obtain ⟨s1, h1, s2, h2, s3, h3, h⟩ := h
  exact ⟨s1, s2, s3, h1, h2, h3, h⟩

/-- The inode numbers handed out: the root directory's and one for each file. -/
theorem main_freeinode (h : main files = some img) : img.freeinode = files.length + 2 := by
  obtain ⟨s1, s2, s3, h1, h2, h3, h4⟩ := main_cases h
  rw [balloc_freeinode h4, fixSize_freeinode h3, addFiles_freeinode h2, makeRoot_freeinode h1, blank_fields.2.2]
  omega

/-- What the image should be: inode numbers in use are below `NINODES`; blocks below an inode's size are
allocated data blocks, each with one owner, and the bitmap marks these and the blocks before them; the kernel
reads each file's bytes. -/
structure Built (files : List File) (img : Img) : Prop where
  inums : ∀ i, ROOTINO ≤ i → i < img.freeinode → i < NINODES
  layout : (superblock img).data = nmeta ∧ (superblock img).size = FSSIZE
  consistent : Fs.Consistent (superblock img) (kernel img)
  reads : ∀ j (h : j < files.length) (off n : Nat), off < Fs.UINT → n < Fs.UINT →
    Fs.readi (superblock img) (kernel img) ((kernel img).dinodes (2 + j)) off n =
      .ok (Fs.read files[j].bytes off n, (kernel img).dinodes (2 + j), kernel img)

/-- The last image before the size is rounded, and the bitmap written. -/
theorem main_stage (h : main files = some img) (hn : files.length + 2 ≤ NINODES) : ∃ s A, Stage s files A ∧
    superblock img = sb ∧
      kernel img = (view s).iupdate ROOTINO
      { (view s).dinodes ROOTINO with size := rounded (16 * (2 + files.length)) } := by
  have hin : files.length + 2 ≤ 200 := hn
  obtain ⟨s1, s2, s3, h1, h2, h3, h4⟩ := main_cases h
  obtain ⟨A1, hs1⟩ := makeRoot_spec blank_made blank_fields.2.2 h1
  obtain ⟨A2, hs2⟩ := hs1.addFiles (by rw [List.length_nil, NINODES]; omega) h2
  rw [List.nil_append] at hs2
  obtain ⟨c, hc, hlen⟩ := hs2.root
  have hsize := (hs2.made.content hc).2.2
  rw [hlen] at hsize
  have hr : rounded ((view s2).dinodes ROOTINO).size < Fs.UINT := by
    rw [hsize, rounded, BSIZE, Fs.UINT]
    omega
  obtain ⟨hg3, -, hfree, hv⟩ := fixSize_spec hs2.made.good h3 hr
  obtain ⟨hsb, hk, -⟩ := balloc_kernel hg3 h4
  rw [hsize] at hv
  exact ⟨s2, A2, hs2, hsb, hk.trans hv⟩

/-- **mkfs builds a consistent image as long as inode numbers are left and the root directory's entries do not
fill its blocks.** -/
theorem mkfs_builds (h : main files = some img) :
    Built files img ↔ files.length + 2 ≤ NINODES ∧ (files.length + 2) % (BSIZE / 16) ≠ 0 := by
  constructor
  · intro hb
    have hn : files.length + 2 ≤ NINODES := by
      by_contra hgt
      have := hb.inums NINODES (by decide) (by rw [main_freeinode h]; omega)
      omega
    obtain ⟨s, A, hs, hsb, hk⟩ := main_stage h hn
    obtain ⟨c, hc, hlen⟩ := hs.root
    have hcons := hb.consistent
    rw [hsb, hk, ← hlen] at hcons
    have hpart := (hs.made.round hc).2.1 hcons
    rw [hlen, BSIZE] at hpart
    refine ⟨hn, fun hfull => hpart ?_⟩
    simp only [BSIZE] at hfull
    omega
  · rintro ⟨hn, hpart⟩
    obtain ⟨s, A, hs, hsb, hk⟩ := main_stage h hn
    obtain ⟨c, hc, hlen⟩ := hs.root
    have hcons : Fs.Consistent (superblock img) (kernel img) := by
      rw [hsb, hk, ← hlen]
      refine (hs.made.round hc).2.2 ?_
      rw [hlen, BSIZE]
      simp only [BSIZE] at hpart
      omega
    refine ⟨fun i _ hi => ?_, by rw [hsb]; exact ⟨rfl, rfl⟩, hcons, fun j hj off n hoff hn => ?_⟩
    · rw [main_freeinode h] at hi
      omega
    · have hroot : 2 + j ≠ ROOTINO := by
        rw [ROOTINO]
        omega
      have hd : (kernel img).dinodes (2 + j) = (view s).dinodes (2 + j) := by
        rw [hk]
        exact Function.update_of_ne hroot ..
      obtain ⟨ht, hcontent, -⟩ := hs.made.content (hs.file j hj)
      have hbytes : (kernel img).content (2 + j) = files[j].bytes := by
        rw [← hcontent]
        refine Fs.content_congr (by rw [hd]) fun p _ => ?_
        rw [hk, ← hlen, Fs.byteAt, Fs.byteAt, (hs.made.round hc).1]
        rfl
      rw [Fs.readi_spec hcons (by rw [hd]; exact ht) hoff hn, hbytes]

/-! ## Files without content -/

theorem winode_some (hlen : s.len = FSSIZE) (hi : inum < NINODES) (d : Dinode) :
    ∃ s', winode inum d s = some s' ∧ s'.freeblock = s.freeblock := by
  have hlt := (iblock_range hi).2
  have hsize : bmapstart < FSSIZE := by decide
  refine ⟨wsect (IBLOCK inum) (putDinode (s.sect (IBLOCK inum)) (inum % IPB) d) s, ?_, rfl⟩
  rw [winode, rsect_of_lt (by omega), Option.map_some]

theorem ialloc_some (hlen : s.len = FSSIZE) (hi : s.freeinode < NINODES) (type : Nat) :
    ∃ s', ialloc type s = some (s.freeinode, s') ∧ s'.freeblock = s.freeblock := by
  obtain ⟨s', hw, hfree⟩ := winode_some (s := { s with freeinode := s.freeinode + 1 }) hlen hi
    ⟨type, 0, 0, 1, 0, fun _ => 0⟩
  exact ⟨s', by rw [ialloc, hw, Option.map_some], hfree⟩

/-- An entry of a directory goes into one block, allocated or there already. -/
theorem Made.entry_some (h : Made s A) (hi : inum < NINODES) (hA : A inum = some c) (hp : p.length = 16)
    (hc : c.length % 16 = 0) (hdir : c.length / BSIZE < NDIRECT) (hfree : s.freeblock < FSSIZE) :
    ∃ s', Mkfs.iappend inum p s = some s' ∧ s'.freeblock ≤ s.freeblock + 1 := by
  obtain ⟨ht, -, hsize⟩ := h.content hA
  have hlt := (iblock_range hi).2
  have hmeta : bmapstart < FSSIZE := by decide
  have hlen := h.good.len
  have hb : BSIZE = 512 := rfl
  have hread : rinode inum s = some (dinodeAt s inum) := by
    rw [rinode, rsect_of_lt (by omega), Option.map_some, dinodeAt]
  have hview : (view s).dinodes inum = (dinodeAt s inum).inode := dinodes_view hi
  rw [hview] at hsize ht
  have hoff : (dinodeAt s inum).size = c.length := hsize
  have hpne : p ≠ [] := fun hnil => by rw [hnil] at hp; cases hp
  obtain ⟨x, d1, s1, haddr⟩ : ∃ x d1 s1, addrAt (dinodeAt s inum) (c.length / BSIZE) s = (x, d1, s1) := ⟨_, _, _, rfl⟩
  have hx : x < FSSIZE ∧ s1.len = s.len ∧ s1.freeblock ≤ s.freeblock + 1 := by
    rw [addrAt] at haddr
    split at haddr
    · obtain ⟨rfl, hrest⟩ := Prod.mk.inj haddr
      obtain ⟨-, rfl⟩ := Prod.mk.inj hrest
      exact ⟨hfree, rfl, Nat.le_refl _⟩
    · next hne =>
      obtain ⟨rfl, hrest⟩ := Prod.mk.inj haddr
      obtain ⟨-, rfl⟩ := Prod.mk.inj hrest
      refine ⟨?_, rfl, Nat.le_succ _⟩
      -- the block is owned, and what is owned lies below `freeblock`
      have hown : ((view s).iupdate inum (dinodeAt s inum).inode).own (inum, .data (c.length / BSIZE)) =
          some ((dinodeAt s inum).addrs (c.length / BSIZE)) := by
        rw [Fs.own_ip ht]
        exact (if_pos hdir).trans (Fs.addr?_eq_some.2 ⟨hne, rfl⟩)
      have ho : Fs.Owned sb ((view s).iupdate inum (dinodeAt s inum).inode) := by
        rw [Fs.iupdate_of_eq hview.symm]
        exact h.consistent.owned
      have := (owned_range ho hown).2
      omega
  have hloop : ∃ off' d2 s2, iappendLoop 16 (dinodeAt s inum) c.length p s = some (off', d2, s2) ∧
      s2.len = FSSIZE ∧ s2.freeblock ≤ s.freeblock + 1 := by
    have hn1 : min p.length ((c.length / BSIZE + 1) * BSIZE - c.length) = 16 := by
      rw [hp, hb]
      omega
    have hmax : ¬ MAXFILE ≤ c.length / BSIZE := by
      rw [MAXFILE]
      omega
    have hdrop : p.drop 16 = [] := List.drop_eq_nil_of_le hp.le
    rw [iappendLoop, if_neg hpne, if_neg hmax, blockFor, if_pos hdir, haddr, hn1]
    simp only [Option.bind_eq_bind, Option.bind_some, rsect_of_lt (show x < s1.len by omega), hdrop]
    rw [iappendLoop, if_pos rfl]
    refine ⟨_, _, _, rfl, ?_, hx.2.2⟩
    change max s1.len (x + 1) = FSSIZE
    omega
  obtain ⟨off', d2, s2, hloop, hlen2, hfree2⟩ := hloop
  obtain ⟨s', hw, hfree'⟩ := winode_some hlen2 hi { d2 with size := off' }
  refine ⟨s', ?_, by omega⟩
  simp only [Mkfs.iappend, hread, Option.bind_eq_bind, Option.bind_some, hoff, hp, hloop]
  exact hw

theorem makeRoot_some : ∃ s, makeRoot blank = some s ∧ s.freeblock ≤ nmeta + 2 := by
  obtain ⟨hlen, hfree, hfi⟩ := blank_fields
  have hsize : nmeta + 2 < FSSIZE := by decide
  obtain ⟨s1, hal, hf1⟩ := ialloc_some hlen (by rw [hfi]; decide) T_DIR
  rw [hfi] at hal
  obtain ⟨-, -, hm1⟩ := blank_made.ialloc (by rw [hfi]; decide) rfl (by decide) (by decide) hal
  obtain ⟨s2, hd1, hf2⟩ := hm1.entry_some (by decide) (Function.update_self ..) (dirent_length 1 [46]) rfl (by decide)
    (by omega)
  have hm2 := hm1.iappend (by decide) (Function.update_self ..) hd1
  have hlen2 : ([] ++ dirent 1 [46]).length = 16 := dirent_length ..
  obtain ⟨s3, hd2, hf3⟩ := hm2.entry_some (by decide) (Function.update_self ..) (dirent_length 1 [46, 46])
    (by rw [hlen2]) (by rw [hlen2]; decide) (by omega)
  refine ⟨s3, ?_, by omega⟩
  simp only [makeRoot, hal, Option.bind_eq_bind, Option.bind_some, if_pos (show 1 = ROOTINO from rfl), hd1, hd2]

theorem Stage.addFile_some (h : Stage s done A) (hn : 2 + done.length < NINODES) (hname : SLASH ∉ f.name)
    (hreads : f.reads = []) (hfree : s.freeblock < FSSIZE) :
    ∃ s', Mkfs.addFile s f = some s' ∧ s'.freeblock ≤ s.freeblock + 1 := by
  have hin : 2 + done.length < 200 := hn
  obtain ⟨s1, hal, hf1⟩ := ialloc_some h.made.good.len (h.freeinode ▸ hn) T_FILE
  obtain ⟨-, -, hm1⟩ := h.made.ialloc (h.freeinode ▸ hn) (h.free _ h.freeinode.ge) (by decide) (by decide) hal
  obtain ⟨c, hc, hlen⟩ := h.root
  have hne : ROOTINO ≠ s.freeinode := by
    rw [h.freeinode, ROOTINO]
    omega
  obtain ⟨s2, hdir, hf2⟩ := hm1.entry_some (by decide) ((Function.update_of_ne hne ..).trans hc)
    (dirent_length s.freeinode (skip f.name)) (by omega) (by rw [hlen, BSIZE, NDIRECT]; omega) (by omega)
  refine ⟨s2, ?_, by omega⟩
  simp only [Mkfs.addFile, if_neg hname, hal, Option.bind_eq_bind, Option.bind_some, hdir, hreads]
  rfl

theorem Stage.addFiles_some (h : Stage s done A) (hn : 1 + done.length + files.length < NINODES)
    (hf : ∀ f ∈ files, SLASH ∉ f.name ∧ f.reads = []) (hfree : s.freeblock + files.length ≤ FSSIZE) :
    ∃ s', files.foldlM Mkfs.addFile s = some s' := by
  induction files generalizing s done A with
  | nil => exact ⟨s, rfl⟩
  | cons f files ih =>
    rw [List.length_cons] at hn hfree
    obtain ⟨hname, hreads⟩ := hf f List.mem_cons_self
    obtain ⟨t, ht, hft⟩ := h.addFile_some (by omega) hname hreads (by omega)
    obtain ⟨A', h'⟩ := h.addFile (by omega) ht
    obtain ⟨s', hs'⟩ := ih h' (by rw [List.length_append, List.length_singleton]; omega)
      (fun g hg => hf g (List.mem_cons_of_mem _ hg)) (by omega)
    exact ⟨s', by rw [List.foldlM_cons, ht, Option.bind_eq_bind, Option.bind_some, hs']⟩

/-- `mkfs` succeeds on empty files as long as there are inodes. -/
theorem main_empty (hn : files.length + 2 ≤ NINODES) (hf : ∀ f ∈ files, SLASH ∉ f.name ∧ f.reads = []) :
    ∃ img, main files = some img := by
  have hin : files.length + 2 ≤ 200 := hn
  have hmeta : nmeta = 59 := rfl
  have hsize : FSSIZE = 1000 := rfl
  obtain ⟨s1, h1, hf1⟩ := makeRoot_some
  obtain ⟨A1, hs1⟩ := makeRoot_spec blank_made blank_fields.2.2 h1
  have hn1 : 1 + ([] : List File).length + files.length < NINODES := by
    rw [List.length_nil, NINODES]
    omega
  obtain ⟨s2, h2⟩ := hs1.addFiles_some hn1 hf (by omega)
  obtain ⟨A2, hs2⟩ := hs1.addFiles hn1 h2
  have hlen := hs2.made.good.len
  have hroot : IBLOCK ROOTINO < FSSIZE := by decide
  obtain ⟨s3, h3, hf3⟩ := winode_some hlen (show ROOTINO < NINODES by decide)
    { dinodeAt s2 ROOTINO with size := rounded (dinodeAt s2 ROOTINO).size }
  have hhigh := hs2.made.good.high
  have hfix : fixSize s2 = some s3 := by
    rw [fixSize, rinode, rsect_of_lt (by omega), Option.map_some]
    exact h3
  refine ⟨wsect bmapstart ((List.range s3.freeblock).foldl setBit zero) s3, ?_⟩
  simp only [main, h1, Option.bind_eq_bind, Option.bind_some, h2, hfix]
  exact if_pos (show s3.freeblock < 4096 by omega)

def emptyFile : File := ⟨[97], [], fun _ hr => absurd hr List.not_mem_nil⟩

/-- A file of three bytes, and one of thirteen blocks, the last of them behind the indirect block. -/
def smallFile : File := ⟨[95, 97], [[1, 2, 3]], by decide⟩

def bigFile : File := ⟨[98], List.replicate 13 (List.replicate BSIZE 7), fun r hr => by
  rw [List.eq_of_mem_replicate hr, List.length_replicate]
  decide⟩

theorem mkfs_builds_two : ∃ img, main [smallFile, bigFile] = some img ∧ Built [smallFile, bigFile] img := by
  have hrun : (main [smallFile, bigFile]).isSome = true := by decide +kernel
  obtain ⟨img, h⟩ := Option.isSome_iff_exists.1 hrun
  exact ⟨img, h, (mkfs_builds h).2 (by decide)⟩

/-- With 30 files the root directory has 32 entries, all of its one block. -/
theorem mkfs_full_root : ∃ img, main (List.replicate 30 emptyFile) = some img ∧
    ¬ Built (List.replicate 30 emptyFile) img := by
  have hlen : (List.replicate 30 emptyFile).length = 30 := List.length_replicate
  obtain ⟨img, h⟩ :=
    main_empty (by rw [hlen]; decide : (List.replicate 30 emptyFile).length + 2 ≤ NINODES) fun f hf => by
    rw [List.eq_of_mem_replicate hf]
    exact ⟨by decide, rfl⟩
  refine ⟨img, h, fun hb => ?_⟩
  obtain ⟨s, A, hs, hsb, hk⟩ := main_stage h (by rw [hlen]; decide)
  obtain ⟨c, hc, hclen⟩ := hs.root
  have hcons := hb.consistent
  rw [hsb, hk, ← hclen] at hcons
  refine (hs.made.round hc).2.1 hcons ?_
  rw [hclen, hlen]
  rfl

end Mkfs
