import CCppProjects.Fs.Content
/-
# Inodes are byte arrays

`Arrays` is what the file system is for: an array of bytes per allocated inode. On a consistent file system
every operation does to the arrays what it says, with the same results, and stops only when blocks, inodes or
cache slots have run out.
-/
namespace Fs

open Lts
open Function (update)

/-- The content of each allocated inode. -/
abbrev Arrays := Nat → Option (List UInt8)

/-- What reading `n` bytes from `off` on returns. -/
def read (d : List UInt8) (off n : Nat) : Option (List UInt8) :=
  if d.length < off ∨ UINT ≤ off + n then none else some ((d.drop off).take n)

/-- A write is accepted within or right behind the content, up to the largest file. -/
def Accepts (d : List UInt8) (off n : Nat) : Prop := off ≤ d.length ∧ off + n ≤ MAXFILE * BSIZE

instance (d : List UInt8) (off n : Nat) : Decidable (Accepts d off n) := inferInstanceAs (Decidable (_ ∧ _))

def splice (d : List UInt8) (off : Nat) (src : List UInt8) : List UInt8 :=
  d.take off ++ src ++ d.drop (off + src.length)

/-- One operation and its result on the arrays. -/
def Arrays.next (A : Arrays) : Op × Res → Option Arrays
  | (.ialloc _, .inum i) => if A i = none then some (update A i (some [])) else none
  | (.iget _, .done) => some A
  | (.ilock _, .done) => some A
  | (.setNlink _ _, .done) => some A
  | (.readi i off n, .bytes r) => match A i with
    | some d => if r = read d off n then some A else none
    | none => none
  | (.writei i off src, .count r) => match A i with
    | some d =>
      if Accepts d off src.length then if r = some src.length then some (update A i (some (splice d off src))) else none
      else if r = none then some A else none
    | none => none
  | (.iput i, .freed true) => if A i = none then none else some (update A i none)
  | (.iput _, .freed false) => some A
  | _ => none

/-- The content of inode `i` as its blocks have it. -/
def content (s : Fs) (i : Nat) : List UInt8 := (List.range (s.dinodes i).size).map fun p => (s.byteAt i p).getD 0

def arrays (s : Fs) : Arrays := fun i => if (s.dinodes i).type = .free then none else some (s.content i)

/-- Every block below an inode's size is allocated, blocks have one owner each and the bitmap marks the owned
ones; an inode that is locked or has been is cached as it is on disk. -/
structure Consistent (sb : Superblock) (s : Fs) : Prop where
  owned : Owned sb s
  sized : ∀ i k, (s.dinodes i).type ≠ .free → k * BSIZE < (s.dinodes i).size → ∃ b, s.own (i, .data k) = some b
  cached : ∀ i, s.held i → (s.icache i).ip = s.dinodes i ∧ (s.dinodes i).type ≠ .free

/-- Out of blocks, inodes or cache slots. -/
def Exhausted : Panic → Prop
  | .outOfBlocks | .noInodes | .igetNoInodes => True
  | _ => False

section Bytes

variable {sb : Superblock} {s t : Fs} {i j p off n : Nat} {src : List UInt8} {ip : Inode}

theorem Consistent.byteAt (hc : Consistent sb s) (ht : (s.dinodes i).type ≠ .free) (hp : p < (s.dinodes i).size) :
    (s.byteAt i p).isSome := by
  obtain ⟨b, hb⟩ := hc.sized i (p / BSIZE) ht (Nat.lt_of_le_of_lt (Nat.div_mul_le_self ..) hp)
  simp [Fs.byteAt, hb]

@[simp] theorem content_length : (s.content i).length = (s.dinodes i).size := by
  simp [content]

theorem Consistent.content_get (hc : Consistent sb s) (ht : (s.dinodes i).type ≠ .free) :
    (s.content i)[p]? = if p < (s.dinodes i).size then s.byteAt i p else none := by
  by_cases hp : p < (s.dinodes i).size
  · obtain ⟨x, hx⟩ := Option.isSome_iff_exists.1 (hc.byteAt ht hp)
    simp [content, hp, hx]
  · simp [content, hp]

theorem iupdate_of_eq (h : ip = s.dinodes i) : s.iupdate i ip = s := by
  rw [iupdate, h, Function.update_eq_self]

/-- The size of a consistent inode is one a file can have. -/
theorem Consistent.size_le (hc : Consistent sb s) (ht : (s.dinodes i).type ≠ .free) :
    (s.dinodes i).size ≤ MAXFILE * BSIZE := by
  by_contra hgt
  obtain ⟨b, hb⟩ := hc.sized i MAXFILE ht (by omega)
  have hn : ¬ MAXFILE < NDIRECT := by decide
  simp [own, ht, blockAt, hn] at hb

/-- Content is what sizes, types and readable bytes say. -/
theorem content_congr (hs : (t.dinodes i).size = (s.dinodes i).size)
    (hb : ∀ p < (s.dinodes i).size, t.byteAt i p = s.byteAt i p) :
    t.content i = s.content i := by
  rw [content, content, hs]
  apply List.map_congr_left
  intro p hp
  rw [hb p (List.mem_range.1 hp)]

/-- A block is allocated where a byte of it can be read. -/
theorem own_of_byteAt {k : Nat} (h : (s.byteAt i (k * BSIZE)).isSome) : ∃ b, s.own (i, .data k) = some b := by
  obtain ⟨x, hx⟩ := Option.isSome_iff_exists.1 h
  obtain ⟨b, hb, -⟩ := byteAt_eq_some.1 hx
  rw [Nat.mul_div_cancel _ (by decide)] at hb
  exact ⟨b, hb⟩

theorem splice_get {d : List UInt8} (h : off ≤ d.length) :
    (splice d off src)[p]? = if off ≤ p ∧ p < off + src.length then src[p - off]? else d[p]? := by
  have htake : (d.take off).length = off := List.length_take_of_le h
  rw [splice, List.append_assoc]
  by_cases h1 : p < off
  · rw [List.getElem?_append_left (by omega), List.getElem?_take_of_lt h1, if_neg (by omega)]
  · rw [List.getElem?_append_right (by omega), htake]
    by_cases h2 : p < off + src.length
    · rw [List.getElem?_append_left (by omega), if_pos (by omega)]
    · rw [List.getElem?_append_right (by omega), List.getElem?_drop, if_neg (by omega)]
      congr 1
      omega

end Bytes

/-! ## The cache and the inode table -/

section Cache

variable {sb : Superblock} {s t : Fs} {i : Nat} {e : Entry} {ip : Inode}

/-- A cache slot changes; what it holds once locked is the inode on disk. -/
theorem Consistent.setEntry (hc : Consistent sb s) (he : 0 < e.ref → e.valid = true →
    e.ip = s.dinodes i ∧ (s.dinodes i).type ≠ .free) :
    Consistent sb (s.setEntry i e) := by
  refine ⟨⟨hc.owned.owns, hc.owned.marked⟩, hc.sized, fun j hj => ?_⟩
  by_cases hji : j = i
  · subst hji
    simp only [held, Fs.setEntry, Function.update_self] at hj ⊢
    exact he hj.1 hj.2
  · simp only [held, Fs.setEntry, Function.update_of_ne hji] at hj ⊢
    exact hc.cached j hj

theorem iget_spec (hc : Consistent sb s) (i : Nat) :
    Sat (iget sb s i) Exhausted fun t => Consistent sb t ∧ t.arrays = s.arrays ∧ (t.held i → s.held i) := by
  unfold iget
  refine Sat.ite (fun h0 => ?_) fun h0 => Sat.ite (fun _ => ?_) fun _ => .error trivial
  · refine .ok ⟨hc.setEntry fun _ hv => hc.cached i ⟨h0, hv⟩, rfl, fun ht => ⟨h0, ?_⟩⟩
    simpa [held, Fs.setEntry] using ht.2
  · have hfresh : (false : Bool) ≠ true := by decide
    refine .ok ⟨hc.setEntry fun _ hv => absurd hv hfresh, rfl, fun ht => ?_⟩
    simp [held, Fs.setEntry] at ht

/-- An inode's table entry that changes neither type nor addresses leaves every block where it is. -/
theorem own_iupdate (ht : ip.type = (s.dinodes i).type) (ha : ip.addrs = (s.dinodes i).addrs) (q : Nat × Slot) :
    (s.iupdate i ip).own q = s.own q := by
  obtain ⟨j, sl⟩ := q
  by_cases hj : j = i
  · subst hj
    rw [own_self, own, ht]
    split
    · rfl
    · cases sl <;> simp only [blockAt, ha]
  · exact own_of_ne hj

/-- A new inode owns nothing. -/
theorem own_fresh {type : Ty} (nl : Int) (hfree : (s.dinodes i).type = .free) (htype : type ≠ .free) (q : Nat × Slot) :
    (s.iupdate i ⟨type, nl, 0, fun _ => 0⟩).own q = s.own q := by
  obtain ⟨j, sl⟩ := q
  by_cases hj : j = i
  · subst hj
    rw [own_ip htype, own, if_pos hfree]
    cases sl with
    | pointer => rfl
    | data k => simp [blockAt, addr?]
  · exact own_of_ne hj

/-- A new inode is empty. -/
theorem Consistent.fresh {type : Ty} {nl : Int} (hc : Consistent sb s) (hfree : (s.dinodes i).type = .free)
    (htype : type ≠ .free) : Consistent sb (s.iupdate i ⟨type, nl, 0, fun _ => 0⟩) ∧
      (s.iupdate i ⟨type, nl, 0, fun _ => 0⟩).arrays = update s.arrays i (some []) := by
  have hown := own_fresh nl hfree htype
  have hheld : ¬ s.held i := fun hh => (hc.cached i hh).2 hfree
  have hne : ∀ j, j ≠ i → (s.iupdate i ⟨type, nl, 0, fun _ => 0⟩).dinodes j = s.dinodes j := fun j hj =>
    Function.update_of_ne hj ..
  refine ⟨⟨⟨hc.owned.owns.congr (fun _ => rfl) hown, hc.owned.marked⟩, ?_, ?_⟩, ?_⟩
  · intro j k hj hk
    by_cases hji : j = i
    · subst hji
      rw [iupdate_dinodes] at hk
      exact absurd hk (Nat.not_lt_zero _)
    · rw [hown]
      rw [hne j hji] at hj hk
      exact hc.sized j k hj hk
  · intro j hj
    have hji : j ≠ i := fun h => hheld (h ▸ hj)
    rw [hne j hji]
    exact hc.cached j hj
  · funext j
    by_cases hji : j = i
    · subst hji
      rw [Function.update_self, arrays, iupdate_dinodes, if_neg htype, content, iupdate_dinodes]
      rfl
    · rw [Function.update_of_ne hji]
      simp only [arrays, hne j hji]
      split
      · rfl
      · refine congrArg some (content_congr (by rw [hne j hji]) fun p _ => ?_)
        rw [Fs.byteAt, Fs.byteAt, hown]
        rfl

theorem ialloc_spec {type : Ty} (hc : Consistent sb s) (htype : type ≠ .free) :
    Sat (ialloc sb s type) Exhausted fun r =>
    Consistent sb r.2 ∧ s.arrays r.1 = none ∧ r.2.arrays = update s.arrays r.1 (some []) := by
  unfold ialloc
  split
  · next i hi =>
    have hfree : (s.dinodes i).type =
      .free := by simpa using (List.find?_some hi : _ = true) |> fun h => (by simpa using h : 1 ≤ i ∧ _).2
    obtain ⟨hc', harr'⟩ := hc.fresh hfree htype
    refine Sat.bind (iget_spec hc' i) fun t _ ⟨hct, harr, _⟩ => .ok ⟨hct, by simp [arrays, hfree], ?_⟩
    rw [harr, harr']
  · exact .error trivial

theorem ilock_spec (hc : Consistent sb s) (hok : (Op.ilock i).Ok sb s) :
    Sat (ilock s i) Exhausted fun t => Consistent sb t ∧ t.arrays = s.arrays := by
  unfold ilock
  refine Sat.ite (fun _ => .ok ⟨hc, rfl⟩) fun hv => Sat.ite (fun ht => ?_) fun ht => ?_
  · exact absurd ht (hok.2 (by simpa using hv))
  · exact .ok ⟨hc.setEntry fun _ _ => ⟨rfl, ht⟩, rfl⟩

/-- Links come and go without touching content. -/
theorem setNlink_spec {n : Int} (hc : Consistent sb s) (hh : s.held i) :
    Consistent sb ((s.store i { (s.icache i).ip with nlink := n }).iupdate i { (s.icache i).ip with nlink := n }) ∧
      arrays ((s.store i { (s.icache i).ip with nlink := n }).iupdate i
      { (s.icache i).ip with nlink := n }) = s.arrays := by
  obtain ⟨hip, ht⟩ := hc.cached i hh
  rw [hip]
  let d : Inode := { s.dinodes i with nlink := n }
  have hown : ∀ q, (s.iupdate i d).own q = s.own q := own_iupdate rfl rfl
  have hd : ∀ j, (update s.dinodes i d j).type = (s.dinodes j).type ∧
    (update s.dinodes i d j).size = (s.dinodes j).size := by
    intro j
    by_cases hj : j = i
    · subst hj
      rw [Function.update_self]
      exact ⟨rfl, rfl⟩
    · rw [Function.update_of_ne hj]
      exact ⟨rfl, rfl⟩
  refine ⟨⟨⟨hc.owned.owns.congr (fun _ => rfl) hown, hc.owned.marked⟩, ?_, ?_⟩, ?_⟩
  · intro j k hj hk
    refine (hown _).symm ▸ hc.sized j k ?_ ?_
    · rw [← (hd j).1]
      exact hj
    · rw [← (hd j).2]
      exact hk
  · intro j hj
    by_cases hji : j = i
    · subst hji
      simp only [iupdate, store, Fs.setEntry, Function.update_self]
      exact ⟨trivial, ht⟩
    · simp only [held, iupdate, store, Fs.setEntry, Function.update_of_ne hji] at hj ⊢
      exact hc.cached j hj
  · funext j
    have hcontent : content ((s.store i d).iupdate i d) j = s.content j := by
      refine content_congr (hd j).2 fun p _ => ?_
      rw [byteAt, byteAt]
      exact congrArg (Option.map _) (hown _)
    change (if (update s.dinodes i d j).type = .free then none else some (content ((s.store i d).iupdate i d) j)) = _
    rw [hcontent, (hd j).1]
    rfl

end Cache

/-! ## Content -/

section Ops

variable {sb : Superblock} {s t : Fs} {i off n : Nat} {src : List UInt8} {ip : Inode}

/-- Storing back what is cached changes nothing. -/
theorem store_self : s.store i (s.icache i).ip = s := by
  simp [store, Fs.setEntry]

theorem readi_spec (hc : Consistent sb s) (ht : (s.dinodes i).type ≠ .free) (hoff : off < UINT) (hn : n < UINT) :
    readi sb s (s.dinodes i) off n = .ok (read (s.content i) off n, s.dinodes i, s) := by
  have hsize := hc.size_le ht
  have hmax : MAXFILE * BSIZE < UINT := by decide
  have hover : (off + n) % UINT < off ↔ UINT ≤ off + n := by
    constructor
    · intro h
      by_contra hlt
      rw [Nat.mod_eq_of_lt (by omega)] at h
      omega
    · intro h
      rw [Nat.mod_eq_sub_mod h, Nat.mod_eq_of_lt (by omega)]
      omega
  unfold readi read
  rw [content_length]
  by_cases hrej : (s.dinodes i).size < off ∨ UINT ≤ off + n
  · rw [if_pos hrej, if_pos (hrej.imp_right hover.2)]
  · rw [if_neg hrej, if_neg fun h => hrej (h.imp_right hover.1), Nat.mod_eq_of_lt (by omega)]
    let m := if (s.dinodes i).size < off + n then (s.dinodes i).size - off else n
    have hm : off + m ≤ (s.dinodes i).size ∧ m = min n ((s.dinodes i).size - off) := by
      simp only [m]
      split <;> omega
    have hself : s.iupdate i (s.dinodes i) = s := iupdate_of_eq rfl
    have hall : ∀ k < m, ((s.iupdate i (s.dinodes i)).byteAt i (off + k)).isSome := by
      intro k hk
      rw [hself]
      exact hc.byteAt ht (by omega)
    obtain ⟨bytes, hloop, hlen, hbytes⟩ : ∃ bytes, readLoop sb m s (s.dinodes i) off m = .ok (bytes, s.dinodes i, s) ∧
        bytes.length = m ∧ ∀ k < m, bytes[k]? = (s.iupdate i (s.dinodes i)).byteAt i (off + k) :=
      readLoop_spec ht (Nat.le_refl m) hall
    change (readLoop sb m s (s.dinodes i) off m >>= fun r => .ok (some r.1, r.2.1, r.2.2)) = _
    rw [hloop, ok_bind]
    congr 3
    apply List.ext_getElem?
    intro k
    change bytes[k]? = _
    by_cases hk : k < m
    · rw [hbytes k hk, hself, List.getElem?_take_of_lt (by omega), List.getElem?_drop,
        hc.content_get ht, if_pos (by omega)]
    · rw [List.getElem?_eq_none (by omega), List.getElem?_eq_none]
      rw [List.length_take, List.length_drop, content_length]
      omega

/-- What `writei` leaves, unless it runs out of blocks. -/
theorem writei_cases (hc : Consistent sb s) (ht : (s.dinodes i).type ≠ .free) (hoff : off < UINT)
    (hn : src.length < UINT) :
    Sat (writei sb s i (s.dinodes i) off src) (· = .outOfBlocks) fun r =>
      (¬ Accepts (s.content i) off src.length ∧ r = (none, s.dinodes i, s)) ∨
      (Accepts (s.content i) off src.length ∧ r.1 = some src.length ∧
      ∃ ip s', Wrote sb s i (s.dinodes i) off src ip s' ∧
        r.2.1 = { ip with size := max (s.dinodes i).size (off + src.length) } ∧ r.2.2 = s'.iupdate i r.2.1) := by
  have hsize := hc.size_le ht
  have hmax : MAXFILE * BSIZE < UINT := by decide
  have hself : s.iupdate i (s.dinodes i) = s := iupdate_of_eq rfl
  have hrej : ((s.dinodes i).size < off ∨ (off + src.length) % UINT < off) ∨
    MAXFILE * BSIZE < (off + src.length) % UINT ↔
      ¬ Accepts (s.content i) off src.length := by
    rw [Accepts, content_length]
    by_cases hlt : off + src.length < UINT
    · rw [Nat.mod_eq_of_lt hlt]
      omega
    · rw [Nat.mod_eq_sub_mod (by omega), Nat.mod_eq_of_lt (by omega)]
      omega
  unfold writei
  refine Sat.ite (fun h => .ok (.inl ⟨hrej.1 (.inl h), rfl⟩)) fun h1 =>
    Sat.ite (fun h => .ok (.inl ⟨hrej.1 (.inr h), rfl⟩)) fun h2 => ?_
  have hacc : Accepts (s.content i) off src.length := by
    by_contra hn
    exact (hrej.2 hn).elim h1 h2
  obtain ⟨hle, hfit⟩ := hacc
  rw [content_length] at hle
  have howned : Owned sb (s.iupdate i (s.dinodes i)) := hself.symm ▸ hc.owned
  refine Sat.bind (writeLoop_spec ht howned (Nat.le_refl _) hfit) ?_
  rintro ⟨off', ip, s'⟩ - ⟨hoff', (hw : Wrote sb s i (s.dinodes i) off src ip s')⟩
  change off' = _ at hoff'
  have hfields : ip.size = (s.dinodes i).size := by rw [hw.fields]
  suffices hg : (s'.grow i ip src.length off').1 = { ip with size := max (s.dinodes i).size (off + src.length) } ∧
      (s'.grow i ip src.length off').2 = s'.iupdate i (s'.grow i ip src.length off').1 from
    .ok (.inr ⟨⟨by rwa [content_length], hfit⟩, rfl, ip, s', hw, hg⟩)
  by_cases hgrow : 0 < src.length ∧ ip.size < off'
  · have hnew : max (s.dinodes i).size (off + src.length) = off' := by omega
    have hg : grow s' i ip src.length off' =
      ({ ip with size := off' }, s'.iupdate i { ip with size := off' }) := if_pos hgrow
    rw [hg, hnew]
    exact ⟨rfl, rfl⟩
  · -- nothing was allocated, so the inode is on disk as it is
    have hsame : ip = s.dinodes i := by
      refine hw.same fun k hk => ?_
      rw [hself]
      exact hc.byteAt ht (by omega)
    have hnew : max (s.dinodes i).size (off + src.length) = ip.size := by omega
    have hg : grow s' i ip src.length off' = (ip, s') := if_neg hgrow
    rw [hg, hnew]
    refine ⟨rfl, (iupdate_of_eq ?_).symm⟩
    rw [hw.dinodes, hsame]

/-- An accepted write: every byte below the new size is there, the written ones are those of `src`. -/
theorem Wrote.arrays {s' : Fs} {ip' : Inode} (hw : Wrote sb s i (s.dinodes i) off src ip s') (hc : Consistent sb s)
    (ht : (s.dinodes i).type ≠ .free) (hle : off ≤ (s.dinodes i).size)
    (hip' : ip' = { ip with size := max (s.dinodes i).size (off + src.length) }) :
    Consistent sb ((s'.iupdate i ip').store i ip') ∧
      Fs.arrays ((s'.iupdate i ip').store i ip') = update s.arrays i (some (splice (s.content i) off src)) := by
  have hself : s.iupdate i (s.dinodes i) = s := iupdate_of_eq rfl
  have houtside := hw.outside
  rw [hself] at houtside
  have htype : ip'.type = (s.dinodes i).type := by rw [hip', hw.fields]
  have hsize : ip'.size = max (s.dinodes i).size (off + src.length) := by rw [hip']
  let t := (s'.iupdate i ip').store i ip'
  have hown : ∀ q, t.own q = (s'.iupdate i ip).own q := by
    rintro ⟨j, sl⟩
    by_cases hj : j = i
    · subst hj
      refine Eq.trans own_self ?_
      rw [own_self, hip']
      cases sl <;> rfl
    · exact (own_of_ne hj).trans (own_of_ne hj).symm
  have hbyte : ∀ j p, t.byteAt j p = (s'.iupdate i ip).byteAt j p := fun j p => congrArg (Option.map _) (hown _)
  have hdj : ∀ j, j ≠ i → t.dinodes j = s.dinodes j := by
    intro j hj
    refine (Function.update_of_ne hj ..).trans ?_
    rw [hw.dinodes]
  have hdi : t.dinodes i = ip' := Function.update_self ..
  -- below the new size every byte is an old one or one of `src`
  have hread : ∀ p < ip'.size, t.byteAt i p = (splice (s.content i) off src)[p]? ∧ (t.byteAt i p).isSome := by
    intro p hp
    rw [hsize] at hp
    rw [hbyte, splice_get (by rwa [content_length])]
    by_cases hin : off ≤ p ∧ p < off + src.length
    · have := hw.inside (p - off) (by omega)
      rw [Nat.add_sub_cancel' hin.1] at this
      rw [if_pos hin, this]
      exact ⟨rfl, by rw [List.getElem?_eq_getElem (by omega)]; rfl⟩
    · have hlt : p < (s.dinodes i).size := by omega
      obtain ⟨x, hx⟩ := Option.isSome_iff_exists.1 (hc.byteAt ht hlt)
      rw [houtside i p x hx (by omega), if_neg hin, hc.content_get ht, if_pos hlt, hx]
      exact ⟨rfl, rfl⟩
  have hother : ∀ j, j ≠ i → ∀ p x, s.byteAt j p = some x → t.byteAt j p = some x := by
    intro j hj p x hx
    rw [hbyte]
    exact houtside j p x hx (.inl hj)
  refine ⟨⟨⟨hw.owned.owns.congr (fun _ => rfl) hown, hw.owned.marked⟩, ?_, ?_⟩, ?_⟩
  · intro j k hj hk
    apply own_of_byteAt
    by_cases hji : j = i
    · subst hji
      rw [hdi] at hk
      exact (hread _ hk).2
    · rw [hdj j hji] at hj hk
      obtain ⟨x, hx⟩ := Option.isSome_iff_exists.1 (hc.byteAt hj hk)
      rw [hother j hji _ x hx]
      rfl
  · intro j hj
    by_cases hji : j = i
    · subst hji
      rw [hdi, htype]
      exact ⟨by simp [store, Fs.setEntry], ht⟩
    · rw [hdj j hji]
      have hcache : ((s'.iupdate i ip').store i ip').icache j = s.icache j := by
        refine (Function.update_of_ne hji ..).trans ?_
        rw [← hw.icache]
        rfl
      rw [held, hcache] at hj
      rw [hcache]
      exact hc.cached j hj
  · funext j
    by_cases hji : j = i
    · subst hji
      rw [Function.update_self, Fs.arrays, hdi, htype, if_neg ht]
      refine congrArg some (List.ext_getElem? fun p => ?_)
      rw [content, hdi]
      by_cases hp : p < ip'.size
      · obtain ⟨heq, hsome⟩ := hread p hp
        obtain ⟨x, hx⟩ := Option.isSome_iff_exists.1 hsome
        have hx' : byteAt ((s'.iupdate j ip').store j ip') j p = some x := hx
        rw [← heq, hx]
        simp [hp, hx']
      · rw [hsize] at hp
        rw [splice_get (by rwa [content_length]), if_neg (by omega), hc.content_get ht, if_neg (by omega)]
        simp [hsize]
        omega
    · rw [Function.update_of_ne hji, Fs.arrays, Fs.arrays, hdj j hji]
      by_cases hfree : (s.dinodes j).type = .free
      · simp [hfree]
      · rw [if_neg hfree, if_neg hfree]
        refine congrArg some (content_congr (by rw [hdj j hji]) fun p hp => ?_)
        obtain ⟨x, hx⟩ := Option.isSome_iff_exists.1 (hc.byteAt hfree hp)
        rw [hx]
        exact hother j hji p x hx

/-- A reference given up; the last one to an unlinked inode frees it. -/
theorem iput_spec (hc : Consistent sb s) (href : 0 < (s.icache i).ref) : Sat (iput s i) Exhausted fun r =>
    Consistent sb r.2 ∧ (r.2.arrays = if r.1 then update s.arrays i none else s.arrays) ∧
    (r.1 = true → s.arrays i ≠ none) := by
  unfold iput
  refine Sat.ite (fun hcond => ?_) fun hcond => ?_
  · obtain ⟨hip, ht⟩ := hc.cached i ⟨href, hcond.1⟩
    have hself : s.iupdate i (s.dinodes i) = s := iupdate_of_eq rfl
    obtain ⟨ip', t, hrun, -, htrunc, hfree⟩ := itrunc_spec (hself.symm ▸ hc.owned) ht
    obtain ⟨howned, hown⟩ := hfree .free
    rw [hip, hrun, ok_bind]
    let d : Inode := { ip' with type := .free }
    let u := (t.iupdate i d).setEntry i { ref := (s.icache i).ref - 1, valid := false, ip := d }
    have hdi : u.dinodes i = d := Function.update_self ..
    have hdj : ∀ j, j ≠ i → u.dinodes j = s.dinodes j := by
      intro j hj
      refine (Function.update_of_ne hj ..).trans ?_
      rw [htrunc]
      exact Function.update_of_ne hj ..
    have hblocks : u.blocks = s.blocks := by
      change t.blocks = _
      rw [htrunc]
    have hcache : ∀ j, j ≠ i → u.icache j = s.icache j := by
      intro j hj
      refine (Function.update_of_ne hj ..).trans ?_
      change t.icache j = _
      rw [htrunc]
    have hownj : ∀ j sl, j ≠ i → u.own (j, sl) = s.own (j, sl) := by
      intro j sl hj
      refine (hown (j, sl)).trans ?_
      rw [if_neg hj]
    have hcu : Consistent sb u := by
      refine ⟨⟨howned.owns, howned.marked⟩, ?_, ?_⟩
      · intro j k hj hk
        by_cases hji : j = i
        · subst hji
          rw [hdi] at hj
          exact absurd rfl hj
        · rw [hdj j hji] at hj hk
          rw [hownj j _ hji]
          exact hc.sized j k hj hk
      · intro j hj
        by_cases hji : j = i
        · subst hji
          simp [u, held, Fs.setEntry] at hj
        · rw [hdj j hji, hcache j hji]
          rw [held, hcache j hji] at hj
          exact hc.cached j hj
    refine .ok ⟨hcu, ?_, fun _ => by simp [arrays, ht]⟩
    rw [if_pos rfl]
    funext j
    by_cases hji : j = i
    · subst hji
      rw [Function.update_self]
      exact if_pos (by rw [hdi])
    · rw [Function.update_of_ne hji]
      change (if (u.dinodes j).type = .free then none else some (u.content j)) = _
      rw [hdj j hji, arrays]
      split
      · rfl
      · refine congrArg some (content_congr (by rw [hdj j hji]) fun p _ => ?_)
        rw [byteAt, byteAt, hownj j _ hji, hblocks]
  · exact .ok ⟨hc.setEntry fun _ hv => hc.cached i ⟨href, hv⟩, rfl, fun h => by cases h⟩

/-- **One operation**: it does to the arrays what it says, keeps the file system consistent, and a rejected
write leaves no trace. -/
theorem exec_spec {o : Op} (hc : Consistent sb s) (hok : o.Ok sb s) : Sat (exec sb s o) Exhausted fun r =>
    Consistent sb r.2 ∧ Arrays.next s.arrays (o, r.1) = some r.2.arrays ∧ (r.1 = .count none → r.2 = s) := by
  cases o with
  | ialloc type =>
    refine Sat.bind (ialloc_spec hc hok) fun ⟨i, t⟩ _ ⟨h1, h2, h3⟩ => .ok ⟨h1, ?_, by simp⟩
    simp only at h2 h3
    simp [Arrays.next, h2, h3]
  | iget i =>
    refine Sat.bind (iget_spec hc i) fun t _ ⟨h1, h2, _⟩ => .ok ⟨h1, ?_, by simp⟩
    simp [Arrays.next, h2]
  | ilock i =>
    refine Sat.bind (ilock_spec hc hok) fun t _ ⟨h1, h2⟩ => .ok ⟨h1, ?_, by simp⟩
    simp [Arrays.next, h2]
  | setNlink i n =>
    obtain ⟨h1, h2⟩ := setNlink_spec (n := n) hc hok
    exact .ok ⟨h1, congrArg some h2.symm, by simp⟩
  | readi i off n =>
    obtain ⟨hheld, -, hoff, hn⟩ := hok
    obtain ⟨hip, ht⟩ := hc.cached i hheld
    have hrun := readi_spec hc ht hoff hn
    have hstore : s.store i (s.dinodes i) = s := hip ▸ store_self
    simp only [exec, hip, hrun, ok_bind, hstore]
    exact .ok ⟨hc, by simp [Arrays.next, arrays, ht], by simp⟩
  | writei i off src =>
    obtain ⟨hheld, -, hoff, hn⟩ := hok
    obtain ⟨hip, ht⟩ := hc.cached i hheld
    have hstore : s.store i (s.dinodes i) = s := hip ▸ store_self
    have hspec : Sat (writei sb s i (s.dinodes i) off src) Exhausted _ :=
      (writei_cases hc ht hoff hn).mono (fun e he => he ▸ trivial) fun _ h => h
    simp only [exec, hip]
    refine Sat.bind hspec fun ⟨r, ip', t⟩ _ hcases => ?_
    rcases hcases with ⟨hrej, hr⟩ | ⟨hacc, hr, ip, s', hw, hip', ht'⟩
    · cases hr
      refine .ok ⟨hstore.symm ▸ hc, ?_, fun _ => hstore⟩
      simp [Arrays.next, arrays, ht, hrej, hstore]
    · simp only at hr hip' ht'
      have hle := hacc.1
      rw [content_length] at hle
      obtain ⟨h1, h2⟩ := hw.arrays hc ht hle hip'
      rw [ht', hr]
      refine .ok ⟨h1, ?_, by simp⟩
      rw [h2]
      simp [Arrays.next, arrays, ht, hacc]
  | iput i =>
    refine Sat.bind (iput_spec hc hok) fun ⟨b, t⟩ _ ⟨h1, h2, h3⟩ => .ok ⟨h1, ?_, by simp⟩
    simp only at h2 h3
    cases b with
    | true => simp [Arrays.next, h2, h3]
    | false => simp [Arrays.next, h2]

end Ops

/-- **Inodes are independent byte arrays.** From any consistent file system, in every run: the file system is
consistent, with each block owned once and marked exactly when owned; the run is one of the arrays, with the
same results; and the next operation either stops because blocks, inodes or cache slots have run out, or does
what the arrays do, and nothing at all where a write is rejected. -/
theorem inodes_are_arrays {sb : Superblock} {s t : Fs} {ls : List (Op × Res)} (hc : Consistent sb s)
    (h : Run (Step sb) s ls t) :
    Consistent sb t ∧ Run (fun A l B => Arrays.next A l = some B) s.arrays ls t.arrays ∧
      ∀ o : Op, o.Ok sb t → Sat (exec sb t o) Exhausted fun r =>
        Arrays.next t.arrays (o, r.1) = some r.2.arrays ∧ (r.1 = .count none → r.2 = t) := by
  have hrun : Consistent sb t ∧ Run (fun A l B => Arrays.next A l = some B) s.arrays ls t.arrays := by
    induction h with
    | nil s => exact ⟨hc, .nil _⟩
    | cons hs _ ih =>
      obtain ⟨h1, h2, -⟩ := (exec_spec hc hs.1).of_ok hs.2
      obtain ⟨h3, h4⟩ := ih h1
      exact ⟨h3, .cons h2 h4⟩
  exact ⟨hrun.1, hrun.2, fun o ho => (exec_spec hrun.1 ho).mono (fun _ he => he) fun _ hr => hr.2⟩

/-- The step as a function. -/
def next (sb : Superblock) (s : Fs) (l : Op × Res) : Option Fs :=
  if l.1.Ok sb s then
    match exec sb s l.1 with
    | .ok (r, t) => if r = l.2 then some t else none
    | .error _ => none
  else none

theorem step_of_next {sb : Superblock} {s t : Fs} {l : Op × Res} (h : next sb s l = some t) : Step sb s l t := by
  unfold next at h
  split at h
  · next hok =>
    split at h
    · next r u hr =>
      split at h
      · next hl => exact ⟨hok, by rw [hr, hl, Option.some.inj h]⟩
      · cases h
    · cases h
  · cases h

/-- A disk of 100 blocks with no inode in use. -/
def blankDisk : Superblock := { size := 100, ninodes := 8, bmapstart := 4, size_lt := by decide }

def blank : Fs where
  bitmap b := b < blankDisk.data
  blocks _ := zero
  dinodes _ := { type := .free, nlink := 0, size := 0, addrs := fun _ => 0 }
  icache _ := { ref := 0, valid := false, ip := { type := .free, nlink := 0, size := 0, addrs := fun _ => 0 } }

theorem blank_consistent : Consistent blankDisk blank := by
  have hown : ∀ q, blank.own q = none := fun q => if_pos rfl
  refine ⟨⟨⟨?_, ?_, ?_⟩, ?_⟩, ?_, ?_⟩
  · intro k l b hk
    rw [hown] at hk
    cases hk
  · intro k b hk
    rw [hown] at hk
    cases hk
  · intro b hb
    simp only [hown, reduceCtorEq, exists_false, iff_false]
    simpa [blank] using hb.1
  · intro b hb
    simpa [blank] using hb
  · intro i k ht
    exact absurd rfl ht
  · intro i hi
    exact absurd hi.1 (Nat.lt_irrefl 0)

/-- A file is made, written across a block boundary, read back there, and freed when it is put. -/
theorem inodes_are_arrays_blank : ∃ t, Consistent blankDisk t ∧ Run (fun A l B => Arrays.next A l = some B) blank.arrays
    [(.ialloc .file, .inum 1), (.ilock 1, .done), (.writei 1 0 (List.replicate 515 7), .count (some 515)),
      (.writei 1 600 [1], .count none), (.readi 1 510 9, .bytes (some [7, 7, 7, 7, 7])),
      (.iput 1, .freed true)] t.arrays := by
  have hrun : ([(.ialloc .file, .inum 1), (.ilock 1, .done), (.writei 1 0 (List.replicate 515 7), .count (some 515)),
      (.writei 1 600 [1], .count none), (.readi 1 510 9, .bytes (some [7, 7, 7, 7, 7])), (.iput 1, .freed true)] :
      List (Op × Res)).foldlM (next blankDisk) blank |>.isSome := by
    decide +kernel
  obtain ⟨t, ht⟩ := Option.isSome_iff_exists.1 hrun
  have hsteps : Run (Step blankDisk) blank _ t := (Run.of_foldlM ht).mono fun _ _ _ h => step_of_next h
  obtain ⟨h1, h2, -⟩ := inodes_are_arrays blank_consistent hsteps
  exact ⟨t, h1, h2⟩

end Fs
