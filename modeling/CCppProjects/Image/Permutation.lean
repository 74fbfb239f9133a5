import Mathlib.Data.List.Basic
import Mathlib.Logic.Function.Basic
import Mathlib.Tactic.Ring
/-
# The image module (`c++/image permutation/main.cpp`)

| here | there |
|---|---|
| `Pixel`, `Frame` | `Uchar3Pixel`, `Frame` (main.cpp:8-19) |
| `Ptr` | `Uchar3Pixel *`: a place in an array of pixels; frames may share an array and overlap |
| `Module` | `ProcessingModule`: its frames `in` and `out` (:119-120) |
| `Mem` | the pixels of every array; `none` as a result is an access outside its array |
| `assignInputFrame` … `run` | main.cpp:54-114 |
| `Call`, `call` | a call of the interface with the memory as the caller left it |

`checkOutputFrame` compares the frames when the output is assigned and never again, `checkFrameValidity` does not
compare `m_width` with `m_pitch`, nothing looks whether the frames overlap, and the loops count in `int` and index in
`uint32_t`: what `run` does is right under the condition `Fits` (`calls_correct_iff`).
-/
namespace Image

structure Pixel where
  x : UInt8
  y : UInt8
  z : UInt8
  deriving DecidableEq, Repr

/-- `p + j` is `p.add j`. -/
structure Ptr where
  buffer : Nat
  offset : Nat
  deriving DecidableEq, Repr

def Ptr.add (p : Ptr) (j : Nat) : Ptr := { p with offset := p.offset + j }

structure Frame where
  m_height : UInt32
  m_width : UInt32
  m_pitch : UInt32
  m_data : Option Ptr
  deriving DecidableEq, Repr

/-- `Frame in = {}`. -/
def Frame.zero : Frame := ⟨0, 0, 0, none⟩

abbrev Str := List Char

abbrev ParametersContainer := Str → Option Str

abbrev Mem := Nat → List Pixel

def Mem.get (mem : Mem) (p : Ptr) : Option Pixel := (mem p.buffer)[p.offset]?

def Mem.set (mem : Mem) (p : Ptr) (px : Pixel) : Option Mem :=
  if p.offset < (mem p.buffer).length then
    some (Function.update mem p.buffer ((mem p.buffer).set p.offset px))
  else none

structure Module where
  input : Frame
  output : Frame
  deriving DecidableEq, Repr

def getInstance : Module := ⟨.zero, .zero⟩

/-- main.cpp:129. -/
def checkFrameValidity (f : Frame) : Bool :=
  !(f.m_pitch == 0 || f.m_width == 0 || f.m_height == 0 || f.m_data.isNone)

/-- main.cpp:124. -/
def Module.checkOutputFrame (m : Module) (f : Frame) : Bool :=
  m.input.m_height == f.m_height && m.input.m_width == f.m_width && m.input.m_pitch == f.m_pitch

def Module.assignInputFrame (m : Module) (f : Frame) : Module × Bool :=
  if checkFrameValidity f then ({ m with input := f }, true) else (m, false)

def Module.assignOutputFrame (m : Module) (f : Frame) : Module × Bool :=
  if checkFrameValidity f && m.checkOutputFrame f then ({ m with output := f }, true) else (m, false)

/-- `uchar3PixelCharIndex2Value`, its `int` as stored in an `unsigned char`: -1 is 255. -/
def charIndex2Value (index : Char) (px : Pixel) : UInt8 :=
  if index = 'x' then px.x else if index = 'y' then px.y else if index = 'z' then px.z else 255

/-- The pixel `applyPermutationOnPixel` writes. -/
def permute (permutation : Str) (px : Pixel) : Pixel where
  x := charIndex2Value (permutation.getD 0 '\x00') px
  y := charIndex2Value (permutation.getD 1 '\x00') px
  z := charIndex2Value (permutation.getD 2 '\x00') px

/-- One turn of the inner loop: `b[j]` gets the permuted `a[j]`, which is passed by value. -/
def copyPixel (permutation : Str) (a b : Ptr) (mem : Mem) (j : Nat) : Option Mem := do
  let px ← mem.get (a.add j)
  mem.set (b.add j) (permute permutation px)

/-- `static_cast<int>` of a loop bound: how often the loop runs. -/
def bound (n : UInt32) : Nat := if n.toNat < 2 ^ 31 then n.toNat else 0

/-- The indices `x + y * m_pitch` of the two loops in their order, in `uint32_t`. -/
def indices (f : Frame) : List Nat :=
  (List.range (bound f.m_height)).flatMap fun y =>
    (List.range (bound f.m_width)).map fun x => (UInt32.ofNat x + UInt32.ofNat y * f.m_pitch).toNat

def OutPixelPattern : Str := [ 'O', 'u', 't', 'P', 'i', 'x', 'e', 'l', 'P', 'a', 't', 't', 'e', 'r', 'n']

def PERMUTE_OPTION : Str := [ 'x', 'y', 'z']

/-- The checks of `run` (main.cpp:79-98): the permutation, or the call is refused. -/
def Module.check (m : Module) (params : ParametersContainer) : Option Str :=
  if !(checkFrameValidity m.input && checkFrameValidity m.output) then none
  else
    match params OutPixelPattern with
    | none => none
    | some permutation =>
      if permutation.length ≠ 3 then none
      else if permutation.all fun c => PERMUTE_OPTION.contains c then some permutation else none

/-- The loops (main.cpp:101-112). -/
def Module.copy (m : Module) (permutation : Str) (mem : Mem) : Option Mem :=
  match m.input.m_data, m.output.m_data with
  | some a, some b => (indices m.input).foldlM (copyPixel permutation a b) mem
  | _, _ => none

/-- The memory after `run`, and what it returns. -/
def Module.run (m : Module) (params : ParametersContainer) (mem : Mem) : Option (Mem × Bool) :=
  match m.check params with
  | none => some (mem, false)
  | some permutation => (m.copy permutation mem).map fun mem => (mem, true)

inductive Call
  | assignInputFrame (f : Frame)
  | assignOutputFrame (f : Frame)
  | run (params : ParametersContainer)

/-- The module after a call; `run` leaves it as it is. -/
def Module.next (m : Module) : Call → Module
  | .assignInputFrame f => (m.assignInputFrame f).1
  | .assignOutputFrame f => (m.assignOutputFrame f).1
  | .run _ => m

/-- What a call does to the memory, and what it returns. -/
def Module.call (m : Module) (mem : Mem) : Call → Option (Mem × Bool)
  | .assignInputFrame f => some (mem, (m.assignInputFrame f).2)
  | .assignOutputFrame f => some (mem, (m.assignOutputFrame f).2)
  | .run params => m.run params mem

/-- The calls of a sequence, each with the module it finds. -/
def Module.trace (m : Module) : List Call → List (Module × Call)
  | [] => []
  | c :: cs => (m, c) :: (m.next c).trace cs

/-! ## What the calls should do -/

/-- The exact index of a pixel. -/
def Frame.index (f : Frame) (x y : Nat) : Nat := x + y * f.m_pitch.toNat

/-- `m_data` holds `m_height * m_pitch` pixels. -/
def Frame.Holds (f : Frame) (mem : Mem) : Prop :=
  ∀ p, f.m_data = some p → p.offset + f.m_height.toNat * f.m_pitch.toNat ≤ (mem p.buffer).length

/-- The output is the permuted picture: its shape, every pixel of the picture, and nothing else changed. -/
structure Permuted (m : Module) (permutation : Str) (mem mem' : Mem) : Prop where
  height : m.output.m_height = m.input.m_height
  width : m.output.m_width = m.input.m_width
  pitch : m.output.m_pitch = m.input.m_pitch
  pixel : ∀ a b, m.input.m_data = some a → m.output.m_data = some b → ∀ x y, x < m.input.m_width.toNat →
    y < m.input.m_height.toNat → ∃ px, mem.get (a.add (m.input.index x y)) = some px ∧
      mem'.get (b.add (m.input.index x y)) = some (permute permutation px)
  rest : ∀ a b, m.input.m_data = some a → m.output.m_data = some b → a ≠ b → ∀ p,
    (∀ x y, x < m.input.m_width.toNat → y < m.input.m_height.toNat → p ≠ b.add (m.input.index x y)) →
    mem'.get p = mem.get p

/-- A call that returns true on a memory has done its work, one that returns false has changed no pixel. -/
def CorrectOn (m : Module) (c : Call) (mem : Mem) : Prop :=
  ∃ mem' r, m.call mem c = some (mem', r) ∧ (r = false → mem' = mem) ∧
    ∀ params permutation, c = .run params → r = true → m.check params = some permutation →
    Permuted m permutation mem mem'

/-- Whatever the frames hold. -/
def Correct (m : Module) (c : Call) : Prop :=
  ∀ mem, m.input.Holds mem → m.output.Holds mem → CorrectOn m c mem

/-- The pixels of the picture lie in the first 2^32 of a buffer that has them, and the loops reach them. -/
structure Frame.Small (f : Frame) : Prop where
  height : f.m_height.toNat < 2 ^ 31
  width : f.m_width.toNat < 2 ^ 31
  index : f.index (f.m_width.toNat - 1) (f.m_height.toNat - 1) < 2 ^ 32

/-- Where the frames overlap, no pixel of the picture is written before it is read. -/
def Module.ReadFirst (m : Module) : Prop :=
  ∀ a b, m.input.m_data = some a → m.output.m_data = some b → ∀ x y x' y', x < m.input.m_width.toNat →
    y < m.input.m_height.toNat → x' < m.input.m_width.toNat → y' < m.input.m_height.toNat →
    m.input.index x y < m.input.index x' y' → b.add (m.input.index x y) ≠ a.add (m.input.index x' y')

/-- A call of `run` that passes its checks finds frames of one shape, no wider than their pitch, small, and read
before they are written; in place and with the pattern xyz there is nothing to write. -/
structure Fits (m : Module) (permutation : Str) : Prop where
  height : m.output.m_height = m.input.m_height
  width : m.output.m_width = m.input.m_width
  pitch : m.output.m_pitch = m.input.m_pitch
  narrow : m.input.m_width.toNat ≤ m.input.m_pitch.toNat
  small : (m.input.Small ∧ m.ReadFirst) ∨ (m.input.m_data = m.output.m_data ∧ permutation = PERMUTE_OPTION)

/-! ## Memory -/

namespace Ptr

variable {p : Ptr} {i j : Nat}

@[simp] theorem add_buffer : (p.add j).buffer = p.buffer := rfl

@[simp] theorem add_offset : (p.add j).offset = p.offset + j := rfl

theorem add_inj : p.add i = p.add j ↔ i = j := by simp [add]

theorem add_right_inj {q : Ptr} : p.add j = q.add j ↔ p = q := by
  cases p
  cases q
  simp [add]

end Ptr

namespace Mem

variable {mem mem' : Mem} {p q : Ptr} {px : Pixel}

theorem get_of_lt (h : p.offset < (mem p.buffer).length) : ∃ px, mem.get p = some px :=
  ⟨_, List.getElem?_eq_getElem h⟩

theorem lt_of_get (h : mem.get p = some px) : p.offset < (mem p.buffer).length := (List.getElem?_eq_some_iff.1 h).1

theorem set_some : mem.set p px = some mem' ↔ p.offset < (mem p.buffer).length ∧
    mem' = Function.update mem p.buffer ((mem p.buffer).set p.offset px) := by
  unfold Mem.set
  split <;> simp_all [eq_comm]

theorem get_set_self (h : mem.set p px = some mem') : mem'.get p = some px := by
  obtain ⟨hlt, rfl⟩ := set_some.1 h
  simp [Mem.get, hlt]

theorem get_set_ne (h : mem.set p px = some mem') (hq : q ≠ p) : mem'.get q = mem.get q := by
  obtain ⟨-, rfl⟩ := set_some.1 h
  unfold Mem.get
  by_cases hb : q.buffer = p.buffer
  · have ho : p.offset ≠ q.offset := fun ho => hq (by cases p; cases q; simp_all)
    rw [hb, Function.update_self, List.getElem?_set_ne ho]
  · rw [Function.update_of_ne hb]

/-- A pixel put where it is. -/
theorem set_same (h : mem.get p = some px) : mem.set p px = some mem := by
  obtain ⟨hlt, hpx⟩ := List.getElem?_eq_some_iff.1 h
  refine set_some.2 ⟨hlt, ?_⟩
  rw [← hpx, List.set_getElem_self, Function.update_eq_self]

theorem set_length (h : mem.set p px = some mem') (c : Nat) : (mem' c).length = (mem c).length := by
  obtain ⟨-, rfl⟩ := set_some.1 h
  by_cases hc : c = p.buffer
  · rw [hc, Function.update_self, List.length_set]
  · rw [Function.update_of_ne hc]

/-- Arrays of `n` pixels with a colour for each place. -/
def painted (n : Nat) (colour : Ptr → Pixel) : Mem := fun c => (List.range n).map fun i => colour ⟨c, i⟩

@[simp] theorem painted_length (n : Nat) (colour : Ptr → Pixel) (c : Nat) : (painted n colour c).length = n := by
  simp [painted]

theorem get_painted {n : Nat} {colour : Ptr → Pixel} (h : p.offset < n) :
    (painted n colour).get p = some (colour p) := by
  simp [Mem.get, painted, h]

theorem get_painted_some {n : Nat} {colour : Ptr → Pixel} (h : (painted n colour).get p = some px) : px = colour p := by
  have hlt := lt_of_get h
  rw [painted_length] at hlt
  rw [get_painted hlt] at h
  exact (Option.some.inj h).symm

end Mem

/-! ## The loops -/

section Loop

variable {permutation : Str} {a b : Ptr}

/-- A turn that stays inside its arrays. -/
theorem copyPixel_some {mem mem' : Mem} {j : Nat} : copyPixel permutation a b mem j = some mem' ↔
    ∃ px, mem.get (a.add j) = some px ∧ mem.set (b.add j) (permute permutation px) = some mem' := by
  simp [copyPixel, Option.bind_eq_some_iff]

/-- Places the loops do not write keep their pixels. -/
theorem loop_other : ∀ {js : List Nat} {mem mem' : Mem}, js.foldlM (copyPixel permutation a b) mem = some mem' →
    ∀ {p : Ptr}, (∀ j ∈ js, p ≠ b.add j) → mem'.get p = mem.get p
  | [], mem, mem', h, p, _ => by
    obtain rfl : mem = mem' := by simpa using h
    rfl
  | j :: js, mem, mem', h, p, hp => by
    rw [List.foldlM_cons, Option.bind_eq_bind, Option.bind_eq_some_iff] at h
    obtain ⟨mem1, h1, h2⟩ := h
    obtain ⟨px, -, hset⟩ := copyPixel_some.1 h1
    rw [loop_other h2 fun i hi => hp i (List.mem_cons_of_mem _ hi), Mem.get_set_ne hset (hp j List.mem_cons_self)]

theorem loop_length : ∀ {js : List Nat} {mem mem' : Mem}, js.foldlM (copyPixel permutation a b) mem = some mem' →
    ∀ c : Nat, (mem' c).length = (mem c).length
  | [], mem, mem', h, c => by
    obtain rfl : mem = mem' := by simpa using h
    rfl
  | j :: js, mem, mem', h, c => by
    rw [List.foldlM_cons, Option.bind_eq_bind, Option.bind_eq_some_iff] at h
    obtain ⟨mem1, h1, h2⟩ := h
    obtain ⟨px, -, hset⟩ := copyPixel_some.1 h1
    rw [loop_length h2 c, Mem.set_length hset c]

/-- Turns at different pixels, inside the arrays, none of which writes what a later one reads: each gets the permuted
input pixel, also in place. -/
theorem loop_permutes : ∀ {js : List Nat} {mem : Mem}, js.Pairwise (fun i j => i ≠ j ∧ b.add i ≠ a.add j) →
    (∀ j ∈ js, (a.add j).offset < (mem a.buffer).length ∧ (b.add j).offset < (mem b.buffer).length) →
    ∃ mem', js.foldlM (copyPixel permutation a b) mem = some mem' ∧
      ∀ j ∈ js, ∃ px, mem.get (a.add j) = some px ∧ mem'.get (b.add j) = some (permute permutation px)
  | [], mem, _, _ => ⟨mem, rfl, by simp⟩
  | j :: js, mem, hpw, hin => by
    obtain ⟨hja, hjb⟩ := hin j List.mem_cons_self
    obtain ⟨hj, hpw⟩ := List.pairwise_cons.1 hpw
    obtain ⟨px, hpx⟩ := Mem.get_of_lt (p := a.add j) hja
    obtain ⟨mem1, hset⟩ : ∃ mem1, mem.set (b.add j) (permute permutation px) = some mem1 :=
      ⟨_, Mem.set_some.2 ⟨hjb, rfl⟩⟩
    have hin1 : ∀ i ∈ js, (a.add i).offset < (mem1 a.buffer).length ∧ (b.add i).offset < (mem1 b.buffer).length := by
      intro i hi
      rw [Mem.set_length hset, Mem.set_length hset]
      exact hin i (List.mem_cons_of_mem _ hi)
    obtain ⟨mem', h2, hall⟩ := loop_permutes hpw hin1
    refine ⟨mem', by rw [List.foldlM_cons, copyPixel_some.2 ⟨px, hpx, hset⟩]; exact h2, ?_⟩
    intro i hi
    rcases List.mem_cons.1 hi with rfl | hi
    · refine ⟨px, hpx, ?_⟩
      rw [loop_other h2 fun k hk he => (hj k hk).1 (Ptr.add_inj.1 he), Mem.get_set_self hset]
    · obtain ⟨px', hpx', hb⟩ := hall i hi
      rw [Mem.get_set_ne hset (hj i hi).2.symm] at hpx'
      exact ⟨px', hpx', hb⟩

/-- The pattern xyz in place changes nothing. -/
theorem loop_xyz : ∀ {js : List Nat} {mem : Mem}, (∀ j ∈ js, (a.add j).offset < (mem a.buffer).length) →
    js.foldlM (copyPixel PERMUTE_OPTION a a) mem = some mem
  | [], _, _ => rfl
  | j :: js, mem, hin => by
    have hj := hin j List.mem_cons_self
    obtain ⟨px, hpx⟩ := Mem.get_of_lt (p := a.add j) hj
    rw [List.foldlM_cons, copyPixel_some.2 ⟨px, hpx, Mem.set_same hpx⟩]
    exact loop_xyz fun i hi => hin i (List.mem_cons_of_mem _ hi)

/-- Every place but `p`, if one is named, has the colour `px`. -/
def Plain (px : Pixel) (p : Option Ptr) (mem : Mem) : Prop := ∀ q qx, some q ≠ p → mem.get q = some qx → qx = px

/-- A turn that reads the colour writes it. -/
theorem copyPixel_plain {px : Pixel} (hpx : permute permutation px = px) {mem mem' : Mem} {p : Option Ptr} {j : Nat}
    (hm : Plain px p mem) (hj : some (a.add j) ≠ p)
    (h : copyPixel permutation a b mem j = some mem') :
    mem'.get (b.add j) = some px ∧ Plain px p mem' := by
  obtain ⟨qx, hread, hset⟩ := copyPixel_some.1 h
  obtain rfl : qx = px := hm _ _ hj hread
  rw [hpx] at hset
  refine ⟨Mem.get_set_self hset, fun q rx hq hr => ?_⟩
  by_cases hqb : q = b.add j
  · rw [hqb, Mem.get_set_self hset] at hr
    exact (Option.some.inj hr).symm
  · rw [Mem.get_set_ne hset hqb] at hr
    exact hm q rx hq hr

theorem loop_plain {px : Pixel} (hpx : permute permutation px = px) :
    ∀ {js : List Nat} {mem mem' : Mem} {p : Option Ptr}, Plain px p mem → (∀ j ∈ js, some (a.add j) ≠ p) →
      js.foldlM (copyPixel permutation a b) mem = some mem' → Plain px p mem'
  | [], mem, mem', p, hm, _, h => by
    obtain rfl : mem = mem' := by simpa using h
    exact hm
  | j :: js, mem, mem', p, hm, hp, h => by
    rw [List.foldlM_cons, Option.bind_eq_bind, Option.bind_eq_some_iff] at h
    obtain ⟨mem1, h1, h2⟩ := h
    exact loop_plain hpx (copyPixel_plain hpx hm (hp j List.mem_cons_self) h1).2
      (fun i hi => hp i (List.mem_cons_of_mem _ hi)) h2

/-- Where a turn writes the only place of another colour, before any turn has read it, that colour is lost. -/
theorem loop_loses {px : Pixel} (hpx : permute permutation px = px) {js : List Nat} {mem mem' : Mem} {i j : Nat}
    (hpw : js.Pairwise (· < ·)) (hi : i ∈ js) (hij : i < j)
    (hclash : b.add i = a.add j) (hm : Plain px (some (a.add j)) mem)
    (h : js.foldlM (copyPixel permutation a b) mem = some mem') : Plain px none mem' := by
  obtain ⟨before, after, rfl⟩ := List.append_of_mem hi
  rw [List.foldlM_append, Option.bind_eq_bind, Option.bind_eq_some_iff] at h
  obtain ⟨mem1, h1, h⟩ := h
  rw [List.foldlM_cons, Option.bind_eq_bind, Option.bind_eq_some_iff] at h
  obtain ⟨mem2, h2, h3⟩ := h
  have hbefore : ∀ k ∈ before, k < i := fun k hk => (List.pairwise_append.1 hpw).2.2 k hk i List.mem_cons_self
  have hm1 : Plain px (some (a.add j)) mem1 := by
    refine loop_plain hpx hm (fun k hk he => ?_) h1
    have := Ptr.add_inj.1 (Option.some.inj he)
    have := hbefore k hk
    omega
  have hread : some (a.add i) ≠ some (a.add j) := fun he => hij.ne (Ptr.add_inj.1 (Option.some.inj he))
  obtain ⟨hwritten, hm2⟩ := copyPixel_plain hpx hm1 hread h2
  refine loop_plain hpx (fun q qx _ hq => ?_) (fun _ _ => Option.some_ne_none _) h3
  by_cases hqj : q = a.add j
  · rw [hqj, ← hclash, hwritten] at hq
    exact (Option.some.inj hq).symm
  · exact hm2 q qx (fun he => hqj (Option.some.inj he)) hq

end Loop

/-! ## The indices -/

theorem index_toNat (f : Frame) (x y : Nat) :
    (UInt32.ofNat x + UInt32.ofNat y * f.m_pitch).toNat = f.index x y % 2 ^ 32 := by
  simp [Frame.index, UInt32.toNat_add, UInt32.toNat_mul, Nat.add_mod, Nat.mul_mod]

theorem mem_indices {f : Frame} {j : Nat} : j ∈ indices f ↔
    ∃ y < bound f.m_height, ∃ x < bound f.m_width, f.index x y % 2 ^ 32 = j := by
  simp only [indices, List.mem_flatMap, List.mem_range, List.mem_map, index_toNat]

theorem bound_le (n : UInt32) : bound n ≤ n.toNat := by
  unfold bound
  split <;> omega

/-- The last pixel of the picture has the largest index. -/
theorem index_le {f : Frame} {x y : Nat} (hx : x < f.m_width.toNat) (hy : y < f.m_height.toNat) :
    f.index x y ≤ f.index (f.m_width.toNat - 1) (f.m_height.toNat - 1) := by
  unfold Frame.index
  have := Nat.mul_le_mul_right f.m_pitch.toNat (show y ≤ f.m_height.toNat - 1 by omega)
  omega

/-- A picture no wider than its pitch lies in its buffer. -/
theorem index_lt {f : Frame} {x y : Nat} (hw : f.m_width.toNat ≤ f.m_pitch.toNat) (hx : x < f.m_width.toNat)
    (hy : y < f.m_height.toNat) : f.index x y < f.m_height.toNat * f.m_pitch.toNat := by
  have h1 := Nat.mul_le_mul_right f.m_pitch.toNat (show y + 1 ≤ f.m_height.toNat by omega)
  have h2 : (y + 1) * f.m_pitch.toNat = y * f.m_pitch.toNat + f.m_pitch.toNat := Nat.succ_mul ..
  unfold Frame.index
  omega

theorem Frame.Small.index_mod {f : Frame} (hs : f.Small) {x y : Nat} (hx : x < f.m_width.toNat)
    (hy : y < f.m_height.toNat) :
    f.index x y % 2 ^ 32 = f.index x y :=
  Nat.mod_eq_of_lt ((index_le hx hy).trans_lt hs.index)

theorem Frame.Small.bounds {f : Frame} (hs : f.Small) : bound f.m_height = f.m_height.toNat ∧
    bound f.m_width = f.m_width.toNat :=
  ⟨if_pos hs.height, if_pos hs.width⟩

theorem Frame.Small.mem_indices_iff {f : Frame} (hs : f.Small) {j : Nat} : j ∈ indices f ↔
    ∃ x y, x < f.m_width.toNat ∧ y < f.m_height.toNat ∧ j = f.index x y := by
  rw [mem_indices, hs.bounds.1, hs.bounds.2]
  constructor
  · rintro ⟨y, hy, x, hx, rfl⟩
    exact ⟨x, y, hx, hy, hs.index_mod hx hy⟩
  · rintro ⟨x, y, hx, hy, rfl⟩
    exact ⟨y, hy, x, hx, hs.index_mod hx hy⟩

/-- The loops go upwards. -/
theorem Frame.Small.indices_sorted {f : Frame} (hs : f.Small) (hw : f.m_width.toNat ≤ f.m_pitch.toNat) :
    (indices f).Pairwise (· < ·) := by
  unfold indices
  rw [hs.bounds.1, hs.bounds.2, List.pairwise_flatMap]
  simp only [index_toNat]
  constructor
  · intro y hy
    rw [List.pairwise_map]
    refine List.Pairwise.imp_of_mem ?_ List.pairwise_lt_range
    intro x x' hx hx' hlt
    rw [hs.index_mod (List.mem_range.1 hx) (List.mem_range.1 hy), hs.index_mod (List.mem_range.1 hx')
      (List.mem_range.1 hy)]
    exact Nat.add_lt_add_right hlt _
  · refine List.Pairwise.imp_of_mem ?_ List.pairwise_lt_range
    intro y y' hy hy' hlt j hj j' hj'
    obtain ⟨x, hx, rfl⟩ := List.mem_map.1 hj
    obtain ⟨x', hx', rfl⟩ := List.mem_map.1 hj'
    rw [List.mem_range] at hx hx' hy hy'
    rw [hs.index_mod hx hy, hs.index_mod hx' hy']
    have h1 := Nat.mul_le_mul_right f.m_pitch.toNat (show y + 1 ≤ y' by omega)
    have h2 : (y + 1) * f.m_pitch.toNat = y * f.m_pitch.toNat + f.m_pitch.toNat := Nat.succ_mul ..
    unfold Frame.index
    omega

/-! ## Calls -/

theorem valid_iff {f : Frame} : checkFrameValidity f = true ↔
    f.m_pitch.toNat ≠ 0 ∧ f.m_width.toNat ≠ 0 ∧ f.m_height.toNat ≠ 0 ∧ ∃ b, f.m_data = some b := by
  have hzero : ∀ n : UInt32, n = 0 ↔ n.toNat = 0 := fun n => ⟨fun h => by rw [h]; rfl, fun h => UInt32.toNat_inj.1 h⟩
  simp only [checkFrameValidity, Bool.not_eq_true', Bool.or_eq_false_iff, beq_eq_false_iff_ne, ne_eq, hzero,
    Option.isNone_eq_false_iff, Option.isSome_iff_exists, and_assoc]

/-- The checks of `run` passed. -/
theorem check_some {m : Module} {params : ParametersContainer} {permutation : Str}
    (h : m.check params = some permutation) :
    checkFrameValidity m.input = true ∧ checkFrameValidity m.output = true ∧ permutation.length = 3 ∧
      ∀ c ∈ permutation, c ∈ PERMUTE_OPTION := by
  unfold Module.check at h
  split at h
  · cases h
  · rename_i hv
    split at h
    · cases h
    · split at h
      · cases h
      · rename_i hlen
        split at h
        · rename_i hall
          cases h
          simp only [Bool.not_eq_true', Bool.not_eq_false, Bool.and_eq_true] at hv
          exact ⟨hv.1, hv.2, not_not.1 hlen, by simpa using hall⟩
        · cases h

theorem run_of_check {m : Module} {params : ParametersContainer} {permutation : Str} {a b : Ptr} (mem : Mem)
    (h : m.check params = some permutation) (ha : m.input.m_data = some a) (hb : m.output.m_data = some b) :
    m.run params mem = ((indices m.input).foldlM (copyPixel permutation a b) mem).map fun mem => (mem, true) := by
  simp only [Module.run, h, Module.copy, ha, hb]

/-- A pattern other than xyz changes some pixel. -/
theorem permute_ne {permutation : Str} (hlen : permutation.length = 3) (hall : ∀ c ∈ permutation, c ∈ PERMUTE_OPTION)
    (hne : permutation ≠ PERMUTE_OPTION) : permute permutation ⟨1, 2, 3⟩ ≠ ⟨1, 2, 3⟩ := by
  obtain ⟨c, d, e, rfl⟩ := List.length_eq_three.1 hlen
  simp only [List.mem_cons, List.not_mem_nil, or_false, forall_eq_or_imp, forall_eq, PERMUTE_OPTION] at hall
  obtain ⟨hc, hd, he⟩ := hall
  rcases hc with rfl | rfl | rfl <;> rcases hd with rfl | rfl | rfl <;> rcases he with rfl | rfl | rfl <;>
    first | exact absurd rfl hne | decide

/-- A permutation leaves a pixel of three equal values. -/
theorem permute_grey {permutation : Str} (hlen : permutation.length = 3) (hall : ∀ c ∈ permutation, c ∈ PERMUTE_OPTION)
    (v : UInt8) : permute permutation ⟨v, v, v⟩ = ⟨v, v, v⟩ := by
  have hv : ∀ c ∈ PERMUTE_OPTION, charIndex2Value c ⟨v, v, v⟩ = v := by
    intro c hc
    simp only [PERMUTE_OPTION, List.mem_cons, List.not_mem_nil, or_false] at hc
    rcases hc with rfl | rfl | rfl <;> rfl
  obtain ⟨c, d, e, rfl⟩ := List.length_eq_three.1 hlen
  simp only [List.mem_cons, List.not_mem_nil, or_false, forall_eq_or_imp, forall_eq] at hall
  obtain ⟨hc, hd, he⟩ := hall
  simp [permute, hv c hc, hv d hd, hv e he]

/-- A picture that is not small has a pixel the loops do not come to. -/
theorem exists_missed {f : Frame} (hw : f.m_width.toNat ≠ 0) (hh : f.m_height.toNat ≠ 0) (hs : ¬ f.Small) :
    ∃ x y, x < f.m_width.toNat ∧ y < f.m_height.toNat ∧ f.index x y ∉ indices f := by
  by_cases hheight : f.m_height.toNat < 2 ^ 31
  · by_cases hwidth : f.m_width.toNat < 2 ^ 31
    · have hindex : 2 ^ 32 ≤ f.index (f.m_width.toNat - 1) (f.m_height.toNat - 1) := by
        by_contra hlt
        exact hs ⟨hheight, hwidth, by omega⟩
      refine ⟨f.m_width.toNat - 1, f.m_height.toNat - 1, by omega, by omega, ?_⟩
      rw [mem_indices]
      rintro ⟨y, -, x, -, he⟩
      have := Nat.mod_lt (f.index x y) (show 0 < 2 ^ 32 by decide)
      omega
    · refine ⟨0, 0, by omega, by omega, ?_⟩
      rw [mem_indices]
      rintro ⟨y, -, x, hx, -⟩
      rw [bound, if_neg hwidth] at hx
      omega
  · refine ⟨0, 0, by omega, by omega, ?_⟩
    rw [mem_indices]
    rintro ⟨y, hy, -⟩
    rw [bound, if_neg hheight] at hy
    omega

/-- Every index the loops use is the index of a pixel, or smaller. -/
theorem indices_lt {f : Frame} (hw : f.m_width.toNat ≤ f.m_pitch.toNat) {j : Nat} (hj : j ∈ indices f) :
    j < f.m_height.toNat * f.m_pitch.toNat := by
  obtain ⟨y, hy, x, hx, rfl⟩ := mem_indices.1 hj
  exact (Nat.mod_le ..).trans_lt (index_lt hw (hx.trans_le (bound_le _)) (hy.trans_le (bound_le _)))

section Run

variable {m : Module} {params : ParametersContainer} {permutation : Str}

/-- Of two turns the first neither is at the pixel of the second nor writes what it reads. -/
theorem Fits.turns {a b : Ptr} (hf : Fits m permutation) (hs : m.input.Small) (hr : m.ReadFirst)
    (ha : m.input.m_data = some a) (hb : m.output.m_data = some b) :
    (indices m.input).Pairwise fun i j => i ≠ j ∧ b.add i ≠ a.add j := by
  refine (hs.indices_sorted hf.narrow).imp_of_mem ?_
  intro i j hi hj hlt
  obtain ⟨x, y, hx, hy, rfl⟩ := hs.mem_indices_iff.1 hi
  obtain ⟨x', y', hx', hy', rfl⟩ := hs.mem_indices_iff.1 hj
  exact ⟨hlt.ne, hr a b ha hb x y x' y' hx hy hx' hy' hlt⟩

theorem run_correct (h : m.check params = some permutation) (hf : Fits m permutation) : Correct m (.run params) := by
  intro mem hin hout
  obtain ⟨hvi, hvo, -, -⟩ := check_some h
  obtain ⟨-, -, -, a, ha⟩ := valid_iff.1 hvi
  obtain ⟨-, -, -, b, hb⟩ := valid_iff.1 hvo
  have hsa := hin a ha
  have hsb := hout b hb
  rw [hf.height, hf.pitch] at hsb
  have hbounds : ∀ j ∈ indices m.input,
      (a.add j).offset < (mem a.buffer).length ∧ (b.add j).offset < (mem b.buffer).length := by
    intro j hj
    have := indices_lt hf.narrow hj
    rw [Ptr.add_offset, Ptr.add_offset]
    omega
  have hrun := run_of_check mem h ha hb
  rcases hf.small with ⟨hs, hr⟩ | ⟨hab, rfl⟩
  · obtain ⟨mem', hloop, hpix⟩ := loop_permutes (hf.turns hs hr ha hb) hbounds
    rw [hloop, Option.map_some] at hrun
    refine ⟨mem', true, hrun, by simp, ?_⟩
    rintro _ p ⟨⟩ - hp
    rw [h] at hp
    cases hp
    refine ⟨hf.height, hf.width, hf.pitch, ?_, ?_⟩
    · intro a' b' ha' hb' x y hx hy
      rw [ha] at ha'
      rw [hb] at hb'
      cases ha'
      cases hb'
      exact hpix _ (hs.mem_indices_iff.2 ⟨x, y, hx, hy, rfl⟩)
    · intro a' b' ha' hb' _ p hp
      rw [hb] at hb'
      cases hb'
      refine loop_other hloop fun j hj => ?_
      obtain ⟨x, y, hx, hy, rfl⟩ := hs.mem_indices_iff.1 hj
      exact hp x y hx hy
  · rw [ha, hb] at hab
    cases hab
    rw [loop_xyz fun j hj => (hbounds j hj).1, Option.map_some] at hrun
    refine ⟨mem, true, hrun, by simp, ?_⟩
    rintro _ p ⟨⟩ - hp
    rw [h] at hp
    cases hp
    refine ⟨hf.height, hf.width, hf.pitch, ?_, fun _ _ _ _ _ _ _ => rfl⟩
    intro a' b' ha' hb' x y hx hy
    rw [ha] at ha'
    rw [hb] at hb'
    cases ha'
    cases hb'
    have hlt := index_lt hf.narrow hx hy
    have hin : (a.add (m.input.index x y)).offset < (mem (a.add (m.input.index x y)).buffer).length := by
      rw [Ptr.add_offset, Ptr.add_buffer]
      omega
    obtain ⟨px, hpx⟩ := Mem.get_of_lt hin
    exact ⟨px, hpx, hpx⟩

/-- What a correct call has done to arrays large enough for both frames, each place of them with its colour. -/
theorem Correct.painted (h : m.check params = some permutation) (hc : Correct m (.run params)) {a b : Ptr}
    (ha : m.input.m_data = some a) (hb : m.output.m_data = some b) {n : Nat}
    (hna : a.offset + m.input.m_height.toNat * m.input.m_pitch.toNat ≤ n)
    (hnb : b.offset + m.output.m_height.toNat * m.output.m_pitch.toNat ≤ n) (colour : Ptr → Pixel) :
    ∃ mem', (indices m.input).foldlM (copyPixel permutation a b) (Mem.painted n colour) = some mem' ∧
      Permuted m permutation (Mem.painted n colour) mem' := by
  have hin : m.input.Holds (Mem.painted n colour) := by
    intro p hp
    rw [ha] at hp
    cases hp
    rwa [Mem.painted_length]
  have hout : m.output.Holds (Mem.painted n colour) := by
    intro p hp
    rw [hb] at hp
    cases hp
    rwa [Mem.painted_length]
  obtain ⟨mem', r, hrun, -, hP⟩ := hc _ hin hout
  change m.run params _ = _ at hrun
  rw [run_of_check _ h ha hb, Option.map_eq_some_iff] at hrun
  obtain ⟨mem1, h1, he⟩ := hrun
  cases he
  exact ⟨mem', h1, hP params permutation rfl rfl h⟩

/-- One pixel of another colour than all others. -/
def spot (p q : Ptr) : Pixel := if q = p then ⟨1, 1, 1⟩ else ⟨0, 0, 0⟩

theorem plain_spot (n : Nat) (p : Ptr) : Plain ⟨0, 0, 0⟩ (some p) (Mem.painted n (spot p)) := by
  intro q qx hq h
  rw [Mem.get_painted_some h, spot, if_neg fun he => hq (congrArg some he)]

/-- Where the frames do not fit, some content of the arrays shows it. -/
theorem fits_of_correct (h : m.check params = some permutation) (hc : Correct m (.run params)) :
    Fits m permutation := by
  obtain ⟨hvi, hvo, hlen, hall⟩ := check_some h
  obtain ⟨-, hw0, hh0, a, ha⟩ := valid_iff.1 hvi
  obtain ⟨-, -, -, b, hb⟩ := valid_iff.1 hvo
  obtain ⟨hheight, hwidth, hpitch⟩ : m.output.m_height = m.input.m_height ∧ m.output.m_width = m.input.m_width ∧
      m.output.m_pitch = m.input.m_pitch := by
    obtain ⟨_, -, hP⟩ := Correct.painted h hc ha hb (Nat.le_max_left ..) (Nat.le_max_right ..) (spot a)
    exact ⟨hP.height, hP.width, hP.pitch⟩
  -- arrays in which the frame that begins later ends
  obtain ⟨n, hn⟩ : ∃ n, n = max a.offset b.offset + m.input.m_height.toNat * m.input.m_pitch.toNat := ⟨_, rfl⟩
  have hdone := Correct.painted h hc ha hb (n := n) (by omega) (by rw [hheight, hpitch]; omega)
  have hnarrow : m.input.m_width.toNat ≤ m.input.m_pitch.toNat := by
    obtain ⟨mem', hloop, hP⟩ := hdone (spot a)
    obtain ⟨px, hpx, hout⟩ := hP.pixel a b ha hb (m.input.m_width.toNat - 1) (m.input.m_height.toNat - 1)
      (by omega) (by omega)
    have h1 := Mem.lt_of_get hpx
    have h2 := Mem.lt_of_get hout
    rw [loop_length hloop] at h2
    rw [Mem.painted_length, Ptr.add_offset, Frame.index] at h1 h2
    obtain ⟨k, hk⟩ := Nat.exists_eq_succ_of_ne_zero hh0
    rw [hn, hk, Nat.succ_mul, Nat.succ_sub_one] at h1 h2
    omega
  have hinside : ∀ {x y}, x < m.input.m_width.toNat → y < m.input.m_height.toNat →
      (a.add (m.input.index x y)).offset < n ∧ (b.add (m.input.index x y)).offset < n := by
    intro x y hx hy
    have := index_lt hnarrow hx hy
    rw [Ptr.add_offset, Ptr.add_offset]
    omega
  have hone : permute permutation ⟨1, 1, 1⟩ = ⟨1, 1, 1⟩ := permute_grey hlen hall 1
  have hzero : permute permutation ⟨0, 0, 0⟩ = ⟨0, 0, 0⟩ := permute_grey hlen hall 0
  refine ⟨hheight, hwidth, hpitch, hnarrow, ?_⟩
  by_cases hsmall : m.input.Small
  · refine .inl ⟨hsmall, ?_⟩
    intro a' b' ha' hb' x y x' y' hx hy hx' hy' hlt hclash
    rw [ha] at ha'
    rw [hb] at hb'
    cases ha'
    cases hb'
    obtain ⟨mem', hloop, hP⟩ := hdone (spot (a.add (m.input.index x' y')))
    obtain ⟨px, hpx, hout⟩ := hP.pixel a b ha hb x' y' hx' hy'
    have hlost := loop_loses hzero (hsmall.indices_sorted hnarrow) (hsmall.mem_indices_iff.2 ⟨x, y, hx, hy, rfl⟩) hlt
      hclash (plain_spot n _) hloop
    rw [Mem.get_painted_some hpx, spot, if_pos rfl, hone] at hout
    exact absurd (hlost _ _ (Option.some_ne_none _) hout) (by decide)
  · obtain ⟨x, y, hx, hy, hmiss⟩ := exists_missed hw0 hh0 hsmall
    obtain ⟨hia, hib⟩ := hinside hx hy
    -- a pixel that is not written must have had its colour before
    have hsame : ∀ colour : Ptr → Pixel,
        colour (b.add (m.input.index x y)) = permute permutation (colour (a.add (m.input.index x y))) := by
      intro colour
      obtain ⟨mem', hloop, hP⟩ := hdone colour
      obtain ⟨px, hpx, hout⟩ := hP.pixel a b ha hb x y hx hy
      have hother : ∀ j ∈ indices m.input, b.add (m.input.index x y) ≠ b.add j := fun j hj he =>
        hmiss ((Ptr.add_inj.1 he).symm ▸ hj)
      rw [loop_other hloop hother, Mem.get_painted hib] at hout
      rw [Mem.get_painted_some hpx] at hout
      exact Option.some.inj hout
    by_cases hab : a = b
    · subst hab
      by_cases hxyz : permutation = PERMUTE_OPTION
      · exact .inr ⟨by rw [ha, hb], hxyz⟩
      · exact absurd (hsame fun _ => ⟨1, 2, 3⟩).symm (permute_ne hlen hall hxyz)
    · have hne : b.add (m.input.index x y) ≠ a.add (m.input.index x y) := fun he => hab (Ptr.add_right_inj.1 he).symm
      have hspot := hsame (spot (a.add (m.input.index x y)))
      rw [spot, if_neg hne, spot, if_pos rfl, hone] at hspot
      exact absurd hspot (by decide)

/-- A call that is refused, and one that assigns a frame, changes no pixel. -/
theorem refused_correct (h : m.check params = none) : Correct m (.run params) := by
  intro mem _ _
  have hrun : m.run params mem = some (mem, false) := by simp only [Module.run, h]
  exact ⟨mem, false, hrun, fun _ => rfl, by simp⟩

end Run

/-- A call of `run` that is not refused finds frames that fit. -/
def Fitting (m : Module) (c : Call) : Prop :=
  ∀ params permutation, c = .run params → m.check params = some permutation → Fits m permutation

theorem correct_iff (m : Module) (c : Call) : Correct m c ↔ Fitting m c := by
  cases c with
  | assignInputFrame f =>
    exact iff_of_true (fun mem _ _ => ⟨mem, _, rfl, fun _ => rfl, by simp⟩) fun _ _ h => by cases h
  | assignOutputFrame f =>
    exact iff_of_true (fun mem _ _ => ⟨mem, _, rfl, fun _ => rfl, by simp⟩) fun _ _ h => by cases h
  | run params =>
    constructor
    · rintro h _ permutation ⟨⟩ hcheck
      exact fits_of_correct hcheck h
    · intro h
      cases hcheck : m.check params with
      | none => exact refused_correct hcheck
      | some permutation => exact run_correct hcheck (h params permutation rfl hcheck)

/-- **A sequence of calls on a new module** does what it should, whatever the caller has put in the buffers before
each, exactly when every call of `run` that passes the checks finds frames that fit. -/
theorem calls_correct_iff (cs : List Call) : (∀ c ∈ getInstance.trace cs, Correct c.1 c.2) ↔
    ∀ c ∈ getInstance.trace cs, Fitting c.1 c.2 := by
  simp only [correct_iff]

/-- A new input frame after the output is assigned is compared with nothing. -/
def reassigned : List Call :=
  [.assignInputFrame ⟨1, 1, 1, some ⟨0, 0⟩⟩, .assignOutputFrame ⟨1, 1, 1, some ⟨1, 0⟩⟩,
    .assignInputFrame ⟨2, 1, 1, some ⟨0, 0⟩⟩,
    .run fun _ => some PERMUTE_OPTION]

/-- The loops then write the second row behind the end of the output buffer. -/
theorem calls_not_always : ¬ ∀ cs : List Call, ∀ c ∈ getInstance.trace cs, Correct c.1 c.2 := by
  intro h
  have hlast : (⟨⟨2, 1, 1, some ⟨0, 0⟩⟩, ⟨1, 1, 1, some ⟨1, 0⟩⟩⟩, .run fun _ => some PERMUTE_OPTION) ∈
      getInstance.trace reassigned :=
    List.mem_cons_of_mem _ (List.mem_cons_of_mem _ (List.mem_cons_of_mem _ List.mem_cons_self))
  obtain ⟨mem', r, hcall, -⟩ := h reassigned _ hlast (fun c => if c = 0 then [⟨0, 0, 0⟩, ⟨0, 0, 0⟩] else [⟨0, 0, 0⟩])
    (by rintro b ⟨⟩; decide) (by rintro b ⟨⟩; decide)
  have hout : (Module.call ⟨⟨2, 1, 1, some ⟨0, 0⟩⟩, ⟨1, 1, 1, some ⟨1, 0⟩⟩⟩
      (fun c => if c = 0 then [⟨0, 0, 0⟩, ⟨0, 0, 0⟩] else [⟨0, 0, 0⟩])
      (.run fun _ => some PERMUTE_OPTION)).isNone = true := by
    decide +kernel
  rw [hcall] at hout
  cases hout

end Image
