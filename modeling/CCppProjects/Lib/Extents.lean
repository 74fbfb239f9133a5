import Mathlib.Data.List.Basic
import Mathlib.Tactic.Common
/-
# Address-ordered lists of extents

`Apart es`: the extents are not empty, in order, and between two of them lies at least one address. An
extent that lies between `xs` and `ys` is put in its place by joining it with the neighbours it touches
(`JoinRight`, `JoinLeft`); one is shortened (`Apart.shrink`) or taken out (`Apart.remove`).
-/
namespace Extents

structure Ext where
  start : Nat
  len : Nat
  deriving DecidableEq, Repr

def Ext.stop (e : Ext) : Nat := e.start + e.len

/-- The address is in the extent. -/
def Ext.Has (e : Ext) (x : Nat) : Prop := e.start ≤ x ∧ x < e.stop

def Covers (es : List Ext) (x : Nat) : Prop := ∃ e ∈ es, e.Has x

structure Apart (es : List Ext) : Prop where
  gaps : es.Pairwise fun e f => e.stop < f.start
  pos : ∀ e ∈ es, 0 < e.len

variable {b e : Ext} {es xs ys : List Ext} {x : Nat}

@[simp] theorem covers_nil : ¬ Covers [] x := by simp [Covers]

@[simp] theorem covers_cons : Covers (e :: es) x ↔ e.Has x ∨ Covers es x := by simp [Covers]

@[simp] theorem covers_append : Covers (xs ++ ys) x ↔ Covers xs x ∨ Covers ys x := by
  simp [Covers, or_and_right, exists_or]

/-- What an extent that is not empty covers bounds its end. -/
theorem Ext.stop_le {hi : Nat} (h : 0 < e.len) (hx : ∀ x, e.Has x → x < hi) : e.stop ≤ hi := by
  have := hx (e.stop - 1)
  simp only [Ext.Has, Ext.stop] at this ⊢
  omega

theorem Ext.has_start (h : 0 < e.len) : e.Has e.start := ⟨Nat.le_refl _, by rw [Ext.stop]; omega⟩

/-- An extent that meets nothing of another lies before or behind it. -/
theorem Ext.before_or_after (h : ∀ x, b.Has x → ¬ e.Has x) (hb : 0 < b.len) (he : 0 < e.len) :
    e.stop ≤ b.start ∨ b.stop ≤ e.start := by
  have h1 := h b.start
  have h2 := h e.start
  simp only [Ext.Has, Ext.stop] at h1 h2 ⊢
  omega

/-- Extents in order with a gap, around one in their middle. -/
theorem apart_middle : Apart (xs ++ b :: ys) ↔ Apart xs ∧ Apart ys ∧ 0 < b.len ∧ (∀ e ∈ xs, e.stop < b.start) ∧
    ∀ f ∈ ys, b.stop < f.start := by
  constructor
  · rintro ⟨hg, hp⟩
    obtain ⟨h1, h2, h3⟩ := List.pairwise_append.1 hg
    obtain ⟨h4, h5⟩ := List.pairwise_cons.1 h2
    exact ⟨⟨h1, fun e he => hp e (by simp [he])⟩, ⟨h5, fun e he => hp e (by simp [he])⟩, hp b (by simp),
      fun e he => h3 e he b (List.mem_cons_self ..), h4⟩
  · rintro ⟨h1, h2, h3, h4, h5⟩
    refine ⟨List.pairwise_append.2 ⟨h1.gaps, List.pairwise_cons.2 ⟨h5, h2.gaps⟩, fun e he f hf => ?_⟩, fun e he => ?_⟩
    · rcases List.mem_cons.1 hf with rfl | hf
      · exact h4 e he
      · have g1 := h4 e he
        have g2 := h5 f hf
        rw [Ext.stop] at g2
        omega
    · rcases List.mem_append.1 he with he | he
      · exact h1.pos e he
      · rcases List.mem_cons.1 he with rfl | he
        · exact h3
        · exact h2.pos e he

/-- `b` joined with the first extent behind it when they touch. -/
inductive JoinRight (b : Ext) : List Ext → Ext → List Ext → Prop
  | keep {ys : List Ext} : (∀ n ∈ ys.head?, b.stop ≠ n.start) → JoinRight b ys b ys
  | join {n : Ext} {ys : List Ext} : b.stop = n.start → JoinRight b (n :: ys) ⟨b.start, b.len + n.len⟩ ys

/-- `b` joined with the last extent before it. -/
inductive JoinLeft (b : Ext) : List Ext → List Ext → Ext → Prop
  | keep {xs : List Ext} : (∀ p ∈ xs.getLast?, p.stop ≠ b.start) → JoinLeft b xs xs b
  | join {p : Ext} {xs : List Ext} : p.stop = b.start → JoinLeft b (xs ++ [p]) xs ⟨p.start, p.len + b.len⟩

variable {b' b'' : Ext} {xs' ys' : List Ext}

theorem JoinRight.len_le (h : JoinRight b ys b' ys') : b.len ≤ b'.len := by
  cases h with
  | keep => exact Nat.le_refl _
  | join => exact Nat.le_add_right _ _

theorem JoinRight.spec (h : JoinRight b ys b' ys') (hys : Apart ys) (hb : ∀ f ∈ ys, b.stop ≤ f.start) :
    b'.start = b.start ∧ Apart ys' ∧ (∀ f ∈ ys', b'.stop < f.start) ∧
      ∀ x, b'.Has x ∨ Covers ys' x ↔ b.Has x ∨ Covers ys x := by
  cases h with
  | keep hne =>
    refine ⟨rfl, hys, fun f hf => ?_, fun x => Iff.rfl⟩
    cases ys with
    | nil => cases hf
    | cons n ys =>
      have hn := hne n rfl
      have hbn := hb n (List.mem_cons_self ..)
      rcases List.mem_cons.1 hf with rfl | hf
      · omega
      · have := (List.pairwise_cons.1 hys.gaps).1 f hf
        rw [Ext.stop] at this
        omega
  | @join n ys hn =>
    obtain ⟨h1, h2⟩ := List.pairwise_cons.1 hys.gaps
    refine ⟨rfl, ⟨h2, fun e he => hys.pos e (List.mem_cons_of_mem _ he)⟩, fun f hf => ?_, fun x => ?_⟩
    · have := h1 f hf
      simp only [Ext.stop] at this hn ⊢
      omega
    · rw [covers_cons, ← or_assoc]
      refine or_congr_left ?_
      simp only [Ext.Has, Ext.stop] at hn ⊢
      omega

theorem JoinLeft.spec (h : JoinLeft b xs xs' b') (hxs : Apart xs) (hb : ∀ e ∈ xs, e.stop ≤ b.start) :
    b'.stop = b.stop ∧ b.len ≤ b'.len ∧ Apart xs' ∧ (∀ e ∈ xs', e.stop < b'.start) ∧
      ∀ x, b'.Has x ∨ Covers xs' x ↔ b.Has x ∨ Covers xs x := by
  cases h with
  | keep hne =>
    refine ⟨rfl, Nat.le_refl _, hxs, fun e he => ?_, fun x => Iff.rfl⟩
    obtain ⟨zs, p, rfl⟩ : ∃ zs p, xs = zs ++ [p] := ⟨_, _, (List.dropLast_append_getLast (List.ne_nil_of_mem he)).symm⟩
    have hp := hne p (by simp)
    have hbp := hb p (by simp)
    rcases List.mem_append.1 he with he | he
    · have := (List.pairwise_append.1 hxs.gaps).2.2 e he p (List.mem_singleton.2 rfl)
      rw [Ext.stop] at hbp
      omega
    · rw [List.mem_singleton.1 he]
      omega
  | @join p xs hp =>
    obtain ⟨h1, _, h3⟩ := List.pairwise_append.1 hxs.gaps
    refine ⟨?_, Nat.le_add_left _ _, ⟨h1, fun e he => hxs.pos e (List.mem_append_left _ he)⟩,
      fun e he => ?_, fun x => ?_⟩
    · simp only [Ext.stop] at hp ⊢
      omega
    · exact h3 e he p (List.mem_singleton.2 rfl)
    · rw [covers_append, covers_cons, or_iff_left covers_nil]
      have : (⟨p.start, p.len + b.len⟩ : Ext).Has x ↔ b.Has x ∨ p.Has x := by
        simp only [Ext.Has, Ext.stop] at hp ⊢
        omega
      rw [this]
      grind

/-- **An extent put in its place**: the list stays apart and covers what it did and the extent. -/
theorem Apart.put (hes : Apart (xs ++ ys)) (hpos : 0 < b.len) (hx : ∀ e ∈ xs, e.stop ≤ b.start)
    (hy : ∀ f ∈ ys, b.stop ≤ f.start) (hr : JoinRight b ys b' ys') (hl : JoinLeft b' xs xs' b'') :
    Apart (xs' ++ b'' :: ys') ∧ (∀ x, Covers (xs' ++ b'' :: ys') x ↔ Covers (xs ++ ys) x ∨ b.Has x) ∧
      b.len ≤ b''.len := by
  obtain ⟨g1, g2, _⟩ := List.pairwise_append.1 hes.gaps
  have hxs : Apart xs := ⟨g1, fun e he => hes.pos e (List.mem_append_left _ he)⟩
  have hys : Apart ys := ⟨g2, fun e he => hes.pos e (List.mem_append_right _ he)⟩
  have r2 := hr.len_le
  obtain ⟨r1, r3, r4, r5⟩ := hr.spec hys hy
  obtain ⟨l1, l2, l3, l4, l5⟩ := hl.spec hxs (by rw [r1]; exact hx)
  refine ⟨apart_middle.2 ⟨l3, r3, by omega, l4, by rw [l1]; exact r4⟩, fun x => ?_, by omega⟩
  have h1 := r5 x
  have h2 := l5 x
  rw [covers_append, covers_append, covers_cons]
  grind

/-- The tail of an extent is taken. -/
theorem Apart.shrink {n : Nat} (h : Apart (xs ++ b :: ys)) (hn : n < b.len) :
    Apart (xs ++ ⟨b.start, b.len - n⟩ :: ys) ∧ ∀ x, Covers (xs ++ ⟨b.start, b.len - n⟩ :: ys) x ↔
      Covers (xs ++ b :: ys) x ∧ ¬ (⟨b.start + (b.len - n), n⟩ : Ext).Has x := by
  obtain ⟨h1, h2, h3, h4, h5⟩ := apart_middle.1 h
  refine ⟨apart_middle.2 ⟨h1, h2, by dsimp only; omega, h4, fun f hf => ?_⟩, fun x => ?_⟩
  · have := h5 f hf
    simp only [Ext.stop] at this ⊢
    omega
  · simp only [covers_append, covers_cons]
    have hx : Covers xs x → ¬ (⟨b.start + (b.len - n), n⟩ : Ext).Has x := by
      rintro ⟨e, he, hex⟩
      have := h4 e he
      simp only [Ext.Has, Ext.stop] at hex this ⊢
      omega
    have hy : Covers ys x → ¬ (⟨b.start + (b.len - n), n⟩ : Ext).Has x := by
      rintro ⟨e, he, hex⟩
      have := h5 e he
      simp only [Ext.Has, Ext.stop] at hex this ⊢
      omega
    have hb : (⟨b.start, b.len - n⟩ : Ext).Has x ↔ b.Has x ∧ ¬ (⟨b.start + (b.len - n), n⟩ : Ext).Has x := by
      simp only [Ext.Has, Ext.stop]
      omega
    grind

/-- An extent is taken whole. -/
theorem Apart.remove (h : Apart (xs ++ b :: ys)) :
    Apart (xs ++ ys) ∧ ∀ x, Covers (xs ++ ys) x ↔ Covers (xs ++ b :: ys) x ∧ ¬ b.Has x := by
  have hsub : (xs ++ ys).Sublist (xs ++ b :: ys) := List.Sublist.append_left (List.sublist_cons_self b ys) xs
  obtain ⟨h1, h2, h3, h4, h5⟩ := apart_middle.1 h
  refine ⟨⟨h.gaps.sublist hsub, fun e he => h.pos e (hsub.subset he)⟩, fun x => ?_⟩
  simp only [covers_append, covers_cons]
  have hx : Covers xs x → ¬ b.Has x := by
    rintro ⟨e, he, hex⟩
    have := h4 e he
    simp only [Ext.Has, Ext.stop] at hex this ⊢
    omega
  have hy : Covers ys x → ¬ b.Has x := by
    rintro ⟨e, he, hex⟩
    have := h5 e he
    simp only [Ext.Has, Ext.stop] at hex this ⊢
    omega
  grind

/-- Extents that are apart fit into the addresses they cover, `k` to each at least. -/
theorem Apart.length_le {lo hi k : Nat} (h : Apart es) (hk : ∀ e ∈ es, k ≤ e.len) (hlo : ∀ e ∈ es, lo ≤ e.start)
    (hhi : ∀ e ∈ es, e.stop ≤ hi) (hle : lo ≤ hi) : k * es.length + lo ≤ hi := by
  induction es generalizing lo with
  | nil => simpa using hle
  | cons e es ih =>
    obtain ⟨h1, h2⟩ := List.pairwise_cons.1 h.gaps
    have ge := hk e (List.mem_cons_self ..)
    have le := hlo e (List.mem_cons_self ..)
    have := ih ⟨h2, fun f hf => h.pos f (List.mem_cons_of_mem _ hf)⟩
      (fun f hf => hk f (List.mem_cons_of_mem _ hf)) (fun f hf => Nat.le_of_lt (h1 f hf))
      (fun f hf => hhi f (List.mem_cons_of_mem _ hf)) (hhi e (List.mem_cons_self ..))
    rw [Ext.stop] at this
    rw [List.length_cons, Nat.mul_add]
    omega

end Extents
