import Mathlib.Logic.Function.Basic
/-
# Ownership of blocks

Every key owns at most one block and every block at most one key; a bit per block says whether it is owned.
`Owns.add` is an allocation, `Owns.drop` the release of any set of keys at once, `Owns.congr` any change
that leaves the keys' blocks alone.
-/
namespace Owner

variable {κ β : Type*}

/-- Within `region`, the bits are those of the owned blocks, and no block has two owners. -/
structure Owns (region : β → Prop) (bits : β → Bool) (own : κ → Option β) : Prop where
  once : ∀ {k l b}, own k = some b → own l = some b → k = l
  range : ∀ {k b}, own k = some b → region b
  bits : ∀ {b}, region b → (bits b = true ↔ ∃ k, own k = some b)

variable {region : β → Prop} {bits : β → Bool} {own : κ → Option β} {k : κ} {b : β}

/-- An owned block is marked. -/
theorem Owns.marked (h : Owns region bits own) (hk : own k = some b) : bits b = true :=
  (h.bits (h.range hk)).2 ⟨k, hk⟩

/-- An unmarked block is nobody's. -/
theorem Owns.unowned (h : Owns region bits own) (hb : bits b = false) (k : κ) : own k ≠ some b := by
  intro hk
  rw [h.marked hk] at hb
  cases hb

theorem Owns.congr {bits' : β → Bool} {own' : κ → Option β} (h : Owns region bits own) (hbits : ∀ b, bits' b = bits b)
    (hown : ∀ k, own' k = own k) : Owns region bits' own' := by
  obtain rfl : bits' = bits := funext hbits
  obtain rfl : own' = own := funext hown
  exact h

/-- A key without a block takes an unmarked one. -/
theorem Owns.add [DecidableEq β] {bits' : β → Bool} {own' : κ → Option β} (h : Owns region bits own)
    (hr : region b) (hb : bits b = false) (hbits : ∀ c, bits' c = if c = b then true else bits c)
    (hk : own' k = some b) (hnone : own k = none) (hrest : ∀ l, l ≠ k → own' l = own l) : Owns region bits' own' := by
  have hcases : ∀ {l c}, own' l = some c → (l = k ∧ c = b) ∨ (l ≠ k ∧ c ≠ b ∧ own l = some c) := by
    intro l c hl
    by_cases hlk : l = k
    · subst hlk
      exact .inl ⟨rfl, Option.some.inj (hl.symm.trans hk)⟩
    · rw [hrest l hlk] at hl
      exact .inr ⟨hlk, fun hc => h.unowned hb l (hc ▸ hl), hl⟩
  constructor
  · intro l m c hl hm
    rcases hcases hl with ⟨rfl, rfl⟩ | ⟨_, hne, hl⟩ <;> rcases hcases hm with ⟨rfl, hc⟩ | ⟨_, hne', hm⟩
    · rfl
    · exact absurd rfl hne'
    · exact absurd hc hne
    · exact h.once hl hm
  · intro l c hl
    rcases hcases hl with ⟨-, rfl⟩ | ⟨-, -, hl⟩
    · exact hr
    · exact h.range hl
  · intro c hc
    rw [hbits]
    by_cases hcb : c = b
    · simp only [hcb, if_true, true_iff]
      exact ⟨k, hk⟩
    · rw [if_neg hcb, h.bits hc]
      constructor
      · rintro ⟨l, hl⟩
        refine ⟨l, ?_⟩
        rw [hrest l fun hlk => ?_]
        · exact hl
        · rw [hlk, hnone] at hl
          cases hl
      · rintro ⟨l, hl⟩
        rcases hcases hl with ⟨-, hcb'⟩ | ⟨-, -, hl⟩
        · exact absurd hcb' hcb
        · exact ⟨l, hl⟩

/-- The keys of `K` give their blocks back. -/
theorem Owns.drop {bits' : β → Bool} {own' : κ → Option β} {K : κ → Prop} (h : Owns region bits own)
    (hbits : ∀ c, region c → (bits' c = true ↔ bits c = true ∧ ¬ ∃ k, K k ∧ own k = some c))
    (hK : ∀ k, K k → own' k = none) (hrest : ∀ k, ¬ K k → own' k = own k) : Owns region bits' own' := by
  have hold : ∀ {l c}, own' l = some c → ¬ K l ∧ own l = some c := by
    intro l c hl
    have hn : ¬ K l := by
      intro hk
      rw [hK l hk] at hl
      cases hl
    exact ⟨hn, hrest l hn ▸ hl⟩
  constructor
  · intro l m c hl hm
    exact h.once (hold hl).2 (hold hm).2
  · intro l c hl
    exact h.range (hold hl).2
  · intro c hc
    rw [hbits c hc, h.bits hc]
    constructor
    · rintro ⟨⟨l, hl⟩, hn⟩
      have hnk : ¬ K l := fun hk => hn ⟨l, hk, hl⟩
      exact ⟨l, by rw [hrest l hnk]; exact hl⟩
    · rintro ⟨l, hl⟩
      refine ⟨⟨l, (hold hl).2⟩, ?_⟩
      rintro ⟨m, hm, hmc⟩
      exact (hold hl).1 (h.once hmc (hold hl).2 ▸ hm)

end Owner
