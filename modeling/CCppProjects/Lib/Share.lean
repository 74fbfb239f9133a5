import Mathlib.Data.List.Perm.Basic
import Mathlib.Data.List.Count
import Mathlib.Logic.Function.Basic
/-
# Cells shared by tables

A table takes some of its slots to cells, no two slots to the same one (`Inj`); several tables can
take slots to one cell. `cnt ts f` is how many of the tables do. The lemmas say what one write to
a slot of the first table does to the count, and what a write to a cell does to what the tables
show (`view`).
-/
namespace Share

variable {ι φ δ : Type*}

/-- Some slot of `t` is taken to `f`. -/
def Maps (t : ι → Option φ) (f : φ) : Prop := ∃ v, t v = some f

/-- No two slots share a cell. -/
def Inj (t : ι → Option φ) : Prop := ∀ v w f, t v = some f → t w = some f → v = w

open Classical in
/-- How many of the tables take a slot to `f`. -/
noncomputable def cnt (ts : List (ι → Option φ)) (f : φ) : Nat := ts.countP fun t => decide (Maps t f)

/-- What a table shows of the cells' contents. -/
def view (data : φ → δ) (t : ι → Option φ) (v : ι) : Option δ := (t v).map data

open Classical in
theorem cnt_cons (t : ι → Option φ) (ts : List (ι → Option φ)) (f : φ) :
    cnt (t :: ts) f = cnt ts f + if Maps t f then 1 else 0 := by
  simp only [cnt, List.countP_cons, decide_eq_true_eq]

theorem cnt_perm {ts us : List (ι → Option φ)} (h : ts.Perm us) (f : φ) : cnt ts f = cnt us f :=
  h.countP_eq _

theorem cnt_eq_zero {ts : List (ι → Option φ)} {f : φ} : cnt ts f = 0 ↔ ∀ t ∈ ts, ¬ Maps t f := by
  simp [cnt, List.countP_eq_zero]

theorem cnt_le_length (ts : List (ι → Option φ)) (f : φ) : cnt ts f ≤ ts.length := List.countP_le_length

theorem cnt_pos {ts : List (ι → Option φ)} {f : φ} {t : ι → Option φ} (ht : t ∈ ts) (h : Maps t f) :
    0 < cnt ts f := by
  by_contra h0
  exact cnt_eq_zero.1 (by omega) t ht h

theorem cnt_empty (ts : List (ι → Option φ)) (f : φ) : cnt ((fun _ => none) :: ts) f = cnt ts f := by
  rw [cnt_cons, if_neg (by rintro ⟨v, hv⟩; cases hv), Nat.add_zero]

variable [DecidableEq ι]

theorem maps_clear {t : ι → Option φ} (hi : Inj t) {v : ι} {f : φ} (hv : t v = some f) (g : φ) :
    Maps (Function.update t v none) g ↔ Maps t g ∧ g ≠ f := by
  constructor
  · rintro ⟨w, hw⟩
    rw [Function.update_apply] at hw
    split at hw
    · cases hw
    · rename_i hne
      exact ⟨⟨w, hw⟩, fun e => hne (hi w v f (e ▸ hw) hv)⟩
  · rintro ⟨⟨w, hw⟩, hne⟩
    refine ⟨w, ?_⟩
    rw [Function.update_apply, if_neg]
    · exact hw
    · rintro rfl
      rw [hv] at hw
      exact hne (Option.some.inj hw).symm

theorem maps_set {t : ι → Option φ} {v : ι} (hv : t v = none) (f g : φ) :
    Maps (Function.update t v (some f)) g ↔ Maps t g ∨ g = f := by
  constructor
  · rintro ⟨w, hw⟩
    rw [Function.update_apply] at hw
    split at hw
    · exact .inr (Option.some.inj hw).symm
    · exact .inl ⟨w, hw⟩
  · rintro (⟨w, hw⟩ | rfl)
    · refine ⟨w, ?_⟩
      rw [Function.update_apply, if_neg (by rintro rfl; rw [hv] at hw; cases hw)]
      exact hw
    · exact ⟨v, Function.update_self ..⟩

theorem Inj.clear {t : ι → Option φ} (hi : Inj t) (v : ι) : Inj (Function.update t v none) := by
  intro w u f hw hu
  rw [Function.update_apply] at hw hu
  split at hw
  · cases hw
  split at hu
  · cases hu
  exact hi w u f hw hu

theorem Inj.set {t : ι → Option φ} (hi : Inj t) {v : ι} {f : φ} (hf : ∀ w, w ≠ v → t w ≠ some f) :
    Inj (Function.update t v (some f)) := by
  intro w u g hw hu
  rw [Function.update_apply] at hw hu
  split at hw <;> split at hu
  · rename_i h1 h2; rw [h1, h2]
  · rename_i h1 h2; exact absurd (hw ▸ hu) (hf u h2)
  · rename_i h1 h2; exact absurd (hu ▸ hw) (hf w h1)
  · exact hi w u g hw hu

open Classical in
theorem cnt_clear [DecidableEq φ] {t : ι → Option φ} (hi : Inj t) (ts : List (ι → Option φ)) {v : ι} {f : φ}
    (hv : t v = some f) (g : φ) :
    cnt (t :: ts) g = cnt (Function.update t v none :: ts) g + if g = f then 1 else 0 := by
  rw [cnt_cons, cnt_cons, Nat.add_assoc]
  congr 1
  by_cases hg : g = f
  · subst hg
    rw [if_pos ⟨v, hv⟩, if_neg (fun h => ((maps_clear hi hv g).1 h).2 rfl), if_pos rfl]
  · rw [if_neg hg, Nat.add_zero]
    exact if_congr (by rw [maps_clear hi hv, and_iff_left hg]) rfl rfl

open Classical in
theorem cnt_set [DecidableEq φ] {t : ι → Option φ} (ts : List (ι → Option φ)) {v : ι} (hv : t v = none) {f : φ}
    (hf : ¬ Maps t f) (g : φ) :
    cnt (Function.update t v (some f) :: ts) g = cnt (t :: ts) g + if g = f then 1 else 0 := by
  rw [cnt_cons, cnt_cons, Nat.add_assoc]
  congr 1
  by_cases hg : g = f
  · subst hg
    rw [if_pos ((maps_set hv g g).2 (.inr rfl)), if_neg hf, if_pos rfl]
  · rw [if_neg hg, Nat.add_zero]
    exact if_congr (by rw [maps_set hv, or_iff_left hg]) rfl rfl

/-! ## Contents -/

omit [DecidableEq ι] in
theorem view_update_of_not_maps [DecidableEq φ] {t : ι → Option φ} {f : φ} (h : ¬ Maps t f)
    (data : φ → δ) (d : δ) : view (Function.update data f d) t = view data t := by
  funext v
  simp only [view]
  cases hv : t v with
  | none => rfl
  | some g =>
    have : g ≠ f := by rintro rfl; exact h ⟨v, hv⟩
    simp [this]

theorem view_update [DecidableEq φ] {t : ι → Option φ} (hi : Inj t) {v : ι} {f : φ} (hv : t v = some f)
    (data : φ → δ) (d : δ) :
    view (Function.update data f d) t = Function.update (view data t) v (some d) := by
  funext w
  rw [Function.update_apply]
  split
  · rename_i e; subst e; simp [view, hv]
  · rename_i hne
    simp only [view]
    cases hw : t w with
    | none => rfl
    | some g =>
      have : g ≠ f := by rintro rfl; exact hne (hi w v g hw hv)
      simp [this]

theorem view_set (data : φ → δ) (t : ι → Option φ) (v : ι) (o : Option φ) :
    view data (Function.update t v o) = Function.update (view data t) v (o.map data) := by
  funext w
  simp only [view, Function.update_apply]
  split <;> rfl

end Share
