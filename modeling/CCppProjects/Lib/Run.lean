import Mathlib.Data.List.Infix
/-
# Runs of a labelled transition system

`Run R s ls t`: from `s` the steps labelled `ls`, in order, lead to `t`. A property of every
state of a run comes from an invariant (`Run.inv`); two systems are compared by a simulation
(`Run.simulates`); and `atAll_iff_steps` says for one run that a property holds throughout
exactly when every step taken met a condition.
-/
namespace Lts

variable {σ τ ℓ κ : Type*}

inductive Run (R : σ → ℓ → σ → Prop) : σ → List ℓ → σ → Prop
  | nil (s : σ) : Run R s [] s
  | cons {s t u : σ} {l : ℓ} {ls : List ℓ} : R s l t → Run R t ls u → Run R s (l :: ls) u

variable {R : σ → ℓ → σ → Prop} {T : τ → κ → τ → Prop}

/-- Steps that meet a condition on the state before and the label. -/
def On (P : σ → ℓ → Prop) (R : σ → ℓ → σ → Prop) : σ → ℓ → σ → Prop := fun s l t => P s l ∧ R s l t

theorem Run.single {s t : σ} {l : ℓ} (h : R s l t) : Run R s [l] t := .cons h (.nil t)

theorem Run.append {s t u : σ} {as bs : List ℓ} (h : Run R s as t) (h' : Run R t bs u) :
    Run R s (as ++ bs) u := by
  induction h with
  | nil => exact h'
  | cons hs _ ih => exact .cons hs (ih h')

/-- A run, taken apart at one of its steps. -/
theorem Run.split : ∀ {as : List ℓ} {s t : σ} {l : ℓ} {bs : List ℓ}, Run R s (as ++ l :: bs) t →
    ∃ u v, Run R s as u ∧ R u l v ∧ Run R v bs t
  | [], s, _, _, _, .cons hr h => ⟨s, _, .nil s, hr, h⟩
  | _ :: _, _, _, _, _, .cons hr h =>
    let ⟨u, v, hu, huv, hv⟩ := h.split
    ⟨u, v, .cons hr hu, huv, hv⟩

/-- What every step keeps holds at the end of every run. -/
theorem Run.inv {I : σ → Prop} (hstep : ∀ s l t, I s → R s l t → I t) {s t : σ} {ls : List ℓ}
    (h : Run R s ls t) (hs : I s) : I t := by
  induction h with
  | nil => exact hs
  | cons hr _ ih => exact ih (hstep _ _ _ hs hr)

theorem Run.mono {R' : σ → ℓ → σ → Prop} (hR : ∀ s l t, R s l t → R' s l t) {s t : σ} {ls : List ℓ}
    (h : Run R s ls t) : Run R' s ls t := by
  induction h with
  | nil => exact .nil _
  | cons hr _ ih => exact .cons (hR _ _ _ hr) ih

/-- **Simulation.** If every step of `R` from related states is matched by a run of `T` over the
step's observation, so is every run. -/
theorem Run.simulates {Rel : σ → τ → Prop} {obs : ℓ → List κ}
    (hstep : ∀ s r l s', Rel s r → R s l s' → ∃ r', Run T r (obs l) r' ∧ Rel s' r')
    {s s' : σ} {ls : List ℓ} (h : Run R s ls s') :
    ∀ {r : τ}, Rel s r → ∃ r', Run T r (ls.flatMap obs) r' ∧ Rel s' r' := by
  induction h with
  | nil => exact fun hr => ⟨_, .nil _, hr⟩
  | cons hs _ ih =>
    intro r hr
    obtain ⟨r1, h1, hr1⟩ := hstep _ _ _ _ hr hs
    obtain ⟨r2, h2, hr2⟩ := ih hr1
    exact ⟨r2, by rw [List.flatMap_cons]; exact h1.append h2, hr2⟩

/-- The run a step function computes. -/
theorem Run.of_foldlM {step : σ → ℓ → Option σ} {t : σ} : ∀ {ls : List ℓ} {s : σ},
    ls.foldlM step s = some t → Run (fun s l t => step s l = some t) s ls t
  | [], s, h => by
    obtain rfl : s = t := by simpa using h
    exact .nil s
  | l :: ls, s, h => by
    rw [List.foldlM_cons, Option.bind_eq_bind, Option.bind_eq_some_iff] at h
    obtain ⟨u, hu, h⟩ := h
    exact .cons hu (Run.of_foldlM h)

theorem Run.foldlM_eq {step : σ → ℓ → Option σ} {s t : σ} {ls : List ℓ}
    (h : Run (fun s l t => step s l = some t) s ls t) : ls.foldlM step s = some t := by
  induction h with
  | nil => rfl
  | cons hs _ ih => rw [List.foldlM_cons, hs, Option.bind_eq_bind, Option.bind_some, ih]

/-- `Q` at every state the run of `ls` from `s` passes through. -/
def AtAll (R : σ → ℓ → σ → Prop) (Q : σ → Prop) (s : σ) (ls : List ℓ) : Prop :=
  ∀ pre t, pre <+: ls → Run R s pre t → Q t

/-- `P` at every step the run of `ls` from `s` takes. -/
def Steps (R : σ → ℓ → σ → Prop) (P : σ → ℓ → Prop) (s : σ) (ls : List ℓ) : Prop :=
  ∀ pre l t, pre ++ [l] <+: ls → Run R s pre t → P t l

theorem AtAll.head {Q : σ → Prop} {s : σ} {ls : List ℓ} (h : AtAll R Q s ls) : Q s :=
  h [] s List.nil_prefix (.nil s)

theorem AtAll.tail {Q : σ → Prop} {s t : σ} {l : ℓ} {ls : List ℓ} (h : AtAll R Q s (l :: ls))
    (hr : R s l t) : AtAll R Q t ls :=
  fun pre u hp hu => h (l :: pre) u (List.cons_prefix_cons.2 ⟨rfl, hp⟩) (.cons hr hu)

theorem Steps.head {P : σ → ℓ → Prop} {s : σ} {l : ℓ} {ls : List ℓ} (h : Steps R P s (l :: ls)) : P s l :=
  h [] l s (by simp) (.nil s)

theorem Steps.tail {P : σ → ℓ → Prop} {s t : σ} {l : ℓ} {ls : List ℓ} (h : Steps R P s (l :: ls))
    (hr : R s l t) : Steps R P t ls :=
  fun pre m u hp hu => h (l :: pre) m u (by simpa using hp) (.cons hr hu)

theorem Steps.of_prefix {P : σ → ℓ → Prop} {s : σ} {pre ls : List ℓ} (h : Steps R P s ls) (hp : pre <+: ls) :
    Steps R P s pre := fun _ l t hl hr => h _ l t (hl.trans hp) hr

/-- A condition on the labels alone. -/
theorem Steps.of_labels {P : σ → ℓ → Prop} {s : σ} {ls : List ℓ} (h : ∀ l ∈ ls, ∀ s, P s l) : Steps R P s ls :=
  fun _ l t hp _ => h l (hp.subset (by simp)) t

theorem Run.on {P : σ → ℓ → Prop} {s t : σ} {ls : List ℓ} (h : Run R s ls t) (hs : Steps R P s ls) :
    Run (On P R) s ls t := by
  induction h with
  | nil => exact .nil _
  | cons hr _ ih => exact .cons ⟨hs.head, hr⟩ (ih (hs.tail hr))

/-- `P` along the run that `next` computes. -/
def along (next : σ → ℓ → Option σ) (P : σ → ℓ → Bool) : σ → List ℓ → Bool
  | _, [] => true
  | s, l :: ls => P s l && match next s l with
    | some t => along next P t ls
    | none => true

theorem Steps.of_along {next : σ → ℓ → Option σ} {P : σ → ℓ → Bool} (hR : ∀ s l t, R s l t → next s l = some t) :
    ∀ {ls : List ℓ} {s : σ}, along next P s ls = true → Steps R (fun s l => P s l = true) s ls
  | [], _, _ => fun _ _ _ hp _ => absurd hp (by simp)
  | l :: ls, s, h => by
    simp only [along, Bool.and_eq_true] at h
    intro pre m t hp hr
    cases hr with
    | nil =>
      obtain rfl : m = l := by simpa using hp
      exact h.1
    | cons h1 h2 =>
      rw [List.cons_append, List.cons_prefix_cons] at hp
      obtain ⟨rfl, hp⟩ := hp
      rw [hR _ _ _ h1] at h
      exact Steps.of_along hR h.2 _ _ _ hp h2

/-- An invariant kept by the steps that meet `P` holds throughout a run of such steps. -/
theorem atAll_of_steps {I Q : σ → Prop} {P : σ → ℓ → Prop} (hkeep : ∀ s l t, I s → P s l → R s l t → I t)
    (hQ : ∀ s, I s → Q s) {s : σ} {ls : List ℓ} (hs : I s) (hP : Steps R P s ls) : AtAll R Q s ls :=
  fun _ t hp hr => hQ t ((hr.on (hP.of_prefix hp)).inv (fun a l b hi h => hkeep a l b hi h.1 h.2) hs)

/-- In a deterministic system, `Q` holds throughout a run exactly when every step of it meets
`P`: `P` keeps an invariant that gives `Q`, and a step without `P` ends where `Q` fails. -/
theorem atAll_iff_steps {I Q : σ → Prop} {P : σ → ℓ → Prop}
    (hdet : ∀ s l t t', R s l t → R s l t' → t = t')
    (hkeep : ∀ s l t, I s → P s l → R s l t → I t) (hQ : ∀ s, I s → Q s)
    (hbad : ∀ s l t, I s → ¬ P s l → R s l t → ¬ Q t)
    {s t : σ} {ls : List ℓ} (h : Run R s ls t) (hs : I s) :
    AtAll R Q s ls ↔ Steps R P s ls := by
  induction h with
  | nil s =>
    refine ⟨fun _ pre l t hp _ => absurd hp (by simp), fun _ pre t hp hr => ?_⟩
    obtain rfl : pre = [] := by simpa using hp
    cases hr
    exact hQ s hs
  | @cons s t u l ls hr hrest ih =>
    constructor
    · intro hall
      have hPl : P s l := by
        by_contra hn
        exact hbad s l t hs hn hr ((hall.tail hr).head)
      have hst := (ih (hkeep s l t hs hPl hr)).1 (hall.tail hr)
      intro pre m v hp hv
      cases hv with
      | nil =>
        obtain rfl : m = l := by simpa using hp
        exact hPl
      | cons h1 h2 =>
        rename_i pl w
        simp only [List.cons_append, List.cons_prefix_cons] at hp
        obtain ⟨rfl, hp⟩ := hp
        obtain rfl := hdet _ _ _ _ hr h1
        exact hst _ _ _ hp h2
    · intro hst
      have hI := hkeep s l t hs hst.head hr
      have hall := (ih hI).2 (hst.tail hr)
      intro pre v hp hv
      cases hv with
      | nil => exact hQ s hs
      | cons h1 h2 =>
        rw [List.cons_prefix_cons] at hp
        obtain ⟨rfl, hp⟩ := hp
        obtain rfl := hdet _ _ _ _ hr h1
        exact hall _ _ hp h2

end Lts
