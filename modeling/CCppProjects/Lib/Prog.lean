import CCppProjects.Lib.Sat
/-
# Programs with a state that can stop

`Prog σ ε α`: from a state, a value and a state, or the reason to stop. A contract for a program is a contract
(`Sat`) for each of its runs; `Prog.bind_run` splits the run of a sequence. `Keeps g m`: no run of `m` changes
what `g` reads of the state.
-/

universe u

def Prog (σ ε α : Type u) : Type u := σ → Except ε (α × σ)

namespace Prog

variable {σ ε α β : Type u}

instance : Monad (Prog σ ε) where
  pure a := fun s => .ok (a, s)
  bind m f := fun s => m s >>= fun r => f r.1 r.2

/-- The state itself. -/
def state : Prog σ ε σ := fun s => .ok (s, s)

def change (f : σ → σ) : Prog σ ε PUnit := fun s => .ok (⟨⟩, f s)

def stop (e : ε) : Prog σ ε α := fun _ => .error e

theorem bind_run (m : Prog σ ε α) (f : α → Prog σ ε β) (s : σ) : (m >>= f) s = m s >>= fun r => f r.1 r.2 := rfl

@[simp] theorem pure_run (a : α) (s : σ) : (pure a : Prog σ ε α) s = .ok (a, s) := rfl

@[simp] theorem state_bind_run (f : σ → Prog σ ε β) (s : σ) : ((state >>= f) : Prog σ ε β) s = f s s := rfl

@[simp] theorem change_run (f : σ → σ) (s : σ) : (change f : Prog σ ε PUnit) s = .ok (⟨⟩, f s) := rfl

@[simp] theorem stop_run (e : ε) (s : σ) : (stop e : Prog σ ε α) s = .error e := rfl

/-- What happens after a run that is known. -/
theorem bind_ok_run {m : Prog σ ε α} {f : α → Prog σ ε β} {s t : σ} {a : α} (h : m s = .ok (a, t)) :
    (m >>= f) s = f a t := by
  rw [bind_run, h]
  rfl

theorem bind_error_run {m : Prog σ ε α} {f : α → Prog σ ε β} {s : σ} {e : ε} (h : m s = .error e) :
    (m >>= f) s = .error e := by
  rw [bind_run, h]
  rfl

/-- A sequence meets a contract if its first part meets one from which the second part meets it. -/
theorem sat_bind {m : Prog σ ε α} {f : α → Prog σ ε β} {s : σ} {E : ε → Prop} {Q : α × σ → Prop} {R : β × σ → Prop}
    (h : Sat (m s) E Q) (hf : ∀ a t, m s = .ok (a, t) → Q (a, t) → Sat (f a t) E R) : Sat ((m >>= f) s) E R :=
  Sat.bind h fun r hr hq => hf r.1 r.2 hr hq

/-! ## What a program leaves alone -/

variable {γ : Type u} {g : σ → γ}

def Keeps (g : σ → γ) (m : Prog σ ε α) : Prop := ∀ s a t, m s = .ok (a, t) → g t = g s

namespace Keeps

theorem pure (a : α) : Keeps g (Pure.pure a : Prog σ ε α) := by
  intro s b t h
  cases h
  rfl

theorem stop (e : ε) : Keeps g (Prog.stop e : Prog σ ε α) := by
  intro s b t h
  cases h

theorem change {f : σ → σ} (hf : ∀ s, g (f s) = g s) : Keeps g (Prog.change f : Prog σ ε PUnit) := by
  intro s b t h
  cases h
  exact hf s

theorem state : Keeps g (Prog.state : Prog σ ε σ) := by
  intro s b t h
  cases h
  rfl

theorem bind {m : Prog σ ε α} {f : α → Prog σ ε β} (hm : Keeps g m) (hf : ∀ a, Keeps g (f a)) : Keeps g (m >>= f) := by
  intro s b t h
  obtain ⟨⟨a, u⟩, h1, h2⟩ := bind_ok h
  exact (hf a u b t h2).trans (hm s a u h1)

theorem ite {p : Prop} [Decidable p] {m m' : Prog σ ε α} (h : Keeps g m) (h' : Keeps g m') :
    Keeps g (if p then m else m') := by
  split
  · exact h
  · exact h'

end Keeps

end Prog
