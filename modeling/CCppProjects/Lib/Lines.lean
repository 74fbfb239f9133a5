import Mathlib.Data.List.Basic
/-
# Lines

A text as lines, each with its end (`text`). Every list is a text and the beginning of a line (`exists_text`),
and where a text begins with another one, so do the lines (`text_prefix`).
-/
namespace Lines

variable {α : Type*} {nl : α} {ls : List (List α)} {b : List α}

/-- Every line with its end. -/
def text (nl : α) (ls : List (List α)) : List α := ls.flatMap fun l => l ++ [nl]

@[simp] theorem text_nil : text nl [] = [] := rfl

@[simp] theorem text_cons (l : List α) (ls : List (List α)) : text nl (l :: ls) = l ++ nl :: text nl ls := by
  simp [text]

@[simp] theorem text_append (ls ms : List (List α)) : text nl (ls ++ ms) = text nl ls ++ text nl ms := by
  simp [text]

theorem text_eq_nil (h : nl ∉ text nl ls) : ls = [] := by
  cases ls with
  | nil => rfl
  | cons l ls => simp at h

/-- A line of a text, as part of it. -/
theorem mem_text {l : List α} {x : α} (hl : l ∈ ls) (hx : x ∈ l) : x ∈ text nl ls :=
  List.mem_flatMap.2 ⟨l, hl, List.mem_append_left _ hx⟩

/-- The first line end of two texts that are one. -/
theorem append_inj {l m r t : List α} (hl : nl ∉ l) (hm : nl ∉ m) (h : l ++ nl :: r = m ++ nl :: t) :
    l = m ∧ r = t := by
  induction l generalizing m with
  | nil =>
    cases m with
    | nil => simpa using h
    | cons x m =>
      rw [List.nil_append, List.cons_append, List.cons.injEq] at h
      exact absurd (List.mem_cons.2 (.inl h.1)) hm
  | cons x l ih =>
    cases m with
    | nil =>
      rw [List.nil_append, List.cons_append, List.cons.injEq] at h
      exact absurd (List.mem_cons.2 (.inl h.1.symm)) hl
    | cons y m =>
      rw [List.cons_append, List.cons_append, List.cons.injEq] at h
      rw [List.mem_cons, not_or] at hl hm
      obtain ⟨rfl, rfl⟩ := ih hl.2 hm.2 h.2
      exact ⟨by rw [h.1], rfl⟩

/-- Whole lines in front of a text are its first lines. -/
theorem text_prefix {ms : List (List α)} (hms : ∀ l ∈ ms, nl ∉ l) (hls : ∀ l ∈ ls, nl ∉ l)
    (h : text nl ms ++ b = text nl ls) :
    ∃ ns, ls = ms ++ ns ∧ b = text nl ns := by
  induction ms generalizing ls with
  | nil => exact ⟨ls, rfl, h⟩
  | cons m ms ih =>
    cases ls with
    | nil => simp at h
    | cons l ls =>
      rw [List.forall_mem_cons] at hms hls
      rw [text_cons, text_cons, List.append_assoc, List.cons_append] at h
      obtain ⟨rfl, hrest⟩ := append_inj hms.1 hls.1 h
      obtain ⟨ns, rfl, hb⟩ := ih hms.2 hls.2 hrest
      exact ⟨ns, rfl, hb⟩

/-- Everything is some lines and the beginning of another one. -/
theorem exists_text [DecidableEq α] (nl : α) (a : List α) : ∃ ls tail, a = text nl ls ++ tail ∧
    (∀ l ∈ ls, nl ∉ l) ∧ nl ∉ tail := by
  induction a with
  | nil => exact ⟨[], [], rfl, by simp, by simp⟩
  | cons x a ih =>
    obtain ⟨ls, tail, rfl, hls, htail⟩ := ih
    by_cases hx : x = nl
    · exact ⟨[] :: ls, tail, by simp [hx], by simpa using hls, htail⟩
    · cases ls with
      | nil => exact ⟨[], x :: tail, rfl, by simp, by simpa using ⟨Ne.symm hx, htail⟩⟩
      | cons l ls =>
        rw [List.forall_mem_cons] at hls
        refine ⟨(x :: l) :: ls, tail, by simp, ?_, htail⟩
        rw [List.forall_mem_cons]
        exact ⟨by simpa using ⟨Ne.symm hx, hls.1⟩, hls.2⟩

end Lines
