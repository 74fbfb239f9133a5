import Mathlib.Data.List.Nodup
import Mathlib.Logic.Function.Basic
/-
# Doubly linked circular lists

`Path next prev a l c`: from `a` through the nodes of `l` to `c`, linked both ways. `Cyclic h l` is a
path from the head `h` back to itself. A node is taken out of a cycle (`Cyclic.unlink`), put in
behind the head (`Cyclic.push`), and the nodes are searched from the head in either direction (`scan`).
-/
namespace Links

variable {α : Type*} {next prev next' prev' : α → α} {a b c h : α} {l xs ys : List α}

def Path (next prev : α → α) : α → List α → α → Prop
  | a, [], c => next a = c ∧ prev c = a
  | a, b :: l, c => next a = b ∧ prev b = a ∧ Path next prev b l c

theorem Path.append_iff : ∀ {xs : List α} {a : α},
    Path next prev a (xs ++ b :: ys) c ↔ Path next prev a xs b ∧ Path next prev b ys c
  | [], a => by simp [Path, and_assoc]
  | x :: xs, a => by simp [Path, Path.append_iff, and_assoc]

/-- A path depends on where its nodes but the last lead to and its nodes but the first come from. -/
theorem Path.congr : ∀ {l : List α} {a : α}, Path next prev a l c → (∀ x ∈ a :: l, next' x = next x) →
    (∀ y ∈ l ++ [c], prev' y = prev y) → Path next' prev' a l c
  | [], a, hp, hn, hq => ⟨(hn a (by simp)).trans hp.1, (hq c (by simp)).trans hp.2⟩
  | b :: l, a, hp, hn, hq =>
    ⟨(hn a (by simp)).trans hp.1, (hq b (by simp)).trans hp.2.1,
      hp.2.2.congr (fun x hx => hn x (List.mem_cons_of_mem _ hx)) fun y hy => hq y (List.mem_cons_of_mem _ hy)⟩

theorem Path.prev_mem : ∀ {l : List α} {a : α}, Path next prev a l c → prev c ∈ a :: l
  | [], a, hp => by simp [hp.2]
  | b :: l, a, hp => List.mem_cons_of_mem _ hp.2.2.prev_mem

theorem Path.next_mem {l : List α} (hp : Path next prev a l c) : next a ∈ l ++ [c] := by
  cases l with
  | nil => simp [hp.1]
  | cons b l => simp [hp.1]

theorem Path.reverse (hp : Path next prev a l c) : Path prev next c l.reverse a := by
  induction l generalizing a with
  | nil => exact ⟨hp.2, hp.1⟩
  | cons b l ih =>
    rw [List.reverse_cons]
    exact Path.append_iff.2 ⟨ih hp.2.2, hp.2.1, hp.1⟩

/-- A node between two paths is taken out. -/
theorem Path.bypass [DecidableEq α] : ∀ {xs : List α} {a : α}, Path next prev a xs b → Path next prev b ys c →
    (xs ++ ys).Nodup → a ∉ xs ++ ys → c ∉ xs ++ ys →
    Path (Function.update next (prev b) (next b)) (Function.update prev (next b) (prev b)) a (xs ++ ys) c
  | [], a, hp, hq, hn, ha, hc => by
    obtain ⟨hab, hba⟩ := hp
    cases ys with
    | nil =>
      obtain ⟨hbc, hcb⟩ := hq
      simp [Path, hba, hbc]
    | cons y ys =>
      obtain ⟨hby, hyb, hq⟩ := hq
      simp only [List.nil_append, List.nodup_cons, List.mem_cons, not_or] at hn ha hc
      refine ⟨by simp [hba, hby], by simp [hba, hby], hq.congr (fun x hx => ?_) fun z hz => ?_⟩
      · refine Function.update_of_ne ?_ _ _
        rintro rfl
        rcases List.mem_cons.1 hx with h | h
        · exact ha.1 (hba ▸ h)
        · exact ha.2 (hba ▸ h)
      · refine Function.update_of_ne ?_ _ _
        rintro rfl
        rw [hby] at hz
        rcases List.mem_append.1 hz with h | h
        · exact hn.1 h
        · exact hc.1 (List.mem_singleton.1 h).symm
  | x :: xs, a, hp, hq, hn, ha, hc => by
    obtain ⟨hax, hxa, hp⟩ := hp
    simp only [List.cons_append, List.nodup_cons, List.mem_cons, not_or] at hn ha hc
    have hlast : prev b ≠ a := by
      intro h
      have := h ▸ hp.prev_mem
      rcases List.mem_cons.1 this with h | h
      · exact ha.1 h
      · exact ha.2 (List.mem_append_left _ h)
    have hfirst : next b ≠ x := by
      intro h
      have := h ▸ hq.next_mem
      rcases List.mem_append.1 this with h | h
      · exact hn.1 (List.mem_append_right _ h)
      · exact hc.1 (List.mem_singleton.1 h).symm
    exact ⟨by rw [Function.update_of_ne hlast.symm, hax], by rw [Function.update_of_ne hfirst.symm, hxa],
      Path.bypass hp hq hn.2 hn.1 hc.2⟩

/-- From the head through `l` back to the head, each node once. -/
structure Cyclic (next prev : α → α) (h : α) (l : List α) : Prop where
  path : Path next prev h l h
  nodup : (h :: l).Nodup

theorem Cyclic.nil (hn : next h = h) (hp : prev h = h) : Cyclic next prev h [] := ⟨⟨hn, hp⟩, by simp⟩

variable [DecidableEq α]

theorem Cyclic.unlink (hc : Cyclic next prev h (xs ++ b :: ys)) :
    Cyclic (Function.update next (prev b) (next b)) (Function.update prev (next b) (prev b)) h (xs ++ ys) := by
  obtain ⟨hp, hq⟩ := Path.append_iff.1 hc.path
  have hn := hc.nodup
  have hsub : (xs ++ ys).Sublist (xs ++ b :: ys) := List.Sublist.append_left (List.sublist_cons_self b ys) xs
  rw [List.nodup_cons] at hn
  have hh : h ∉ xs ++ ys := fun hm => hn.1 (hsub.subset hm)
  exact ⟨hp.bypass hq (hn.2.sublist hsub) hh hh, List.nodup_cons.2 ⟨hh, hn.2.sublist hsub⟩⟩

/-- `b` becomes the first node. -/
theorem Cyclic.push (hc : Cyclic next prev h l) (hb : b ∉ h :: l) :
    Cyclic (Function.update (Function.update next b (next h)) h b)
      (Function.update (Function.update prev b h) (next h) b) h (b :: l) := by
  obtain ⟨hp, hn⟩ := hc
  have hbh : b ≠ h := fun e => hb (e ▸ List.mem_cons_self ..)
  have hbl : b ∉ l := fun e => hb (List.mem_cons_of_mem _ e)
  have hfirst : next h ≠ b := by
    intro e
    have hm := e ▸ hp.next_mem
    rcases List.mem_append.1 hm with hm | hm
    · exact hbl hm
    · exact hbh (List.mem_singleton.1 hm)
  rw [List.nodup_cons] at hn
  refine ⟨⟨by simp, by rw [Function.update_of_ne hfirst.symm, Function.update_self], ?_⟩, ?_⟩
  · cases l with
    | nil =>
      obtain ⟨h1, h2⟩ := hp
      exact ⟨by rw [Function.update_of_ne hbh, Function.update_self, h1], by rw [h1, Function.update_self]⟩
    | cons y l =>
      obtain ⟨h1, h2, hp⟩ := hp
      refine ⟨by rw [Function.update_of_ne hbh, Function.update_self, h1], by rw [h1, Function.update_self],
        hp.congr (fun x hx => ?_) fun z hz => ?_⟩
      · have hxh : x ≠ h := by
          rintro rfl
          exact hn.1 hx
        have hxb : x ≠ b := by
          rintro rfl
          exact hbl hx
        rw [Function.update_of_ne hxh, Function.update_of_ne hxb]
      · have hzb : z ≠ b := by
          rintro rfl
          rcases List.mem_append.1 hz with hz | hz
          · exact hbl (List.mem_cons_of_mem _ hz)
          · exact hbh (List.mem_singleton.1 hz)
        have hzy : z ≠ next h := by
          rw [h1]
          rintro rfl
          rcases List.mem_append.1 hz with hz | hz
          · exact (List.nodup_cons.1 hn.2).1 hz
          · exact hn.1 (List.mem_singleton.1 hz ▸ List.mem_cons_self ..)
        rw [Function.update_of_ne hzy, Function.update_of_ne hzb]
  · rw [List.nodup_cons, List.nodup_cons, List.mem_cons, not_or]
    exact ⟨⟨hbh.symm, hn.1⟩, hbl, hn.2⟩

/-! ## Searching -/

/-- The first node with `f` from `x` on, along `next` until `stop`, among at most `n`. -/
def scan (next : α → α) (stop : α) (f : α → Bool) : Nat → α → Option α
  | 0, _ => none
  | n + 1, x => if x = stop then none else if f x then some x else scan next stop f n (next x)

theorem Path.scan_eq {f : α → Bool} {n : Nat} (hp : Path next prev a l c) (hc : c ∉ l) (hn : l.length ≤ n) :
    scan next c f n (next a) = l.find? f := by
  induction l generalizing a n with
  | nil =>
    rw [hp.1]
    cases n with
    | zero => rfl
    | succ n => simp [scan]
  | cons b l ih =>
    obtain ⟨h1, _, hp⟩ := hp
    simp only [List.mem_cons, not_or] at hc
    cases n with
    | zero => cases hn
    | succ n =>
      rw [h1, scan, if_neg (fun e => hc.1 e.symm), List.find?_cons]
      cases hf : f b with
      | true => rfl
      | false => exact ih hp hc.2 (Nat.le_of_succ_le_succ hn)

theorem Cyclic.scan_next {f : α → Bool} {n : Nat} (hc : Cyclic next prev h l) (hn : l.length ≤ n) :
    scan next h f n (next h) = l.find? f :=
  hc.path.scan_eq (List.nodup_cons.1 hc.nodup).1 hn

theorem Cyclic.scan_prev {f : α → Bool} {n : Nat} (hc : Cyclic next prev h l) (hn : l.length ≤ n) :
    scan prev h f n (prev h) = l.reverse.find? f :=
  hc.path.reverse.scan_eq (fun hm => (List.nodup_cons.1 hc.nodup).1 (List.mem_reverse.1 hm))
    (by rwa [List.length_reverse])

end Links
