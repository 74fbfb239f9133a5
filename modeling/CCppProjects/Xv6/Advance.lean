import CCppProjects.Lib.Pass
import CCppProjects.Xv6.Victim
/-
# The pages that are to advance (proc.c:760-775)

The body of `advanceQueue` exchanges the pages at `i` and `i - 1` when the one nearer the head was accessed
and the other not: from the tail to the head one `Pass.pass` over the queue. The loop starts at the last
index, but goes on while `i < 0`: no body ever runs.
-/
namespace Xv6

variable {c : Cfg} {p : Proc} {q : List Nat}

/-- `RAMQueue` holds `q` in front of its `-1`s: pages of the process, each with an entry of the table. -/
structure Waiting (c : Cfg) (p : Proc) (q : List Nat) : Prop where
  queue : p.RAMQueue = q.map some ++ List.replicate (MAX_PSYC_PAGES - q.length) none
  length : q.length ≤ MAX_PSYC_PAGES
  nodup : q.Nodup
  page : ∀ i ∈ q, i < p.pages.length
  entry : ∀ i ∈ q, (walkpgdir c p.pgdir (p.vpn i)).isSome

/-- `PTE_A` of the page at an index. -/
def Proc.wasAccessed (c : Cfg) (p : Proc) (i : Nat) : Bool := (walkpgdir c p.pgdir (p.vpn i)).any fun e => e.A

/-- The page nearer the head was accessed, the other was not. -/
def Proc.overtakes (c : Cfg) (p : Proc) (pre cur : Nat) : Bool := p.wasAccessed c pre && !p.wasAccessed c cur

/-- The queue after a pass. -/
def Proc.advanced (c : Cfg) (p : Proc) (q : List Nat) : Proc :=
  { p with RAMQueue := (Pass.pass (p.overtakes c) q).map some ++ List.replicate (MAX_PSYC_PAGES - q.length) none }

theorem overtakes_self (i : Nat) : p.overtakes c i i = false := by
  rw [Proc.overtakes]
  cases p.wasAccessed c i <;> rfl

/-! ## The loop -/

theorem advanceQueue_idle (c : Cfg) (p : Proc) : advanceQueue c p = .ok p := by
  change advanceLoop c (15 + 1) 15 p = .ok p
  rw [advanceLoop, if_neg (by decide)]

/-- What a call is to do: the pass, which loses no page, and moves an accessed page behind the next one if
that was not accessed. -/
structure Advances (c : Cfg) (p : Proc) (q : List Nat) (p' : Proc) : Prop where
  pass : p' = p.advanced c q
  perm : ∃ q', p'.RAMQueue = q'.map some ++ List.replicate (MAX_PSYC_PAGES - q'.length) none ∧ List.Perm q' q
  moves : ∀ l a b m, q = l ++ a :: b :: m → p.wasAccessed c a = true → p.wasAccessed c b = false →
    p'.RAMQueue.getD (l.length + 1) none = some a

theorem advanced_advances (c : Cfg) (p : Proc) (q : List Nat) : Advances c p q (p.advanced c q) := by
  refine ⟨rfl, ⟨_, ?_, Pass.pass_perm (p.overtakes c) q⟩, ?_⟩
  · rw [Pass.length_pass]
    rfl
  · rintro l a b m rfl ha hb
    have hmove := Pass.pass_moves (r := p.overtakes c) (a := a) (b := b) (by rw [Proc.overtakes, ha, hb]; rfl)
      (fun i => by rw [Proc.overtakes, hb]; rfl) l m
    have hlt := (List.getElem?_eq_some_iff.1 hmove).1
    rw [Proc.advanced, List.getD_eq_getElem?_getD, List.getElem?_append_left
      (by rw [List.length_map]; exact hlt), List.getElem?_map,
      hmove]
    rfl

/-- **`advanceQueue` does its work only where there is nothing to exchange.** -/
theorem advanceQueue_advances (h : Waiting c p q) : (∃ p', advanceQueue c p = .ok p' ∧ Advances c p q p') ↔
    q.IsChain fun pre cur => p.overtakes c pre cur = false := by
  rw [← Pass.pass_eq_self fun i => overtakes_self i, advanceQueue_idle]
  constructor
  · rintro ⟨p', hp', hadv⟩
    have hqueue := congrArg Proc.RAMQueue ((Except.ok.inj hp').trans hadv.pass)
    rw [h.queue, Proc.advanced] at hqueue
    exact (List.map_injective_iff.2 (Option.some_injective _) (List.append_cancel_right hqueue)).symm
  · intro hpass
    refine ⟨p, rfl, ?_⟩
    have hsame : p.advanced c q = p := by rw [Proc.advanced, hpass, ← h.queue]
    have hadv := advanced_advances c p q
    rw [hsame] at hadv
    exact hadv

/-- Pages 1 and 3, not accessed, in front of 0, which was. -/
def exWaiting : Proc := { exAges id with RAMQueue := [some 1, some 3, some 0] ++ List.replicate 13 none }

theorem exWaiting_waiting : Waiting (exCfg .AQ) exWaiting [1, 3, 0] := ⟨rfl, by decide, by decide, by decide, by decide⟩

theorem advanceQueue_advances_sorted : ∃ p', advanceQueue (exCfg .AQ) exWaiting = .ok p' ∧
    Advances (exCfg .AQ) exWaiting [1, 3, 0] p' :=
  (advanceQueue_advances exWaiting_waiting).2 (by decide)

/-- A full queue, every other page accessed. -/
theorem advanceQueue_stands : ¬ ∀ (c : Cfg) (p : Proc) (q : List Nat), c.sel = .AQ → Waiting c p q →
    ∃ p', advanceQueue c p = .ok p' ∧ Advances c p q p' := by
  intro h
  have hwait : Waiting (exCfg .AQ) (exAges id) (List.range 16) :=
    ⟨rfl, by decide, List.nodup_range, (exAges_full id).page, by decide⟩
  have hchain := (advanceQueue_advances hwait).1 (h _ _ _ rfl hwait)
  revert hchain
  decide

end Xv6
