import CCppProjects.Rest.Bill
import CCppProjects.Rest.Strip
import Mathlib.Algebra.BigOperators.Group.List.Basic
/-
# A customer moves (Action.cpp:172-189)

`act` asks only whether the destination can take someone. What it does with a customer who is not at the source, and
with a source that is the destination, is left to the tables:

| the move                                    | what happens                                                    |
|---------------------------------------------|-----------------------------------------------------------------|
| to a table that is closed or full           | nothing, the action ends in an error                             |
| of someone seated at the source             | customer and orders change tables (`act_moves`)                 |
| of someone who is not there                 | a null pointer takes a seat, the source counts one customer less |
| to the same table, the customer has ordered | `addDishes` appends to the list it walks (`act_endless_iff`)    |
-/
namespace Rest

open Heap Lts

variable {h : Customers} {r : Restaurant} {s d : Table} {src dst id : Int} {w w' : World} {o : Outcome}

/-! ## Looking for a customer among live ones -/

theorem deref_of_idOf {p : Ptr} {i : Int} (hp : idOf h p = some i) : ∃ a c, deref h p = .ok (a, c) ∧ c.id = i := by
  cases p with
  | none => simp [idOf] at hp
  | some a =>
    obtain ⟨c, hc, hi⟩ : ∃ c, live h a = some c ∧ c.id = i := by simpa [idOf] using hp
    exact ⟨a, c, by simp [deref, hc], hi⟩

/-- The first customer with an id, what stands before it and behind it, as both searches see them. -/
theorem search_ok : ∀ {ps : List Ptr}, (∀ p ∈ ps, (idOf h p).isSome) → some id ∈ ps.map (idOf h) →
    ∃ pre cu post, ps = pre ++ cu :: post ∧ idOf h cu = some id ∧ findCustomer h id ps = .ok cu ∧
      eraseCustomer h id ps = .ok (pre ++ post)
  | [], _, hm => by simp at hm
  | p :: ps, hreal, hm => by
    rw [List.forall_mem_cons] at hreal
    obtain ⟨i, hi⟩ := Option.isSome_iff_exists.1 hreal.1
    obtain ⟨a, c, hd, hc⟩ := deref_of_idOf hi
    by_cases hid : c.id = id
    · refine ⟨[], p, ps, rfl, by rw [hi, ← hc, hid], ?_, ?_⟩
      · rw [findCustomer, hd, ok_bind]
        exact if_pos hid
      · rw [eraseCustomer, hd, ok_bind]
        exact if_pos hid
    · have hm' : some id ∈ ps.map (idOf h) := by
        rw [hc] at hid
        simpa [hi, Ne.symm hid] using hm
      obtain ⟨pre, cu, post, rfl, hcu, hfind, herase⟩ := search_ok hreal.2 hm'
      refine ⟨p :: pre, cu, post, rfl, hcu, ?_, ?_⟩
      · rw [findCustomer, hd, ok_bind]
        dsimp only
        rw [if_neg hid, hfind]
      · rw [eraseCustomer, hd, ok_bind]
        dsimp only
        rw [if_neg hid, herase]
        rfl

/-- A seated customer leaves the table, which closes with the last one. -/
theorem removeCustomer_seated {pre post : List Ptr} {cu : Ptr} (hlist : s.customersList = pre ++ cu :: post)
    (hcount : s.currentCapacity = s.customersList.length) (hint : s.currentCapacity < 2 ^ 31)
    (herase : eraseCustomer h id s.customersList = .ok (pre ++ post)) :
    s.removeCustomer h id =
    .ok (h, { s with customersList := pre ++ post, orderList := s.orderList.filter fun o => o.1 ≠ id,
                                             currentCapacity := (pre ++ post).length,
                                             isOpen := !(pre ++ post).isEmpty && s.isOpen }) := by
  have hlen : s.currentCapacity - 1 = ((pre ++ post).length : Int) := by
    rw [hcount, hlist]
    simp only [List.length_append, List.length_cons]
    omega
  have hfits : int (s.currentCapacity - 1) = .ok ((pre ++ post).length : Int) := by
    rw [hlen]
    refine if_pos ⟨?_, ?_⟩ <;> omega
  have hsome : s.customersList.isEmpty = false := by simp [hlist]
  rw [Table.removeCustomer, herase, ok_bind, hfits, ok_bind]
  dsimp only
  by_cases h0 : pre ++ post = []
  · rw [h0, if_pos (by rfl)]
    rfl
  · have hne : (pre ++ post).isEmpty = false := by simpa using h0
    have hpos : ((pre ++ post).length : Int) ≠ 0 := by
      have := List.length_pos_iff.2 h0
      omega
    rw [if_neg hpos, hsome, hne]
    rfl

/-! ## The sum of the bills -/

def bills (r : Restaurant) : Int := (r.tables.map fun t => total t.orderList).sum

theorem bills_setTable (ht : r.getTable src = .ok s) (s' : Table) :
    bills (r.setTable src s') + total s.orderList = bills r + total s'.orderList := by
  have hp := (flatMap_set_perm (fun t : Table => [total t.orderList]) (b := s') (getTable_ok ht)).sum_eq
  simpa [bills, Restaurant.setTable, ← List.map_eq_flatMap] using hp

theorem total_append (as bs : List OrderPair) : total (as ++ bs) = total as + total bs := by
  simp [total]

/-- The dishes of one customer and those of the others. -/
theorem total_split (os : List OrderPair) (id : Int) :
    total (os.filter fun o => o.1 = id) + total (os.filter fun o => o.1 ≠ id) = total os := by
  induction os with
  | nil => rfl
  | cons o os ih =>
    by_cases ho : o.1 = id
    · simp only [total, ho, decide_true, List.filter_cons_of_pos, ne_eq, not_true_eq_false,
        decide_false, Bool.false_eq_true,
        not_false_eq_true, List.filter_cons_of_neg, List.map_cons, List.sum_cons] at ih ⊢
      omega
    · simp only [total, ho, decide_false, Bool.false_eq_true, not_false_eq_true, List.filter_cons_of_neg,
        ne_eq, decide_true,
        List.filter_cons_of_pos, List.map_cons, List.sum_cons] at ih ⊢
      omega

/-! ## A move that takes place -/

/-- The customer went from the source to the destination with its orders, and nothing else changed. -/
structure Moved (src dst id : Int) (w w' : World) (s d s' d' : Table) : Prop where
  source : w'.rest.getTable src = .ok s'
  destination : w'.rest.getTable dst = .ok d'
  others : ∀ i : Nat, i ≠ src.toNat → i ≠ dst.toNat → w'.rest.tables[i]? = w.rest.tables[i]?
  customers : w'.heap = w.heap
  seats : ∃ pre cu post, idOf w.heap cu = some id ∧ s.customersList = pre ++ cu :: post ∧
    s'.customersList = pre ++ post ∧
    d'.customersList = d.customersList ++ [cu]
  gone : some id ∉ s'.customersList.map (idOf w.heap)
  counts : s'.currentCapacity = s'.customersList.length ∧ d'.currentCapacity = d'.customersList.length
  orders : d'.orderList = d.orderList ++ s.orderList.filter (fun o => o.1 = id) ∧
    s'.orderList = s.orderList.filter fun o => o.1 ≠ id
  bills : bills w'.rest = bills w.rest
  opened : d'.isOpen = true
  closed : s'.isOpen = false ↔ s'.customersList = []

/-- A move succeeds as a whole or changes no table. -/
def Atomic (src dst id : Int) (w : World) (s d : Table) : Prop :=
  ∃ w' o, MoveCustomer.act src dst id w = .ok (w', o) ∧
    (o.status = .completed ∧ (∃ s' d', Moved src dst id w w' s d s' d') ∨ o.status = .error ∧
    w'.rest.tables = w.rest.tables)

section Move

variable (hs : w.rest.getTable src = .ok s) (hd : w.rest.getTable dst = .ok d)

include hd in
theorem act_refused (hno : (!d.isFull && d.isOpen) = false) : MoveCustomer.act src dst id w =
    .ok (w, { status := .error, errorMsg := "Cannot move customer", out := "Error: Cannot move customer\n" }) := by
  rw [MoveCustomer.act, hd, ok_bind, if_neg (by rw [hno]; exact Bool.false_ne_true)]

include hd in
/-- Without the customer, the move goes through all the same and is no move. -/
theorem act_not_atomic (hopen : d.isOpen = true) (hfull : d.isFull = false)
    (hid : some id ∉ s.customersList.map (idOf w.heap)) :
    ¬ Atomic src dst id w s d := by
  rintro ⟨w', o, ha, hcase⟩
  rw [MoveCustomer.act, hd, ok_bind, if_pos (by rw [hopen, hfull]; rfl)] at ha
  obtain ⟨s1, -, ha⟩ := bind_ok ha
  obtain ⟨cu, -, ha⟩ := bind_ok ha
  obtain ⟨d', -, ha⟩ := bind_ok ha
  obtain ⟨s2, -, ha⟩ := bind_ok ha
  obtain ⟨⟨h', s'⟩, -, ha⟩ := bind_ok ha
  cases ha
  obtain ⟨-, s', d', hm⟩ | ⟨hst, -⟩ := hcase
  · obtain ⟨pre, cu, post, hcu, hlist, -⟩ := hm.seats
    refine hid ?_
    rw [hlist, ← hcu]
    simp
  · cases hst

include hs hd

/-- Where the seats are sound, a seated customer changes tables. -/
theorem act_moves (hi : Inv w.strip) (hne : src ≠ dst) (hint : s.capacity < 2 ^ 31) (hopen : d.isOpen = true)
    (hfull : d.isFull = false) (hid : some id ∈ s.customersList.map (idOf w.heap)) :
    ∃ w' o s' d', MoveCustomer.act src dst id w = .ok (w', o) ∧ o.status = .completed ∧
    Moved src dst id w w' s d s' d' := by
  have hsok := hi.rest.tables s.strip (getTable_mem (getTable_strip hs))
  have hdok := hi.rest.tables d.strip (getTable_mem (getTable_strip hd))
  have hseats : w.rest.strip.seats = w.rest.seats := seats_strip w.rest
  have hreal : ∀ p ∈ s.customersList, (idOf w.heap p).isSome := fun p hp =>
    hi.rest.seats.isSome p (hseats ▸ mem_seats (getTable_mem hs) hp)
  obtain ⟨pre, cu, post, hlist, hcu, hfind, herase⟩ := search_ok hreal hid
  have hlt : d.currentCapacity < d.capacity := by
    have h1 : d.currentCapacity ≤ d.capacity := hdok.bound
    have h2 : d.currentCapacity ≠ d.capacity := by simpa [Table.isFull] using hfull
    omega
  -- the source is another table, so what is appended to the destination leaves it alone
  have hget : (w.rest.setTable dst ((d.addCustomer cu).addDishes id s.orderList)).getTable src = .ok s := by
    have h1 := getTable_nonneg hs
    have h2 := getTable_nonneg hd
    have h3 : dst.toNat ≠ src.toNat := by omega
    simp [Restaurant.getTable, Restaurant.setTable, h1, List.getElem?_set_ne h3, getTable_ok hs]
  have hrem := removeCustomer_seated (h := w.heap) hlist hsok.count
    (Int.lt_of_le_of_lt (show s.currentCapacity ≤ s.capacity from hsok.bound) hint) herase
  obtain ⟨s', hs'⟩ : ∃ s' : Table, s' = { s with
      customersList := pre ++ post, orderList := s.orderList.filter fun o => o.1 ≠ id,
      currentCapacity := (pre ++ post).length, isOpen := !(pre ++ post).isEmpty && s.isOpen } := ⟨_, rfl⟩
  obtain ⟨d', hd'⟩ : ∃ d' : Table, d' = (d.addCustomer cu).addDishes id s.orderList := ⟨_, rfl⟩
  rw [← hs'] at hrem
  rw [← hd'] at hget
  have hact : MoveCustomer.act src dst id w =
    .ok ({ w with rest := (w.rest.setTable dst d').setTable src s', heap := w.heap }, {}) := by
    rw [MoveCustomer.act, hd, ok_bind, if_pos (by rw [hopen, hfull]; rfl), hs, ok_bind,
      show s.getCustomer w.heap id = .ok cu from hfind, ok_bind, Table.addDishesFrom, if_neg hne, ok_bind, ← hd']
    dsimp only
    rw [hget, ok_bind, hrem]
    rfl
  refine ⟨_, _, s', d', hact, rfl, ?_⟩
  have hopenS : s.isOpen = true := by
    cases h0 : s.isOpen with
    | true => rfl
    | false =>
      have hnil : s.customersList = [] := (hsok.closed h0).1
      rw [hnil] at hid
      simp at hid
  have hd'eq : d' = { d with customersList := d.customersList ++ [cu], currentCapacity := d.currentCapacity + 1,
                             orderList := d.orderList ++ s.orderList.filter fun o => o.1 = id } := by
    rw [hd', addCustomer_of_lt cu hlt]
    rfl
  have hnodup : (s.customersList.map (idOf w.heap)).Nodup := by
    have h1 : (w.rest.strip.seats.map (idOf w.heap)).Nodup := hi.rest.seats.nodup
    rw [hseats, Restaurant.seats, List.map_flatMap] at h1
    exact (List.nodup_flatMap.1 h1).1 s (getTable_mem hs)
  have hdstNe : src.toNat ≠ dst.toNat := by
    have h1 := getTable_nonneg hs
    have h2 := getTable_nonneg hd
    omega
  constructor
  · exact getTable_setTable hget s'
  · have h1 : (w.rest.setTable dst d').getTable dst = .ok d' := getTable_setTable hd d'
    have h2 := getTable_ok h1
    have h3 := getTable_nonneg hd
    dsimp only
    rw [Restaurant.getTable, if_pos h3, Restaurant.setTable, List.getElem?_set_ne hdstNe, h2]
  · intro i h1 h2
    change ((w.rest.tables.set dst.toNat d').set src.toNat s')[i]? = w.rest.tables[i]?
    rw [List.getElem?_set_ne h1.symm, List.getElem?_set_ne h2.symm]
  · rfl
  · exact ⟨pre, cu, post, hcu, hlist, by rw [hs'], by rw [hd'eq]⟩
  · rw [hlist, List.map_append, List.map_cons, hcu] at hnodup
    rw [hs', List.map_append]
    exact (List.nodup_cons.1 (List.nodup_middle.1 hnodup)).1
  · constructor
    · rw [hs']
    · have hcount : d.currentCapacity = d.customersList.length := hdok.count
      rw [hd'eq]
      simp [hcount]
  · exact ⟨by rw [hd'eq], by rw [hs']⟩
  · have h1 := bills_setTable hd d'
    have h2 := bills_setTable hget s'
    have h3 := total_split s.orderList id
    rw [hd'eq, total_append, ← hd'eq] at h1
    rw [show s'.orderList = s.orderList.filter fun o => o.1 ≠ id by rw [hs']] at h2
    dsimp only
    omega
  · rw [hd'eq]
    exact hopen
  · rw [hs', hopenS]
    simp

end Move

/-- In every run whose moves are of customers seated at their source, every state is one where a move between
two tables is atomic exactly when it is refused or of a customer seated at the source. A capacity is an `int`.
-/
theorem move_atomic (tables : List (Nat × Bool)) (dishes : List (String × Int × DishType)) (cmds : List Cmd)
    (hc : Lts.Steps Steps (fun w c => movesSeated w c = true) (boot tables dishes) cmds) :
    AtAll Steps (fun w => ∀ src dst id s d, src ≠ dst → w.rest.getTable src = .ok s → w.rest.getTable dst = .ok d →
      s.capacity < 2 ^ 31 → (Atomic src dst id w s d ↔ movesSeated w (.move src dst id) = true))
      (boot tables dishes) cmds := by
  intro pre w hp hr src dst id s d hne hs hd hint
  have hi := seats_kept tables dishes hc pre w hp hr
  have hcond : movesSeated w (.move src dst id) =
      (!d.isOpen || d.isFull || (s.customersList.map (idOf w.heap)).contains (some id)) := by
    simp only [movesSeated, hs, hd]
  rw [hcond]
  by_cases hopen : (!d.isFull && d.isOpen) = true
  · simp only [Bool.and_eq_true, Bool.not_eq_true'] at hopen
    rw [hopen.1, hopen.2]
    simp only [Bool.not_true, Bool.false_or, List.contains_iff_mem]
    constructor
    · intro ha
      by_contra hid
      exact act_not_atomic hd hopen.2 hopen.1 hid ha
    · intro hid
      obtain ⟨w', o, s', d', hact, hst, hm⟩ := act_moves hs hd hi hne hint hopen.2 hopen.1 hid
      exact ⟨w', o, hact, .inl ⟨hst, s', d', hm⟩⟩
  · have hno : (!d.isFull && d.isOpen) = false := Bool.eq_false_iff.2 hopen
    have htrue : (!d.isOpen || d.isFull || (s.customersList.map (idOf w.heap)).contains (some id)) = true := by
      revert hno
      cases d.isFull <;> cases d.isOpen <;> simp
    refine iff_of_true ?_ htrue
    exact ⟨w, _, act_refused hd hno, .inr ⟨rfl, rfl⟩⟩

/-- A test of one table, of two tables. -/
def onTable (w : World) (i : Int) (test : Table → Bool) : Bool :=
  match w.rest.getTable i with
  | .ok t => test t
  | .error _ => false

def onTables (w : World) (i j : Int) (test : Table → Table → Bool) : Bool := onTable w i fun s => onTable w j (test s)

theorem onTable_iff {w : World} {i : Int} {test : Table → Bool} : onTable w i test = true ↔
    ∃ t, w.rest.getTable i = .ok t ∧ test t = true := by
  rw [onTable]
  cases w.rest.getTable i with
  | error e => simp
  | ok t => simp

theorem onTables_iff {w : World} {i j : Int} {test : Table → Table → Bool} : onTables w i j test = true ↔
    ∃ s d, w.rest.getTable i = .ok s ∧ w.rest.getTable j = .ok d ∧ test s d = true := by
  simp only [onTables, onTable_iff]
  constructor
  · rintro ⟨s, hs, d, hd, h⟩
    exact ⟨s, d, hs, hd, h⟩
  · rintro ⟨s, d, hs, hd, h⟩
    exact ⟨s, hs, d, hd, h⟩

/-- Two guests at one table, one at another; the first moves. -/
theorem move_atomic_guest : ∃ w s d, [Cmd.openTable 0 [("ann", "alc"), ("bo", "veg")],
    .openTable 1 [("cy", "spc")], .order 0].foldlM next
      (boot [(2, false), (3, false)] [("beer", 10, .alc)]) = some w ∧ Atomic 0 1 0 w s d := by
  have hrun : ([Cmd.openTable 0 [("ann", "alc"), ("bo", "veg")], .openTable 1 [("cy", "spc")], .order 0].foldlM next
      (boot [(2, false), (3, false)] [("beer", 10, .alc)])).any (fun w => movesSeated w (.move 0 1 0) &&
        onTables w 0 1 fun s _ => s.capacity == 2) = true := by decide +kernel
  obtain ⟨w, hw, hstate⟩ := (Option.any_eq_true _ _).1 hrun
  rw [Bool.and_eq_true, onTables_iff] at hstate
  obtain ⟨hseat, s, d, hs, hd, hcap⟩ := hstate
  refine ⟨w, s, d, hw, (move_atomic [(2, false), (3, false)] [("beer", 10, .alc)] _
    (steps_of_along (by decide +kernel)) _ w
    List.prefix_rfl (run_of_next hw) 0 1 0 s d (by decide) hs hd ?_).2 hseat⟩
  rw [eq_of_beq hcap]
  decide

/-- A `move` of nobody is reported as completed. -/
theorem move_of_nobody : ¬ ∀ tables dishes cmds, AtAll Steps (fun w => ∀ src dst id s d, src ≠ dst →
    w.rest.getTable src = .ok s →
    w.rest.getTable dst = .ok d → s.capacity < 2 ^ 31 → Atomic src dst id w s d) (boot tables dishes) cmds := by
  intro h
  have hrun : ([Cmd.openTable 0 [("ann", "alc")], .openTable 1 [("cy", "spc")]].foldlM
    next (boot [(2, false), (3, false)] [])).any
      (fun w => onTables w 0 1 fun s d =>
        s.capacity == 2 && d.isOpen && !d.isFull && !(s.customersList.map (idOf w.heap)).contains (some 7)) = true := by
    decide +kernel
  obtain ⟨w, hw, hstate⟩ := (Option.any_eq_true _ _).1 hrun
  obtain ⟨s, d, hs, hd, htest⟩ := onTables_iff.1 hstate
  simp only [Bool.and_eq_true, Bool.not_eq_true', beq_iff_eq] at htest
  obtain ⟨⟨⟨hcap, hopen⟩, hfull⟩, hid⟩ := htest
  have hat := h _ _ _ _ w List.prefix_rfl (run_of_next hw) 0 1 7 s d (by decide) hs hd (by rw [hcap]; decide)
  refine act_not_atomic hd hopen hfull (fun hmem => ?_) hat
  rw [List.contains_iff_mem.2 hmem] at hid
  cases hid

/-! ## The loop of `addDishes` inside a move -/

/-- `addDishes(id, getTable(src)->getOrders())` with at most so many rounds of the loop on the own list. -/
def Table.addDishesFor (n : Nat) (d s : Table) (same : Prop) [Decidable same] (id : Int) : Option Table :=
  if same then (addDishesLoop id n 0 d.orderList).map fun orderList => { d with orderList }
  else some (d.addDishes id s.orderList)

/-- The rest of a move, once the destination has what it gets. -/
def MoveCustomer.leave (src dst id : Int) (w : World) (d : Table) : Except Fault (World × Outcome) := do
  let rest := w.rest.setTable dst d
  let s ← rest.getTable src
  let (heap, s) ← s.removeCustomer w.heap id
  .ok ({ w with rest := rest.setTable src s, heap }, {})

/-- `MoveCustomer::act` with at most so many rounds of that loop; none when they are not enough. -/
def MoveCustomer.actFor (n : Nat) (src dst id : Int) (w : World) : Option (Except Fault (World × Outcome)) :=
  match w.rest.getTable dst with
  | .error e => some (.error e)
  | .ok d =>
    if !d.isFull && d.isOpen then
      match w.rest.getTable src with
      | .error e => some (.error e)
      | .ok s => match s.getCustomer w.heap id with
        | .error e => some (.error e)
        | .ok cu => ((d.addCustomer cu).addDishesFor n s (src = dst) id).map (MoveCustomer.leave src dst id w)
    else some
      (.ok (w, { status := .error, errorMsg := "Cannot move customer", out := "Error: Cannot move customer\n" }))

/-- The customer is to move to the table it has ordered at, and that table has a free seat. -/
structure ToItself (src dst id : Int) (w : World) (d : Table) : Prop where
  same : src = dst
  opened : d.isOpen = true
  free : d.isFull = false
  ordered : ∃ o ∈ d.orderList, o.1 = id
  found : ∃ cu, d.getCustomer w.heap id = .ok cu

theorem addCustomer_orderList (t : Table) (c : Ptr) : (t.addCustomer c).orderList = t.orderList := by
  unfold Table.addCustomer
  split <;> rfl

/-- A move whose loop ends after enough rounds does what `act` says; one of a customer to the table it has
ordered at goes on for ever. -/
theorem actFor_spec (hs : w.rest.getTable src = .ok s) (hd : w.rest.getTable dst = .ok d) :
    ToItself src dst id w d ∧ (∀ n, MoveCustomer.actFor n src dst id w = none) ∨
    ¬ ToItself src dst id w d ∧ ∃ n, MoveCustomer.actFor n src dst id w = some (MoveCustomer.act src dst id w) := by
  by_cases hopen : (!d.isFull && d.isOpen) = true
  swap
  · right
    refine ⟨fun h => hopen (by rw [h.opened, h.free]; rfl), 0, ?_⟩
    rw [act_refused hd (Bool.eq_false_iff.2 hopen), MoveCustomer.actFor, hd]
    exact if_neg hopen
  cases hcu : s.getCustomer w.heap id with
  | error e =>
    right
    constructor
    · intro h
      obtain ⟨cu, hfound⟩ := h.found
      rw [← h.same, hs] at hd
      cases hd
      rw [hcu] at hfound
      cases hfound
    · refine ⟨0, ?_⟩
      rw [MoveCustomer.act, MoveCustomer.actFor, hd, ok_bind]
      dsimp only
      rw [if_pos hopen, if_pos hopen, hs, ok_bind]
      dsimp only
      rw [hcu]
      rfl
  | ok cu =>
    have hact : MoveCustomer.act src dst id w =
        (d.addCustomer cu).addDishesFrom s (src = dst) id >>= MoveCustomer.leave src dst id w := by
      rw [MoveCustomer.act, hd, ok_bind, if_pos hopen, hs, ok_bind, hcu, ok_bind]
      rfl
    have hfor : ∀ n, MoveCustomer.actFor n src dst id w =
        ((d.addCustomer cu).addDishesFor n s (src = dst) id).map (MoveCustomer.leave src dst id w) := by
      intro n
      rw [MoveCustomer.actFor, hd]
      dsimp only
      rw [if_pos hopen, hs]
      dsimp only
      rw [hcu]
    by_cases hsame : src = dst
    · have hds : d = s := by
        rw [← hsame, hs] at hd
        cases hd
        rfl
      obtain ⟨hown, hloop⟩ | ⟨hown, hloop⟩ := addDishesLoop_eq id (d.addCustomer cu)
      · right
        constructor
        · intro h
          obtain ⟨o, ho, hid⟩ := h.ordered
          rw [Table.addOwnDishes, addCustomer_orderList,
            if_pos (List.any_eq_true.2 ⟨o, ho, by simpa using hid⟩)] at hown
          cases hown
        · refine ⟨(d.addCustomer cu).orderList.length + 1, (hfor _).trans ?_⟩
          rw [hact, Table.addDishesFrom, if_pos hsame, hown, Table.addDishesFor, if_pos hsame, hloop]
          rfl
      · left
        constructor
        · simp only [Bool.and_eq_true, Bool.not_eq_true'] at hopen
          refine ⟨hsame, hopen.2, hopen.1, ?_, cu, hds ▸ hcu⟩
          rw [Table.addOwnDishes, addCustomer_orderList] at hown
          split at hown
          · next hany =>
            obtain ⟨o, ho, hid⟩ := List.any_eq_true.1 hany
            exact ⟨o, ho, by simpa using hid⟩
          · cases hown
        · intro n
          rw [hfor, Table.addDishesFor, if_pos hsame, hloop]
          rfl
    · right
      refine ⟨fun h => hsame h.same, 0, ?_⟩
      rw [hfor, hact, Table.addDishesFor, if_neg hsame, Table.addDishesFrom, if_neg hsame]
      rfl

/-- A move terminates, in every state and for every pair of tables there is, exactly when it is not one of a
customer to the table it has ordered at. -/
theorem move_terminates (w : World) (src dst id : Int) (s d : Table) (hs : w.rest.getTable src = .ok s)
    (hd : w.rest.getTable dst = .ok d) :
    (∃ n, MoveCustomer.actFor n src dst id w = some (MoveCustomer.act src dst id w)) ↔
    ¬ ToItself src dst id w d := by
  obtain ⟨hto, hnever⟩ | ⟨hnot, hends⟩ := actFor_spec hs hd
  · refine iff_of_false (fun ⟨n, hn⟩ => ?_) (fun h => h hto)
    rw [hnever n] at hn
    cases hn
  · exact iff_of_true hends hnot

/-- Ann, who has ordered, moves to Bob's table, where he has. -/
theorem move_terminates_guest : ∃ w s d, Run Steps (boot [(2, false), (2, false)] [("beer", 10, .alc)])
    [.openTable 0 [("ann", "alc")], .openTable 1 [("bob", "alc")], .order 0, .order 1] w ∧
    w.rest.getTable 0 = .ok s ∧ w.rest.getTable 1 = .ok d ∧ s.orderList.map Prod.fst = [0] ∧
    d.orderList.map Prod.fst = [1] ∧
    d.isOpen = true ∧ d.isFull = false ∧ ∃ n, MoveCustomer.actFor n 0 1 0 w = some (MoveCustomer.act 0 1 0 w) := by
  have hrun : ([Cmd.openTable 0 [("ann", "alc")], .openTable 1 [("bob", "alc")], .order 0, .order 1].foldlM next
      (boot [(2, false), (2, false)] [("beer", 10, .alc)])).any (fun w => onTables w 0 1 fun s d =>
        s.orderList.map Prod.fst == [0] && d.orderList.map Prod.fst == [1] && d.isOpen && !d.isFull) = true := by
    decide +kernel
  obtain ⟨w, hw, hstate⟩ := (Option.any_eq_true _ _).1 hrun
  obtain ⟨s, d, hs, hd, htest⟩ := onTables_iff.1 hstate
  simp only [Bool.and_eq_true, Bool.not_eq_true', beq_iff_eq] at htest
  obtain ⟨⟨⟨hsrc, hdst⟩, hopen⟩, hfree⟩ := htest
  exact ⟨w, s, d, run_of_next hw, hs, hd, hsrc, hdst, hopen, hfree, (move_terminates w 0 1 0 s d hs hd).2
    fun h => by cases h.same⟩

/-- A guest who has ordered is moved to the table it sits at. -/
theorem move_to_itself : ¬ ∀ tables dishes cmds, AtAll Steps (fun w => ∀ src dst id s d, w.rest.getTable src = .ok s →
    w.rest.getTable dst = .ok d → ∃ n, MoveCustomer.actFor n src dst id w = some (MoveCustomer.act src dst id w))
    (boot tables dishes) cmds := by
  intro h
  have hrun : ([Cmd.openTable 0 [("ann", "alc")], .order 0].foldlM next (boot [(2, false)] [("beer", 10, .alc)])).any
      (fun w => onTable w 0 fun d =>
        d.isOpen && !d.isFull && d.orderList.any (fun o => o.1 == 0) && (d.getCustomer w.heap 0).toBool) = true := by
    decide +kernel
  obtain ⟨w, hw, hstate⟩ := (Option.any_eq_true _ _).1 hrun
  obtain ⟨d, hd, htest⟩ := onTable_iff.1 hstate
  simp only [Bool.and_eq_true, Bool.not_eq_true'] at htest
  obtain ⟨⟨⟨hopen, hfree⟩, hany⟩, hfound⟩ := htest
  obtain ⟨o, ho, hid⟩ := List.any_eq_true.1 hany
  obtain ⟨n, hn⟩ := h _ _ _ _ w List.prefix_rfl (run_of_next hw) 0 0 0 d d hd hd
  have hto : ToItself 0 0 0 w d := by
    refine ⟨rfl, hopen, hfree, ⟨o, ho, eq_of_beq hid⟩, ?_⟩
    cases hcu : d.getCustomer w.heap 0 with
    | error e =>
      rw [hcu] at hfound
      cases hfound
    | ok cu => exact ⟨cu, rfl⟩
  obtain ⟨-, hnever⟩ | ⟨hnot, -⟩ := actFor_spec hd hd
  · rw [hnever n] at hn
    cases hn
  · exact hnot hto

end Rest
