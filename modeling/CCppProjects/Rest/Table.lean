import CCppProjects.Rest.Menu
/-
# Tables (Table.cpp)

A table holds pointers to customers, a count of them kept apart (`currentCapacity`) and the orders of
the sitting. Functions that follow a pointer take the heap and can fail.
-/
namespace Rest

open Heap

abbrev Customers := Cells Customer

/-- `*p`, with its address. -/
def deref (h : Customers) : Ptr → Except Fault (Nat × Customer)
  | none => .error .nullPointer
  | some a => match live h a with
    | some c => .ok (a, c)
    | none => .error .useAfterFree

/-- `delete p`; deleting a null pointer does nothing. -/
def delete (h : Customers) : Ptr → Except Fault Customers
  | none => .ok h
  | some a => match live h a with
    | some _ => .ok (free h a)
    | none => .error .doubleFree

structure Table where
  currentCapacity : Int
  capacity : Int
  isOpen : Bool
  customersList : List Ptr
  orderList : List OrderPair
  deriving DecidableEq, Repr

/-- Table.cpp:14-18. The constructor leaves `open` as the memory had it. -/
def Table.new (t_capacity : Nat) (garbage : Bool) : Table :=
  { currentCapacity := 0, capacity := t_capacity, isOpen := garbage, customersList := [], orderList := [] }

def Table.isFull (t : Table) : Bool := t.currentCapacity = t.capacity

/-- Table.cpp:51-58. -/
def Table.addCustomer (t : Table) (customer : Ptr) : Table :=
  if t.currentCapacity < t.capacity then
    { t with customersList := t.customersList ++ [customer], currentCapacity := t.currentCapacity + 1 }
  else t

/-- `delete` of every pointer of a list. -/
def deleteAll (h : Customers) (ps : List Ptr) : Except Fault Customers := ps.foldlM delete h

/-- Table.cpp:153-167. -/
def Table.closeTable (h : Customers) (t : Table) : Except Fault (Customers × Table) := do
  let h ← deleteAll h t.customersList
  .ok (h, { t with customersList := [], currentCapacity := 0, isOpen := false })

/-- Table.cpp:67-74: drops the first customer with this id. -/
def eraseCustomer (h : Customers) (id : Int) : List Ptr → Except Fault (List Ptr)
  | [] => .ok []
  | p :: ps => do
    let (_, c) ← deref h p
    if c.id = id then .ok ps else do
      let qs ← eraseCustomer h id ps
      .ok (p :: qs)

/-- Table.cpp:60-96. -/
def Table.removeCustomer (h : Customers) (t : Table) (id : Int) : Except Fault (Customers × Table) := do
  let isOpen := if t.customersList.isEmpty then false else t.isOpen
  let customersList ← eraseCustomer h id t.customersList
  let orderList := t.orderList.filter fun o => o.1 ≠ id
  let currentCapacity ← int (t.currentCapacity - 1)
  let t := { t with isOpen, customersList, orderList, currentCapacity }
  if currentCapacity = 0 then t.closeTable h else .ok (h, t)

/-- Table.cpp:98-109, for a list that is not the table's own. -/
def Table.addDishes (t : Table) (id : Int) (dishes : List OrderPair) : Table :=
  { t with orderList := t.orderList ++ dishes.filter fun o => o.1 = id }

/-- The same loop on the list it appends to, after at most so many rounds. -/
def addDishesLoop (id : Int) : Nat → Nat → List OrderPair → Option (List OrderPair)
  | 0, _, _ => none
  | n + 1, i, dishes => match dishes[i]? with
    | none => some dishes
    | some o => addDishesLoop id n (i + 1) (if o.1 = id then dishes ++ [o] else dishes)

/-- Table.cpp:98-109, when `dishes` is the table's own list: see `addDishesLoop_eq`. -/
def Table.addOwnDishes (t : Table) (id : Int) : Except Fault Table :=
  if t.orderList.any fun o => o.1 = id then .error .endless else .ok t

/-- Table.cpp:110-119: the first customer with this id, or null. -/
def findCustomer (h : Customers) (id : Int) : List Ptr → Except Fault Ptr
  | [] => .ok none
  | p :: ps => do
    let (_, c) ← deref h p
    if c.id = id then .ok p else findCustomer h id ps

def Table.getCustomer (h : Customers) (t : Table) (id : Int) : Except Fault Ptr := findCustomer h id t.customersList

/-- Table.cpp:136-145: the dishes a customer's choice adds, -1 dropped. -/
def serve (menu : List Dish) (id : Int) : List Int → Except Fault (List OrderPair)
  | [] => .ok []
  | d :: ds => do
    let rest ← serve menu id ds
    if d = -1 then .ok rest
    else if d < 0 then .error .badIndex
    else match menu[d.toNat]? with
      | none => .error .badIndex
      | some dish => .ok ((id, dish) :: rest)

/-- Who orders what: the loop of Table.cpp:133-146 from customer `i`, so many still to come. -/
def orderLoop (menu : List Dish) (cs : List Ptr) : Nat → Nat → Customers →
    Except Fault (Customers × List (String × OrderPair))
  | 0, _, h => .ok (h, [])
  | n + 1, i, h => match cs[i]? with
    | none => .error .badIndex
    | some p => do
      let (a, c) ← deref h p
      let (c', singleOrder) ← c.order menu
      let served ← serve menu c.id singleOrder
      let (h', rest) ← orderLoop menu cs n (i + 1) (put h a c')
      .ok (h', served.map (fun o => (c.name, o)) ++ rest)

/-- Table.cpp:131-146, with the pairs it adds. -/
def Table.order (h : Customers) (t : Table) (menu : List Dish) :
    Except Fault (Customers × Table × List (String × OrderPair)) := do
  let (h, served) ← orderLoop menu t.customersList t.currentCapacity.toNat 0 h
  .ok (h, { t with orderList := t.orderList ++ served.map Prod.snd }, served)

def Table.openTable (t : Table) : Table := { t with isOpen := true }

/-- Table.cpp:169-178. -/
def Table.getBill (t : Table) : Except Fault Int := t.orderList.foldlM (fun sum o => int (sum + o.2.price)) 0

/-- `Clone` of every customer of a list. -/
def cloneAll (h : Customers) : List Ptr → Except Fault (Customers × List Ptr)
  | [] => .ok (h, [])
  | p :: ps => do
    let (_, c) ← deref h p
    let (h, q) := Heap.new h c.clone
    let (h, qs) ← cloneAll h ps
    .ok (h, q :: qs)

/-- The copy constructor, Table.cpp:20-38. -/
def Table.copy (h : Customers) (t : Table) : Except Fault (Customers × Table) := do
  let (h, customersList) ← cloneAll h t.customersList
  .ok (h, { t with customersList })

/-! ## The loop of `addDishes` on its own list -/

private theorem addDishesLoop_of_mem {id : Int} : ∀ (n i : Nat) (dishes : List OrderPair),
    (∃ j, i ≤ j ∧ ∃ o, dishes[j]? = some o ∧ o.1 = id) → addDishesLoop id n i dishes = none
  | 0, _, _, _ => rfl
  | n + 1, i, dishes, ⟨j, hij, o, hj, ho⟩ => by
    have hlen : j < dishes.length := (List.getElem?_eq_some_iff.1 hj).1
    obtain ⟨p, hp⟩ : ∃ p, dishes[i]? = some p := ⟨_, List.getElem?_eq_getElem (Nat.lt_of_le_of_lt hij hlen)⟩
    rw [addDishesLoop, hp]
    refine addDishesLoop_of_mem n (i + 1) _ ?_
    by_cases hpid : p.1 = id
    · -- the pair just met is appended behind every other one
      rw [if_pos hpid]
      exact ⟨dishes.length, by omega, p, by simp, hpid⟩
    · rw [if_neg hpid]
      refine ⟨j, ?_, o, hj, ho⟩
      have : i ≠ j := by
        rintro rfl
        rw [hp] at hj
        cases hj
        exact hpid ho
      omega

private theorem addDishesLoop_of_not_mem {id : Int} {dishes : List OrderPair} (h : ∀ o ∈ dishes, o.1 ≠ id) :
    ∀ n i, i + n = dishes.length + 1 → addDishesLoop id n i dishes = some dishes ∨ n = 0
  | 0, _, _ => .inr rfl
  | n + 1, i, hn => by
    refine .inl ?_
    rw [addDishesLoop]
    cases hi : dishes[i]? with
    | none => rfl
    | some o =>
      have hlt : i < dishes.length := (List.getElem?_eq_some_iff.1 hi).1
      have ho : o ∈ dishes := List.mem_of_getElem? hi
      simp only [if_neg (h o ho)]
      refine (addDishesLoop_of_not_mem h n (i + 1) (by omega)).resolve_right ?_
      omega

/-- On its own list the loop ends exactly when it finds nothing to append. -/
theorem addDishesLoop_eq (id : Int) (t : Table) :
    t.addOwnDishes id = .ok t ∧ addDishesLoop id (t.orderList.length + 1) 0 t.orderList = some t.orderList ∨
    t.addOwnDishes id = .error .endless ∧ ∀ n, addDishesLoop id n 0 t.orderList = none := by
  unfold Table.addOwnDishes
  by_cases h : t.orderList.any fun o => o.1 = id
  · right
    refine ⟨by rw [if_pos h], fun n => addDishesLoop_of_mem n 0 _ ?_⟩
    obtain ⟨o, ho, hid⟩ := List.any_eq_true.1 h
    obtain ⟨j, hj⟩ := List.mem_iff_getElem?.1 ho
    exact ⟨j, Nat.zero_le j, o, hj, by simpa using hid⟩
  · left
    refine ⟨by rw [if_neg h], (addDishesLoop_of_not_mem ?_ _ 0 (by omega)).resolve_right (by omega)⟩
    intro o ho hid
    exact h (List.any_eq_true.2 ⟨o, ho, by simpa using hid⟩)

end Rest
