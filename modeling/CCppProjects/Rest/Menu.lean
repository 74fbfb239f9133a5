import CCppProjects.Lib.Heap
import CCppProjects.Lib.Sat
import Mathlib.Algebra.Ring.Int.Defs
import Mathlib.Algebra.Ring.Nat
/-
# The menu and what each customer orders

| here | there |
|---|---|
| `Dish`, `DishType` | `Dish.h`, `Dish.cpp` |
| `Customer` | `Customer.h`: the base class with the fields of its four subclasses |
| `Customer.order`, `Customer.clone` | the four `order` and `Clone` of `Customer.cpp` |
| `Fault` | what ends the program: an exception, or a step C++ leaves undefined |
-/
namespace Rest

open Heap

inductive Fault
  /-- `vector::at` throws `out_of_range`. -/
  | outOfRange
  /-- `vector::operator[]` past the end. -/
  | badIndex
  | nullPointer
  | useAfterFree
  | doubleFree
  /-- A loop that appends to the list it walks. -/
  | endless
  | overflow
  deriving DecidableEq, Repr

/-- The result of `int` arithmetic. -/
def int (n : Int) : Except Fault Int := if -2 ^ 31 ≤ n ∧ n < 2 ^ 31 then .ok n else .error .overflow

theorem int_ok {n m : Int} (h : int n = .ok m) : m = n := by
  unfold int at h
  split at h <;> cases h
  rfl

inductive DishType
  | veg | spc | bvg | alc
  deriving DecidableEq, Repr

structure Dish where
  id : Int
  name : String
  price : Int
  type : DishType
  deriving DecidableEq, Repr

/-- A pair (customer id, dish), Table.h:8. -/
abbrev OrderPair := Int × Dish

def DishType.toString : DishType → String
  | .veg => "VEG"
  | .spc => "SPC"
  | .bvg => "BVG"
  | .alc => "ALC"

/-- Dish.cpp:29-43. -/
def Dish.toString (d : Dish) : String := d.name ++ " " ++ d.type.toString ++ " " ++ ToString.toString d.price ++ "NIS\n"

/-! ## Customers -/

/-- The class of a customer and the word that names it in a command (`getType`). -/
inductive CustomerType
  | veg | chp | spc | alc
  deriving DecidableEq, Repr

def CustomerType.getType : CustomerType → String
  | .veg => "veg"
  | .chp => "chp"
  | .spc => "spc"
  | .alc => "alc"

structure Customer where
  type : CustomerType
  name : String
  id : Int
  ordered : Bool := false
  firstOrder : Bool := false
  idOrdered : List Int := []
  deriving DecidableEq, Repr

/-- The copy constructors (Customer.cpp:29-35, 95-101, 138-144, 216-222) pass on name and id only. -/
def Customer.clone (c : Customer) : Customer := { type := c.type, name := c.name, id := c.id }

def Customer.toString (c : Customer) : String := ToString.toString c.id ++ " " ++ c.name

/-! ## The four ways to order

Each loop over the menu carries what its variables hold: ids are -1 where nothing is found. -/

/-- Customer.cpp:41-53. -/
def smallestVegId (menu : List Dish) : Int :=
  menu.foldl (fun s d =>
    if d.type = .veg then
      if s = -1 then d.id else if d.id < s then d.id else s
    else s) (-1)

/-- The id and price of Customer.cpp:55-71. -/
def pricestBVG (menu : List Dish) : Int × Int :=
  menu.foldl (fun (id, price) d =>
    if d.type = .bvg then
      if id = -1 then (d.id, d.price)
      else if price < d.price ∨ (price = d.price ∧ id > d.id) then (d.id, d.price)
      else (id, price)
    else (id, price)) (-1, -1)

/-- The id and price of Customer.cpp:108-117, started on the first dish. -/
def cheapestDish (first : Dish) (menu : List Dish) : Int × Int :=
  menu.foldl (fun (id, price) d => if d.price < price then (d.id, d.price) else (id, price)) (first.id, first.price)

/-- Customer.cpp:152-170. -/
def pricestSPC (menu : List Dish) : Int × Int :=
  menu.foldl (fun (id, price) d =>
    if id = -1 ∧ d.type = .spc then (d.id, d.price)
    else if d.price ≥ price ∧ d.type = .spc then
      if (d.price = price ∧ d.id < id) ∨ d.price > price then (d.id, d.price) else (id, price)
    else (id, price)) (-1, -1)

/-- Customer.cpp:176-193. -/
def cheapestBVG (menu : List Dish) : Int × Int :=
  menu.foldl (fun (id, price) d =>
    if id = -1 ∧ d.type = .bvg then (d.id, d.price)
    else if d.price ≤ price ∧ d.type = .bvg then
      if (d.price = price ∧ d.id < id) ∨ d.price < price then (d.id, d.price) else (id, price)
    else (id, price)) (-1, -1)

/-- One round of Customer.cpp:229-264: two tests in a row, the second on what the first left. -/
def cheapestALCStep (idOrdered : List Int) (acc : Int × Int) (di : Dish × Nat) : Int × Int :=
  let (d, i) := di
  let inOrdered := idOrdered.any (fun j => j = (i : Int))
  let acc := if d.type = .alc ∧ acc.2 = -1 then if inOrdered then acc else (d.id, d.price) else acc
  if d.price < acc.2 ∧ d.type = .alc then if inOrdered then acc else (d.id, d.price) else acc

/-- Customer.cpp:223-264. -/
def cheapestALC (idOrdered : List Int) (menu : List Dish) : Int × Int :=
  menu.zipIdx.foldl (cheapestALCStep idOrdered) (-1, -1)

/-- `order`: the customer afterwards and the ids it asks for. -/
def Customer.order (menu : List Dish) (c : Customer) : Except Fault (Customer × List Int) :=
  match c.type with
  | .veg => .ok ({ c with ordered := true }, [smallestVegId menu, (pricestBVG menu).1])
  | .chp =>
    if c.ordered then .ok (c, [])
    else match menu with
      | [] => .error .badIndex
      | d :: _ => .ok ({ c with ordered := true }, [(cheapestDish d menu).1])
  | .spc =>
    if c.firstOrder then .ok (c, [(cheapestBVG menu).1])
    else .ok ({ c with firstOrder := true }, [(pricestSPC menu).1])
  | .alc =>
    let id := (cheapestALC c.idOrdered menu).1
    .ok ({ c with idOrdered := c.idOrdered ++ [id] }, [id])

/-- Ordering changes neither who the customer is nor of what type. -/
theorem Customer.order_same {menu : List Dish} {c c' : Customer} {ids : List Int}
    (h : c.order menu = .ok (c', ids)) : c'.id = c.id ∧ c'.name = c.name ∧ c'.type = c.type := by
  unfold Customer.order at h
  split at h
  · cases h
    exact ⟨rfl, rfl, rfl⟩
  · split at h
    · cases h
      exact ⟨rfl, rfl, rfl⟩
    · split at h <;> cases h
      exact ⟨rfl, rfl, rfl⟩
  · split at h <;> cases h <;> exact ⟨rfl, rfl, rfl⟩
  · cases h
    exact ⟨rfl, rfl, rfl⟩

@[simp] theorem Customer.clone_id (c : Customer) : c.clone.id = c.id := rfl

end Rest
