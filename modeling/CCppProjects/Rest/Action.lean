import CCppProjects.Rest.Table
import CCppProjects.Lib.Run
/-
# The restaurant and its actions (Restaurant.cpp, Action.cpp)

`World` is the program's state: the restaurant, the global `backup` and the customers on the heap. An
`act` gives the world after it and what the action says and prints; `step` is one round of the loop of
`Restaurant::start`. A step that throws or is undefined ends the run with a `Fault`.
-/
namespace Rest

open Heap

/-- The subclasses of `BaseAction` with the fields of each. -/
inductive ActionKind
  | openTable (tableId : Int) (customers : List Ptr)
  | order (tableId : Int)
  | moveCustomer (srcTable dstTable id : Int)
  | close (tableId : Int)
  | printMenu
  | printTableStatus (tableId : Int)
  | backupRestaurant
  | restoreResturant
  deriving DecidableEq, Repr

inductive ActionStatus
  | pending | completed | error
  deriving DecidableEq, Repr

structure BaseAction where
  kind : ActionKind
  status : ActionStatus := .pending
  errorMsg : String := ""
  deriving DecidableEq, Repr

structure Restaurant where
  numOfTables : Nat
  tables : List Table
  menu : List Dish
  actionsLog : List BaseAction
  customerCount : Int
  deriving DecidableEq, Repr

structure World where
  rest : Restaurant
  backup : Option Restaurant
  heap : Customers
  deriving DecidableEq, Repr

/-! ## Base actions -/

/-- Action.cpp:31-38. -/
def BaseAction.getErrorMsg (a : BaseAction) : String := if a.errorMsg ≠ "" then ": " ++ a.errorMsg else ""

def ActionStatus.toString : ActionStatus → String
  | .error => "Error"
  | .completed => "Completed"
  | .pending => "Pending"

def BaseAction.statusTostring (a : BaseAction) : String := a.status.toString

/-- Action.cpp:122-127: what the record of an `open` reads of its customers. -/
def customersText (h : Customers) : List Ptr → Except Fault String
  | [] => .ok ""
  | p :: ps => do
    let (_, c) ← deref h p
    let rest ← customersText h ps
    .ok (c.name ++ "," ++ c.type.getType ++ " " ++ rest)

/-- The `toString` of every action. -/
def BaseAction.toString (h : Customers) (a : BaseAction) : Except Fault String :=
  match a.kind with
  | .openTable tableId customers => do
    let text ← customersText h customers
    .ok ("open " ++ ToString.toString tableId ++ " " ++ text ++ (a.statusTostring ++ a.getErrorMsg))
  | .order tableId => .ok ("order " ++ ToString.toString tableId ++ " " ++ a.statusTostring ++ a.getErrorMsg)
  | .moveCustomer src dst id =>
    .ok ("move " ++ ToString.toString src ++ " " ++ ToString.toString dst ++ " " ++ ToString.toString id ++ " "
      ++ a.statusTostring ++ a.getErrorMsg)
  | .close _ => .ok (a.statusTostring ++ " " ++ a.getErrorMsg ++ "\n")
  | .printMenu => .ok ""
  | .printTableStatus tableId => .ok ("status " ++ ToString.toString tableId ++ " " ++
      a.statusTostring ++ a.getErrorMsg)
  | .backupRestaurant => .ok ("backup " ++ a.statusTostring)
  | .restoreResturant => .ok ("restore " ++ a.statusTostring)

/-- The `Clone` of every action. That of `OpenTable` (Action.cpp:85-96) clones the customers and sets the
error text to `getErrorMsg()`, the text with its ": " in front. -/
def BaseAction.clone (h : Customers) (a : BaseAction) : Except Fault (Customers × BaseAction) :=
  match a.kind with
  | .openTable tableId customers => do
    let (h, cust) ← cloneAll h customers
    .ok (h, { kind := .openTable tableId cust, status := a.status, errorMsg := a.getErrorMsg })
  | _ => .ok (h, a)

def cloneLog (h : Customers) : List BaseAction → Except Fault (Customers × List BaseAction)
  | [] => .ok (h, [])
  | a :: as => do
    let (h, b) ← a.clone h
    let (h, bs) ← cloneLog h as
    .ok (h, b :: bs)

/-- The loop of Action.cpp:74-77: deletes up to the first null pointer or the end. -/
def deleteToNull (h : Customers) : List Ptr → Except Fault Customers
  | [] | none :: _ => .ok h
  | p :: ps => do
    let h ← delete h p
    deleteToNull h ps

/-- Action.cpp:72-78. -/
def deleteFailed (h : Customers) (status : ActionStatus) (customers : List Ptr) : Except Fault Customers :=
  if status = .error then deleteToNull h customers else .ok h

/-- Action.cpp:79-82. The test `0 < customers.size()` never ends the loop, so without a null pointer it
reads past the vector. -/
def deletePastEnd (h : Customers) : List Ptr → Except Fault Customers
  | [] => .error .badIndex
  | none :: _ => .ok h
  | p :: ps => do
    let h ← delete h p
    deletePastEnd h ps

/-- The destructors; only that of `OpenTable` does anything. -/
def BaseAction.destroy (h : Customers) (a : BaseAction) : Except Fault Customers :=
  match a.kind with
  | .openTable _ customers => do
    let h ← deleteFailed h a.status customers
    if customers.isEmpty then .ok h else deletePastEnd h customers
  | _ => .ok h

def destroyLog (h : Customers) (as : List BaseAction) : Except Fault Customers := as.foldlM BaseAction.destroy h

/-! ## The restaurant -/

/-- `getTable` (Restaurant.cpp:354-357): `at` of the index as a `size_t`. -/
def Restaurant.getTable (r : Restaurant) (ind : Int) : Except Fault Table :=
  if 0 ≤ ind then
    match r.tables[ind.toNat]? with
    | some t => .ok t
    | none => .error .outOfRange
  else .error .outOfRange

def Restaurant.getNumOfTables (r : Restaurant) : Nat := r.tables.length

def Restaurant.setTable (r : Restaurant) (ind : Int) (t : Table) : Restaurant :=
  { r with tables := r.tables.set ind.toNat t }

/-- `new Table(t)` for every table of a list. -/
def copyTables (h : Customers) : List Table → Except Fault (Customers × List Table)
  | [] => .ok (h, [])
  | t :: ts => do
    let (h, u) ← t.copy h
    let (h, us) ← copyTables h ts
    .ok (h, u :: us)

/-- The copy constructor, Restaurant.cpp:15-39. -/
def Restaurant.copy (h : Customers) (res : Restaurant) : Except Fault (Customers × Restaurant) := do
  let (h, actionsLog) ← cloneLog h res.actionsLog
  if res.tables.length < res.numOfTables then .error .outOfRange else do
    let (h, tables) ← copyTables h (res.tables.take res.numOfTables)
    .ok (h, { res with actionsLog, tables })

/-- Restaurant.cpp:426-445. The tables go, their customers stay on the heap. -/
def Restaurant.clear (h : Customers) (r : Restaurant) : Except Fault (Customers × Restaurant) := do
  let h ← destroyLog h r.actionsLog
  .ok (h, { r with tables := [], actionsLog := [], menu := [] })

/-- `operator=`, Restaurant.cpp:384-407. The menu is not assigned; the loop that deletes the tables of `r`
ends only when there is none. -/
def Restaurant.assign (h : Customers) (r res : Restaurant) : Except Fault (Customers × Restaurant) := do
  let (h, log) ← cloneLog h res.actionsLog
  if r.tables ≠ [] then .error .badIndex else do
    let (h, tables) ← copyTables h res.tables
    .ok (h, { r with actionsLog := r.actionsLog ++ log, customerCount := res.customerCount,
                     numOfTables := res.numOfTables, tables := r.tables ++ tables })

/-! ## The actions -/

/-- What an `act` leaves in its action and prints. -/
structure Outcome where
  status : ActionStatus := .completed
  errorMsg : String := ""
  out : String := ""
  deriving DecidableEq, Repr

def Table.addCustomers (t : Table) (cs : List Ptr) : Table := cs.foldl Table.addCustomer t

/-- Action.cpp:98-115. -/
def OpenTable.act (tableId : Int) (customers : List Ptr) (w : World) : Except Fault (World × Outcome) :=
  let failed : Except Fault (World × Outcome) :=
    .ok (w, { status := .error, errorMsg := "Table does not exist or is already open",
              out := "Error: Table does not exist or is already open\n" })
  if tableId ≤ w.rest.getNumOfTables then do
    let t ← w.rest.getTable tableId
    if t.isOpen then failed
    else .ok ({ w with rest := w.rest.setTable tableId (t.openTable.addCustomers customers) }, {})
  else failed

def servedText (served : List (String × OrderPair)) : String :=
  String.join (served.map fun s => s.1 ++ " ordered " ++ s.2.2.name ++ "\n")

/-- Action.cpp:145-149. -/
def Order.act (tableId : Int) (w : World) : Except Fault (World × Outcome) := do
  let t ← w.rest.getTable tableId
  let (heap, t, served) ← t.order w.heap w.rest.menu
  .ok ({ w with rest := w.rest.setTable tableId t, heap }, { out := servedText served })

/-- `addDishes(id, getTable(src)->getOrders())`: when source and destination are one table, the list read is
the list appended to. -/
def Table.addDishesFrom (d s : Table) (same : Prop) [Decidable same] (id : Int) : Except Fault Table :=
  if same then d.addOwnDishes id else .ok (d.addDishes id s.orderList)

/-- Action.cpp:172-189. -/
def MoveCustomer.act (src dst id : Int) (w : World) : Except Fault (World × Outcome) := do
  let d ← w.rest.getTable dst
  if !d.isFull && d.isOpen then do
    let s ← w.rest.getTable src
    let cu ← s.getCustomer w.heap id
    let d ← (d.addCustomer cu).addDishesFrom s (src = dst) id
    let rest := w.rest.setTable dst d
    let s ← rest.getTable src
    let (heap, s) ← s.removeCustomer w.heap id
    .ok ({ w with rest := rest.setTable src s, heap }, {})
  else .ok (w, { status := .error, errorMsg := "Cannot move customer", out := "Error: Cannot move customer\n" })

/-- Action.cpp:207-220. -/
def Close.act (tableId : Int) (w : World) : Except Fault (World × Outcome) := do
  let t ← w.rest.getTable tableId
  if t.isOpen then do
    let bill ← t.getBill
    let (heap, t) ← t.closeTable w.heap
    .ok ({ w with rest := w.rest.setTable tableId t, heap },
      { out := "Table " ++ ToString.toString tableId ++ " was closed. Bill " ++ ToString.toString bill ++ "NIS\n" })
  else .ok (w, { status := .error, errorMsg := "Table is already closed" })

/-- Action.cpp:269-276; the status stays pending. -/
def PrintMenu.act (w : World) : Except Fault (World × Outcome) :=
  .ok (w, { status := .pending, out := String.join (w.rest.menu.map Dish.toString) })

/-- Action.cpp:305-309: the customers of a table, a line each. -/
def customersLines (h : Customers) : List Ptr → Except Fault String
  | [] => .ok ""
  | p :: ps => do
    let (_, c) ← deref h p
    let rest ← customersLines h ps
    .ok (c.toString ++ "\n" ++ rest)

/-- Action.cpp:296-324. -/
def PrintTableStatus.act (tableId : Int) (w : World) : Except Fault (World × Outcome) := do
  let t ← w.rest.getTable tableId
  let n := ToString.toString tableId
  if t.isOpen then do
    let customers ← customersLines w.heap t.customersList
    let orders := String.join (t.orderList.map fun o =>
      o.2.name ++ " " ++ ToString.toString o.2.price ++ "NIS " ++ ToString.toString o.1 ++ "\n")
    let bill ← t.getBill
    .ok (w, { out := "Table " ++ n ++ " status: open\nCustomers:\n" ++ customers ++ "Orders:\n" ++ orders ++
                "Current Bill: " ++ ToString.toString bill ++ "NIS \n" })
  else .ok (w, { out := "Table " ++ n ++ " status: closed\n" })

/-- The log as text, a line for each action (Action.cpp:349-354). -/
def logText (h : Customers) : List BaseAction → Except Fault String
  | [] => .ok ""
  | a :: as => do
    let line ← a.toString h
    let rest ← logText h as
    .ok (line ++ "\n" ++ rest)

/-- Action.cpp:345-356. -/
def PrintActionsLog.act (w : World) : Except Fault (World × Outcome) := do
  let out ← logText w.heap w.rest.actionsLog
  .ok (w, { out })

/-- Action.cpp:383-387. -/
def BackupRestaurant.act (w : World) : Except Fault (World × Outcome) := do
  let (heap, copy) ← w.rest.copy w.heap
  .ok ({ w with backup := some copy, heap }, {})

/-- Action.cpp:412-426. -/
def RestoreResturant.act (w : World) : Except Fault (World × Outcome) :=
  match w.backup with
  | some backup => do
    let (heap, rest) ← w.rest.clear w.heap
    let (heap, rest) ← rest.assign heap backup
    .ok ({ w with rest, heap }, {})
  | none => .ok (w, { status := .error, errorMsg := "No backup" })

/-! ## The command loop -/

/-- A command line, its words read: the customers of an `open` as pairs of name and type word. -/
inductive Cmd
  | openTable (tableId : Int) (customers : List (String × String))
  | order (tableId : Int)
  | move (src dst id : Int)
  | close (tableId : Int)
  | menu
  | status (tableId : Int)
  | log
  | backup
  | restore
  | closeall
  deriving DecidableEq, Repr

def CustomerType.ofWord (word : String) : Option CustomerType :=
  if word = "veg" then some .veg
  else if word = "chp" then some .chp
  else if word = "spc" then some .spc
  else if word = "alc" then some .alc
  else none

/-- Restaurant.cpp:158-189: the customers an `open` creates. A type word of no class creates none but
still takes a number. -/
def newCustomers (h : Customers) (customerCount : Int) :
    List (String × String) → Except Fault (Customers × Int × List Ptr)
  | [] => .ok (h, customerCount, [])
  | (name, word) :: cs => do
    let (h, ps) := match CustomerType.ofWord word with
      | some type => let (h, p) := Heap.new h { type, name, id := customerCount }; (h, [p])
      | none => (h, [])
    let customerCount ← int (customerCount + 1)
    let (h, customerCount, qs) ← newCustomers h customerCount cs
    .ok (h, customerCount, ps ++ qs)

def World.push (w : World) (kind : ActionKind) (o : Outcome) : World :=
  { w with rest := { w.rest with actionsLog :=
      w.rest.actionsLog ++ [{ kind, status := o.status, errorMsg := o.errorMsg }] } }

/-- `act` and `actionsLog.push_back`. -/
def World.record (w : World) (kind : ActionKind) (act : World → Except Fault (World × Outcome)) :
    Except Fault (World × String) := do
  let (w, o) ← act w
  .ok (w.push kind o, o.out)

/-- Restaurant.cpp:239-247: `Close` of every table, from the `i`th on. -/
def closeTables : Nat → Nat → World → Except Fault (World × String)
  | 0, _, w => .ok (w, "")
  | n + 1, i, w => do
    let (w, out) ← w.record (.close i) (Close.act i)
    let (w, rest) ← closeTables n (i + 1) w
    .ok (w, out ++ rest)

/-- Restaurant.cpp:237-265. -/
def closeall (w : World) : Except Fault (World × String) := do
  let (w, out) ← closeTables w.rest.tables.length 0 w
  let (heap, rest) ← w.rest.clear w.heap
  .ok ({ w with rest, heap }, out)

/-- One round of the loop of `Restaurant::start`, with what it prints (Restaurant.cpp:151-267). -/
def step (w : World) : Cmd → Except Fault (World × String)
  | .openTable tableId cs => do
    let (heap, customerCount, customers) ← newCustomers w.heap w.rest.customerCount cs
    { w with heap, rest := { w.rest with customerCount } }.record (.openTable tableId customers)
      (OpenTable.act tableId customers)
  | .order tableId => w.record (.order tableId) (Order.act tableId)
  | .move src dst id => w.record (.moveCustomer src dst id) (MoveCustomer.act src dst id)
  | .close tableId => w.record (.close tableId) (Close.act tableId)
  | .menu => w.record .printMenu PrintMenu.act
  | .status tableId => w.record (.printTableStatus tableId) (PrintTableStatus.act tableId)
  | .log => do
    let (w, o) ← PrintActionsLog.act w
    .ok (w, o.out)
  | .backup => w.record .backupRestaurant BackupRestaurant.act
  | .restore => w.record .restoreResturant RestoreResturant.act
  | .closeall => closeall w

/-- The commands that lead from one state of the loop to the next without a fault; `closeall` ends it. -/
def Steps (w : World) (c : Cmd) (w' : World) : Prop := c ≠ .closeall ∧ ∃ out, step w c = .ok (w', out)

/-- The state after a command, if the loop goes on. -/
def next (w : World) (c : Cmd) : Option World :=
  if c = .closeall then none else match step w c with
    | .ok (w', _) => some w'
    | .error _ => none

theorem steps_iff {w w' : World} {c : Cmd} : Steps w c w' ↔ next w c = some w' := by
  unfold Steps next
  by_cases hc : c = .closeall
  · simp [hc]
  · rw [if_neg hc]
    constructor
    · rintro ⟨-, out, hs⟩
      rw [hs]
    · intro hs
      split at hs <;> cases hs
      exact ⟨hc, _, ‹_›⟩

theorem steps_of_along {P : World → Cmd → Bool} {w : World} {cmds : List Cmd} (h : Lts.along next P w cmds = true) :
    Lts.Steps Steps (fun w c => P w c = true) w cmds := by
  refine Lts.Steps.of_along (fun w c w' hs => ?_) h
  exact steps_iff.1 hs

theorem run_of_next {w w' : World} {cmds : List Cmd} (h : cmds.foldlM next w = some w') : Lts.Run Steps w cmds w' :=
  (Lts.Run.of_foldlM h).mono fun _ _ _ => steps_iff.2

/-- What a command sequence prints, up to the fault or the `closeall` that may end it. -/
def outputs : World → List Cmd → List (Except Fault String)
  | _, [] => []
  | w, c :: cs => match step w c with
    | .ok (w', out) => .ok out :: if c = .closeall then [] else outputs w' cs
    | .error e => [.error e]

/-- A restaurant as its configuration file makes it: tables by capacity, each with the open flag that
happened to be in memory, and dishes numbered in their order (Restaurant.cpp:43-144). -/
def boot (tables : List (Nat × Bool)) (dishes : List (String × Int × DishType)) : World :=
  { rest := { numOfTables := tables.length
              tables := tables.map fun t => .new t.1 t.2
              menu := dishes.zipIdx.map fun (d, i) => { id := i, name := d.1, price := d.2.1, type := d.2.2 }
              actionsLog := []
              customerCount := 0 }
    backup := none
    heap := [] }

end Rest
