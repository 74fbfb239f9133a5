import CCppProjects.Rest.Invariant
/-
# The lines of the command loop (Restaurant.cpp:146-303)

| here | there |
|---|---|
| `getWordVec` | `Restaurant::getWordVec` (Restaurant.cpp:270-292) |
| `stringToInt` | Restaurant.cpp:374-382 |
| `word` | `strVec[i]`, which is undefined past the end |
| `read` | the arguments each branch of `start` takes from the words |
| `lineStep` | one round of the loop; it goes on until the line is "closeall" |
| `given` | what `getline` gives the loop, the end of the input included |

The loop trusts its input: it reads `strVec[0]` of an empty line, `strVec[1]` of a bare command and the type word of
a customer without one, and all tables but that of `open` are asked for with `at`, unchecked. `OpenTable::act` does
check, with `<=` and without a lower bound (Action.cpp:100). Nor does it look at the stream: where no bare
"closeall" comes, `getline` finds the end of the input, leaves the empty string and the round goes on with that.
Every line has its newline here.
-/
namespace Rest

/-- A line, a character for each byte. -/
abbrev Line := List Char

def separator (c : Char) : Bool := c = ' ' || c = ','

/-- A word up to each separator and one up to the end, if the line does not end with a separator. -/
def getWordVec : Line → List Line
  | [] => []
  | c :: s =>
    if separator c then [] :: getWordVec s
    else match getWordVec s with
      | [] => [[c]]
      | w :: ws => (c :: w) :: ws

/-- What ends the loop: a word that is not there, or a fault of the command. -/
inductive Crash
  | noWord
  | fault (f : Fault)
  deriving DecidableEq, Repr

/-- `(int)str[i]`. -/
def charInt (c : Char) : Int := (c.toNat : Int).bmod 256

/-- `num = num * 10 + (int)str[i] - 48` for every character, in `int`. -/
def stringToInt (str : Line) : Except Crash Int :=
  (str.foldlM (fun num c => do
    let num ← int (num * 10)
    let num ← int (num + charInt c)
    int (num - 48)) 0).mapError Crash.fault

def word (strVec : List Line) (i : Nat) : Except Crash Line :=
  match strVec[i]? with
  | some w => .ok w
  | none => .error .noWord

/-- The number in `strVec[i]`. -/
def number (strVec : List Line) (i : Nat) : Except Crash Int := word strVec i >>= stringToInt

/-- The customers of an `open`, a name and a type word each. -/
def pairs : List Line → Except Crash (List (String × String))
  | [] => .ok []
  | [_] => .error .noWord
  | name :: type :: ws => do
    let cs ← pairs ws
    .ok ((String.ofList name, String.ofList type) :: cs)

def readOpen (strVec : List Line) : Except Crash Cmd := do
  let tableId ← number strVec 1
  let cs ← pairs (strVec.drop 2)
  .ok (.openTable tableId cs)

def readMove (strVec : List Line) : Except Crash Cmd := do
  let src ← number strVec 1
  let dst ← number strVec 2
  let id ← number strVec 3
  .ok (.move src dst id)

/-- The branches of `start`; a first word that names none does nothing. -/
def read (strVec : List Line) : Except Crash (Option Cmd) := do
  let command ← word strVec 0
  match String.ofList command with
  | "open" => some <$> readOpen strVec
  | "order" => (fun i => some (.order i)) <$> number strVec 1
  | "move" => some <$> readMove strVec
  | "close" => (fun i => some (.close i)) <$> number strVec 1
  | "menu" => .ok (some .menu)
  | "status" => (fun i => some (.status i)) <$> number strVec 1
  | "log" => .ok (some .log)
  | "backup" => .ok (some .backup)
  | "restore" => .ok (some .restore)
  | "closeall" => .ok (some .closeall)
  | _ => .ok none

def lineStep (w : World) (line : Line) : Except Crash (World × String) := do
  match ← read (getWordVec line) with
  | none => .ok (w, "")
  | some c => (step w c).mapError Crash.fault

/-- The lines of the loop's rounds: those of the input, and behind them the empty one that `getline` leaves at the
end of the input. -/
def given (input : List Line) : List Line := input ++ [[]]

/-- The lines that lead from one state of the loop to the next. Only the bare line "closeall" ends it. -/
def LineSteps (w : World) (line : Line) (w' : World) : Prop :=
  String.ofList line ≠ "closeall" ∧ ∃ out, lineStep w line = .ok (w', out)

/-! ## What a line should do -/

/-- A word read past the end, or an exception; the tables are indexed with `at` only. -/
def Crash.Escapes : Crash → Prop
  | .noWord => True
  | .fault f => f = .outOfRange

/-- How many words each command takes. -/
def needed (command : String) : Nat :=
  match command with
  | "open" | "order" | "close" | "status" => 2
  | "move" => 4
  | _ => 1

/-- Arguments are missing, or the last customer of an `open` has no type. -/
def Lacks (strVec : List Line) : Prop :=
  ∃ command, strVec[0]? = some command ∧
    (strVec.length < needed (String.ofList command) ∨ String.ofList command = "open" ∧ strVec.length % 2 = 1)

/-- The words that name a table. -/
def tableWords (strVec : List Line) : List Line :=
  match strVec with
  | command :: args =>
    match String.ofList command with
    | "open" | "order" | "close" | "status" => args.take 1
    | "move" => args.take 2
    | _ => []
  | [] => []

def Names (w : World) (word : Line) : Prop :=
  ∃ i, stringToInt word = .ok i ∧ 0 ≤ i ∧ i < w.rest.tables.length

/-- The loop survives the line: no word is read past the end and no exception escapes, and a command that lacks
arguments or names a table that does not exist is rejected, the tables as they were. -/
structure Survives (w : World) (line : Line) : Prop where
  crash : ∀ e, lineStep w line = .error e → ¬ e.Escapes
  rejected : Lacks (getWordVec line) ∨ (∃ t ∈ tableWords (getWordVec line), ¬ Names w t) →
    ∃ w' out, lineStep w line = .ok (w', out) ∧ w'.rest.tables = w.rest.tables

/-- Is there such a table? -/
def Restaurant.HasTable (r : Restaurant) (i : Int) : Prop := 0 ≤ i ∧ i < r.tables.length

instance (r : Restaurant) (i : Int) : Decidable (r.HasTable i) := inferInstanceAs (Decidable (_ ∧ _))

/-- The tables a command asks for exist, or the command is refused before it asks. -/
def safe (w : World) : Cmd → Bool
  | .openTable i cs => w.rest.HasTable i ∨ (w.rest.tables.length < i ∧ -2 ^ 31 ≤ w.rest.customerCount ∧
    w.rest.customerCount + cs.length < 2 ^ 31)
  | .order i | .close i | .status i => w.rest.HasTable i
  | .move src dst _ =>
    match w.rest.getTable dst with
    | .ok t => t.isFull || !t.isOpen || decide (w.rest.HasTable src)
    | .error _ => false
  | .backup => w.rest.numOfTables ≤ w.rest.tables.length
  | _ => true

/-- A line whose words and numbers can be read, and a command that is safe. -/
def clean (w : World) (line : Line) : Bool :=
  match read (getWordVec line) with
  | .ok (some c) => safe w c
  | .ok none => true
  | .error _ => false

/-! ## Only `at` throws -/

/-- A computation that does not end in an `out_of_range`. -/
def Quiet {α : Type} (m : Except Fault α) : Prop := Sat m (fun e => e ≠ .outOfRange) fun _ => True

namespace Quiet

variable {α β : Type} {m : Except Fault α} {f : α → Except Fault β} {e : Fault}

theorem ok (a : α) : Quiet (.ok a : Except Fault α) := Sat.ok trivial

theorem error (h : e ≠ .outOfRange) : Quiet (.error e : Except Fault α) := Sat.error h

theorem bind (h : Quiet m) (hf : ∀ a, m = .ok a → Quiet (f a)) : Quiet (m >>= f) := Sat.bind h fun a ha _ => hf a ha

theorem ite {p : Prop} [Decidable p] {m' : Except Fault α} (h : Quiet m) (h' : Quiet m') :
    Quiet (if p then m else m') :=
  Sat.ite (fun _ => h) fun _ => h'

theorem foldlM {γ : Type} {g : γ → α → Except Fault γ} (hg : ∀ c a, Quiet (g c a)) :
    ∀ (as : List α) (c : γ), Quiet (as.foldlM g c)
  | [], c => ok c
  | a :: as, c => by
    rw [List.foldlM_cons]
    exact bind (hg c a) fun c' _ => foldlM hg as c'

theorem not_throws (h : Quiet m) : m ≠ .error .outOfRange := fun he => Sat.of_error h he rfl

end Quiet

theorem int_quiet (n : Int) : Quiet (int n) := by
  unfold int
  split
  · exact .ok _
  · exact .error (by simp)

section Quietness

variable (h : Customers) (p : Heap.Ptr) (ps : List Heap.Ptr) (t : Table) (id : Int) (menu : List Dish)

theorem deref_quiet : Quiet (deref h p) := by
  unfold deref
  split
  · exact .error (by simp)
  · split
    · exact .ok _
    · exact .error (by simp)

theorem delete_quiet : Quiet (delete h p) := by
  unfold delete
  split
  · exact .ok _
  · split
    · exact .ok _
    · exact .error (by simp)

theorem deleteAll_quiet : Quiet (deleteAll h ps) := Quiet.foldlM delete_quiet ps h

theorem closeTable_quiet : Quiet (t.closeTable h) := (deleteAll_quiet h _).bind fun _ _ => .ok _

theorem eraseCustomer_quiet : Quiet (eraseCustomer h id ps) := by
  induction ps with
  | nil => exact .ok _
  | cons p ps ih =>
    exact (deref_quiet h p).bind fun r _ => .ite (.ok _) (ih.bind fun _ _ => .ok _)

theorem removeCustomer_quiet : Quiet (t.removeCustomer h id) := by
  exact (eraseCustomer_quiet h _ id).bind fun qs _ => (int_quiet _).bind fun n _ => .ite (closeTable_quiet ..) (.ok _)

theorem findCustomer_quiet : Quiet (findCustomer h id ps) := by
  induction ps with
  | nil => exact .ok _
  | cons p ps ih =>
    exact (deref_quiet h p).bind fun r _ => .ite (.ok _) ih

theorem serve_quiet (ds : List Int) : Quiet (serve menu id ds) := by
  induction ds with
  | nil => exact .ok _
  | cons d ds ih =>
    refine ih.bind fun rest _ => ?_
    refine .ite (.ok _) (.ite (.error (by simp)) ?_)
    split
    · exact .error (by simp)
    · exact .ok _

theorem customer_order_quiet (c : Customer) : Quiet (c.order menu) := by
  unfold Customer.order
  split
  · exact .ok _
  · refine .ite (.ok _) ?_
    split
    · exact .error (by simp)
    · exact .ok _
  · exact .ite (.ok _) (.ok _)
  · exact .ok _

theorem orderLoop_quiet (n i : Nat) : Quiet (orderLoop menu ps n i h) := by
  induction n generalizing i h with
  | zero => exact .ok _
  | succ n ih =>
    unfold orderLoop
    split
    · exact .error (by simp)
    · refine (deref_quiet h _).bind fun r _ => (customer_order_quiet menu r.2).bind fun o _ => ?_
      exact (serve_quiet ..).bind fun _ _ => (ih ..).bind fun _ _ => .ok _

theorem table_order_quiet : Quiet (t.order h menu) := (orderLoop_quiet ..).bind fun _ _ => .ok _

theorem getBill_quiet : Quiet t.getBill := Quiet.foldlM (fun _ _ => int_quiet _) _ _

theorem cloneAll_quiet : Quiet (cloneAll h ps) := by
  induction ps generalizing h with
  | nil => exact .ok _
  | cons p ps ih => exact (deref_quiet h p).bind fun _ _ => (ih _).bind fun _ _ => .ok _

theorem table_copy_quiet : Quiet (t.copy h) := (cloneAll_quiet ..).bind fun _ _ => .ok _

theorem customersText_quiet : Quiet (customersText h ps) := by
  induction ps with
  | nil => exact .ok _
  | cons p ps ih => exact (deref_quiet h p).bind fun _ _ => ih.bind fun _ _ => .ok _

theorem customersLines_quiet : Quiet (customersLines h ps) := by
  induction ps with
  | nil => exact .ok _
  | cons p ps ih => exact (deref_quiet h p).bind fun _ _ => ih.bind fun _ _ => .ok _

variable (a : BaseAction) (as : List BaseAction) (ts : List Table)

theorem toString_quiet : Quiet (a.toString h) := by
  unfold BaseAction.toString
  split
  · exact (customersText_quiet ..).bind fun _ _ => .ok _
  all_goals exact .ok _

theorem logText_quiet : Quiet (logText h as) := by
  induction as with
  | nil => exact .ok _
  | cons a as ih => exact (toString_quiet h a).bind fun _ _ => ih.bind fun _ _ => .ok _

theorem clone_quiet : Quiet (a.clone h) := by
  unfold BaseAction.clone
  split
  · exact (cloneAll_quiet ..).bind fun _ _ => .ok _
  · exact .ok _

theorem cloneLog_quiet : Quiet (cloneLog h as) := by
  induction as generalizing h with
  | nil => exact .ok _
  | cons a as ih => exact (clone_quiet h a).bind fun _ _ => (ih _).bind fun _ _ => .ok _

theorem copyTables_quiet : Quiet (copyTables h ts) := by
  induction ts generalizing h with
  | nil => exact .ok _
  | cons t ts ih => exact (table_copy_quiet h t).bind fun _ _ => (ih _).bind fun _ _ => .ok _

theorem deleteToNull_quiet : Quiet (deleteToNull h ps) := by
  induction ps generalizing h with
  | nil => exact .ok _
  | cons p ps ih =>
    cases p with
    | none => exact .ok _
    | some a => exact (delete_quiet h _).bind fun _ _ => ih _

theorem deletePastEnd_quiet : Quiet (deletePastEnd h ps) := by
  induction ps generalizing h with
  | nil => exact .error (by simp)
  | cons p ps ih =>
    cases p with
    | none => exact .ok _
    | some a => exact (delete_quiet h _).bind fun _ _ => ih _

theorem destroy_quiet : Quiet (a.destroy h) := by
  unfold BaseAction.destroy
  split
  · refine Quiet.bind ?_ fun h' _ => .ite (.ok _) (deletePastEnd_quiet ..)
    exact .ite (deleteToNull_quiet ..) (.ok _)
  · exact .ok _

theorem clear_quiet (r : Restaurant) : Quiet (r.clear h) :=
  (Quiet.foldlM destroy_quiet _ _).bind fun _ _ => .ok _

theorem assign_quiet (r res : Restaurant) : Quiet (r.assign h res) := by
  exact (cloneLog_quiet ..).bind fun _ _ => .ite (.error (by simp)) ((copyTables_quiet ..).bind fun _ _ => .ok _)

theorem newCustomers_quiet (n : Int) (cs : List (String × String)) : Quiet (newCustomers h n cs) := by
  induction cs generalizing h n with
  | nil => exact .ok _
  | cons c cs ih =>
    obtain ⟨name, type⟩ := c
    exact (int_quiet _).bind fun _ _ => (ih ..).bind fun _ _ => .ok _

end Quietness

/-! ## The commands -/

theorem getTable_of_has {r : Restaurant} {i : Int} (h : r.HasTable i) : ∃ t, r.getTable i = .ok t := by
  obtain ⟨h0, hlt⟩ := h
  have hget : r.tables[i.toNat]? = some r.tables[i.toNat] := List.getElem?_eq_getElem (by omega)
  exact ⟨_, by rw [Restaurant.getTable, if_pos h0, hget]⟩

theorem hasTable_of_get {r : Restaurant} {i : Int} {t : Table} (h : r.getTable i = .ok t) : r.HasTable i := by
  have h0 := getTable_nonneg h
  have hlt := (List.getElem?_eq_some_iff.1 (getTable_ok h)).1
  exact ⟨h0, by omega⟩

theorem getTable_quiet {r : Restaurant} {i : Int} (h : r.HasTable i) : Quiet (r.getTable i) := by
  obtain ⟨t, ht⟩ := getTable_of_has h
  rw [ht]
  exact .ok t

theorem hasTable_setTable {r : Restaurant} {i j : Int} {t : Table} (h : r.HasTable i) :
    (r.setTable j t).HasTable i := by
  simpa [Restaurant.HasTable, Restaurant.setTable] using h

theorem record_of_ok {w w' : World} {o : Outcome} {kind : ActionKind} {act : World → Except Fault (World × Outcome)}
    (h : act w = .ok (w', o)) : w.record kind act = .ok (w'.push kind o, o.out) := by
  rw [World.record, h]
  rfl

theorem record_quiet {w : World} {kind : ActionKind} {act : World → Except Fault (World × Outcome)}
    (h : Quiet (act w)) :
    Quiet (w.record kind act) := h.bind fun _ _ => .ok _

section Acts

variable {w : World} {i : Int}

theorem OpenTable.act_quiet {ps : List Heap.Ptr} (h : w.rest.HasTable i ∨ w.rest.tables.length < i) :
    Quiet (OpenTable.act i ps w) := by
  unfold OpenTable.act
  rcases h with h | h
  · refine .ite ((getTable_quiet h).bind fun t _ => .ite (.ok _) (.ok _)) (.ok _)
  · rw [if_neg (by simpa [Restaurant.getNumOfTables] using h)]
    exact .ok _

theorem Order.act_quiet (h : w.rest.HasTable i) : Quiet (Order.act i w) :=
  (getTable_quiet h).bind fun _ _ => (table_order_quiet ..).bind fun _ _ => .ok _

theorem Close.act_quiet (h : w.rest.HasTable i) : Quiet (Close.act i w) :=
  (getTable_quiet h).bind fun t _ =>
    .ite ((getBill_quiet t).bind fun _ _ => (closeTable_quiet ..).bind fun _ _ => .ok _) (.ok _)

theorem PrintTableStatus.act_quiet (h : w.rest.HasTable i) : Quiet (PrintTableStatus.act i w) :=
  (getTable_quiet h).bind fun t _ =>
    .ite ((customersLines_quiet ..).bind fun _ _ => (getBill_quiet t).bind fun _ _ => .ok _) (.ok _)

theorem addDishesFrom_quiet (d s : Table) (same : Prop) [Decidable same] (id : Int) :
    Quiet (d.addDishesFrom s same id) := by
  unfold Table.addDishesFrom Table.addOwnDishes
  exact .ite (.ite (.error (by simp)) (.ok _)) (.ok _)

theorem safe_move {src dst id : Int} (h : safe w (.move src dst id) = true) :
    ∃ t, w.rest.getTable dst = .ok t ∧ (w.rest.HasTable src ∨ t.isFull = true ∨ t.isOpen = false) := by
  simp only [safe] at h
  split at h
  · rename_i t ht
    simp only [Bool.or_eq_true, Bool.not_eq_true', decide_eq_true_eq] at h
    exact ⟨t, ht, h.symm⟩
  · cases h

theorem MoveCustomer.act_quiet {src dst id : Int} (h : safe w (.move src dst id) = true) :
    Quiet (MoveCustomer.act src dst id w) := by
  obtain ⟨t, ht, hs⟩ := safe_move h
  refine Quiet.bind (by rw [ht]; exact .ok t) fun d hget => ?_
  rcases hs with hs | hno
  · refine .ite ((getTable_quiet hs).bind fun s _ => (findCustomer_quiet ..).bind fun cu _ => ?_) (.ok _)
    refine (addDishesFrom_quiet ..).bind fun d' _ => (getTable_quiet (hasTable_setTable hs)).bind fun s' _ => ?_
    exact (removeCustomer_quiet ..).bind fun _ _ => .ok _
  · rw [hget] at ht
    cases ht
    rw [if_neg]
    · exact .ok _
    · rcases hno with hno | hno <;> simp [hno]

theorem BackupRestaurant.act_quiet (h : w.rest.numOfTables ≤ w.rest.tables.length) :
    Quiet (BackupRestaurant.act w) := by
  refine Quiet.bind ?_ fun _ _ => .ok _
  refine (cloneLog_quiet ..).bind fun r _ => ?_
  obtain ⟨h', log⟩ := r
  change Quiet (if w.rest.tables.length < w.rest.numOfTables then _ else _)
  rw [if_neg (by omega)]
  exact (copyTables_quiet ..).bind fun _ _ => .ok _

theorem RestoreResturant.act_quiet : Quiet (RestoreResturant.act w) := by
  unfold RestoreResturant.act
  split
  · exact (clear_quiet ..).bind fun _ _ => (assign_quiet ..).bind fun _ _ => .ok _
  · exact .ok _

theorem Close.act_length {w' : World} {o : Outcome} (ha : Close.act i w = .ok (w', o)) :
    w'.rest.tables.length = w.rest.tables.length := by
  obtain ⟨t, -, ha⟩ := bind_ok ha
  split at ha
  · obtain ⟨bill, -, ha⟩ := bind_ok ha
    obtain ⟨⟨h', t'⟩, -, ha⟩ := bind_ok ha
    cases ha
    simp [Restaurant.setTable]
  · cases ha
    rfl

theorem closeTables_quiet : ∀ (n i : Nat) (w : World), i + n ≤ w.rest.tables.length → Quiet (closeTables n i w)
  | 0, _, _, _ => .ok _
  | n + 1, i, w, hlen => by
    have hi : w.rest.HasTable i := ⟨by omega, by omega⟩
    refine (record_quiet (Close.act_quiet hi)).bind fun r hr => (closeTables_quiet n (i + 1) r.1 ?_).bind
      fun _ _ => .ok _
    obtain ⟨w', out⟩ := r
    obtain ⟨w1, o, ha, rfl⟩ := record_ok hr
    have := Close.act_length ha
    change i + 1 + n ≤ w1.rest.tables.length
    omega

/-- A safe command lets no exception out. -/
theorem step_quiet {c : Cmd} (h : safe w c = true) : Quiet (step w c) := by
  cases c with
  | openTable i cs =>
    refine (newCustomers_quiet ..).bind fun r _ => record_quiet (OpenTable.act_quiet ?_)
    exact (of_decide_eq_true h).imp id And.left
  | order i => exact record_quiet (Order.act_quiet (of_decide_eq_true h))
  | move src dst id => exact record_quiet (MoveCustomer.act_quiet h)
  | close i => exact record_quiet (Close.act_quiet (of_decide_eq_true h))
  | menu => exact record_quiet (.ok _)
  | status i => exact record_quiet (PrintTableStatus.act_quiet (of_decide_eq_true h))
  | log => exact ((logText_quiet ..).bind fun _ _ => .ok _).bind fun _ _ => .ok _
  | backup => exact record_quiet (BackupRestaurant.act_quiet (of_decide_eq_true h))
  | restore => exact record_quiet RestoreResturant.act_quiet
  | closeall => exact (closeTables_quiet _ 0 w (by omega)).bind fun _ _ => (clear_quiet ..).bind fun _ _ => .ok _

/-! ## Rejections -/

/-- The tables a command names. -/
def Cmd.tables : Cmd → List Int
  | .openTable i _ | .order i | .close i | .status i => [i]
  | .move src dst _ => [src, dst]
  | _ => []

theorem newCustomers_total {h : Customers} {n : Int} {cs : List (String × String)} (h0 : -2 ^ 31 ≤ n)
    (hn : n + cs.length < 2 ^ 31) : ∃ r, newCustomers h n cs = .ok r := by
  induction cs generalizing h n with
  | nil => exact ⟨_, rfl⟩
  | cons c cs ih =>
    obtain ⟨name, type⟩ := c
    simp only [List.length_cons] at hn
    have hint : int (n + 1) = .ok (n + 1) := if_pos (by omega)
    unfold newCustomers
    cases CustomerType.ofWord type with
    | none =>
      obtain ⟨r, hr⟩ := ih (h := h) (n := n + 1) (by omega) (by omega)
      exact ⟨_, by simp only [hint, ok_bind, hr]; rfl⟩
    | some k =>
      obtain ⟨r, hr⟩ := ih (h := (Heap.new h { type := k, name, id := n }).1) (n := n + 1) (by omega) (by omega)
      exact ⟨_, by simp only [hint, ok_bind, hr]; rfl⟩

/-- Behind the last table and the one after it, an `open` fails. -/
theorem OpenTable.act_refused (ps : List Heap.Ptr) (h : w.rest.tables.length < i) :
    ∃ o, OpenTable.act i ps w = .ok (w, o) := by
  unfold OpenTable.act
  rw [if_neg (by simpa [Restaurant.getNumOfTables] using h)]
  exact ⟨_, rfl⟩

theorem MoveCustomer.act_refused (src : Int) {dst : Int} (id : Int) {t : Table} (ht : w.rest.getTable dst = .ok t)
    (hno : t.isFull = true ∨ t.isOpen = false) : ∃ o, MoveCustomer.act src dst id w = .ok (w, o) := by
  have hcond : ¬ (!t.isFull && t.isOpen) = true := by
    rcases hno with hno | hno <;> simp [hno]
  unfold MoveCustomer.act
  rw [ht, ok_bind, if_neg hcond]
  exact ⟨_, rfl⟩

/-- A safe command that names a table that does not exist leaves the tables as they are. -/
theorem step_rejected {c : Cmd} (h : safe w c = true) (hn : ∃ i ∈ c.tables, ¬ w.rest.HasTable i) :
    ∃ w' out, step w c = .ok (w', out) ∧ w'.rest.tables = w.rest.tables := by
  obtain ⟨j, hj, hno⟩ := hn
  cases c with
  | openTable i cs =>
    obtain rfl : j = i := List.mem_singleton.1 hj
    obtain ⟨hlt, hlow, hint⟩ := (of_decide_eq_true h).resolve_left hno
    obtain ⟨⟨heap, n, ps⟩, hnew⟩ := newCustomers_total (h := w.heap) hlow hint
    obtain ⟨o, ho⟩ := OpenTable.act_refused (w := { w with heap, rest := { w.rest with customerCount := n } }) ps hlt
    have hstep : step w (.openTable j cs) =
        .ok (World.push { w with heap, rest := { w.rest with customerCount := n } } (.openTable j ps) o, o.out) := by
      simp only [step, hnew, ok_bind]
      exact record_of_ok ho
    exact ⟨_, _, hstep, rfl⟩
  | order i => exact absurd (List.mem_singleton.1 hj ▸ of_decide_eq_true h) hno
  | close i => exact absurd (List.mem_singleton.1 hj ▸ of_decide_eq_true h) hno
  | status i => exact absurd (List.mem_singleton.1 hj ▸ of_decide_eq_true h) hno
  | move src dst id =>
    obtain ⟨t, ht, hs⟩ := safe_move h
    have hsrc : ¬ w.rest.HasTable src := by
      rcases List.mem_cons.1 hj with rfl | hj
      · exact hno
      · obtain rfl : j = dst := List.mem_singleton.1 hj
        exact absurd (hasTable_of_get ht) hno
    have hfull := hs.resolve_left hsrc
    obtain ⟨o, ho⟩ := MoveCustomer.act_refused src id ht hfull
    have hstep : step w (.move src dst id) = .ok (w.push (.moveCustomer src dst id) o, o.out) := record_of_ok ho
    exact ⟨_, _, hstep, rfl⟩
  | _ => cases hj

end Acts

/-! ## Reading a line -/

theorem map_ok {ε α β : Type} {f : α → β} {m : Except ε α} {b : β} (h : f <$> m = .ok b) :
    ∃ a, m = .ok a ∧ f a = b := by
  cases m with
  | error e => cases h
  | ok a => exact ⟨a, rfl, Except.ok.inj h⟩

theorem word_ok {ws : List Line} {i : Nat} {v : Line} (h : word ws i = .ok v) : ws[i]? = some v := by
  unfold word at h
  split at h <;> cases h
  assumption

theorem number_ok {ws : List Line} {i : Nat} {n : Int} (h : number ws i = .ok n) : ∃ v, ws[i]? = some v ∧
    stringToInt v = .ok n := by
  obtain ⟨v, hv, hn⟩ := bind_ok h
  exact ⟨v, word_ok hv, hn⟩

theorem pairs_even : ∀ {ws : List Line} {cs : List (String × String)}, pairs ws = .ok cs → ws.length % 2 = 0
  | [], _, _ => rfl
  | [_], _, h => by cases h
  | _ :: _ :: ws, _, h => by
    obtain ⟨cs, hcs, -⟩ := bind_ok h
    have := pairs_even hcs
    simp only [List.length_cons]
    omega

/-- A line that is read has its arguments, and the tables its command names are the ones of its words. -/
theorem read_ok {ws : List Line} {cmd : Cmd} (h : read ws = .ok (some cmd)) : ¬ Lacks ws ∧
    ∀ t ∈ tableWords ws, ∃ i ∈ cmd.tables, stringToInt t = .ok i := by
  obtain ⟨command, hc, h⟩ := bind_ok h
  have h0 := word_ok hc
  obtain ⟨args, rfl⟩ : ∃ args, ws = command :: args := by
    cases ws with
    | nil => cases h0
    | cons v args => exact ⟨args, by rw [Option.some.inj h0]⟩
  have hlacks : ((command :: args).length < needed (String.ofList command) → False) →
      (String.ofList command = "open" → (command :: args).length % 2 = 0) → ¬ Lacks (command :: args) := by
    rintro hlen hopen ⟨c, hc, hl⟩
    cases hc
    rcases hl with hl | ⟨ho, hl⟩
    · exact hlen hl
    · have := hopen ho
      omega
  -- the commands with one number
  have hone : ∀ {f : Int → Cmd}, (fun i => some (f i)) <$> number (command :: args) 1 = .ok (some cmd) →
      (∀ i, (f i).tables = [i]) → needed (String.ofList command) = 2 → String.ofList command ≠ "open" →
      tableWords (command :: args) = args.take 1 →
      ¬ Lacks (command :: args) ∧ ∀ t ∈ tableWords (command :: args), ∃ i ∈ cmd.tables, stringToInt t = .ok i := by
    intro f hf htab hneed hopen htw
    obtain ⟨i, hi, he⟩ := map_ok hf
    cases he
    obtain ⟨v, hv, hn⟩ := number_ok hi
    have hlen := (List.getElem?_eq_some_iff.1 hv).1
    refine ⟨hlacks (fun hl => by omega) fun ho => absurd ho hopen, fun t ht =>
      ⟨i, by rw [htab]; exact List.mem_singleton.2 rfl, ?_⟩⟩
    cases args with
    | nil => cases hv
    | cons u rest =>
      cases hv
      rw [htw, List.take_succ_cons, List.take_zero, List.mem_singleton] at ht
      exact ht ▸ hn
  -- the commands with none
  have hnone : ∀ c : Cmd, needed (String.ofList command) = 1 → String.ofList command ≠ "open" →
    tableWords (command :: args) = [] →
      ¬ Lacks (command :: args) ∧ ∀ t ∈ tableWords (command :: args), ∃ i ∈ c.tables, stringToInt t = .ok i := by
    intro c hneed hopen htw
    refine ⟨hlacks (fun hl => ?_) fun ho => absurd ho hopen, fun t ht => ?_⟩
    · rw [hneed, List.length_cons] at hl
      omega
    · rw [htw] at ht
      cases ht
  split at h
  · rename_i heq
    obtain ⟨c, hopen, he⟩ := map_ok h
    cases he
    obtain ⟨i, hi, hopen⟩ := bind_ok hopen
    obtain ⟨cs, hcs, hopen⟩ := bind_ok hopen
    cases hopen
    obtain ⟨v, hv, hn⟩ := number_ok hi
    have heven := pairs_even hcs
    cases args with
    | nil => cases hv
    | cons u rest =>
      cases hv
      refine ⟨hlacks ?_ fun _ => ?_, ?_⟩
      · rw [heq]
        simp [needed]
      · simp only [List.drop_succ_cons, List.drop_zero] at heven
        simp only [List.length_cons]
        omega
      · intro t ht
        simp only [tableWords, heq, List.take_succ_cons, List.take_zero, List.mem_singleton] at ht
        exact ⟨i, List.mem_singleton.2 rfl, ht ▸ hn⟩
  · rename_i heq
    exact hone h (fun _ => rfl) (by rw [heq]; rfl) (by rw [heq]; decide) (by simp [tableWords, heq])
  · rename_i heq
    obtain ⟨c, hmove, he⟩ := map_ok h
    cases he
    obtain ⟨src, hsrc, hmove⟩ := bind_ok hmove
    obtain ⟨dst, hdst, hmove⟩ := bind_ok hmove
    obtain ⟨id, hid, hmove⟩ := bind_ok hmove
    cases hmove
    obtain ⟨v1, hv1, hn1⟩ := number_ok hsrc
    obtain ⟨v2, hv2, hn2⟩ := number_ok hdst
    obtain ⟨v3, hv3, -⟩ := number_ok hid
    have hlen := (List.getElem?_eq_some_iff.1 hv3).1
    refine ⟨hlacks ?_ fun ho => ?_, ?_⟩
    · rw [heq]
      simp only [needed]
      omega
    · rw [heq] at ho
      exact absurd ho (by decide)
    · intro t ht
      match args, hv1, hv2 with
      | [], hv1, _ => cases hv1
      | [_], _, hv2 => cases hv2
      | u1 :: u2 :: rest, hv1, hv2 =>
        cases hv1
        cases hv2
        simp only [tableWords, heq, List.take_succ_cons, List.take_zero, List.mem_cons,
          List.not_mem_nil, or_false] at ht
        rcases ht with rfl | rfl
        · exact ⟨src, List.mem_cons_self, hn1⟩
        · exact ⟨dst, List.mem_cons_of_mem _ List.mem_cons_self, hn2⟩
  · rename_i heq
    exact hone h (fun _ => rfl) (by rw [heq]; rfl) (by rw [heq]; decide) (by simp [tableWords, heq])
  · rename_i heq
    exact hnone _ (by rw [heq]; rfl) (by rw [heq]; decide) (by simp [tableWords, heq])
  · rename_i heq
    exact hone h (fun _ => rfl) (by rw [heq]; rfl) (by rw [heq]; decide) (by simp [tableWords, heq])
  · rename_i heq
    exact hnone _ (by rw [heq]; rfl) (by rw [heq]; decide) (by simp [tableWords, heq])
  · rename_i heq
    exact hnone _ (by rw [heq]; rfl) (by rw [heq]; decide) (by simp [tableWords, heq])
  · rename_i heq
    exact hnone _ (by rw [heq]; rfl) (by rw [heq]; decide) (by simp [tableWords, heq])
  · rename_i heq
    exact hnone _ (by rw [heq]; rfl) (by rw [heq]; decide) (by simp [tableWords, heq])
  · cases h

/-- **A clean line is survived.** -/
theorem survives_of_clean {w : World} {line : Line} (h : clean w line = true) : Survives w line := by
  unfold clean at h
  split at h
  · rename_i cmd hread
    have hstep : lineStep w line = (step w cmd).mapError Crash.fault := by
      rw [lineStep, hread]
      rfl
    constructor
    · intro e he hesc
      rw [hstep] at he
      cases hm : step w cmd with
      | ok r =>
        rw [hm] at he
        cases he
      | error f =>
        rw [hm] at he
        cases he
        exact (step_quiet h).not_throws (by rw [hm, show f = .outOfRange from hesc])
    · intro hbad
      obtain ⟨hargs, htables⟩ := read_ok hread
      rcases hbad with hbad | ⟨t, ht, hno⟩
      · exact absurd hbad hargs
      · obtain ⟨i, hi, hti⟩ := htables t ht
        obtain ⟨w', out, hok, hsame⟩ := step_rejected h ⟨i, hi, fun hhas => hno ⟨i, hti, hhas⟩⟩
        exact ⟨w', out, by rw [hstep, hok]; rfl, hsame⟩
  · rename_i hread
    have hstep : lineStep w line = .ok (w, "") := by
      rw [lineStep, hread]
      rfl
    exact ⟨fun e he => (by rw [hstep] at he; cases he), fun _ => ⟨w, "", hstep, rfl⟩⟩
  · cases h

/-- The end of the input is not survived: there is no first word. -/
theorem not_survives_nil (w : World) : ¬ Survives w [] := fun h => h.crash .noWord rfl trivial

/-- A loop that survives all its rounds has been told to close: the end of the input is never reached. -/
theorem run_ended_of_survived {w : World} {input : List Line} (h : Lts.Steps LineSteps Survives w (given input)) :
    ∀ w', ¬ Lts.Run LineSteps w input w' := by
  intro w' hr
  exact not_survives_nil w' (h input [] w' (List.prefix_refl _) hr)

/-- **The loop survives its input** as long as every line can be read and asks for tables that exist, and a bare
"closeall" keeps it from the end of the input. -/
theorem lines_survived (tables : List (Nat × Bool)) (dishes : List (String × Int × DishType)) (input : List Line)
    (h : Lts.Steps LineSteps (fun w line => clean w line = true) (boot tables dishes) (given input)) :
    Lts.Steps LineSteps Survives (boot tables dishes) (given input) :=
  fun pre line w hp hr => survives_of_clean (h pre line w hp hr)

/-- The state after a line, if the loop goes on. -/
def nextLine (w : World) (line : Line) : Option World :=
  if String.ofList line = "closeall" then none
  else match lineStep w line with
    | .ok (w', _) => some w'
    | .error _ => none

theorem nextLine_of_steps {w w' : World} {line : Line} (h : LineSteps w line w') : nextLine w line = some w' := by
  obtain ⟨hc, out, hs⟩ := h
  rw [nextLine, if_neg hc, hs]

/-- A table opened, one that does not exist refused, a line that is no command, and the one that ends the loop. -/
def fourLines : List Line :=
  [[ 'o', 'p', 'e', 'n', ' ', '0', ' ', 'a', ',', 'a', 'l', 'c'], [ 'o', 'p', 'e', 'n', ' ', '7'], [ ' '],
    [ 'c', 'l', 'o', 's', 'e', 'a', 'l', 'l']]

theorem lines_survived_open :
    Lts.Steps LineSteps Survives (boot [(2, false)] [("beer", 10, .alc)]) (given fourLines) := by
  have hclean : Lts.along nextLine clean (boot [(2, false)] [("beer", 10, .alc)]) (given fourLines) = true := by
    decide +kernel
  refine lines_survived _ _ _ ?_
  refine Lts.Steps.of_along (fun w line w' hs => ?_) hclean
  exact nextLine_of_steps hs

/-- `open` of the table one behind the last passes the check `tableId <= getNumOfTables()` and throws. -/
theorem lines_not_always_survived :
    ¬ ∀ tables dishes input, Lts.Steps LineSteps Survives (boot tables dishes) (given input) := by
  intro h
  have hs := (h [(2, false)] [] [[ 'o', 'p', 'e', 'n', ' ', '1']]).head
  have hthrow : lineStep (boot [(2, false)] []) [ 'o', 'p', 'e', 'n', ' ', '1'] = .error (.fault .outOfRange) := by
    decide +kernel
  exact hs.crash _ hthrow rfl

end Rest
