import CCppProjects.Rest.Table
import CCppProjects.Lib.Lines
/-
# The configuration file (Restaurant.cpp:43-144)

| here | there |
|---|---|
| `Reader` | what the constructor fills: members, `capacitys` and `dishId` |
| `readCount` | the line with the number of tables (:57-64): its first character |
| `readCapacities` | the line of capacities (:65-88), character by character to the terminating NUL |
| `readDish` | a dish (:89-138) |
| `readLine` | which of the three a line is: told from `numOfTables` and `capacitys[0]` being 0 still |
| `readConfig` | the loop over the lines of a file that opens |

A line is what `getline` gives, with the CR of a line that ends in CRLF.
-/
namespace Rest

/-! ## The constructor -/

/-- A `char` as a number. -/
def code (c : Char) : Int := (c.toNat : Int).bmod 256

structure Reader where
  numOfTables : Int := 0
  capacitys : List Int := []
  tables : List Table := []
  menu : List Dish := []
  dishId : Int := 0
  deriving DecidableEq, Repr

/-- `new Table(capacity)`, Table.cpp:14-18, for any `int`. -/
def tableOf (capacity : Int) (garbage : Bool) : Table := { Table.new 0 garbage with capacity }

/-- Restaurant.cpp:59-63. -/
def readCount (r : Reader) (c : Char) : Reader :=
  { r with numOfTables := code c - 48, capacitys := r.capacitys ++ List.replicate (code c - 48).toNat 0 }

/-- Restaurant.cpp:72-75. -/
def digit (index : Nat) (r : Reader) (c : Char) : Except Fault Reader :=
  match r.capacitys[index]? with
  | none => .error .badIndex
  | some v => do
    let v ← int (v * 10)
    let v ← int (v + (code c - 48))
    .ok { r with capacitys := r.capacitys.set index v }

/-- Restaurant.cpp:78-83; what is in memory where a table comes to lie decides its `open`. -/
def endCapacity (garbage : Nat → Bool) (index : Nat) (r : Reader) : Except Fault Reader :=
  if (index : Int) < r.numOfTables then
    match r.capacitys[index]? with
    | none => .error .badIndex
    | some v => .ok { r with tables := r.tables ++ [tableOf v (garbage r.tables.length)] }
  else .ok r

/-- Restaurant.cpp:67-87; the end of the line is a round of its own. -/
def readCapacities (garbage : Nat → Bool) : List Char → Nat → Reader → Except Fault Reader
  | [], index, r => endCapacity garbage index r
  | c :: freader, index, r =>
    if c ≠ ',' ∧ c ≠ '\r' then do
      let r ← digit index r c
      readCapacities garbage freader index r
    else do
      let r ← endCapacity garbage index r
      readCapacities garbage freader (index + 1) r

/-- Does the character leave the loop of Restaurant.cpp:100-104? -/
def stops (c : Char) : Bool := c = ',' || c = '\r'

/-- The loop from `index` on; it reads `freader[index]` before it compares with the length. -/
def fieldEnd (freader : List Char) (index : Nat) : Except Fault Nat :=
  if index ≤ freader.length then .ok (index + ((freader.drop index).takeWhile fun c => !stops c).length)
    else .error .badIndex

/-- `freader.substr(start, end - start)`. -/
def slice (freader : List Char) (startChar endChar : Nat) : List Char :=
  (freader.drop startChar).take (endChar - startChar)

/-- Restaurant.cpp:110: `price * 10 + c - 48`. -/
def priceStep (price : Int) (c : Char) : Except Fault Int := do
  let price ← int (price * 10)
  let price ← int (price + code c)
  int (price - 48)

def DishType.word : DishType → List Char
  | .veg => [ 'V', 'E', 'G']
  | .spc => [ 'S', 'P', 'C']
  | .bvg => [ 'B', 'V', 'G']
  | .alc => [ 'A', 'L', 'C']

/-- The comparisons of Restaurant.cpp:113-137: what is none of the first three is ALC. -/
def DishType.ofText (text : List Char) : DishType :=
  if text = DishType.veg.word then .veg
  else if text = DishType.spc.word then .spc
  else if text = DishType.bvg.word then .bvg
  else .alc

/-- Restaurant.cpp:91-138. -/
def readDish (r : Reader) (freader : List Char) : Except Fault Reader := do
  let end0 ← fieldEnd freader 0
  let end1 ← fieldEnd freader (end0 + 1)
  let end2 ← fieldEnd freader (end1 + 1)
  let price ← (slice freader (end1 + 1) end2).foldlM priceStep 0
  let dish : Dish := { id := r.dishId, name := String.ofList (slice freader 0 end0), price,
                       type := DishType.ofText (slice freader (end0 + 1) end1) }
  let dishId ← int (r.dishId + 1)
  .ok { r with menu := r.menu ++ [dish], dishId }

/-- Restaurant.cpp:57-139. -/
def readLine (garbage : Nat → Bool) (r : Reader) (freader : List Char) : Except Fault Reader :=
  match freader with
  | [] => .ok r
  | c :: cs =>
    if c = '#' then .ok r
    else if r.numOfTables = 0 then .ok (readCount r c)
    else match r.capacitys[0]? with
      | none => .error .badIndex
      | some v => if v = 0 then readCapacities garbage (c :: cs) 0 r else readDish r (c :: cs)

/-- The lines of a text, as `getline` gives them, `cur` what has been read of the present one. -/
def getlines (cur : List Char) : List Char → List (List Char)
  | [] => if cur = [] then [] else [cur]
  | c :: cs => if c = '\n' then cur :: getlines [] cs else getlines (cur ++ [c]) cs

def readConfig (garbage : Nat → Bool) (file : List Char) : Except Fault Reader :=
  (getlines [] file).foldlM (readLine garbage) {}

/-! ## Files -/

inductive Eol
  | lf | crlf
  deriving DecidableEq

/-- What `getline` leaves of a line end. -/
def Eol.rest : Eol → List Char
  | .lf => []
  | .crlf => [ '\r']

/-- A line that says nothing. -/
inductive Filler
  | comment (text : List Char) (oneLine : '\n' ∉ text) (eol : Eol)
  | empty (eol : Eol)

def Filler.line : Filler → List Char
  | .comment text _ eol => '#' :: (text ++ eol.rest)
  | .empty eol => eol.rest

structure DishLine where
  before : List Filler
  name : List Char
  type : DishType
  price : Nat
  eol : Eol
  nonempty : name ≠ []
  comma : ',' ∉ name
  sharp : name.head? ≠ some '#'
  oneLine : '\n' ∉ name

def decimal (n : Nat) : List Char := Nat.toDigits 10 n

def DishLine.line (d : DishLine) : List Char := d.name ++ ',' :: (d.type.word ++ ',' :: (decimal d.price ++ d.eol.rest))

/-- Numbers separated by commas. -/
def commas : List Nat → List Char
  | [] => []
  | [n] => decimal n
  | n :: m :: ns => decimal n ++ ',' :: commas (m :: ns)

structure Config where
  before : List Filler
  countEol : Eol
  between : List Filler
  capacities : List Nat
  capacitiesEol : Eol
  dishes : List DishLine
  after : List Filler
  some : capacities ≠ []
  positive : ∀ n ∈ capacities, 0 < n

/-- The dishes, each with the lines before it, and the lines behind them. -/
def dishLines (dishes : List DishLine) (after : List Filler) : List (List Char) :=
  dishes.flatMap (fun d => d.before.map Filler.line ++ [d.line]) ++ after.map Filler.line

def Config.lines (c : Config) : List (List Char) :=
  c.before.map Filler.line ++ (decimal c.capacities.length ++ c.countEol.rest) ::
    (c.between.map Filler.line ++ (commas c.capacities ++ c.capacitiesEol.rest) :: dishLines c.dishes c.after)

def Config.text (c : Config) : List Char := Lines.text '\n' c.lines

/-- The tables of some capacities, the first of them the `k`th table. -/
def tablesFrom (garbage : Nat → Bool) (k : Nat) (capacities : List Nat) : List Table :=
  (capacities.zipIdx k).map fun (n, i) => Table.new n (garbage i)

/-- The menu of some dishes, the first of them with the id `k`. -/
def menuFrom (k : Nat) (dishes : List DishLine) : List Dish :=
  (dishes.zipIdx k).map fun (d, i) => { id := i, name := String.ofList d.name, price := d.price, type := d.type }

/-- The tables and the menu are those of the file. -/
def Config.Built (c : Config) (garbage : Nat → Bool) (r : Reader) : Prop :=
  r.tables = tablesFrom garbage 0 c.capacities ∧ r.menu = menuFrom 0 c.dishes

/-! ## Numbers -/

theorem code_digitChar {d : Nat} (h : d < 10) : code d.digitChar = 48 + d := by
  have hall : ∀ d : Nat, d < 10 → code d.digitChar = 48 + d := by decide
  exact hall d h

theorem not_stops_digitChar {d : Nat} (h : d < 10) : stops d.digitChar = false := by
  have hall : ∀ d : Nat, d < 10 → stops d.digitChar = false := by decide
  exact hall d h

/-- A number is a digit, or a number and a digit. -/
theorem decimal_induction {P : Nat → Prop} (hdigit : ∀ d, d < 10 → P d)
    (hstep : ∀ n d, 0 < n → d < 10 → P n → P (n * 10 + d)) (n : Nat) : P n := by
  induction n using Nat.strongRecOn with
  | ind n ih =>
    by_cases h : n < 10
    · exact hdigit n h
    · have hlt := ih (n / 10) (by omega)
      have := hstep (n / 10) (n % 10) (by omega) (by omega) hlt
      rwa [Nat.div_add_mod'] at this

theorem decimal_digit {d : Nat} (h : d < 10) : decimal d = [d.digitChar] := Nat.toDigits_of_lt_base h

theorem decimal_step {n d : Nat} (hn : 0 < n) (hd : d < 10) : decimal (n * 10 + d) = decimal n ++ [d.digitChar] := by
  have h1 : (n * 10 + d) / 10 = n := by omega
  have h2 : (n * 10 + d) % 10 = d := by omega
  rw [decimal, Nat.toDigits_of_base_le (by decide) (by omega), h1, h2]
  rfl

theorem decimal_stops (n : Nat) : ∀ c ∈ decimal n, stops c = false := by
  induction n using decimal_induction with
  | hdigit d hd =>
    rw [decimal_digit hd]
    simpa using not_stops_digitChar hd
  | hstep n d hn hd ih =>
    rw [decimal_step hn hd, List.forall_mem_append]
    exact ⟨ih, by simpa using not_stops_digitChar hd⟩

/-- The first digit of a number; no number is smaller. -/
theorem decimal_head (n : Nat) (hn : 0 < n) : ∃ d ds, decimal n = d.digitChar :: ds ∧
    0 < d ∧ d < 10 ∧ d ≤ n ∧ (n < 10 ↔ n = d) := by
  induction n using decimal_induction with
  | hdigit d hd => exact ⟨d, [], decimal_digit hd, hn, hd, Nat.le_refl d, iff_of_true hd rfl⟩
  | hstep n d h0 hd ih =>
    obtain ⟨e, ds, he, h1, h2, h3, h4⟩ := ih h0
    rw [decimal_step h0 hd, he]
    exact ⟨e, ds ++ [d.digitChar], rfl, h1, h2, by omega, by omega⟩

theorem int_of_lt {n : Nat} (h : n < 2 ^ 31) : int n = .ok (n : Int) := if_pos (by omega)

theorem int_of_ge {n : Nat} (h : ¬ n < 2 ^ 31) : int n = .error .overflow := if_neg (by omega)

theorem foldlM_one {α β : Type} (f : β → α → Except Fault β) (b : β) (a : α) : [a].foldlM f b = f b a := by
  simp only [List.foldlM_cons, List.foldlM_nil, bind_pure]

/-- A price is read as it was written unless adding a character to ten times the rest is too much. -/
theorem price_decimal (n : Nat) :
    (decimal n).foldlM priceStep 0 = if n + 48 < 2 ^ 31 then .ok (n : Int) else .error .overflow := by
  have hstep : ∀ n d : Nat, d < 10 → priceStep n d.digitChar =
      if n * 10 + d + 48 < 2 ^ 31 then .ok ((n * 10 + d : Nat) : Int) else .error .overflow := by
    intro n d hd
    have h1 : (n : Int) * 10 = (n * 10 : Nat) := by omega
    rw [priceStep, h1, code_digitChar hd]
    by_cases hbig : n * 10 + d + 48 < 2 ^ 31
    · have h2 : ((n * 10 : Nat) : Int) + (48 + (d : Int)) = (n * 10 + d + 48 : Nat) := by omega
      have h3 : ((n * 10 + d + 48 : Nat) : Int) - 48 = (n * 10 + d : Nat) := by omega
      rw [if_pos hbig, int_of_lt (by omega), ok_bind, h2, int_of_lt hbig, ok_bind, h3, int_of_lt (by omega)]
    · rw [if_neg hbig]
      by_cases h10 : n * 10 < 2 ^ 31
      · have h2 : ((n * 10 : Nat) : Int) + (48 + (d : Int)) = (n * 10 + d + 48 : Nat) := by omega
        rw [int_of_lt h10, ok_bind, h2, int_of_ge hbig]
        rfl
      · rw [int_of_ge h10]
        rfl
  induction n using decimal_induction with
  | hdigit d hd =>
    have := hstep 0 d hd
    rw [Nat.zero_mul, Nat.zero_add] at this
    rw [decimal_digit hd, foldlM_one]
    exact this
  | hstep n d hn hd ih =>
    rw [decimal_step hn hd, List.foldlM_append, ih]
    by_cases hsmall : n + 48 < 2 ^ 31
    · rw [if_pos hsmall, ok_bind, foldlM_one, hstep n d hd]
    · rw [if_neg hsmall, if_neg (by omega)]
      rfl

end Rest
