import CCppProjects.Rest.Invariant
import Mathlib.Logic.Function.Basic
/-
# What a sitting owes

`Ledger` says what the tables owe without looking at them: it only hears that a table was opened, what a
customer of it ordered, who moved and when a table was closed. `getBill` agrees with it in every run in
which no table is opened that still holds orders of an earlier sitting (`bill_of_sitting`);
`closeTable` leaves the orders in place.
-/
namespace Rest

open Heap Lts

/-! ## The ledger -/

inductive Event
  | opened (table : Nat)
  | ordered (table : Nat) (dish : OrderPair)
  | moved (src dst : Nat) (id : Int)
  | closed (table : Nat)
  | saved
  | restored
  deriving DecidableEq, Repr

/-- The dishes charged to the present sitting of each table, and what the last backup kept of them. -/
structure Ledger where
  tabs : Nat → List OrderPair := fun _ => []
  saved : Nat → List OrderPair := fun _ => []

/-- A new sitting starts from nothing, and the dishes of a customer who moves go along. -/
def Ledger.apply (l : Ledger) : Event → Ledger
  | .opened t | .closed t => { l with tabs := Function.update l.tabs t [] }
  | .ordered t o => { l with tabs := Function.update l.tabs t (l.tabs t ++ [o]) }
  | .moved src dst id =>
    if src = dst then l
    else
      let taken := (l.tabs src).filter fun o => o.1 = id
      let left := (l.tabs src).filter fun o => o.1 ≠ id
      { l with tabs := Function.update (Function.update l.tabs dst (l.tabs dst ++ taken)) src left }
  | .saved => { l with saved := l.tabs }
  | .restored => { l with tabs := l.saved }

/-- The sum of the prices. -/
def total (os : List OrderPair) : Int := (os.map fun o => o.2.price).sum

/-- Every sum on the way to the total is an `int`. -/
def FitsInt (os : List OrderPair) : Prop := ∀ pre, pre <+: os → -2 ^ 31 ≤ total pre ∧ total pre < 2 ^ 31

/-! ## What a command tells the ledger -/

/-- The dishes an `order` at table `i` serves. -/
def ordered (w : World) (i : Int) : List OrderPair :=
  match w.rest.getTable i with
  | .ok t => match t.order w.heap w.rest.menu with
    | .ok (_, _, served) => served.map Prod.snd
    | .error _ => []
  | .error _ => []

/-- Whether there is an open table `i`. -/
def World.isOpenAt (w : World) (i : Int) : Bool :=
  match w.rest.getTable i with
  | .ok t => t.isOpen
  | .error _ => false

def events (w : World) (c : Cmd) (w' : World) : List Event :=
  match c with
  | .openTable i _ => match w.rest.getTable i with
    | .ok t => if t.isOpen then [] else [.opened i.toNat]
    | .error _ => []
  | .order i => (ordered w i).map (.ordered i.toNat)
  | .move src dst id => match w.rest.getTable dst with
    | .ok d =>
      if !d.isFull && d.isOpen then
        .moved src.toNat dst.toNat id :: if w'.isOpenAt src then [] else [.closed src.toNat]
      else []
    | .error _ => []
  | .close i => if w.isOpenAt i then [.closed i.toNat] else []
  | .backup => [.saved]
  | .restore => if w.backup.isSome then [.restored] else []
  | _ => []

/-- The program with the ledger beside it. -/
def Booked (s : World × Ledger) (c : Cmd) (s' : World × Ledger) : Prop :=
  Steps s.1 c s'.1 ∧ s'.2 = (events s.1 c s'.1).foldl Ledger.apply s.2

/-- Every open table's bill is what its sitting owes. -/
def BillsTrue (s : World × Ledger) : Prop :=
  ∀ i t, s.1.rest.tables[i]? = some t → t.isOpen = true → FitsInt (s.2.tabs i) → t.getBill = .ok (total (s.2.tabs i))

/-! ## Orders and tabs -/

/-- A table whose sitting owes `os`: an open one holds just these orders, a closed one has no sitting and
nobody left who could order. -/
structure Owes (t : Table) (os : List OrderPair) : Prop where
  bill : t.isOpen = true → t.orderList = os
  none : t.isOpen = false → os = []
  count : t.currentCapacity ≤ t.customersList.length
  idle : t.isOpen = false → t.currentCapacity ≤ 0

def Tallied (ts : List Table) (tabs : Nat → List OrderPair) : Prop := ∀ i t, ts[i]? = some t → Owes t (tabs i)

structure Tally (w : World) (l : Ledger) : Prop where
  rest : Tallied w.rest.tables l.tabs
  backup : ∀ b, w.backup = some b → Tallied b.tables l.saved

theorem foldlM_int {os : List OrderPair} {b : Int} (h : ∀ pre, pre <+: os → -2 ^ 31 ≤ b + total pre ∧
    b + total pre < 2 ^ 31) :
    os.foldlM (fun sum o => int (sum + o.2.price)) b = .ok (b + total os) := by
  induction os generalizing b with
  | nil => simp [total]; rfl
  | cons o os ih =>
    have h1 := h [o] (by simp)
    simp only [total, List.map_cons, List.map_nil, List.sum_cons, List.sum_nil, Int.add_zero] at h1
    have ho : int (b + o.2.price) = .ok (b + o.2.price) := if_pos h1
    rw [List.foldlM_cons, ho, ok_bind, ih fun pre hp => ?_]
    · simp [total, Int.add_assoc]
    · have := h (o :: pre) (by simpa using hp)
      simpa [total, Int.add_assoc] using this

theorem getBill_eq {t : Table} (h : FitsInt t.orderList) : t.getBill = .ok (total t.orderList) := by
  have := foldlM_int (b := 0) fun pre hp => by simpa using h pre hp
  rwa [Int.zero_add] at this

theorem Tallied.set {ts : List Table} {tabs : Nat → List OrderPair} (ht : Tallied ts tabs) {i : Nat} {t : Table}
    {os : List OrderPair} (ho : Owes t os) : Tallied (ts.set i t) (Function.update tabs i os) := by
  intro j u hj
  rw [List.getElem?_set] at hj
  split at hj
  · next h =>
    subst h
    split at hj <;> cases hj
    rwa [Function.update_self]
  · next h =>
    rw [Function.update_of_ne (Ne.symm h)]
    exact ht j u hj

theorem Tallied.get {r : Restaurant} {tabs : Nat → List OrderPair} (ht : Tallied r.tables tabs) {i : Int} {t : Table}
    (hi : r.getTable i = .ok t) : Owes t (tabs i.toNat) := ht _ _ (getTable_ok hi)

/-- What `Owes` reads of a table. -/
def Table.account (t : Table) : Bool × List OrderPair × Int × Nat :=
  (t.isOpen, t.orderList, t.currentCapacity, t.customersList.length)

theorem Owes.of_account {t u : Table} {os : List OrderPair} (ho : Owes t os)
    (he : u.account = t.account) : Owes u os := by
  simp only [Table.account, Prod.mk.injEq] at he
  obtain ⟨h1, h2, h3, h4⟩ := he
  exact ⟨fun h => h2 ▸ ho.bill (h1 ▸ h), fun h => ho.none (h1 ▸ h), by rw [h3, h4]; exact ho.count,
    fun h => h3 ▸ ho.idle (h1 ▸ h)⟩

theorem cloneAll_length : ∀ {ps qs : List Ptr} {h h' : Customers}, cloneAll h ps = .ok (h', qs) → qs.length = ps.length
  | [], _, _, _, hc => by
    cases hc
    rfl
  | p :: ps, _, h, h', hc => by
    obtain ⟨⟨a, c⟩, hd, hc⟩ := bind_ok hc
    obtain ⟨⟨h2, rs⟩, hr, hc⟩ := bind_ok hc
    cases hc
    simp [cloneAll_length hr]

theorem copyTables_account : ∀ {ts us : List Table} {h h' : Customers}, copyTables h ts = .ok (h', us) →
    us.map Table.account = ts.map Table.account
  | [], us, _, _, hc => by
    cases hc
    rfl
  | t :: ts, us, h, h', hc => by
    obtain ⟨⟨h1, u⟩, hu, hc⟩ := bind_ok hc
    obtain ⟨⟨h2, vs⟩, hvs, hc⟩ := bind_ok hc
    obtain ⟨⟨h3, qs⟩, hqs, hu⟩ := bind_ok hu
    cases hc
    cases hu
    simp [copyTables_account hvs, Table.account, cloneAll_length hqs]

theorem Tallied.copied {ts us : List Table} {tabs : Nat → List OrderPair} (ht : Tallied ts tabs)
    (he : us.map Table.account = ts.map Table.account) : Tallied us tabs := by
  intro i u hu
  have hm : (ts.map Table.account)[i]? = some u.account := by
    rw [← he, List.getElem?_map, hu]
    rfl
  rw [List.getElem?_map, Option.map_eq_some_iff] at hm
  obtain ⟨t, hti, hut⟩ := hm
  exact (ht i t hti).of_account hut.symm

theorem Tallied.take {ts : List Table} {tabs : Nat → List OrderPair} (ht : Tallied ts tabs) (n : Nat) :
    Tallied (ts.take n) tabs :=
  fun i t hi => ht i t (by
    rw [List.getElem?_take] at hi
    split at hi
    · exact hi
    · cases hi)

/-! ## One action -/

section Actions

variable {w w' : World} {l : Ledger} {i : Int} {o : Outcome}

theorem ordered_fold (l : Ledger) (i : Nat) (os : List OrderPair) :
    (os.map (Event.ordered i)).foldl Ledger.apply l = { l with tabs := Function.update l.tabs i (l.tabs i ++ os) } := by
  induction os generalizing l with
  | nil => simp [Function.update_eq_self]
  | cons o os ih => simp [ih, Ledger.apply]

theorem addCustomer_owes {t : Table} {os : List OrderPair} (ho : Owes t os) (hopen : t.isOpen = true) (c : Ptr) :
    Owes (t.addCustomer c) os ∧ (t.addCustomer c).isOpen = true ∧ (t.addCustomer c).orderList = t.orderList := by
  unfold Table.addCustomer
  split
  · refine ⟨⟨ho.bill, fun h => ?_, ?_, fun h => ?_⟩, hopen, rfl⟩
    · exact ho.none h
    · have := ho.count
      simp only [List.length_append, List.length_singleton]
      omega
    · have h : t.isOpen = false := h
      simp [hopen] at h
  · exact ⟨ho, hopen, rfl⟩

theorem addCustomers_owes {os : List OrderPair} : ∀ {ps : List Ptr} {t : Table}, Owes t os → t.isOpen = true →
    Owes (t.addCustomers ps) os
  | [], _, ho, _ => ho
  | p :: ps, t, ho, hopen => by
    obtain ⟨h1, h2, -⟩ := addCustomer_owes ho hopen p
    rw [Table.addCustomers, List.foldl_cons, ← Table.addCustomers]
    exact addCustomers_owes h1 h2

theorem OpenTable.act_tally {ps : List Ptr} (ht : Tally w l)
    (hfresh : ∀ t, w.rest.getTable i = .ok t → t.isOpen = false → t.orderList = [])
    (ha : OpenTable.act i ps w = .ok (w', o)) (cs : List (String × String)) :
    Tally w' ((events w (.openTable i cs) w').foldl Ledger.apply l) := by
  unfold OpenTable.act at ha
  simp only at ha
  split at ha
  · obtain ⟨t, hti, ha⟩ := bind_ok ha
    split at ha
    · next hopen =>
      cases ha
      simpa [events, hti, hopen] using ht
    · next hopen =>
      cases ha
      simp only [Bool.not_eq_true] at hopen
      simp only [events, hti, hopen, Bool.false_eq_true, if_false, List.foldl_cons, List.foldl_nil]
      have ho := ht.rest.get hti
      refine ⟨ht.rest.set
        (addCustomers_owes ⟨fun _ => hfresh t hti hopen, fun _ => rfl, ho.count, fun h => ?_⟩ rfl), ht.backup⟩
      cases h
  · next hgt =>
    cases ha
    have hnone : w.rest.getTable i = .error .outOfRange := by
      have hlen : w.rest.tables.length ≤ i.toNat := by
        rw [Restaurant.getNumOfTables] at hgt
        omega
      simp [Restaurant.getTable, List.getElem?_eq_none hlen]
    simpa [events, hnone] using ht

theorem Order.act_tally (ht : Tally w l) (ha : Order.act i w = .ok (w', o)) :
    Tally w' ((events w (.order i) w').foldl Ledger.apply l) := by
  obtain ⟨t, hti, ha⟩ := bind_ok ha
  obtain ⟨⟨h', t', served⟩, hord, ha⟩ := bind_ok ha
  have hserved : ordered w i = served.map Prod.snd := by simp [ordered, hti, hord]
  obtain ⟨⟨h2, served2⟩, hloop, hord⟩ := bind_ok hord
  cases hord
  cases ha
  rw [show events w (.order i) _ = (ordered w i).map (.ordered i.toNat) from rfl, ordered_fold, hserved]
  have ho := ht.rest.get hti
  refine ⟨ht.rest.set ⟨fun h => ?_, fun h => ?_, ho.count, ho.idle⟩, ht.backup⟩
  · exact congrArg (· ++ served.map Prod.snd) (ho.bill h)
  · -- nobody is counted at a closed table
    have hn : t.currentCapacity.toNat = 0 := by
      have := ho.idle h
      omega
    rw [hn] at hloop
    cases hloop
    simpa using ho.none h

theorem Close.act_tally (ht : Tally w l) (ha : Close.act i w = .ok (w', o)) :
    Tally w' ((events w (.close i) w').foldl Ledger.apply l) := by
  obtain ⟨t, hti, ha⟩ := bind_ok ha
  have hat : w.isOpenAt i = t.isOpen := by simp [World.isOpenAt, hti]
  split at ha
  · next hopen =>
    obtain ⟨bill, -, ha⟩ := bind_ok ha
    obtain ⟨⟨h', t'⟩, hclose, ha⟩ := bind_ok ha
    cases ha
    obtain ⟨rfl, -⟩ := closeTable_ok hclose
    simp only [events, hat, hopen, if_true, List.foldl_cons, List.foldl_nil]
    refine ⟨ht.rest.set ⟨fun h => ?_, fun _ => rfl, ?_, fun _ => ?_⟩, ht.backup⟩
    · cases h
    · exact Int.le_refl _
    · exact Int.le_refl _
  · next hopen =>
    cases ha
    simpa [events, hat, hopen] using ht

theorem BackupRestaurant.act_tally (ht : Tally w l) (ha : BackupRestaurant.act w = .ok (w', o)) :
    Tally w' ((events w .backup w').foldl Ledger.apply l) := by
  obtain ⟨⟨h', copy⟩, hc, ha⟩ := bind_ok ha
  cases ha
  obtain ⟨⟨h1, log⟩, hlog, hc'⟩ := bind_ok hc
  clear hc
  simp only at hc'
  split at hc'
  · cases hc'
  · obtain ⟨⟨h2, tables⟩, htables, hc⟩ := bind_ok hc'
    cases hc
    refine ⟨ht.rest, fun b hb => ?_⟩
    cases hb
    exact (ht.rest.take _).copied (copyTables_account htables)

theorem RestoreResturant.act_tally (ht : Tally w l) (ha : RestoreResturant.act w = .ok (w', o)) :
    Tally w' ((events w .restore w').foldl Ledger.apply l) := by
  unfold RestoreResturant.act at ha
  split at ha
  · next backup hb =>
    obtain ⟨⟨h1, r1⟩, hclear, ha⟩ := bind_ok ha
    obtain ⟨⟨h2, r2⟩, hassign, ha⟩ := bind_ok ha
    cases ha
    obtain ⟨h3, -, hclear⟩ := bind_ok hclear
    cases hclear
    obtain ⟨⟨h4, log⟩, -, hassign⟩ := bind_ok hassign
    simp only [ne_eq, not_true_eq_false, if_false] at hassign
    obtain ⟨⟨h5, tables⟩, htables, hassign⟩ := bind_ok hassign
    cases hassign
    simp only [events, hb, Option.isSome_some, if_true, List.foldl_cons, List.foldl_nil]
    exact ⟨(ht.backup backup hb).copied (copyTables_account htables), fun b hb' => ht.backup b (hb.trans hb')⟩
  · next hb =>
    cases ha
    simpa [events, hb] using ht

theorem eraseCustomer_length {h : Customers} {id : Int} : ∀ {ps qs : List Ptr}, eraseCustomer h id ps = .ok qs →
    ps.length ≤ qs.length + 1
  | [], _, _ => by simp
  | p :: ps, qs, he => by
    obtain ⟨⟨a, c⟩, hd, he⟩ := bind_ok he
    simp only at he
    split at he
    · cases he
      simp
    · obtain ⟨rs, hr, he⟩ := bind_ok he
      cases he
      simpa using eraseCustomer_length hr

/-- A customer who leaves, whoever it is, takes its dishes along. -/
theorem removeCustomer_owes {t t' : Table} {os : List OrderPair} {id : Int} {h h' : Customers} (ho : Owes t os)
    (hr : t.removeCustomer h id = .ok (h', t')) :
    Owes t' (if t'.isOpen then os.filter fun o => o.1 ≠ id else []) := by
  obtain ⟨qs, hqs, hr⟩ := bind_ok hr
  obtain ⟨n, hn, hr⟩ := bind_ok hr
  obtain rfl := int_ok hn
  have hlen := eraseCustomer_length hqs
  have hcount := ho.count
  simp only at hr
  split at hr
  · obtain ⟨rfl, -⟩ := closeTable_ok hr
    refine ⟨fun h => ?_, fun _ => rfl, Int.le_refl _, fun _ => Int.le_refl _⟩
    cases h
  · cases hr
    refine ⟨fun hopen => ?_, fun hopen => ?_, ?_, fun hopen => ?_⟩
    · rw [if_pos hopen]
      have hopen' : t.isOpen = true := by
        simp only at hopen
        split at hopen
        · cases hopen
        · exact hopen
      exact congrArg _ (ho.bill hopen')
    · exact if_neg (Bool.eq_false_iff.1 hopen)
    · change t.currentCapacity - 1 ≤ qs.length
      omega
    · change t.currentCapacity - 1 ≤ 0
      simp only at hopen
      split at hopen
      · next hempty =>
        rw [List.isEmpty_iff.1 hempty] at hcount
        simp only [List.length_nil] at hcount
        omega
      · have := ho.idle hopen
        omega

/-- A move in the ledger, the source's tab closed or not: first the destination's tab, then the source's. -/
theorem moved_fold (l : Ledger) {src dst : Nat} {id : Int} {stays : Bool}
    (hown : src = dst → ∀ o ∈ l.tabs dst, o.1 ≠ id) :
    (if stays then [] else [Event.closed src]).foldl Ledger.apply (l.apply (.moved src dst id)) =
      { l with tabs := let mid := Function.update l.tabs dst
                         (if src = dst then l.tabs dst else l.tabs dst ++ (l.tabs src).filter fun o => o.1 = id)
                       Function.update mid src (if stays then (mid src).filter fun o => o.1 ≠ id else []) } := by
  by_cases he : src = dst
  · subst he
    have hnone : (l.tabs src).filter (fun o => o.1 ≠ id) = l.tabs src :=
      List.filter_eq_self.2 fun o ho => by simpa using hown rfl o ho
    cases stays
    · simp [Ledger.apply]
    · simp only [Ledger.apply, if_true, List.foldl_nil, Function.update_eq_self, hnone]
  · cases stays
    · simp [Ledger.apply, he, Function.update_idem]
    · simp [Ledger.apply, he]

theorem MoveCustomer.act_tally {src dst id : Int} (ht : Tally w l)
    (hsrc : ∀ s d, w.rest.getTable src = .ok s → w.rest.getTable dst = .ok d → d.isOpen = true → d.isFull = false →
      s.isOpen = false → ∀ o ∈ s.orderList, o.1 ≠ id)
    (ha : MoveCustomer.act src dst id w = .ok (w', o)) :
    Tally w' ((events w (.move src dst id) w').foldl Ledger.apply l) := by
  obtain ⟨d, hd, ha⟩ := bind_ok ha
  split at ha
  swap
  · next hno =>
    cases ha
    simpa [events, hd, hno] using ht
  next hopen =>
  have hopen' := hopen
  simp only [Bool.and_eq_true, Bool.not_eq_true'] at hopen'
  obtain ⟨s, hs, ha⟩ := bind_ok ha
  obtain ⟨cu, -, ha⟩ := bind_ok ha
  obtain ⟨d', hd', ha⟩ := bind_ok ha
  obtain ⟨s1, hs1, ha⟩ := bind_ok ha
  obtain ⟨⟨h', s'⟩, hs', ha⟩ := bind_ok ha
  cases ha
  have hdo := ht.rest.get hd
  have hso := ht.rest.get hs
  obtain ⟨hadd, haddOpen, haddOrd⟩ := addCustomer_owes hdo hopen'.2 cu
  have hsrc0 := getTable_nonneg hs
  have hdst0 := getTable_nonneg hd
  have hsame : src.toNat = dst.toNat ↔ src = dst := by omega
  have hat : World.isOpenAt { w with rest := (w.rest.setTable dst d').setTable src s', heap := h' } src =
    s'.isOpen := by
    simp [World.isOpenAt, getTable_setTable hs1]
  -- the destination first, then the source in what that leaves
  obtain ⟨os, hdOwes, hos⟩ : ∃ os, Owes d' os ∧
      os = if src = dst then l.tabs dst.toNat else l.tabs dst.toNat ++ (l.tabs src.toNat).filter fun o => o.1 = id := by
    refine ⟨_, ?_, rfl⟩
    unfold Table.addDishesFrom at hd'
    split at hd'
    · next he =>
      unfold Table.addOwnDishes at hd'
      split at hd' <;> cases hd'
      rw [if_pos he]
      exact hadd
    · next he =>
      cases hd'
      rw [if_neg he]
      refine ⟨fun _ => ?_, fun h => ?_, hadd.count, hadd.idle⟩
      · rw [Table.addDishes, haddOrd, hdo.bill hopen'.2]
        cases hopenS : s.isOpen with
        | true => rw [hso.bill hopenS]
        | false =>
          have hnone := hsrc s d hs hd hopen'.2 hopen'.1 hopenS
          rw [hso.none hopenS, List.filter_eq_nil_iff.2 fun o ho => by simpa using hnone o ho, List.filter_nil]
      · rw [show (Table.addDishes (d.addCustomer cu) id s.orderList).isOpen =
          (d.addCustomer cu).isOpen from rfl, haddOpen] at h
        cases h
  have hmid : Tallied (w.rest.setTable dst d').tables (Function.update l.tabs dst.toNat os) := ht.rest.set hdOwes
  have hsOwes := removeCustomer_owes (hmid.get hs1) hs'
  have hlast := hmid.set (i := src.toNat) hsOwes
  have hown : src = dst → ∀ o ∈ l.tabs dst.toNat, o.1 ≠ id := fun he o ho hid => by
    rw [Table.addDishesFrom, if_pos he, Table.addOwnDishes, haddOrd, hdo.bill hopen'.2] at hd'
    split at hd'
    · cases hd'
    · next hany => exact hany (List.any_eq_true.2 ⟨o, ho, by simpa using hid⟩)
  simp only [events, hd, hopen, if_true, List.foldl_cons, hat]
  rw [moved_fold l fun he => hown (hsame.1 he)]
  simp only [hsame, ← hos]
  exact ⟨hlast, ht.backup⟩

end Actions

/-! ## Every command, every run -/

/-- The commands that keep the bills true: no table is opened that still holds orders, and none leave a
closed table with someone who moves. -/
def startsClean (w : World) : Cmd → Bool
  | .openTable i _ => match w.rest.getTable i with
    | .ok t => t.isOpen || t.orderList.isEmpty
    | .error _ => true
  | .move src dst id => match w.rest.getTable src, w.rest.getTable dst with
    | .ok s, .ok d => !d.isOpen || d.isFull || s.isOpen || s.orderList.all fun o => o.1 ≠ id
    | _, _ => true
  | _ => true

theorem step_tally {w w' : World} {l : Ledger} {c : Cmd} (ht : Tally w l) (hk : startsClean w c = true)
    (hs : Steps w c w') :
    Tally w' ((events w c w').foldl Ledger.apply l) := by
  obtain ⟨hne, out, hs⟩ := hs
  cases c with
  | openTable i cs =>
    obtain ⟨⟨h1, n, ps⟩, hn, hs⟩ := bind_ok hs
    obtain ⟨w1, o, ha, rfl⟩ := record_ok hs
    have ht1 : Tally { w with heap := h1, rest := { w.rest with customerCount := n } } l := ⟨ht.rest, ht.backup⟩
    have := OpenTable.act_tally ht1 (fun t hti hopen => ?_) ha cs
    · exact ⟨this.rest, this.backup⟩
    · have hti : w.rest.getTable i = .ok t := hti
      simpa [startsClean, hti, hopen] using hk
  | order i =>
    obtain ⟨w1, o, ha, rfl⟩ := record_ok hs
    have := Order.act_tally ht ha
    exact ⟨this.rest, this.backup⟩
  | move src dst id =>
    obtain ⟨w1, o, ha, rfl⟩ := record_ok hs
    have := MoveCustomer.act_tally ht (fun s d hs hd h1 h2 h3 => ?_) ha
    · exact ⟨this.rest, this.backup⟩
    · simpa [startsClean, hs, hd, h1, h2, h3] using hk
  | close i =>
    obtain ⟨w1, o, ha, rfl⟩ := record_ok hs
    have := Close.act_tally ht ha
    exact ⟨this.rest, this.backup⟩
  | menu =>
    obtain ⟨w1, o, ha, rfl⟩ := record_ok hs
    cases ha
    exact ⟨ht.rest, ht.backup⟩
  | status i =>
    obtain ⟨w1, o, ha, rfl⟩ := record_ok hs
    rw [PrintTableStatus.act_same ha]
    exact ⟨ht.rest, ht.backup⟩
  | log =>
    obtain ⟨⟨w1, o⟩, ha, hs⟩ := bind_ok hs
    obtain ⟨text, -, ha⟩ := bind_ok ha
    cases ha
    cases hs
    exact ht
  | backup =>
    obtain ⟨w1, o, ha, rfl⟩ := record_ok hs
    have := BackupRestaurant.act_tally ht ha
    exact ⟨this.rest, this.backup⟩
  | restore =>
    obtain ⟨w1, o, ha, rfl⟩ := record_ok hs
    have := RestoreResturant.act_tally ht ha
    exact ⟨this.rest, this.backup⟩
  | closeall => exact absurd rfl hne

theorem boot_tally (tables : List (Nat × Bool)) (dishes : List (String × Int × DishType)) :
    Tally (boot tables dishes) {} := by
  refine ⟨fun i t hi => ?_, by simp [boot]⟩
  have hi : (tables.map fun t => Table.new t.1 t.2)[i]? = some t := hi
  rw [List.getElem?_map, Option.map_eq_some_iff] at hi
  obtain ⟨c, -, rfl⟩ := hi
  exact ⟨fun _ => rfl, fun _ => rfl, Int.le_refl _, fun _ => Int.le_refl _⟩

/-- In every run from a configuration whose steps all start clean, every open table's bill is what its
sitting owes. -/
theorem bill_of_sitting (tables : List (Nat × Bool)) (dishes : List (String × Int × DishType)) (cmds : List Cmd)
    (hc : Lts.Steps Booked (fun s c => startsClean s.1 c = true) (boot tables dishes, {}) cmds) :
    AtAll Booked BillsTrue (boot tables dishes, {}) cmds := by
  refine atAll_of_steps (I := fun s => Tally s.1 s.2) (fun s c s' ht hk hs => ?_) (fun s ht i t hi hopen hfit => ?_)
    (boot_tally tables dishes) hc
  · rw [hs.2]
    exact step_tally ht hk hs.1
  · have ho := (ht.rest i t hi).bill hopen
    rw [← ho] at hfit ⊢
    exact getBill_eq hfit

/-- The next state and ledger, computed. -/
def nextBooked (s : World × Ledger) (c : Cmd) : Option (World × Ledger) :=
  (next s.1 c).map fun w' => (w', (events s.1 c w').foldl Ledger.apply s.2)

theorem booked_iff {s s' : World × Ledger} {c : Cmd} : Booked s c s' ↔ nextBooked s c = some s' := by
  rw [Booked, steps_iff, nextBooked, Option.map_eq_some_iff]
  constructor
  · rintro ⟨h1, h2⟩
    exact ⟨s'.1, h1, by rw [← h2]⟩
  · rintro ⟨w', h1, rfl⟩
    exact ⟨h1, rfl⟩

/-- Two tables, a move between them and a table opened a second time. -/
theorem bill_of_sitting_moved : AtAll Booked BillsTrue (boot [(2, false), (2, false)] [("beer", 10, .alc)], {})
    [.openTable 0 [("ann", "alc")], .openTable 1 [("bo", "alc")], .order 0, .move 0 1 0,
    .openTable 0 [("cy", "alc")], .order 1] := by
  refine bill_of_sitting _ _ _ ?_
  have hb : ∀ (s : World × Ledger) (c : Cmd) (s' : World × Ledger), Booked s c s' → nextBooked s c = some s' :=
    fun _ _ _ => booked_iff.1
  exact Lts.Steps.of_along (P := fun (s : World × Ledger) c => startsClean s.1 c) hb (by decide +kernel)

/-- A table closed with a beer on it charges the beer to whoever sits there next. -/
theorem bill_of_sitting_not_always : ¬ ∀ tables dishes cmds, AtAll Booked BillsTrue (boot tables dishes, {}) cmds := by
  intro h
  have hrun : ([Cmd.openTable 0 [("ann", "alc")], .order 0, .close 0, .openTable 0 [("bo", "alc")]].foldlM nextBooked
      (boot [(2, false)] [("beer", 10, .alc)], {})).any (fun s => s.1.rest.tables[0]?.any fun t =>
        t.isOpen && (t.getBill == .ok 10) && (s.2.tabs 0).isEmpty) = true := by decide +kernel
  obtain ⟨s, hs, hbad⟩ := (Option.any_eq_true _ _).1 hrun
  obtain ⟨t, ht, hbad⟩ := (Option.any_eq_true _ _).1 hbad
  simp only [Bool.and_eq_true, beq_iff_eq, List.isEmpty_iff] at hbad
  have hb := h [(2, false)] [("beer", 10, .alc)] _ _ s List.prefix_rfl
    ((Run.of_foldlM hs).mono fun _ _ _ => booked_iff.2) 0 t ht hbad.1.1
  rw [hbad.1.2, hbad.2] at hb
  simp [total, FitsInt] at hb

end Rest
