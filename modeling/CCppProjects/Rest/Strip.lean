import CCppProjects.Rest.Invariant
/-
# A restaurant without its orders

Who sits where does not depend on the orders: a run without them (`strip`) seats the same customers (`step_strip`).
So of the conditions under which `Invariant.lean` keeps the tables sound, the seats need only the one on `move`
(`seats_kept`).
-/
namespace Rest

open Heap Lts

variable {h h' : Customers} {r : Restaurant} {t t' : Table} {i id : Int} {w w' : World}

/-! ## Restaurants without orders -/

def Table.strip (t : Table) : Table := { t with orderList := [] }

def Restaurant.strip (r : Restaurant) : Restaurant := { r with tables := r.tables.map Table.strip }

def World.strip (w : World) : World := { w with rest := w.rest.strip, backup := w.backup.map Restaurant.strip }

theorem Restaurant.strip_strip (r : Restaurant) : r.strip.strip = r.strip := by
  simp [Restaurant.strip, Function.comp_def, Table.strip]

theorem World.strip_strip (w : World) : w.strip.strip = w.strip := by
  simp [World.strip, Function.comp_def, Restaurant.strip_strip]

theorem getTable_map_strip (r : Restaurant) (i : Int) : r.strip.getTable i = (r.getTable i).map Table.strip := by
  unfold Restaurant.getTable Restaurant.strip
  split
  · rw [List.getElem?_map]
    cases r.tables[i.toNat]? <;> rfl
  · rfl

theorem getTable_strip (ht : r.getTable i = .ok t) : r.strip.getTable i = .ok t.strip := by
  rw [getTable_map_strip, ht]
  rfl

theorem setTable_strip (r : Restaurant) (i : Int) (t : Table) :
    (r.setTable i t).strip = r.strip.setTable i t.strip := by
  simp [Restaurant.setTable, Restaurant.strip, List.map_set]

theorem addCustomer_strip (t : Table) (c : Ptr) : (t.addCustomer c).strip = t.strip.addCustomer c := by
  unfold Table.addCustomer
  split
  · next hlt => rw [if_pos (show t.strip.currentCapacity < t.strip.capacity from hlt)]; rfl
  · next hlt => rw [if_neg (show ¬ t.strip.currentCapacity < t.strip.capacity from hlt)]

theorem addCustomers_strip : ∀ (cs : List Ptr) (t : Table), (t.addCustomers cs).strip = t.strip.addCustomers cs := by
  intro cs
  induction cs with
  | nil => exact fun _ => rfl
  | cons c cs ih =>
    intro t
    rw [Table.addCustomers, List.foldl_cons, ← Table.addCustomers, ih, addCustomer_strip]
    rfl

theorem closeTable_strip (hc : t.closeTable h = .ok (h', t')) : t.strip.closeTable h = .ok (h', t'.strip) := by
  obtain ⟨h1, hd, hc⟩ := bind_ok hc
  cases hc
  rw [Table.closeTable, show t.strip.customersList = t.customersList from rfl, hd]
  rfl

theorem removeCustomer_strip (hr : t.removeCustomer h id = .ok (h', t')) :
    t.strip.removeCustomer h id = .ok (h', t'.strip) := by
  obtain ⟨qs, hqs, hr⟩ := bind_ok hr
  obtain ⟨n, hn, hr⟩ := bind_ok hr
  rw [Table.removeCustomer, show t.strip.customersList = t.customersList from rfl, hqs, ok_bind,
    show t.strip.currentCapacity = t.currentCapacity from rfl, hn, ok_bind]
  dsimp only at hr ⊢
  by_cases h0 : n = 0
  · rw [if_pos h0] at hr ⊢
    exact closeTable_strip hr
  · rw [if_neg h0] at hr ⊢
    cases hr
    rfl

theorem copyTables_strip : ∀ {ts us : List Table} {h h' : Customers}, copyTables h ts = .ok (h', us) →
    copyTables h (ts.map Table.strip) = .ok (h', us.map Table.strip)
  | [], us, h, _, hc => by
    cases hc
    rfl
  | t :: ts, us, h, h', hc => by
    obtain ⟨⟨h1, u⟩, hu, hc⟩ := bind_ok hc
    obtain ⟨⟨h2, vs⟩, hvs, he⟩ := bind_ok hc
    obtain ⟨⟨h3, qs⟩, hqs, hu⟩ := bind_ok hu
    cases he
    cases hu
    have hcopy : t.strip.copy h = .ok (h1, ({ t with customersList := qs } : Table).strip) := by
      rw [Table.copy, show t.strip.customersList = t.customersList from rfl, hqs]
      rfl
    rw [List.map_cons, copyTables, hcopy, ok_bind]
    dsimp only
    rw [copyTables_strip hvs]
    rfl

/-! ## The same commands without orders -/

/-- An action does the same to the seats of a restaurant without orders. -/
def Strips (act : World → Except Fault (World × Outcome)) : Prop :=
  ∀ (w w' : World) (o : Outcome), act w = .ok (w', o) →
  ∃ w'' o', act w.strip = .ok (w'', o') ∧ w''.strip = w'.strip ∧ o'.status = o.status ∧ o'.errorMsg = o.errorMsg

theorem OpenTable.act_strips (i : Int) (cs : List Ptr) : Strips (OpenTable.act i cs) := by
  intro w w' o ha
  unfold OpenTable.act at ha ⊢
  have hnum : w.strip.rest.getNumOfTables =
    w.rest.getNumOfTables := by simp [World.strip, Restaurant.strip, Restaurant.getNumOfTables]
  simp only [hnum]
  split at ha
  · next hle =>
    obtain ⟨t, ht, ha⟩ := bind_ok ha
    rw [if_pos hle, show w.strip.rest.getTable i = .ok t.strip from getTable_strip ht, ok_bind]
    split at ha
    · next hopen =>
      cases ha
      rw [if_pos (show t.strip.isOpen = true from hopen)]
      exact ⟨_, _, rfl, World.strip_strip w, rfl, rfl⟩
    · next hopen =>
      cases ha
      rw [if_neg (show ¬ t.strip.isOpen = true from hopen)]
      refine ⟨_, _, rfl, ?_, rfl, rfl⟩
      simp only [World.strip, setTable_strip, addCustomers_strip, Restaurant.strip_strip,
        Option.map_map, Function.comp_def]
      rfl
  · next hle =>
    cases ha
    rw [if_neg hle]
    exact ⟨_, _, rfl, World.strip_strip w, rfl, rfl⟩

theorem Order.act_strips (i : Int) : Strips (Order.act i) := by
  intro w w' o ha
  obtain ⟨t, ht, ha⟩ := bind_ok ha
  obtain ⟨⟨h1, t1, served⟩, hs, ha⟩ := bind_ok ha
  obtain ⟨⟨h2, sv⟩, hl, hs⟩ := bind_ok hs
  cases hs
  cases ha
  rw [Order.act, show w.strip.rest.getTable i = .ok t.strip from getTable_strip ht, ok_bind, Table.order,
    show orderLoop w.strip.rest.menu t.strip.customersList t.strip.currentCapacity.toNat 0 w.strip.heap =
      .ok (h1, served) from hl]
  refine ⟨_, _, rfl, ?_, rfl, rfl⟩
  simp only [World.strip, setTable_strip, Restaurant.strip_strip, Option.map_map, Function.comp_def]
  rfl

theorem MoveCustomer.act_strips (src dst id : Int) : Strips (MoveCustomer.act src dst id) := by
  intro w w' o ha
  obtain ⟨d, hd, ha⟩ := bind_ok ha
  rw [MoveCustomer.act, show w.strip.rest.getTable dst = .ok d.strip from getTable_strip hd, ok_bind]
  change ∃ w'' o', (if !d.isFull && d.isOpen then _ else _) = _ ∧ _
  split at ha
  swap
  · next hno =>
    cases ha
    rw [if_neg hno]
    exact ⟨_, _, rfl, World.strip_strip w, rfl, rfl⟩
  next hopen =>
  rw [if_pos hopen]
  obtain ⟨s, hs, ha⟩ := bind_ok ha
  obtain ⟨cu, hcu, ha⟩ := bind_ok ha
  obtain ⟨d', hd', ha⟩ := bind_ok ha
  obtain ⟨s1, hs1, ha⟩ := bind_ok ha
  obtain ⟨⟨h', s'⟩, hs', ha⟩ := bind_ok ha
  cases ha
  have hdish : (d.strip.addCustomer cu).addDishesFrom s.strip (src = dst) id = .ok d'.strip := by
    rw [← addCustomer_strip]
    unfold Table.addDishesFrom at hd' ⊢
    split at hd'
    · next he =>
      rw [if_pos he]
      unfold Table.addOwnDishes at hd' ⊢
      split at hd'
      · cases hd'
      · cases hd'
        rfl
    · next he =>
      cases hd'
      rw [if_neg he]
      rfl
  rw [show w.strip.rest.getTable src = .ok s.strip from getTable_strip hs, ok_bind,
    show s.strip.getCustomer w.strip.heap id = .ok cu from hcu, ok_bind, hdish, ok_bind]
  dsimp only
  rw [show w.strip.rest.setTable dst d'.strip =
    (w.rest.setTable dst d').strip from (setTable_strip ..).symm, getTable_strip hs1, ok_bind,
    show s1.strip.removeCustomer w.strip.heap id = .ok (h', s'.strip) from removeCustomer_strip hs']
  refine ⟨_, _, rfl, ?_, rfl, rfl⟩
  simp only [World.strip, setTable_strip, Restaurant.strip_strip, Option.map_map, Function.comp_def]
  rfl

theorem Close.act_strips (i : Int) : Strips (Close.act i) := by
  intro w w' o ha
  obtain ⟨t, ht, ha⟩ := bind_ok ha
  rw [Close.act, show w.strip.rest.getTable i = .ok t.strip from getTable_strip ht, ok_bind]
  change ∃ w'' o', (if t.isOpen then _ else _) = _ ∧ _
  split at ha
  · next hopen =>
    obtain ⟨bill, -, ha⟩ := bind_ok ha
    obtain ⟨⟨h1, t1⟩, hc, ha⟩ := bind_ok ha
    cases ha
    rw [if_pos hopen, show t.strip.getBill = .ok 0 from rfl, ok_bind,
      show t.strip.closeTable w.strip.heap = .ok (h1, t1.strip) from closeTable_strip hc]
    refine ⟨_, _, rfl, ?_, rfl, rfl⟩
    simp only [World.strip, setTable_strip, Restaurant.strip_strip, Option.map_map, Function.comp_def]
    rfl
  · next hopen =>
    cases ha
    rw [if_neg hopen]
    exact ⟨_, _, rfl, World.strip_strip w, rfl, rfl⟩

theorem PrintTableStatus.act_strips (i : Int) : Strips (PrintTableStatus.act i) := by
  intro w w' o ha
  obtain ⟨t, ht, ha⟩ := bind_ok ha
  rw [PrintTableStatus.act, show w.strip.rest.getTable i = .ok t.strip from getTable_strip ht, ok_bind]
  dsimp only at ha ⊢
  split at ha
  · next hopen =>
    obtain ⟨customers, hl, ha⟩ := bind_ok ha
    obtain ⟨bill, -, ha⟩ := bind_ok ha
    cases ha
    rw [if_pos (show t.strip.isOpen = true from hopen),
      show customersLines w.strip.heap t.strip.customersList = .ok customers from hl,
        ok_bind, show t.strip.getBill = .ok 0 from rfl]
    exact ⟨_, _, rfl, World.strip_strip w, rfl, rfl⟩
  · next hopen =>
    cases ha
    rw [if_neg (show ¬ t.strip.isOpen = true from hopen)]
    exact ⟨_, _, rfl, World.strip_strip w, rfl, rfl⟩

theorem BackupRestaurant.act_strips : Strips BackupRestaurant.act := by
  intro w w' o ha
  obtain ⟨⟨h1, copy⟩, hc, ha⟩ := bind_ok ha
  cases ha
  obtain ⟨⟨h2, log⟩, hlog, hc⟩ := bind_ok hc
  dsimp only at hc
  split at hc
  · cases hc
  next hfull =>
  obtain ⟨⟨h3, ts⟩, hts, hc⟩ := bind_ok hc
  cases hc
  have hcopy : w.strip.rest.copy w.strip.heap =
    .ok (h3, ({ w.rest with actionsLog := log, tables := ts } : Restaurant).strip) := by
    rw [Restaurant.copy, show cloneLog w.strip.heap w.strip.rest.actionsLog = .ok (h2, log) from hlog, ok_bind]
    dsimp only
    rw [if_neg (by simpa [World.strip, Restaurant.strip] using hfull)]
    have htake : w.strip.rest.tables.take w.strip.rest.numOfTables =
      (w.rest.tables.take w.rest.numOfTables).map Table.strip := by
      simp [World.strip, Restaurant.strip, List.map_take]
    rw [htake, copyTables_strip hts]
    rfl
  rw [BackupRestaurant.act, hcopy]
  refine ⟨_, _, rfl, ?_, rfl, rfl⟩
  simp [World.strip, Restaurant.strip_strip]

theorem RestoreResturant.act_strips : Strips RestoreResturant.act := by
  intro w w' o ha
  unfold RestoreResturant.act at ha ⊢
  cases hb : w.backup with
  | none =>
    rw [hb] at ha
    cases ha
    rw [show w.strip.backup = none by simp [World.strip, hb]]
    exact ⟨_, _, rfl, World.strip_strip w, rfl, rfl⟩
  | some b =>
    rw [hb] at ha
    obtain ⟨⟨h1, r1⟩, hclear, ha⟩ := bind_ok ha
    obtain ⟨⟨h2, r2⟩, has, ha⟩ := bind_ok ha
    cases ha
    obtain ⟨h3, hdel, hclear⟩ := bind_ok hclear
    cases hclear
    obtain ⟨⟨h4, log⟩, hlog, has⟩ := bind_ok has
    dsimp only at has
    rw [if_neg (by simp)] at has
    obtain ⟨⟨h5, ts⟩, hts, has⟩ := bind_ok has
    cases has
    rw [show w.strip.backup = some b.strip by simp [World.strip, hb]]
    dsimp only
    rw [Restaurant.clear, show destroyLog w.strip.heap w.strip.rest.actionsLog = .ok h1 from hdel, ok_bind, ok_bind,
      Restaurant.assign, show cloneLog h1 b.strip.actionsLog = .ok (h4, log) from hlog, ok_bind]
    dsimp only
    rw [if_neg (by simp), show copyTables h4 b.strip.tables = .ok (h5, ts.map Table.strip) from copyTables_strip hts]
    refine ⟨_, _, rfl, ?_, rfl, rfl⟩
    simp [World.strip, Restaurant.strip, Function.comp_def, Table.strip]

theorem record_strip {act : World → Except Fault (World × Outcome)} (hact : Strips act)
    {kind : ActionKind} {out : String}
    (hr : w.record kind act = .ok (w', out)) : ∃ w'' out', w.strip.record kind act = .ok (w'', out') ∧
    w''.strip = w'.strip := by
  obtain ⟨w1, o, ha, rfl⟩ := record_ok hr
  obtain ⟨w2, o', ha', heq, hst, hmsg⟩ := hact _ _ _ ha
  refine ⟨w2.push kind o', o'.out, ?_, ?_⟩
  · rw [World.record, ha']
    rfl
  · have hpush : ∀ (v : World) (o : Outcome), (v.push kind o).strip = v.strip.push kind o := fun _ _ => rfl
    rw [hpush, hpush, heq]
    simp only [World.push, hst, hmsg]

theorem step_strip {c : Cmd} (hs : Steps w c w') : ∃ w'', Steps w.strip c w'' ∧ w''.strip = w'.strip := by
  obtain ⟨hne, out, hs⟩ := hs
  have hlift : ∀ {kind : ActionKind} {act : World → Except Fault (World × Outcome)}, Strips act →
      w.record kind act = .ok (w', out) → step w.strip c = w.strip.record kind act →
      ∃ w'', Steps w.strip c w'' ∧ w''.strip = w'.strip := by
    intro kind act hact hr hstep
    obtain ⟨w'', out', hr', heq⟩ := record_strip hact hr
    exact ⟨w'', ⟨hne, out', hstep.trans hr'⟩, heq⟩
  cases c with
  | openTable i cs =>
    obtain ⟨⟨h1, n, ps⟩, hn, hs⟩ := bind_ok hs
    dsimp only at hs
    obtain ⟨w'', out', hr', heq⟩ := record_strip (OpenTable.act_strips i ps) hs
    refine ⟨w'', ⟨hne, out', ?_⟩, heq⟩
    rw [step, show newCustomers w.strip.heap w.strip.rest.customerCount cs = .ok (h1, n, ps) from hn]
    exact hr'
  | order i => exact hlift (Order.act_strips i) hs rfl
  | move src dst id => exact hlift (MoveCustomer.act_strips src dst id) hs rfl
  | close i => exact hlift (Close.act_strips i) hs rfl
  | menu =>
    refine hlift (fun w w' o ha => ?_) hs rfl
    cases ha
    exact ⟨_, _, rfl, World.strip_strip _, rfl, rfl⟩
  | status i => exact hlift (PrintTableStatus.act_strips i) hs rfl
  | log =>
    obtain ⟨⟨w1, o⟩, ha, hs⟩ := bind_ok hs
    obtain ⟨text, ht, ha⟩ := bind_ok ha
    cases ha
    cases hs
    refine ⟨w.strip, ⟨hne, text, ?_⟩, World.strip_strip w⟩
    rw [step, PrintActionsLog.act, show logText w.strip.heap w.strip.rest.actionsLog = .ok text from ht]
    rfl
  | backup => exact hlift BackupRestaurant.act_strips hs rfl
  | restore => exact hlift RestoreResturant.act_strips hs rfl
  | closeall => exact absurd rfl hne

/-! ## The seats along a run -/

theorem seats_strip (r : Restaurant) : r.strip.seats = r.seats := by
  simp [Restaurant.seats, Restaurant.strip, List.flatMap_map, Table.strip]

theorem Sound.strip (hs : Sound h r) : Sound h r.strip := by
  refine ⟨by simpa [Restaurant.strip] using hs.full, by rw [seats_strip]; exact hs.seats, fun t ht => ?_, hs.log⟩
  obtain ⟨u, hu, rfl⟩ := List.mem_map.1 ht
  have hok := hs.tables u hu
  exact ⟨hok.count, hok.bound, fun hc => ⟨(hok.closed hc).1, rfl⟩, by simp [Table.strip]⟩

theorem Inv.strip (hi : Inv w) : Inv w.strip := by
  constructor
  · exact hi.rest.strip
  · intro b hb
    obtain ⟨b', hb', rfl⟩ := Option.map_eq_some_iff.1 hb
    exact (hi.backup b' hb').strip
  · intro b hb p hp
    obtain ⟨b', hb', rfl⟩ := Option.map_eq_some_iff.1 hb
    rw [seats_strip]
    exact hi.apart b' hb' p (by simpa only [World.strip, seats_strip] using hp)

/-- The `move`s that take place name a customer seated at their source. -/
def movesSeated (w : World) : Cmd → Bool
  | .move src dst id => match w.rest.getTable src, w.rest.getTable dst with
    | .ok s, .ok d => !d.isOpen || d.isFull || (s.customersList.map (idOf w.heap)).contains (some id)
    | _, _ => true
  | _ => true

theorem keepsSeats_strip {c : Cmd} (hm : movesSeated w c = true) : keepsSeats w.strip c = true := by
  cases c with
  | move src dst id =>
    simp only [keepsSeats, World.strip, getTable_map_strip]
    simp only [movesSeated] at hm
    cases hs : w.rest.getTable src <;> cases hd : w.rest.getTable dst <;> rw [hs, hd] at hm <;> first | rfl | exact hm
  | close i =>
    simp only [keepsSeats, World.strip, getTable_map_strip]
    cases w.rest.getTable i with
    | error e => rfl
    | ok t => exact Bool.or_true _
  | _ => rfl

/-- Leaving the orders out, the tables stay sound as long as every `move` is of somebody who is there. -/
theorem seats_kept (tables : List (Nat × Bool)) (dishes : List (String × Int × DishType)) {cmds : List Cmd}
    (hc : Lts.Steps Steps (fun w c => movesSeated w c = true) (boot tables dishes) cmds) :
    AtAll Steps (fun w => Inv w.strip) (boot tables dishes) cmds := by
  refine atAll_of_steps (fun w c w' hi hm hs => ?_) (fun _ hi => hi) (boot_inv tables dishes).strip hc
  obtain ⟨w'', hs', he⟩ := step_strip hs
  have hw'' := (step_inv hi (keepsSeats_strip hm) hs').strip
  rwa [he] at hw''

end Rest
