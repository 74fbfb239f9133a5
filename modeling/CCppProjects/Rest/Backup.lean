import CCppProjects.Rest.Invariant
/-
# backup and restore

`restore` rebuilds the restaurant from the copy `backup` took. It gives back the backed-up restaurant
exactly when there was nothing of what it forgets: `operator=` does not assign the menu `clear` has
emptied, `OpenTable::Clone` puts ": " before an error text, and the destructor of an `OpenTable` that
lists a customer reads past its vector (`restore_faithful_iff`).
-/
namespace Rest

open Heap Lts

/-! ## What a restaurant shows -/

/-- A table with its customers in place of the pointers. -/
def Table.view (h : Customers) (t : Table) :
    Int × Int × Bool × List OrderPair × List (Option (CustomerType × String × Int)) :=
  (t.currentCapacity, t.capacity, t.isOpen, t.orderList,
    t.customersList.map fun p => (p.bind (live h)).map fun c => (c.type, c.name, c.id))

structure Indistinguishable (w v : World) : Prop where
  tables : w.rest.tables.map (Table.view w.heap) = v.rest.tables.map (Table.view v.heap)
  menu : w.rest.menu = v.rest.menu
  log : w.rest.actionsLog.map (BaseAction.toString w.heap) = v.rest.actionsLog.map (BaseAction.toString v.heap)
  later : ∀ cmds, outputs w cmds = outputs v cmds

/-! ## A restaurant nobody has come to -/

/-- No object sits at a table and no `open` in the log lists a customer. -/
structure NoGuests (r : Restaurant) : Prop where
  full : r.numOfTables = r.tables.length
  seats : ∀ t ∈ r.tables, ∀ p ∈ t.customersList, p = none
  log : ∀ a ∈ r.actionsLog, a.customers = []

structure Bare (w : World) : Prop where
  heap : w.heap = []
  rest : NoGuests w.rest
  backup : ∀ b, w.backup = some b → NoGuests b

/-- An `open` in the log lists a customer. -/
structure Loaded (w : World) : Prop where
  log : ∀ a ∈ w.rest.actionsLog, none ∉ a.customers
  some : ∃ a ∈ w.rest.actionsLog, a.customers ≠ []

/-- The copy of an action: what `Clone` does to one that lists no customer. -/
def BaseAction.copyText (a : BaseAction) : BaseAction :=
  match a.kind with
  | .openTable _ _ => { a with errorMsg := a.getErrorMsg }
  | _ => a

section Null

variable {h h' : Customers} {ps qs : List Ptr} {id : Int}

theorem deleteAll_null : ∀ {ps : List Ptr}, (∀ p ∈ ps, p = none) → deleteAll h ps = .ok h' → h' = h
  | [], _, hd => by
    cases hd
    rfl
  | p :: ps, hn, hd => by
    rw [List.forall_mem_cons] at hn
    obtain ⟨rfl, hn⟩ := hn
    exact deleteAll_null hn hd

/-- Who follows a null pointer goes no further, so a list of them that is gone through is empty. -/
theorem cloneAll_null (hn : ∀ p ∈ ps, p = none) (hc : cloneAll h ps = .ok (h', qs)) : ps = [] ∧ h' = h ∧ qs = [] := by
  cases ps with
  | nil =>
    cases hc
    exact ⟨rfl, rfl, rfl⟩
  | cons p ps =>
    obtain rfl := hn p List.mem_cons_self
    cases hc

theorem eraseCustomer_null (hn : ∀ p ∈ ps, p = none) (he : eraseCustomer h id ps = .ok qs) : ps = [] ∧ qs = [] := by
  cases ps with
  | nil =>
    cases he
    exact ⟨rfl, rfl⟩
  | cons p ps =>
    obtain rfl := hn p List.mem_cons_self
    cases he

theorem findCustomer_null (hn : ∀ p ∈ ps, p = none) {cu : Ptr} (hf : findCustomer h id ps = .ok cu) : cu = none := by
  cases ps with
  | nil =>
    cases hf
    rfl
  | cons p ps =>
    obtain rfl := hn p List.mem_cons_self
    cases hf

theorem orderLoop_null {menu : List Dish} (hn : ∀ p ∈ ps, p = none) {n i : Nat} {served : List (String × OrderPair)}
    (ho : orderLoop menu ps n i h = .ok (h', served)) : h' = h := by
  cases n with
  | zero =>
    cases ho
    rfl
  | succ n =>
    rw [orderLoop] at ho
    split at ho
    · cases ho
    · next p hp =>
      obtain rfl := hn p (List.mem_of_getElem? hp)
      cases ho

theorem newCustomers_none : ∀ {cs : List (String × String)} {h h' : Customers} {n n' : Int},
    newCustomers h n cs = .ok (h', n', []) → h' = h
  | [], _, _, _, _, hn => by
    cases hn
    rfl
  | (name, word) :: cs, h, h', n, n', hn => by
    rw [newCustomers] at hn
    cases htype : CustomerType.ofWord word with
    | none =>
      simp only [htype] at hn
      obtain ⟨m, hm, hn⟩ := bind_ok hn
      obtain ⟨⟨h2, n2, qs⟩, hqs, hn⟩ := bind_ok hn
      simp only [Except.ok.injEq, Prod.mk.injEq, List.nil_append] at hn
      obtain ⟨rfl, rfl, rfl⟩ := hn
      exact newCustomers_none hqs
    | some type =>
      simp only [htype, Heap.new] at hn
      obtain ⟨m, hm, hn⟩ := bind_ok hn
      obtain ⟨⟨h2, n2, qs⟩, hqs, hn⟩ := bind_ok hn
      simp at hn

end Null

theorem cloneLog_bare {h : Customers} : ∀ {as : List BaseAction}, (∀ a ∈ as, a.customers = []) →
    cloneLog h as = .ok (h, as.map BaseAction.copyText)
  | [], _ => rfl
  | a :: as, hn => by
    rw [List.forall_mem_cons] at hn
    have hclone : a.clone h = .ok (h, a.copyText) := by
      rw [BaseAction.clone, BaseAction.copyText]
      cases hk : a.kind with
      | openTable i customers =>
        obtain rfl : customers = [] := by simpa [BaseAction.customers, hk] using hn.1
        rfl
      | _ => rfl
    rw [cloneLog, hclone, ok_bind]
    simp only [cloneLog_bare hn.2, ok_bind]
    rfl

theorem copyText_customers (a : BaseAction) : a.copyText.customers = a.customers := by
  unfold BaseAction.copyText
  split
  · next hk => simp [BaseAction.customers]
  · rfl

/-- Tables with nobody real at them are copied only if nobody at all is. -/
theorem copyTables_null : ∀ {ts us : List Table} {h h' : Customers}, (∀ t ∈ ts, ∀ p ∈ t.customersList, p = none) →
    copyTables h ts = .ok (h', us) → h' = h ∧ us = ts ∧ ∀ t ∈ ts, t.customersList = []
  | [], _, _, _, _, hc => by
    cases hc
    exact ⟨rfl, rfl, by simp⟩
  | t :: ts, _, h, h', hn, hc => by
    obtain ⟨⟨h1, u⟩, hu, hc⟩ := bind_ok hc
    obtain ⟨⟨h2, vs⟩, hvs, hc⟩ := bind_ok hc
    obtain ⟨⟨h3, qs⟩, hqs, hu⟩ := bind_ok hu
    cases hc
    cases hu
    rw [List.forall_mem_cons] at hn
    obtain ⟨hnil, rfl, rfl⟩ := cloneAll_null hn.1 hqs
    obtain ⟨rfl, rfl, hrest⟩ := copyTables_null hn.2 hvs
    exact ⟨rfl, by rw [← hnil], by simpa using ⟨hnil, hrest⟩⟩

theorem copyTables_empty {h : Customers} : ∀ {ts : List Table}, (∀ t ∈ ts, t.customersList = []) →
    copyTables h ts = .ok (h, ts)
  | [], _ => rfl
  | t :: ts, hn => by
    rw [List.forall_mem_cons] at hn
    have hcopy : t.copy h = .ok (h, t) := by
      rw [Table.copy, hn.1, cloneAll, ok_bind, ← hn.1]
    rw [copyTables, hcopy, ok_bind]
    simp only [copyTables_empty hn.2, ok_bind]

theorem destroyLog_bare {h : Customers} : ∀ {as : List BaseAction}, (∀ a ∈ as, a.customers = []) →
    destroyLog h as = .ok h
  | [], _ => rfl
  | a :: as, hn => by
    rw [List.forall_mem_cons] at hn
    have hdestroy : a.destroy h = .ok h := by
      unfold BaseAction.destroy
      split
      · next i customers hk =>
        obtain rfl : customers = [] := by simpa [BaseAction.customers, hk] using hn.1
        unfold deleteFailed
        split <;> rfl
      · rfl
    rw [destroyLog, List.foldlM_cons, hdestroy, ok_bind]
    exact destroyLog_bare hn.2

/-- The copy of a restaurant nobody has come to. -/
theorem copy_bare {r r' : Restaurant} {h h' : Customers} (hr : NoGuests r) (hc : r.copy h = .ok (h', r')) :
    h' = h ∧ r' = { r with actionsLog := r.actionsLog.map BaseAction.copyText } ∧
    ∀ t ∈ r.tables, t.customersList = [] := by
  obtain ⟨⟨h1, log⟩, hlog, hc'⟩ := bind_ok hc
  clear hc
  rw [cloneLog_bare hr.log] at hlog
  cases hlog
  simp only [hr.full, Nat.lt_irrefl, if_false, List.take_length] at hc'
  obtain ⟨⟨h2, tables⟩, htables, hc⟩ := bind_ok hc'
  cases hc
  obtain ⟨rfl, rfl, hnil⟩ := copyTables_null hr.seats htables
  exact ⟨rfl, by rw [hr.full], hnil⟩

/-! ## Each command -/

section Commands

variable {w w' : World} {i : Int} {o : Outcome}

theorem NoGuests.setTable {r : Restaurant} (hr : NoGuests r) {t : Table} (ht : ∀ p ∈ t.customersList, p = none) :
    NoGuests (r.setTable i t) := by
  refine ⟨hr.full.trans (List.length_set ..).symm, fun u hu => ?_, hr.log⟩
  rcases List.mem_or_eq_of_mem_set hu with hu | rfl
  · exact hr.seats u hu
  · exact ht

theorem Bare.set (hb : Bare w) {t : Table} (ht : ∀ p ∈ t.customersList, p = none) {h : Customers} (hh : h = w.heap) :
    Bare { w with rest := w.rest.setTable i t, heap := h } :=
  ⟨hh.trans hb.heap, hb.rest.setTable ht, hb.backup⟩

theorem addCustomer_null {t : Table} (ht : ∀ p ∈ t.customersList, p = none) :
    ∀ p ∈ (t.addCustomer none).customersList, p = none := by
  unfold Table.addCustomer
  split
  · intro p hp
    rcases List.mem_append.1 hp with hp | hp
    · exact ht p hp
    · exact List.mem_singleton.1 hp
  · exact ht

theorem closeTable_null {t t' : Table} {h h' : Customers} (ht : ∀ p ∈ t.customersList, p = none)
    (hc : t.closeTable h = .ok (h', t')) : h' = h ∧ t'.customersList = [] := by
  obtain ⟨h1, hd, hc⟩ := bind_ok hc
  cases hc
  exact ⟨deleteAll_null ht hd, rfl⟩

theorem Order.act_bare (hb : Bare w) (ha : Order.act i w = .ok (w', o)) : Bare w' ∧ w'.backup = w.backup := by
  obtain ⟨t, ht, ha⟩ := bind_ok ha
  obtain ⟨⟨h', t', served⟩, ho, ha⟩ := bind_ok ha
  obtain ⟨⟨h2, served2⟩, hloop, ho⟩ := bind_ok ho
  cases ho
  cases ha
  have hn := hb.rest.seats t (getTable_mem ht)
  refine ⟨Bare.set hb ?_ (orderLoop_null hn hloop), rfl⟩
  exact hn

theorem Close.act_bare (hb : Bare w) (ha : Close.act i w = .ok (w', o)) : Bare w' ∧ w'.backup = w.backup := by
  obtain ⟨t, ht, ha⟩ := bind_ok ha
  split at ha
  · obtain ⟨bill, -, ha⟩ := bind_ok ha
    obtain ⟨⟨h', t'⟩, hclose, ha⟩ := bind_ok ha
    cases ha
    obtain ⟨hh, hnil⟩ := closeTable_null (hb.rest.seats t (getTable_mem ht)) hclose
    exact ⟨hb.set (by simp [hnil]) hh, rfl⟩
  · cases ha
    exact ⟨hb, rfl⟩

theorem MoveCustomer.act_bare {src dst id : Int} (hb : Bare w) (ha : MoveCustomer.act src dst id w = .ok (w', o)) :
    Bare w' ∧ w'.backup = w.backup := by
  obtain ⟨d, hd, ha⟩ := bind_ok ha
  split at ha
  · obtain ⟨s, hs, ha⟩ := bind_ok ha
    obtain ⟨cu, hcu, ha⟩ := bind_ok ha
    obtain ⟨d', hd', ha⟩ := bind_ok ha
    obtain ⟨s1, hs1, ha⟩ := bind_ok ha
    obtain ⟨⟨h', s'⟩, hs', ha⟩ := bind_ok ha
    cases ha
    obtain rfl := findCustomer_null (hb.rest.seats s (getTable_mem hs)) hcu
    have hlist : d'.customersList = (d.addCustomer none).customersList := by
      unfold Table.addDishesFrom Table.addOwnDishes at hd'
      split at hd'
      · split at hd' <;> cases hd'
        rfl
      · cases hd'
        rfl
    have hmid : NoGuests (w.rest.setTable dst d') := hb.rest.setTable (by
      rw [hlist]
      exact addCustomer_null (hb.rest.seats d (getTable_mem hd)))
    -- the source goes through its list, so it has none
    obtain ⟨qs, hqs, hs'⟩ := bind_ok hs'
    obtain ⟨n, hn, hs'⟩ := bind_ok hs'
    obtain ⟨hnil, rfl⟩ := eraseCustomer_null (hmid.seats s1 (getTable_mem hs1)) hqs
    have hout : h' = w.heap ∧ s'.customersList = [] := by
      simp only at hs'
      split at hs'
      · exact closeTable_null (by simp) hs'
      · cases hs'
        exact ⟨rfl, rfl⟩
    exact ⟨⟨hout.1.trans hb.heap, hmid.setTable (by simp [hout.2]), hb.backup⟩, rfl⟩
  · cases ha
    exact ⟨hb, rfl⟩

theorem OpenTable.act_bare (hb : Bare w) (ha : OpenTable.act i [] w = .ok (w', o)) :
    Bare w' ∧ w'.backup = w.backup := by
  unfold OpenTable.act at ha
  simp only at ha
  split at ha
  · obtain ⟨t, ht, ha⟩ := bind_ok ha
    split at ha <;> cases ha
    · exact ⟨hb, rfl⟩
    · refine ⟨Bare.set hb ?_ rfl, rfl⟩
      exact hb.rest.seats t (getTable_mem ht)
  · cases ha
    exact ⟨hb, rfl⟩

theorem BackupRestaurant.act_bare (hb : Bare w) (ha : BackupRestaurant.act w = .ok (w', o)) :
    Bare w' ∧ w' = { w with backup := some { w.rest with actionsLog := w.rest.actionsLog.map BaseAction.copyText } } ∧
      ∀ t ∈ w.rest.tables, t.customersList = [] := by
  obtain ⟨⟨h', copy⟩, hc, ha⟩ := bind_ok ha
  cases ha
  obtain ⟨rfl, rfl, hnil⟩ := copy_bare hb.rest hc
  refine ⟨⟨hb.heap, hb.rest, fun b hb' => ?_⟩, rfl, hnil⟩
  cases hb'
  refine ⟨hb.rest.full, hb.rest.seats, fun a ha => ?_⟩
  obtain ⟨a', ha', rfl⟩ := List.mem_map.1 ha
  rw [copyText_customers]
  exact hb.rest.log a' ha'

/-- What `restore` makes of a restaurant nobody has come to. -/
theorem RestoreResturant.act_bare (hb : Bare w) (ha : RestoreResturant.act w = .ok (w', o)) :
    Bare w' ∧ w'.backup = w.backup ∧
    ∀ b, w.backup = some b → w'.rest = { b with menu := [], actionsLog := b.actionsLog.map BaseAction.copyText } := by
  unfold RestoreResturant.act at ha
  split at ha
  · next backup hbk =>
    obtain ⟨⟨h1, r1⟩, hclear, ha⟩ := bind_ok ha
    obtain ⟨⟨h2, r2⟩, hassign, ha⟩ := bind_ok ha
    cases ha
    obtain ⟨h3, hdestroy, hclear⟩ := bind_ok hclear
    cases hclear
    obtain ⟨rfl, -⟩ := destroyLog_ok hdestroy fun a ha => by simp [hb.rest.log a ha]
    obtain ⟨⟨h4, log⟩, hlog, hassign⟩ := bind_ok hassign
    have hbackup := hb.backup backup hbk
    rw [cloneLog_bare hbackup.log] at hlog
    cases hlog
    simp only [ne_eq, not_true_eq_false, if_false] at hassign
    obtain ⟨⟨h5, tables⟩, htables, hassign⟩ := bind_ok hassign
    obtain ⟨rfl, rfl, -⟩ := copyTables_null hbackup.seats htables
    cases hassign
    refine ⟨⟨hb.heap, ⟨hbackup.full, hbackup.seats, fun a ha => ?_⟩, fun b hb' => hb.backup b hb'⟩,
      rfl, fun b hb' => ?_⟩
    · obtain ⟨a', ha', rfl⟩ := List.mem_map.1 ha
      rw [copyText_customers]
      exact hbackup.log a' ha'
    · rw [hbk, Option.some.injEq] at hb'
      subst hb'
      rfl
  · next hbk =>
    cases ha
    refine ⟨hb, rfl, fun b hb' => ?_⟩
    rw [hbk] at hb'
    cases hb'

end Commands

/-! ## A run -/

theorem Bare.push {w : World} (hb : Bare w) (kind : ActionKind)
    (hk : ({ kind := kind } : BaseAction).customers = []) (o : Outcome) :
    Bare (w.push kind o) := by
  refine ⟨hb.heap, ⟨hb.rest.full, hb.rest.seats, fun a ha => ?_⟩, hb.backup⟩
  rcases List.mem_append.1 ha with ha | ha
  · exact hb.rest.log a ha
  · rw [List.mem_singleton.1 ha]
    exact hk

/-! An action leaves the log alone, `restore` apart, and no action drops the backup; `start` adds the record. -/

theorem OpenTable.act_log {w w' : World} {i : Int} {ps : List Ptr} {o : Outcome}
    (ha : OpenTable.act i ps w = .ok (w', o)) :
    w'.rest.actionsLog = w.rest.actionsLog ∧ (w.backup.isSome → w'.backup.isSome) := by
  unfold OpenTable.act at ha
  simp only at ha
  split at ha
  · obtain ⟨t, -, ha⟩ := bind_ok ha
    split at ha <;> cases ha <;> exact ⟨rfl, fun h => h⟩
  · cases ha
    exact ⟨rfl, fun h => h⟩

theorem Order.act_log {w w' : World} {i : Int} {o : Outcome} (ha : Order.act i w = .ok (w', o)) :
    w'.rest.actionsLog = w.rest.actionsLog ∧ (w.backup.isSome → w'.backup.isSome) := by
  obtain ⟨t, -, ha⟩ := bind_ok ha
  obtain ⟨⟨h', t', served⟩, -, ha⟩ := bind_ok ha
  cases ha
  exact ⟨rfl, fun h => h⟩

theorem MoveCustomer.act_log {w w' : World} {src dst id : Int} {o : Outcome}
    (ha : MoveCustomer.act src dst id w = .ok (w', o)) :
    w'.rest.actionsLog = w.rest.actionsLog ∧ (w.backup.isSome → w'.backup.isSome) := by
  obtain ⟨d, -, ha⟩ := bind_ok ha
  split at ha
  · obtain ⟨s, -, ha⟩ := bind_ok ha
    obtain ⟨cu, -, ha⟩ := bind_ok ha
    obtain ⟨d', -, ha⟩ := bind_ok ha
    obtain ⟨s1, -, ha⟩ := bind_ok ha
    obtain ⟨⟨h', s'⟩, -, ha⟩ := bind_ok ha
    cases ha
    exact ⟨rfl, fun h => h⟩
  · cases ha
    exact ⟨rfl, fun h => h⟩

theorem Close.act_log {w w' : World} {i : Int} {o : Outcome} (ha : Close.act i w = .ok (w', o)) :
    w'.rest.actionsLog = w.rest.actionsLog ∧ (w.backup.isSome → w'.backup.isSome) := by
  obtain ⟨t, -, ha⟩ := bind_ok ha
  split at ha
  · obtain ⟨bill, -, ha⟩ := bind_ok ha
    obtain ⟨⟨h', t'⟩, -, ha⟩ := bind_ok ha
    cases ha
    exact ⟨rfl, fun h => h⟩
  · cases ha
    exact ⟨rfl, fun h => h⟩

theorem BackupRestaurant.act_log {w w' : World} {o : Outcome} (ha : BackupRestaurant.act w = .ok (w', o)) :
    w'.rest.actionsLog = w.rest.actionsLog ∧ (w.backup.isSome → w'.backup.isSome) := by
  obtain ⟨⟨h', copy⟩, -, ha⟩ := bind_ok ha
  cases ha
  exact ⟨rfl, fun _ => rfl⟩

/-- A log with a customer in it cannot be destroyed, so only a restaurant without backup is "restored". -/
theorem RestoreResturant.act_log {w w' : World} {o : Outcome} (hl : Loaded w)
    (ha : RestoreResturant.act w = .ok (w', o)) :
    w'.rest.actionsLog = w.rest.actionsLog ∧ (w.backup.isSome → w'.backup.isSome) := by
  unfold RestoreResturant.act at ha
  split at ha
  · obtain ⟨⟨h1, r1⟩, hclear, -⟩ := bind_ok ha
    obtain ⟨h3, hdestroy, -⟩ := bind_ok hclear
    obtain ⟨a, ha', hne⟩ := hl.some
    exact absurd ((destroyLog_ok hdestroy hl.log).2 a ha') hne
  · cases ha
    exact ⟨rfl, fun h => h⟩

theorem record_loaded {w w' : World} {kind : ActionKind} {act : World → Except Fault (World × Outcome)} {out : String}
    (h : w.record kind act = .ok (w', out)) (hact : ∀ w1 o, act w = .ok (w1, o) →
    w1.rest.actionsLog = w.rest.actionsLog ∧ (w.backup.isSome → w1.backup.isSome))
    (hlog : ∀ a ∈ w.rest.actionsLog, none ∉ a.customers) (hk : none ∉ ({ kind := kind } : BaseAction).customers)
    (hsome : (∃ a ∈ w.rest.actionsLog, a.customers ≠ []) ∨ ({ kind := kind } : BaseAction).customers ≠ []) :
    Loaded w' ∧ (w.backup.isSome → w'.backup.isSome) := by
  obtain ⟨w1, o, ha, rfl⟩ := record_ok h
  have he : (w1.push kind o).rest.actionsLog = w.rest.actionsLog ++
    [{ kind, status := o.status, errorMsg := o.errorMsg }] := by
    rw [← (hact w1 o ha).1]
    rfl
  refine ⟨⟨fun a ha => ?_, ?_⟩, (hact w1 o ha).2⟩
  · rw [he] at ha
    rcases List.mem_append.1 ha with ha | ha
    · exact hlog a ha
    · rw [List.mem_singleton.1 ha]
      exact hk
  · rw [he]
    rcases hsome with ⟨a, ha, hne⟩ | hne
    · exact ⟨a, List.mem_append_left _ ha, hne⟩
    · exact ⟨_, List.mem_append_right _ (List.mem_singleton.2 rfl), hne⟩

theorem newCustomers_not_null {cs : List (String × String)} {h h' : Customers} {n n' : Int} {ps : List Ptr}
    (hn : newCustomers h n cs = .ok (h', n', ps)) : none ∉ ps := fun hmem => by
  obtain ⟨-, -, -, hids, -⟩ := newCustomers_ok hn
  obtain ⟨j, hj, -⟩ := hids none hmem
  simp [idOf] at hj

theorem step_loaded {w w' : World} {c : Cmd} (hl : Loaded w) (hs : Steps w c w') :
    Loaded w' ∧ (w.backup.isSome → w'.backup.isSome) := by
  obtain ⟨hne, out, hs⟩ := hs
  cases c with
  | openTable i cs =>
    obtain ⟨⟨h1, n, ps⟩, hn, hs⟩ := bind_ok hs
    have hs' : World.record _ (.openTable i ps) (OpenTable.act i ps) = .ok (w', out) := hs
    obtain ⟨h3, h4⟩ := record_loaded hs' (fun _ _ ha => OpenTable.act_log ha) hl.log
      (newCustomers_not_null hn) (.inl hl.some)
    exact ⟨h3, h4⟩
  | order i =>
    exact record_loaded hs (fun _ _ ha => Order.act_log ha) hl.log (by simp [BaseAction.customers]) (.inl hl.some)
  | move src dst id =>
    exact record_loaded hs (fun _ _ ha => MoveCustomer.act_log ha) hl.log (by simp [BaseAction.customers])
      (.inl hl.some)
  | close i =>
    exact record_loaded hs (fun _ _ ha => Close.act_log ha) hl.log (by simp [BaseAction.customers]) (.inl hl.some)
  | menu =>
    refine record_loaded hs (fun _ _ ha => ?_) hl.log (by simp [BaseAction.customers]) (.inl hl.some)
    cases ha
    exact ⟨rfl, id⟩
  | status i =>
    refine record_loaded hs (fun _ _ ha => ?_) hl.log (by simp [BaseAction.customers]) (.inl hl.some)
    rw [PrintTableStatus.act_same ha]
    exact ⟨rfl, id⟩
  | log =>
    obtain ⟨⟨w1, o⟩, ha, hs⟩ := bind_ok hs
    obtain ⟨text, -, ha⟩ := bind_ok ha
    cases ha
    cases hs
    exact ⟨hl, id⟩
  | backup =>
    exact record_loaded hs (fun _ _ ha => BackupRestaurant.act_log ha) hl.log
      (by simp [BaseAction.customers]) (.inl hl.some)
  | restore =>
    exact record_loaded hs (fun _ _ ha => RestoreResturant.act_log hl ha) hl.log
      (by simp [BaseAction.customers]) (.inl hl.some)
  | closeall => exact absurd rfl hne

theorem step_bare {w w' : World} {c : Cmd} (hb : Bare w) (hs : Steps w c w') :
    (Bare w' ∧ (c ≠ .backup → w'.backup = w.backup)) ∨ (Loaded w' ∧ (w.backup.isSome → w'.backup.isSome)) := by
  obtain ⟨hne, out, hs⟩ := hs
  cases c with
  | openTable i cs =>
    obtain ⟨⟨h1, n, ps⟩, hn, hs⟩ := bind_ok hs
    cases ps with
    | nil =>
      left
      obtain ⟨w1, o, ha, rfl⟩ := record_ok hs
      obtain rfl := newCustomers_none hn
      have hb' : Bare { w with heap := w.heap, rest := { w.rest with customerCount := n } } :=
        ⟨hb.heap, ⟨hb.rest.full, hb.rest.seats, hb.rest.log⟩, hb.backup⟩
      obtain ⟨h1, h2⟩ := OpenTable.act_bare hb' ha
      exact ⟨h1.push _ rfl o, fun _ => h2⟩
    | cons p ps =>
      right
      have hs' : World.record _ (.openTable i (p :: ps)) (OpenTable.act i (p :: ps)) = .ok (w', out) := hs
      obtain ⟨h3, h4⟩ := record_loaded hs' (fun _ _ ha => OpenTable.act_log ha) (fun a ha => by simp [hb.rest.log a ha])
        (newCustomers_not_null hn) (.inr (by simp [BaseAction.customers]))
      exact ⟨h3, h4⟩
  | order i =>
    left
    obtain ⟨w1, o, ha, rfl⟩ := record_ok hs
    obtain ⟨h1, h2⟩ := Order.act_bare hb ha
    exact ⟨h1.push _ rfl o, fun _ => h2⟩
  | move src dst id =>
    left
    obtain ⟨w1, o, ha, rfl⟩ := record_ok hs
    obtain ⟨h1, h2⟩ := MoveCustomer.act_bare hb ha
    exact ⟨h1.push _ rfl o, fun _ => h2⟩
  | close i =>
    left
    obtain ⟨w1, o, ha, rfl⟩ := record_ok hs
    obtain ⟨h1, h2⟩ := Close.act_bare hb ha
    exact ⟨h1.push _ rfl o, fun _ => h2⟩
  | menu =>
    left
    obtain ⟨w1, o, ha, rfl⟩ := record_ok hs
    cases ha
    exact ⟨hb.push _ rfl _, fun _ => rfl⟩
  | status i =>
    left
    obtain ⟨w1, o, ha, rfl⟩ := record_ok hs
    rw [PrintTableStatus.act_same ha]
    exact ⟨hb.push _ rfl _, fun _ => rfl⟩
  | log =>
    left
    obtain ⟨⟨w1, o⟩, ha, hs⟩ := bind_ok hs
    obtain ⟨text, -, ha⟩ := bind_ok ha
    cases ha
    cases hs
    exact ⟨hb, fun _ => rfl⟩
  | backup =>
    left
    obtain ⟨w1, o, ha, rfl⟩ := record_ok hs
    exact ⟨(BackupRestaurant.act_bare hb ha).1.push _ rfl o, fun h => absurd rfl h⟩
  | restore =>
    left
    obtain ⟨w1, o, ha, rfl⟩ := record_ok hs
    obtain ⟨h1, h2, -⟩ := RestoreResturant.act_bare hb ha
    exact ⟨h1.push _ rfl o, fun _ => h2⟩
  | closeall => exact absurd rfl hne

theorem run_loaded {w t : World} {cmds : List Cmd} (h : Run Steps w cmds t) (hw : Loaded w) :
    Loaded t ∧ (w.backup.isSome → t.backup.isSome) := by
  induction h with
  | nil => exact ⟨hw, id⟩
  | cons hs _ ih =>
    obtain ⟨h1, h2⟩ := step_loaded hw hs
    obtain ⟨h3, h4⟩ := ih h1
    exact ⟨h3, fun h => h4 (h2 h)⟩

/-- From the opening of the restaurant on, either an `open` has listed a customer or nobody has come. -/
theorem run_bare {w t : World} {cmds : List Cmd} (h : Run Steps w cmds t) (hw : Bare w) : Bare t ∨ Loaded t := by
  induction h with
  | nil => exact .inl hw
  | cons hs hrun ih =>
    rcases step_bare hw hs with ⟨hb, -⟩ | ⟨hl, -⟩
    · exact ih hb
    · exact .inr (run_loaded hrun hl).1

/-- Without another `backup` the backup stays, at least until somebody comes. -/
theorem run_backup {w t : World} {cmds : List Cmd} (h : Run Steps w cmds t) (hw : Bare w) (hno : Cmd.backup ∉ cmds)
    (hsome : w.backup.isSome) : (Bare t ∧ t.backup = w.backup) ∨ (Loaded t ∧ t.backup.isSome) := by
  induction h with
  | nil => exact .inl ⟨hw, rfl⟩
  | cons hs hrun ih =>
    rw [List.mem_cons, not_or] at hno
    rcases step_bare hw hs with ⟨hb, hk⟩ | ⟨hl, hk⟩
    · rw [← hk (Ne.symm hno.1)] at hsome ⊢
      exact ih hb hno.2 hsome
    · obtain ⟨h1, h2⟩ := run_loaded hrun hl
      exact .inr ⟨h1, h2 (hk hsome)⟩

theorem boot_bare (tables : List (Nat × Bool)) (dishes : List (String × Int × DishType)) :
    Bare (boot tables dishes) := by
  refine ⟨rfl, ⟨by simp [boot], fun t ht => ?_, by simp [boot]⟩, by simp [boot]⟩
  obtain ⟨c, -, rfl⟩ := List.mem_map.1 ht
  simp [Table.new]

/-! ## When restore is faithful -/

theorem Indistinguishable.refl (w : World) : Indistinguishable w w := ⟨rfl, rfl, rfl, fun _ => rfl⟩

/-- `restore` where nobody has come: the tables and the count of the backup, no menu, the log copied once more. -/
theorem RestoreResturant.act_eq {w : World} {b : Restaurant} (hw : Bare w) (hb : w.backup = some b)
    (hnil : ∀ t ∈ b.tables, t.customersList = []) : RestoreResturant.act w =
      .ok ({ w with rest := { b with menu := [], actionsLog := b.actionsLog.map BaseAction.copyText } }, {}) := by
  have hlog := (hw.backup b hb).log
  simp only [RestoreResturant.act, hb, Restaurant.clear, Restaurant.assign, destroyLog_bare hw.rest.log, ok_bind,
    cloneLog_bare hlog, ne_eq, not_true_eq_false, if_false, copyTables_empty hnil, List.nil_append]

/-- Two copies later the text of a failed `open` is longer. -/
theorem toString_copied {a : BaseAction} {h : Customers} {i : Int} {cs : List Ptr} (hk : a.kind = .openTable i cs)
    (hcs : a.customers = []) (he : a.toString h = a.copyText.copyText.toString h) : a.errorMsg = "" := by
  obtain rfl : cs = [] := by simpa [BaseAction.customers, hk] using hcs
  by_contra hne
  have hcopy : ∀ b : BaseAction, b.kind = .openTable i [] → b.errorMsg ≠ "" →
      b.copyText.kind = .openTable i [] ∧ b.copyText.errorMsg = ": " ++ b.errorMsg ∧ b.copyText.status = b.status := by
    intro b hb hbne
    simp [BaseAction.copyText, hb, BaseAction.getErrorMsg, hbne]
  obtain ⟨k1, m1, s1⟩ := hcopy a hk hne
  have hne1 : a.copyText.errorMsg ≠ "" := by
    rw [m1]
    simp
  obtain ⟨k2, m2, s2⟩ := hcopy a.copyText k1 hne1
  simp only [BaseAction.toString, hk, k2, customersText, ok_bind, BaseAction.statusTostring,
    s2, s1, BaseAction.getErrorMsg, hne,
    ne_eq, not_false_eq_true, if_true, m2, m1, Except.ok.injEq] at he
  have hlen := congrArg String.length he
  have h2 : (": " : String).length = 2 := by decide
  have hcolon : (": " : String) ≠ "" := by decide
  simp only [String.length_append, String.append_eq_empty_iff, hcolon, false_and, not_false_eq_true,
    if_true, h2] at hlen
  omega

theorem copyText_eq {a : BaseAction} (h : ∀ i cs, a.kind = .openTable i cs → a.errorMsg = "") : a.copyText = a := by
  unfold BaseAction.copyText
  split
  · next i cs hk =>
    have he := h i cs hk
    obtain ⟨kind, status, msg⟩ := a
    obtain rfl : msg = "" := he
    rfl
  · rfl

/-- For a restaurant `w` that is backed up, commands other than `backup` after it and the state `t` they lead
to: `restore` there gives back what was backed up exactly when the menu was empty, no `open` in the
backed-up log has failed, and no `open` in the log at `restore` lists a customer. -/
theorem restore_faithful_iff {tables : List (Nat × Bool)} {dishes : List (String × Int × DishType)} {pre mid : List Cmd}
    {w w' t : World} {o : Outcome} (hpre : Run Steps (boot tables dishes) pre w)
    (hback : BackupRestaurant.act w = .ok (w', o)) (hmid : Run Steps (w'.push .backupRestaurant o) mid t)
    (hno : Cmd.backup ∉ mid) :
    (∃ r o', RestoreResturant.act t = .ok (r, o') ∧ Indistinguishable w' r) ↔
      w.rest.menu = [] ∧ (∀ a ∈ w.rest.actionsLog, ∀ i cs, a.kind = .openTable i cs → a.errorMsg = "") ∧
        ∀ a ∈ t.rest.actionsLog, a.customers = [] := by
  have hsome : w'.backup.isSome := by
    obtain ⟨⟨h', copy⟩, -, ha⟩ := bind_ok hback
    cases ha
    rfl
  have hcases : (Bare w ∧ Bare t ∧ t.backup = w'.backup) ∨ (Loaded t ∧ t.backup.isSome) := by
    rcases run_bare hpre (boot_bare tables dishes) with hw | hw
    · have hw' := (BackupRestaurant.act_bare hw hback).1.push .backupRestaurant rfl o
      exact (run_backup hmid hw' hno hsome).imp_left fun ⟨h1, h2⟩ => ⟨hw, h1, h2⟩
    · have hw' : World.record w .backupRestaurant BackupRestaurant.act = .ok (w'.push .backupRestaurant o, o.out) := by
        rw [World.record, hback, ok_bind]
      have hl := record_loaded hw' (fun _ _ ha => BackupRestaurant.act_log ha) hw.log
        (by simp [BaseAction.customers]) (.inl hw.some)
      obtain ⟨h1, h2⟩ := run_loaded hmid hl.1
      exact .inr ⟨h1, h2 hsome⟩
  rcases hcases with ⟨hw, ht, htb⟩ | ⟨hl, htb⟩
  · obtain ⟨-, rfl, hnil⟩ := BackupRestaurant.act_bare hw hback
    rw [RestoreResturant.act_eq ht htb hnil]
    have heap : t.heap = w.heap := ht.heap.trans hw.heap.symm
    constructor
    · rintro ⟨r, o', he, hsame⟩
      cases he
      refine ⟨hsame.menu, fun a ha i cs hk => ?_, ht.rest.log⟩
      have hlog := hsame.log
      simp only [List.map_map, heap] at hlog
      exact toString_copied hk (hw.rest.log a ha) (List.map_inj_left.1 hlog a ha)
    · rintro ⟨hmenu, herr, -⟩
      have hcopy : w.rest.actionsLog.map BaseAction.copyText = w.rest.actionsLog :=
        (List.map_congr_left fun a ha => copyText_eq (herr a ha)).trans (List.map_id _)
      refine ⟨_, _, rfl, ?_⟩
      simp only [hcopy, htb, heap, ← hmenu]
      exact Indistinguishable.refl _
  · -- somebody has come: the log cannot be destroyed
    constructor
    · rintro ⟨r, o', he, -⟩
      obtain ⟨b, hb⟩ := Option.isSome_iff_exists.1 htb
      simp only [RestoreResturant.act, hb] at he
      obtain ⟨⟨h1, r1⟩, hclear, -⟩ := bind_ok he
      obtain ⟨h3, hdestroy, -⟩ := bind_ok hclear
      obtain ⟨a, ha', hne⟩ := hl.some
      exact absurd ((destroyLog_ok hdestroy hl.log).2 a ha') hne
    · rintro ⟨-, -, hnone⟩
      obtain ⟨a, ha', hne⟩ := hl.some
      exact absurd (hnone a ha') hne

/-- Commands, a backup, further commands: the states at the backup, after it and at the end. -/
def rehearse (tables : List (Nat × Bool)) (dishes : List (String × Int × DishType)) (pre mid : List Cmd) :
    Option (World × World × Outcome × World) :=
  match pre.foldlM next (boot tables dishes) with
  | some w => match BackupRestaurant.act w with
    | .ok (w', o) => (mid.foldlM next (w'.push .backupRestaurant o)).map fun t => (w, w', o, t)
    | .error _ => none
  | none => none

theorem rehearse_ok {tables : List (Nat × Bool)} {dishes : List (String × Int × DishType)}
    {pre mid : List Cmd} {w w' t : World}
    {o : Outcome} (h : rehearse tables dishes pre mid = some (w, w', o, t)) : Run Steps (boot tables dishes) pre w ∧
      BackupRestaurant.act w = .ok (w', o) ∧ Run Steps (w'.push .backupRestaurant o) mid t := by
  unfold rehearse at h
  split at h
  · next w1 hpre =>
    split at h
    · next w2 o2 hback =>
      rw [Option.map_eq_some_iff] at h
      obtain ⟨t, hmid, he⟩ := h
      cases he
      exact ⟨run_of_next hpre, hback, run_of_next hmid⟩
    · cases h
  · cases h

/-- A restaurant without dishes whose tables were opened for nobody, backed up, looked at and restored. -/
theorem restore_faithful_iff_empty : ∃ w w' o t, rehearse [(2, false), (3, false)] []
    [.openTable 0 []] [.status 0, .close 0]
      = some (w, w', o, t) ∧ ∃ r o', RestoreResturant.act t = .ok (r, o') ∧ Indistinguishable w' r := by
  have h : (rehearse [(2, false), (3, false)] [] [.openTable 0 []] [.status 0, .close 0]).any (fun s =>
      s.1.rest.menu.isEmpty && (s.1.rest.actionsLog.all fun a => a.errorMsg == "") &&
        s.2.2.2.rest.actionsLog.all fun a => a.customers.isEmpty) = true := by decide +kernel
  obtain ⟨⟨w, w', o, t⟩, hs, hchk⟩ := (Option.any_eq_true _ _).1 h
  simp only [Bool.and_eq_true, List.isEmpty_iff, List.all_eq_true, beq_iff_eq] at hchk
  obtain ⟨hpre, hback, hmid⟩ := rehearse_ok hs
  exact ⟨w, w', o, t, hs, (restore_faithful_iff hpre hback hmid (by decide)).2
    ⟨hchk.1.1, fun a ha _ _ _ => hchk.1.2 a ha, hchk.2⟩⟩

/-- `restore` right after `backup` loses the menu. -/
theorem restore_faithful_not_always :
    ¬ ∀ tables dishes pre mid w w' o t, rehearse tables dishes pre mid = some (w, w', o, t) →
    Cmd.backup ∉ mid → ∃ r o', RestoreResturant.act t = .ok (r, o') ∧ Indistinguishable w' r := by
  intro h
  have hrun : (rehearse [(2, false)] [("beer", 10, .alc)] [] []).any (fun s => !s.2.1.rest.menu.isEmpty &&
      match RestoreResturant.act s.2.2.2 with
      | .ok (r, _) => r.rest.menu.isEmpty
      | .error _ => false) = true := by decide +kernel
  obtain ⟨⟨w, w', o, t⟩, hs, hchk⟩ := (Option.any_eq_true _ _).1 hrun
  obtain ⟨r, o', hr, hsame⟩ := h _ _ _ _ w w' o t hs (by decide)
  simp only [hr, hsame.menu, Bool.and_eq_true, Bool.not_eq_true'] at hchk
  rw [hchk.2] at hchk
  exact absurd hchk.1 (by decide)

end Rest
