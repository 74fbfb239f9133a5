import CCppProjects.Rest.Seating
/-
# Every command keeps the tables sound

One lemma for each action under its own condition, then the run (`tables_sound`).
-/
namespace Rest

open Heap Lts

theorem getTable_ok {r : Restaurant} {i : Int} {t : Table} (ht : r.getTable i = .ok t) :
    r.tables[i.toNat]? = some t := by
  unfold Restaurant.getTable at ht
  split at ht
  · split at ht <;> cases ht
    assumption
  · cases ht

theorem getTable_mem {r : Restaurant} {i : Int} {t : Table} (ht : r.getTable i = .ok t) : t ∈ r.tables :=
  List.mem_of_getElem? (getTable_ok ht)

theorem getTable_nonneg {r : Restaurant} {i : Int} {t : Table} (ht : r.getTable i = .ok t) : 0 ≤ i := by
  unfold Restaurant.getTable at ht
  split at ht
  · assumption
  · cases ht

theorem getTable_setTable {r : Restaurant} {i : Int} {t : Table} (ht : r.getTable i = .ok t) (u : Table) :
    (r.setTable i u).getTable i = .ok u := by
  have hlt := (List.getElem?_eq_some_iff.1 (getTable_ok ht)).1
  simp [Restaurant.getTable, Restaurant.setTable, getTable_nonneg ht, hlt]

/-- Replacing one element of a list replaces its part of the joined list. -/
theorem flatMap_set_perm {α β : Type} (f : α → List β) {a b : α} : ∀ {l : List α} {k : Nat}, l[k]? = some a →
    ((l.set k b).flatMap f ++ f a).Perm (l.flatMap f ++ f b)
  | [], _, hk => by simp at hk
  | x :: l, 0, hk => by
    obtain rfl : x = a := by simpa using hk
    simp only [List.set_cons_zero, List.flatMap_cons]
    rw [List.append_assoc (f x)]
    exact List.perm_append_comm.trans (List.perm_append_comm.append_left (f x))
  | x :: l, k + 1, hk => by
    have ih := flatMap_set_perm f (b := b) (l := l) (k := k) (by simpa using hk)
    simp only [List.set_cons_succ, List.flatMap_cons, List.append_assoc]
    exact ih.append_left (f x)

section Actions

variable {h h' : Customers} {r : Restaurant} {t t' : Table} {i : Int} {w w' : World} {o : Outcome}

theorem seats_setTable (ht : r.getTable i = .ok t) (t' : Table) :
    ((r.setTable i t').seats ++ t.customersList).Perm (r.seats ++ t'.customersList) :=
  flatMap_set_perm Table.customersList (getTable_ok ht)

/-- One table replaced, the objects of the others left alone. -/
theorem Sound.setTable (hs : Sound h r) (hseats : Seats h' (r.setTable i t').seats r.customerCount)
    (hk : ∀ p ∈ (r.setTable i t').seats, p ∈ r.seats → idOf h' p = idOf h p) (hok : t'.Ok h') :
    Sound h' (r.setTable i t') := by
  refine ⟨?_, hseats, fun u hu => ?_, hs.log⟩
  · rw [show (r.setTable i t').numOfTables = r.numOfTables from rfl, hs.full]
    exact (List.length_set ..).symm
  · rcases List.mem_or_eq_of_mem_set hu with hm | rfl
    · exact (hs.tables u hm).congr fun p hp => hk p (mem_seats hu hp) (mem_seats hm hp)
    · exact hok

theorem Inv.push (hi : Inv w) {kind : ActionKind} (hk : none ∉ ({ kind := kind } : BaseAction).customers)
    (o : Outcome) :
    Inv (w.push kind o) := by
  refine ⟨⟨hi.rest.full, hi.rest.seats, hi.rest.tables, fun a ha => ?_⟩, hi.backup, hi.apart⟩
  rcases List.mem_append.1 ha with ha | ha
  · exact hi.rest.log a ha
  · rw [List.mem_singleton.1 ha]
    exact hk

/-! ## open -/

theorem addCustomers_ok : ∀ {ps : List Ptr} {t : Table}, t.currentCapacity ≤ t.capacity → ∃ qs, qs.Sublist ps ∧
    t.addCustomers ps =
    { t with customersList := t.customersList ++ qs, currentCapacity := t.currentCapacity + qs.length } ∧
    t.currentCapacity + qs.length ≤ t.capacity
  | [], t, ht => ⟨[], .refl _, by simp [Table.addCustomers], by simpa using ht⟩
  | p :: ps, t, ht => by
    by_cases hlt : t.currentCapacity < t.capacity
    · obtain ⟨qs, hsub, he, hle⟩ := addCustomers_ok (t := t.addCustomer p) (by
        rw [addCustomer_of_lt p hlt]
        exact hlt)
      refine ⟨p :: qs, hsub.cons_cons p, ?_, ?_⟩
      · rw [Table.addCustomers, List.foldl_cons, ← Table.addCustomers, he, addCustomer_of_lt p hlt]
        simp [Int.add_assoc, Int.add_comm 1]
      · rw [addCustomer_of_lt p hlt] at hle
        simp only [List.length_cons] at hle ⊢
        omega
    · obtain ⟨qs, hsub, he, hle⟩ := addCustomers_ok (t := t) ht
      refine ⟨qs, hsub.cons p, ?_, hle⟩
      rw [Table.addCustomers, List.foldl_cons, ← Table.addCustomers, Table.addCustomer, if_neg hlt, he]

/-- New customers, of whom those there is room for sit down at a table that was closed. -/
theorem OpenTable.act_inv {ps : List Ptr} {n : Int} (hi : Inv w) (hn : w.rest.customerCount ≤ n)
    (hfresh : ∀ a, some a ∈ ps → w.heap.length ≤ a)
    (hreal : ∀ p ∈ ps, ∃ j, idOf (w.heap ++ h) p = some j ∧ w.rest.customerCount ≤ j ∧ j < n)
    (hnd : (ps.map (idOf (w.heap ++ h))).Nodup)
    (ha : OpenTable.act i ps { w with heap := w.heap ++ h, rest := { w.rest with customerCount := n } } =
    .ok (w', o)) : Inv w' := by
  have hrest : Sound (w.heap ++ h) { w.rest with customerCount := n } :=
    ⟨hi.rest.full, (hi.rest.seats.grow h).mono hn, (hi.rest.grow h).tables, hi.rest.log⟩
  have hbackup : ∀ b, w.backup = some b → Sound (w.heap ++ h) b := fun b hb => (hi.backup b hb).grow h
  have hstay : Inv { w with heap := w.heap ++ h, rest := { w.rest with customerCount := n } } :=
    ⟨hrest, hbackup, hi.apart⟩
  unfold OpenTable.act at ha
  simp only at ha
  split at ha
  · obtain ⟨t, ht, ha⟩ := bind_ok ha
    split at ha
    · cases ha
      exact hstay
    · next hopen =>
      cases ha
      have hok := hrest.tables t (getTable_mem ht)
      obtain ⟨hnil, hord⟩ := hok.closed (by simpa using hopen)
      obtain ⟨qs, hsub, he, hle⟩ := addCustomers_ok (t := t.openTable) hok.bound
      have hperm := seats_setTable ht (t.openTable.addCustomers ps)
      rw [hnil, List.append_nil, he] at hperm
      simp only [Table.openTable, hnil, List.nil_append] at hperm hle
      have hcount : t.currentCapacity = 0 := by simpa [hnil] using hok.count
      rw [he]
      simp only [Table.openTable, hnil, List.nil_append]
      refine ⟨hrest.setTable ?_ (fun _ _ _ => rfl) ⟨?_, hle, by simp, by simp [hord]⟩, hbackup, fun b hb p hp => ?_⟩
      · refine Seats.perm ?_ hperm.symm
        refine Seats.append (hi.rest.seats.grow h) (fun p hp => hreal p (hsub.subset hp)) ?_ hn
        exact hnd.sublist (hsub.map _)
      · rw [hcount]
        simp
      · rcases List.mem_append.1 (hperm.mem_iff.1 hp) with hp | hp
        · exact hi.apart b hb p hp
        · exact fun hpb => (hi.backup b hb).seats.not_fresh hfresh hpb (hsub.subset hp)
  · cases ha
    exact hstay

/-! ## order -/

theorem Order.act_inv (hi : Inv w) (ha : Order.act i w = .ok (w', o)) : Inv w' := by
  obtain ⟨t, ht, ha⟩ := bind_ok ha
  obtain ⟨⟨h', t', served⟩, ho, ha⟩ := bind_ok ha
  obtain ⟨⟨h2, served2⟩, hloop, ho⟩ := bind_ok ho
  cases ho
  cases ha
  obtain ⟨hids, hserved⟩ := orderLoop_ok hloop
  have hok := (hi.rest.tables t (getTable_mem ht)).congr fun p _ => hids p
  have hserved' : ∀ s ∈ served, some s.2.1 ∈ t.customersList.map (idOf h') := by
    rw [List.map_congr_left fun p _ => hids p]
    exact hserved
  have hperm : (w.rest.setTable i { t with orderList := t.orderList ++ served.map Prod.snd }).seats.Perm w.rest.seats :=
    (List.perm_append_right_iff _).1 (seats_setTable ht _)
  refine ⟨hi.rest.setTable ?_ (fun p _ _ => hids p) ⟨hok.count, hok.bound, fun hc => ?_, fun o' ho' => ?_⟩,
    fun b hb => (hi.backup b hb).congr fun p _ => hids p, fun b hb p hp => hi.apart b hb p (hperm.mem_iff.1 hp)⟩
  · exact (hi.rest.seats.perm hperm.symm).congr fun p _ => hids p
  · obtain ⟨hnil, hord⟩ := hok.closed hc
    refine ⟨hnil, ?_⟩
    have : served = [] := List.eq_nil_iff_forall_not_mem.2 fun s hs => by simpa [hnil] using hserved' s hs
    simp [hord, this]
  · rcases List.mem_append.1 ho' with ho' | ho'
    · exact hok.paid o' ho'
    · obtain ⟨s, hs, rfl⟩ := List.mem_map.1 ho'
      exact hserved' s hs

/-! ## close -/

/-- A table is closed and its customers deleted. -/
theorem Inv.closed (hi : Inv w) (ht : w.rest.getTable i = .ok t) (hc : t.closeTable w.heap = .ok (h', t'))
    (hord : t.orderList = []) : Inv { w with rest := w.rest.setTable i t', heap := h' } := by
  obtain ⟨rfl, hk⟩ := closeTable_ok hc
  have hperm := seats_setTable ht { t with customersList := [], currentCapacity := 0, isOpen := false }
  rw [List.append_nil] at hperm
  have hall := hi.rest.seats.perm hperm.symm
  have hok := hi.rest.tables t (getTable_mem ht)
  have hafter : ∀ p ∈ (w.rest.setTable i { t with customersList := [], currentCapacity := 0, isOpen := false }).seats,
      idOf h' p = idOf w.heap p := fun p hp => hk p (hall.disjoint hp)
  refine ⟨hi.rest.setTable (hall.left.congr hafter) (fun p hp _ => hafter p hp)
    ⟨by simp, ?_, by simp [hord], by simp [hord]⟩,
    fun b hb => (hi.backup b hb).congr fun p hp => hk p fun hpt => hi.apart b hb p (mem_seats (getTable_mem ht) hpt) hp,
    fun b hb p hp => hi.apart b hb p (hperm.mem_iff.1 (List.mem_append_left _ hp))⟩
  have h1 := hok.count
  have h2 := hok.bound
  change (0 : Int) ≤ t.capacity
  omega

theorem Close.act_inv (hi : Inv w) (hc : ∀ t, w.rest.getTable i = .ok t → t.isOpen = true → t.orderList = [])
    (ha : Close.act i w = .ok (w', o)) : Inv w' := by
  obtain ⟨t, ht, ha⟩ := bind_ok ha
  split at ha
  · next hopen =>
    obtain ⟨bill, -, ha⟩ := bind_ok ha
    obtain ⟨⟨h', t'⟩, hclose, ha⟩ := bind_ok ha
    cases ha
    exact hi.closed ht hclose (hc t ht hopen)
  · cases ha
    exact hi

/-! ## move -/

/-- A customer leaves the table it sits at; the table closes with the last one. -/
theorem removeCustomer_ok {id : Int} (hok : t.Ok h) (hid : some id ∈ t.customersList.map (idOf h))
    (hr : t.removeCustomer h id = .ok (h', t')) : h' = h ∧ ∃ cu qs, idOf h cu = some id ∧
    t.customersList.Perm (cu :: qs) ∧
      t' = { t with customersList := qs, orderList := t.orderList.filter fun o => o.1 ≠ id,
                    currentCapacity := qs.length, isOpen := !qs.isEmpty && t.isOpen } := by
  obtain ⟨qs, hqs, hr⟩ := bind_ok hr
  obtain ⟨n, hn, hr⟩ := bind_ok hr
  obtain ⟨cu, hcu, hperm⟩ := eraseCustomer_ok hqs hid
  obtain rfl := int_ok hn
  have hlen : t.customersList.length = qs.length + 1 := hperm.length_eq
  have hcount : t.currentCapacity - 1 = qs.length := by
    have := hok.count
    omega
  have hempty : t.customersList.isEmpty = false := by
    cases hl : t.customersList with
    | nil => simp [hl] at hlen
    | cons _ _ => rfl
  simp only [hempty, hcount] at hr
  split at hr
  · next h0 =>
    obtain rfl : qs = [] := List.length_eq_zero_iff.1 (by omega)
    cases hr
    exact ⟨rfl, cu, [], hcu, hperm, by simp⟩
  · next h0 =>
    cases hr
    refine ⟨rfl, cu, qs, hcu, hperm, ?_⟩
    have : qs.isEmpty = false := by
      cases qs with
      | nil => simp at h0
      | cons _ _ => rfl
    simp [this]

theorem Table.Ok.remove {id : Int} {cu : Ptr} {qs : List Ptr} (hok : t.Ok h) (hcu : idOf h cu = some id)
    (hperm : t.customersList.Perm (cu :: qs)) : Table.Ok h
      { t with customersList := qs, orderList := t.orderList.filter fun o => o.1 ≠ id,
               currentCapacity := qs.length, isOpen := !qs.isEmpty && t.isOpen } := by
  have hlen : t.customersList.length = qs.length + 1 := hperm.length_eq
  have hpaid : ∀ o ∈ t.orderList.filter (fun o => o.1 ≠ id), some o.1 ∈ qs.map (idOf h) := fun o ho => by
    obtain ⟨ho, hne⟩ := List.mem_filter.1 ho
    have hm := (hperm.map (idOf h)).mem_iff.1 (hok.paid o ho)
    rw [List.map_cons, hcu, List.mem_cons, Option.some.injEq] at hm
    exact hm.resolve_left (by simpa using hne)
  refine ⟨rfl, ?_, fun hc => ?_, hpaid⟩
  · have h1 := hok.count
    have h2 := hok.bound
    change (qs.length : Int) ≤ t.capacity
    omega
  · have hqs : qs = [] := by
      by_contra hne
      have : t.isOpen = false := by
        cases qs with
        | nil => exact absurd rfl hne
        | cons _ _ => simpa using hc
      simp [(hok.closed this).1] at hlen
    refine ⟨hqs, List.eq_nil_iff_forall_not_mem.2 fun o ho => ?_⟩
    have := hpaid o ho
    simp [hqs] at this

theorem MoveCustomer.act_inv {src dst id : Int} (hi : Inv w)
    (hseat : ∀ s d, w.rest.getTable src = .ok s → w.rest.getTable dst = .ok d → d.isOpen = true → d.isFull = false →
      some id ∈ s.customersList.map (idOf w.heap))
    (ha : MoveCustomer.act src dst id w = .ok (w', o)) : Inv w' := by
  obtain ⟨d, hd, ha⟩ := bind_ok ha
  split at ha
  swap
  · cases ha
    exact hi
  next hopen =>
  simp only [Bool.and_eq_true, Bool.not_eq_true'] at hopen
  obtain ⟨s, hs, ha⟩ := bind_ok ha
  obtain ⟨cu, hcu, ha⟩ := bind_ok ha
  obtain ⟨d', hd', ha⟩ := bind_ok ha
  obtain ⟨s1, hs1, ha⟩ := bind_ok ha
  obtain ⟨⟨h', s'⟩, hs', ha⟩ := bind_ok ha
  cases ha
  have hid := hseat s d hs hd hopen.2 hopen.1
  have hdok := hi.rest.tables d (getTable_mem hd)
  have hsok := hi.rest.tables s (getTable_mem hs)
  obtain ⟨hcuS, hcuId⟩ := findCustomer_ok hcu hid
  have hcuR := mem_seats (getTable_mem hs) hcuS
  have hlt : d.currentCapacity < d.capacity := by
    have h1 := hdok.bound
    have h2 : d.currentCapacity ≠ d.capacity := by simpa [Table.isFull] using hopen.1
    omega
  -- the destination gets the customer and some dishes of that customer
  obtain ⟨X, hX, hd'eq⟩ : ∃ X : List OrderPair, (∀ o ∈ X, o.1 = id) ∧ d' =
      { d with customersList := d.customersList ++ [cu], currentCapacity := d.currentCapacity + 1, orderList := d.orderList ++ X } := by
    rw [addCustomer_of_lt cu hlt, Table.addDishesFrom] at hd'
    split at hd'
    · unfold Table.addOwnDishes at hd'
      split at hd' <;> cases hd'
      exact ⟨[], by simp, by simp⟩
    · cases hd'
      exact ⟨s.orderList.filter fun o => o.1 = id, by simp, rfl⟩
  have hlist : d'.customersList = d.customersList ++ [cu] := by rw [hd'eq]
  have hd'ok : d'.Ok w.heap := by
    rw [hd'eq]
    refine ⟨?_, hlt, fun hc => by simp [hopen.2] at hc, fun o ho => ?_⟩
    · have := hdok.count
      simp only [List.length_append, List.length_singleton]
      omega
    · rw [List.map_append]
      rcases List.mem_append.1 ho with ho | ho
      · exact List.mem_append_left _ (hdok.paid o ho)
      · rw [hX o ho]
        exact List.mem_append_right _ (by simp [hcuId])
  have hs1ok : s1.Ok w.heap ∧ cu ∈ s1.customersList := by
    have hs1' := getTable_ok hs1
    rw [Restaurant.setTable, List.getElem?_set] at hs1'
    split at hs1'
    · split at hs1' <;> cases hs1'
      exact ⟨hd'ok, by simp [hlist]⟩
    · rw [getTable_ok hs] at hs1'
      cases hs1'
      exact ⟨hsok, hcuS⟩
  obtain ⟨rfl, cu', qs, hcu', hperm, rfl⟩ := removeCustomer_ok hs1ok.1 (hcuId ▸ List.mem_map_of_mem hs1ok.2) hs'
  -- one seat more at the destination, one less at the source: the same customers sit in the restaurant
  have hr1 : (w.rest.setTable dst d').seats.Perm (w.rest.seats ++ [cu]) := by
    have hp := seats_setTable hd d'
    rw [hlist] at hp
    refine (List.perm_append_right_iff d.customersList).1 (hp.trans ?_)
    rw [List.append_assoc]
    exact List.perm_append_comm.append_left _
  have hcu'eq : cu' = cu := by
    have hm : cu' ∈ (w.rest.setTable dst d').seats := mem_seats (getTable_mem hs1) (hperm.mem_iff.2 (by simp))
    rcases List.mem_append.1 (hr1.mem_iff.1 hm) with hm | hm
    · exact hi.rest.seats.inj hm hcuR (hcu'.trans hcuId.symm)
    · exact List.mem_singleton.1 hm
  subst hcu'eq
  have hr2 := (seats_setTable hs1 { s1 with customersList := qs, orderList := s1.orderList.filter fun o => o.1 ≠ id,
                                            currentCapacity := qs.length, isOpen := !qs.isEmpty && s1.isOpen })
  have hseats := (List.perm_append_right_iff (cu' :: qs)).1 (((hperm.symm.append_left _).trans hr2).trans
    ((hr1.append_right qs).trans (by rw [List.append_assoc]; exact .refl _)))
  refine ⟨⟨?_, hi.rest.seats.perm hseats.symm, fun u hu => ?_, hi.rest.log⟩, hi.backup,
    fun b hb p hp => hi.apart b hb p (hseats.mem_iff.1 hp)⟩
  · simp only [Restaurant.setTable, List.length_set]
    exact hi.rest.full
  · rcases List.mem_or_eq_of_mem_set hu with hu | rfl
    · rcases List.mem_or_eq_of_mem_set hu with hu | rfl
      · exact hi.rest.tables u hu
      · exact hd'ok
    · exact hs1ok.1.remove hcu' hperm

/-! ## backup and restore -/

theorem customers_of_not_open {a : BaseAction} (hk : ∀ i cs, a.kind ≠ .openTable i cs) : a.customers = [] := by
  unfold BaseAction.customers
  split
  · next hk' => exact absurd hk' (hk _ _)
  · rfl

theorem cloneLog_grown : ∀ {as bs : List BaseAction} {h h' : Customers}, cloneLog h as = .ok (h', bs) →
    (∃ v, h' = h ++ v) ∧ ∀ a ∈ bs, none ∉ a.customers
  | [], _, h, _, hc => by
    cases hc
    exact ⟨⟨[], by simp⟩, by simp⟩
  | a :: as, _, h, h', hc => by
    obtain ⟨⟨h1, b⟩, hb, hc⟩ := bind_ok hc
    obtain ⟨⟨h2, bs⟩, hbs, hc⟩ := bind_ok hc
    cases hc
    obtain ⟨⟨v, rfl⟩, hnone⟩ := cloneLog_grown hbs
    have hhead : (∃ v, h1 = h ++ v) ∧ none ∉ b.customers := by
      unfold BaseAction.clone at hb
      split at hb
      · obtain ⟨⟨h3, cust⟩, hcust, hb⟩ := bind_ok hb
        cases hb
        exact cloneAll_grown hcust
      · next hopen =>
        cases hb
        rw [customers_of_not_open hopen]
        exact ⟨⟨[], by simp⟩, by simp⟩
    obtain ⟨⟨u, rfl⟩, hb'⟩ := hhead
    exact ⟨⟨u ++ v, by simp⟩, by simpa using ⟨hb', hnone⟩⟩

theorem deletePastEnd_fails : ∀ {ps : List Ptr} {h h' : Customers}, none ∉ ps → deletePastEnd h ps ≠ .ok h'
  | [], _, _, _, hd => by cases hd
  | none :: ps, _, _, hn, _ => absurd (List.mem_cons_self) hn
  | some a :: ps, h, h', hn, hd => by
    obtain ⟨h1, -, hd⟩ := bind_ok hd
    exact deletePastEnd_fails (fun hm => hn (List.mem_cons_of_mem _ hm)) hd

/-- The destructors of a log without null pointers succeed only where there is nothing to delete. -/
theorem destroyLog_ok : ∀ {as : List BaseAction} {h h' : Customers}, destroyLog h as = .ok h' →
    (∀ a ∈ as, none ∉ a.customers) → h' = h ∧ ∀ a ∈ as, a.customers = []
  | [], _, _, hd, _ => by
    cases hd
    exact ⟨rfl, by simp⟩
  | a :: as, h, h', hd, hnone => by
    rw [destroyLog, List.foldlM_cons] at hd
    obtain ⟨h1, ha, hd⟩ := bind_ok hd
    rw [List.forall_mem_cons] at hnone
    have hhead : h1 = h ∧ a.customers = [] := by
      unfold BaseAction.destroy at ha
      split at ha
      · next i customers hk =>
        have hcust : a.customers = customers := by simp [BaseAction.customers, hk]
        rw [hcust] at hnone ⊢
        obtain ⟨h2, hdel, ha'⟩ := bind_ok ha
        clear ha
        split at ha'
        · next hempty =>
          obtain rfl := List.isEmpty_iff.1 hempty
          cases ha'
          refine ⟨?_, rfl⟩
          unfold deleteFailed at hdel
          split at hdel <;> cases hdel <;> rfl
        · exact absurd ha' (deletePastEnd_fails hnone.1)
      · next hopen =>
        cases ha
        exact ⟨rfl, customers_of_not_open hopen⟩
    obtain ⟨rfl, hrest⟩ := destroyLog_ok hd hnone.2
    exact ⟨hhead.1, by simpa using ⟨hhead.2, hrest⟩⟩

theorem BackupRestaurant.act_inv (hi : Inv w) (ha : BackupRestaurant.act w = .ok (w', o)) : Inv w' := by
  obtain ⟨⟨h', copy⟩, hc, ha⟩ := bind_ok ha
  cases ha
  obtain ⟨⟨h1, log⟩, hlog, hc'⟩ := bind_ok hc
  clear hc
  obtain ⟨⟨u, rfl⟩, hnone⟩ := cloneLog_grown hlog
  simp only [hi.rest.full, Nat.lt_irrefl, if_false, List.take_length] at hc'
  obtain ⟨⟨h2, tables⟩, htables, hc⟩ := bind_ok hc'
  cases hc
  have hgrown := hi.rest.grow u
  obtain ⟨hcloned, hts⟩ := copyTables_ok htables hgrown.seats.isSome
  obtain ⟨v, rfl⟩ := hcloned.grown
  refine ⟨hgrown.grow v, fun b hb => ?_, fun b hb p hp hpb => ?_⟩
  · cases hb
    exact hgrown.copied hcloned hts rfl hi.rest.full.symm hnone
  · cases hb
    exact hgrown.seats.not_fresh hcloned.fresh hp hpb

theorem RestoreResturant.act_inv (hi : Inv w) (ha : RestoreResturant.act w = .ok (w', o)) : Inv w' := by
  unfold RestoreResturant.act at ha
  split at ha
  swap
  · cases ha
    exact hi
  next backup hb =>
  obtain ⟨⟨h1, r1⟩, hclear, ha⟩ := bind_ok ha
  obtain ⟨⟨h2, r2⟩, hassign, ha⟩ := bind_ok ha
  cases ha
  obtain ⟨h3, hdestroy, hclear⟩ := bind_ok hclear
  cases hclear
  obtain ⟨rfl, -⟩ := destroyLog_ok hdestroy hi.rest.log
  obtain ⟨⟨h4, log⟩, hlog, hassign⟩ := bind_ok hassign
  obtain ⟨⟨u, rfl⟩, hnone⟩ := cloneLog_grown hlog
  simp only [ne_eq, not_true_eq_false, if_false] at hassign
  obtain ⟨⟨h5, tables⟩, htables, hassign⟩ := bind_ok hassign
  cases hassign
  have hgrown := (hi.backup backup hb).grow u
  obtain ⟨hcloned, hts⟩ := copyTables_ok htables hgrown.seats.isSome
  obtain ⟨v, rfl⟩ := hcloned.grown
  refine ⟨hgrown.copied hcloned hts rfl rfl hnone, fun b hb' => ?_, fun b hb' p hp hpb => ?_⟩
  · rw [hb, Option.some.injEq] at hb'
    exact hb' ▸ hgrown.grow v
  · rw [hb, Option.some.injEq] at hb'
    exact hgrown.seats.not_fresh hcloned.fresh (hb' ▸ hpb) hp

end Actions

/-! ## Every command, every run -/

/-- The commands that keep the tables sound: a `move` that takes place names a customer seated at its
source, and no open table is closed while it holds orders. -/
def keepsSeats (w : World) : Cmd → Bool
  | .move src dst id => match w.rest.getTable src, w.rest.getTable dst with
    | .ok s, .ok d => !d.isOpen || d.isFull || (s.customersList.map (idOf w.heap)).contains (some id)
    | _, _ => true
  | .close i => match w.rest.getTable i with
    | .ok t => !t.isOpen || t.orderList.isEmpty
    | .error _ => true
  | _ => true

theorem record_ok {w w' : World} {kind : ActionKind} {act : World → Except Fault (World × Outcome)} {out : String}
    (h : w.record kind act = .ok (w', out)) : ∃ w1 o, act w = .ok (w1, o) ∧ w' = w1.push kind o := by
  obtain ⟨⟨w1, o⟩, ha, h⟩ := bind_ok h
  cases h
  exact ⟨w1, o, ha, rfl⟩

theorem PrintTableStatus.act_same {w w' : World} {i : Int} {o : Outcome}
    (ha : PrintTableStatus.act i w = .ok (w', o)) : w' = w := by
  obtain ⟨t, -, ha⟩ := bind_ok ha
  simp only at ha
  split at ha
  · obtain ⟨customers, -, ha⟩ := bind_ok ha
    obtain ⟨bill, -, ha⟩ := bind_ok ha
    cases ha
    rfl
  · cases ha
    rfl

theorem step_inv {w w' : World} {c : Cmd} (hi : Inv w) (hk : keepsSeats w c = true) (hs : Steps w c w') : Inv w' := by
  obtain ⟨hne, out, hs⟩ := hs
  cases c with
  | openTable i cs =>
    obtain ⟨⟨h1, n, ps⟩, hn, hs⟩ := bind_ok hs
    obtain ⟨w1, o, ha, rfl⟩ := record_ok hs
    obtain ⟨hle, ⟨v, rfl⟩, hfresh, hids, hnd⟩ := newCustomers_ok hn
    refine (OpenTable.act_inv hi hle hfresh hids hnd ha).push (fun hmem => ?_) o
    obtain ⟨j, hj, -⟩ := hids none hmem
    simp [idOf] at hj
  | order i =>
    obtain ⟨w1, o, ha, rfl⟩ := record_ok hs
    exact (Order.act_inv hi ha).push (by simp [BaseAction.customers]) o
  | move src dst id =>
    obtain ⟨w1, o, ha, rfl⟩ := record_ok hs
    refine (MoveCustomer.act_inv hi (fun s d hs hd h1 h2 => ?_) ha).push (by simp [BaseAction.customers]) o
    simpa [keepsSeats, hs, hd, h1, h2] using hk
  | close i =>
    obtain ⟨w1, o, ha, rfl⟩ := record_ok hs
    refine (Close.act_inv hi (fun t ht hopen => ?_) ha).push (by simp [BaseAction.customers]) o
    simpa [keepsSeats, ht, hopen] using hk
  | menu =>
    obtain ⟨w1, o, ha, rfl⟩ := record_ok hs
    cases ha
    exact hi.push (by simp [BaseAction.customers]) _
  | status i =>
    obtain ⟨w1, o, ha, rfl⟩ := record_ok hs
    rw [PrintTableStatus.act_same ha]
    exact hi.push (by simp [BaseAction.customers]) o
  | log =>
    obtain ⟨⟨w1, o⟩, ha, hs⟩ := bind_ok hs
    obtain ⟨text, -, ha⟩ := bind_ok ha
    cases ha
    cases hs
    exact hi
  | backup =>
    obtain ⟨w1, o, ha, rfl⟩ := record_ok hs
    exact (BackupRestaurant.act_inv hi ha).push (by simp [BaseAction.customers]) o
  | restore =>
    obtain ⟨w1, o, ha, rfl⟩ := record_ok hs
    exact (RestoreResturant.act_inv hi ha).push (by simp [BaseAction.customers]) o
  | closeall => exact absurd rfl hne

theorem boot_inv (tables : List (Nat × Bool)) (dishes : List (String × Int × DishType)) : Inv (boot tables dishes) := by
  have hnil : (boot tables dishes).rest.seats = [] := by
    simp [Restaurant.seats, boot, List.flatMap_map, Table.new]
  refine ⟨⟨by simp [boot], by rw [hnil]; exact ⟨by simp, by simp⟩, fun t ht =>
    ?_, by simp [boot]⟩, by simp [boot], by simp [boot]⟩
  obtain ⟨c, -, rfl⟩ := List.mem_map.1 ht
  exact ⟨rfl, Int.natCast_nonneg _, fun _ => ⟨rfl, rfl⟩, by simp [Table.new]⟩

/-- What the tables of a restaurant look like: counts are true and within capacity, every listed
customer exists, a closed table is empty, and no two seated customers share an id. -/
structure TablesSound (w : World) : Prop where
  count : ∀ t ∈ w.rest.tables, t.currentCapacity = t.customersList.length ∧ 0 ≤ t.currentCapacity ∧
    t.currentCapacity ≤ t.capacity
  real : ∀ t ∈ w.rest.tables, ∀ p ∈ t.customersList, ∃ a c, p = some a ∧ live w.heap a = some c
  distinct : ((w.rest.tables.flatMap Table.customersList).map (idOf w.heap)).Nodup
  closed : ∀ t ∈ w.rest.tables, t.isOpen = false → t.customersList = [] ∧ t.orderList = []

theorem Inv.tablesSound {w : World} (hi : Inv w) : TablesSound w := by
  refine ⟨fun t ht => ?_, fun t ht p hp => ?_, hi.rest.seats.nodup, fun t ht => (hi.rest.tables t ht).closed⟩
  · have h1 := (hi.rest.tables t ht).count
    have h2 := (hi.rest.tables t ht).bound
    omega
  · obtain ⟨i, hid, -⟩ := hi.rest.seats.real p (mem_seats ht hp)
    cases p with
    | none => simp [idOf] at hid
    | some a =>
      obtain ⟨c, hc, -⟩ : ∃ c, live w.heap a = some c ∧ c.id = i := by simpa [idOf] using hid
      exact ⟨a, c, rfl, hc⟩

/-- In every run from a configuration whose steps all keep the seats, the tables are sound in every state. -/
theorem tables_sound (tables : List (Nat × Bool)) (dishes : List (String × Int × DishType)) (cmds : List Cmd)
    (hc : Lts.Steps Steps (fun w c => keepsSeats w c = true) (boot tables dishes) cmds) :
    AtAll Steps TablesSound (boot tables dishes) cmds :=
  atAll_of_steps (fun _ _ _ hi hk hs => step_inv hi hk hs) (fun _ hi => hi.tablesSound) (boot_inv tables dishes) hc

/-- Two guests, one of whom changes tables and orders there. -/
theorem tables_sound_move : AtAll Steps TablesSound (boot [(2, false), (3, false)] [("beer", 10, .alc)])
    [.openTable 0 [("ann", "alc"), ("bo", "veg")], .openTable 1 [("cy", "spc")], .order 0, .move 0 1 0, .order 1] :=
  tables_sound _ _ _ (steps_of_along (by decide +kernel))

/-- A `move` of someone who is not there seats a null pointer at the destination. -/
theorem tables_sound_not_always : ¬ ∀ tables dishes cmds, AtAll Steps TablesSound (boot tables dishes) cmds := by
  intro h
  have hrun : ([Cmd.openTable 0 [("ann", "alc")], .openTable 1 [("cy", "spc")], .move 0 1 7].foldlM next
      (boot [(2, false), (3, false)] [])).any (fun w => w.rest.tables.any fun t =>
      t.customersList.contains none) = true := by
    decide +kernel
  obtain ⟨w, hw, hbad⟩ := Option.any_eq_true _ _ |>.1 hrun
  have hs :=
    h [(2, false), (3, false)] [] [.openTable 0 [("ann", "alc")], .openTable 1 [("cy", "spc")], .move 0 1 7] _ w
    List.prefix_rfl (run_of_next hw)
  obtain ⟨t, ht, hnull⟩ := List.any_eq_true.1 hbad
  obtain ⟨a, c, he, -⟩ := hs.real t ht none (by simpa using hnull)
  cases he

end Rest
