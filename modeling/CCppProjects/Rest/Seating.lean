import CCppProjects.Rest.Action
import Mathlib.Data.List.Perm.Basic
import Mathlib.Data.List.Nodup
/-
# Who sits where

`Sound h r`: every table counts the customers it lists, each of them a live object, no id sits twice in
the restaurant, and only seated customers have orders. A `move` of a customer who does not sit at the
source breaks it, and so does closing a table that holds orders; no other command does
(`tables_sound`).
-/
namespace Rest

open Heap Lts

/-- The id of the live customer behind a pointer. -/
def idOf (h : Customers) (p : Ptr) : Option Int := (p.bind (live h)).map Customer.id

theorem deref_ok {h : Customers} {p : Ptr} {a : Nat} {c : Customer} (hd : deref h p = .ok (a, c)) :
    p = some a ∧ live h a = some c := by
  cases p with
  | none => cases hd
  | some b =>
    simp only [deref] at hd
    split at hd <;> cases hd
    exact ⟨rfl, ‹_›⟩

theorem deref_idOf {h : Customers} {p : Ptr} {a : Nat} {c : Customer} (hd : deref h p = .ok (a, c)) :
    idOf h p = some c.id := by
  obtain ⟨rfl, hl⟩ := deref_ok hd
  simp [idOf, hl]

theorem idOf_append {h : Customers} {p : Ptr} {i : Int} (w : List (Option Customer)) (hi : idOf h p = some i) :
    idOf (h ++ w) p = some i := by
  cases p with
  | none => simp [idOf] at hi
  | some a =>
    obtain ⟨c, hc, rfl⟩ : ∃ c, live h a = some c ∧ c.id = i := by simpa [idOf] using hi
    simp [idOf, live_append_left w hc]

theorem idOf_lt {h : Customers} {a : Nat} {i : Int} (hi : idOf h (some a) = some i) : a < h.length := by
  obtain ⟨c, hc, -⟩ : ∃ c, live h a = some c ∧ c.id = i := by simpa [idOf] using hi
  exact live_lt hc

/-! ## Tables -/

theorem addCustomer_of_lt {t : Table} (c : Ptr) (h : t.currentCapacity < t.capacity) : t.addCustomer c =
    { t with customersList := t.customersList ++ [c], currentCapacity := t.currentCapacity + 1 } := if_pos h

theorem delete_ok {h h' : Customers} {p q : Ptr} (hd : delete h q = .ok h') (hp : p ≠ q) : idOf h' p = idOf h p := by
  cases q with
  | none => cases hd; rfl
  | some b =>
    simp only [delete] at hd
    split at hd <;> cases hd
    cases p with
    | none => rfl
    | some a =>
      have hab : a ≠ b := fun e => hp (congrArg some e)
      simp [idOf, live_free_ne hab]

theorem deleteAll_ok {p : Ptr} : ∀ {ps : List Ptr} {h h' : Customers}, deleteAll h ps = .ok h' → p ∉ ps →
    idOf h' p = idOf h p
  | [], _, _, hd, _ => by cases hd; rfl
  | q :: ps, h, h', hd, hp => by
    rw [deleteAll, List.foldlM_cons] at hd
    obtain ⟨h1, hq, hd⟩ := bind_ok hd
    rw [List.mem_cons, not_or] at hp
    exact (deleteAll_ok hd hp.2).trans (delete_ok hq hp.1)

/-- A closed table has no customers left and its orders untouched. -/
theorem closeTable_ok {h h' : Customers} {t t' : Table} (hc : t.closeTable h = .ok (h', t')) :
    t' = { t with customersList := [], currentCapacity := 0, isOpen := false } ∧
    ∀ p, p ∉ t.customersList → idOf h' p = idOf h p := by
  obtain ⟨h1, hd, hc⟩ := bind_ok hc
  cases hc
  exact ⟨rfl, fun p hp => deleteAll_ok hd hp⟩

theorem eraseCustomer_ok {h : Customers} {id : Int} : ∀ {ps qs : List Ptr}, eraseCustomer h id ps = .ok qs →
    some id ∈ ps.map (idOf h) → ∃ p, idOf h p = some id ∧ ps.Perm (p :: qs)
  | [], _, _, hm => by simp at hm
  | p :: ps, qs, he, hm => by
    obtain ⟨⟨a, c⟩, hd, he⟩ := bind_ok he
    simp only at he
    split at he
    · next hid =>
      cases he
      exact ⟨p, by rw [deref_idOf hd, hid], .refl _⟩
    · next hid =>
      obtain ⟨rs, hr, he⟩ := bind_ok he
      cases he
      have hm' : some id ∈ ps.map (idOf h) := by
        simpa [deref_idOf hd, Ne.symm hid] using hm
      obtain ⟨q, hq, hperm⟩ := eraseCustomer_ok hr hm'
      exact ⟨q, hq, (hperm.cons p).trans (.swap q p rs)⟩

theorem findCustomer_ok {h : Customers} {id : Int} : ∀ {ps : List Ptr} {cu : Ptr}, findCustomer h id ps = .ok cu →
    some id ∈ ps.map (idOf h) → cu ∈ ps ∧ idOf h cu = some id
  | [], _, _, hm => by simp at hm
  | p :: ps, cu, hf, hm => by
    obtain ⟨⟨a, c⟩, hd, hf⟩ := bind_ok hf
    simp only at hf
    split at hf
    · next hid =>
      cases hf
      exact ⟨by simp, by rw [deref_idOf hd, hid]⟩
    · next hid =>
      have hm' : some id ∈ ps.map (idOf h) := by
        simpa [deref_idOf hd, Ne.symm hid] using hm
      obtain ⟨hmem, hcu⟩ := findCustomer_ok hf hm'
      exact ⟨List.mem_cons_of_mem p hmem, hcu⟩

theorem serve_id {menu : List Dish} {id : Int} : ∀ {ds : List Int} {os : List OrderPair},
    serve menu id ds = .ok os → ∀ o ∈ os, o.1 = id
  | [], _, h => by cases h; simp
  | d :: ds, os, h => by
    obtain ⟨rest, hr, h⟩ := bind_ok h
    have ih := serve_id hr
    split at h
    · cases h
      exact ih
    · split at h
      · cases h
      · split at h <;> cases h
        simpa using ih

theorem idOf_put {h : Customers} {a : Nat} {c c' : Customer} (hc : live h a = some c) (hid : c'.id = c.id) (p : Ptr) :
    idOf (put h a c') p = idOf h p := by
  cases p with
  | none => rfl
  | some b =>
    by_cases hb : b = a
    · subst hb
      simp [idOf, live_put_self hc, hc, hid]
    · simp [idOf, live_put_ne hb]

/-- Ordering moves nobody, and whoever orders sits at the table. -/
theorem orderLoop_ok {menu : List Dish} {cs : List Ptr} : ∀ {n i : Nat} {h h' : Customers}
    {served : List (String × OrderPair)}, orderLoop menu cs n i h = .ok (h', served) →
    (∀ p, idOf h' p = idOf h p) ∧ ∀ s ∈ served, some s.2.1 ∈ cs.map (idOf h)
  | 0, _, _, _, _, ho => by cases ho; simp
  | n + 1, i, h, h', served, ho => by
    rw [orderLoop] at ho
    split at ho
    · cases ho
    · next p hp =>
      obtain ⟨⟨a, c⟩, hd, ho⟩ := bind_ok ho
      obtain ⟨⟨c', ids⟩, hc, ho⟩ := bind_ok ho
      obtain ⟨os, hs, ho⟩ := bind_ok ho
      obtain ⟨⟨h2, rest⟩, hrest, ho⟩ := bind_ok ho
      cases ho
      have hput := idOf_put (deref_ok hd).2 (Customer.order_same hc).1
      obtain ⟨hids, hserved⟩ := orderLoop_ok hrest
      refine ⟨fun q => (hids q).trans (hput q), fun s hs' => ?_⟩
      rcases List.mem_append.1 hs' with hs' | hs'
      · obtain ⟨o, ho, rfl⟩ := List.mem_map.1 hs'
        rw [serve_id hs o ho]
        exact List.mem_map.2 ⟨p, List.mem_of_getElem? hp, deref_idOf hd⟩
      · have := hserved s hs'
        rwa [List.map_congr_left fun q _ => hput q] at this

/-! ## Clones -/

/-- Clones are new objects with the ids of the originals. -/
structure Cloned (h h' : Customers) (ps qs : List Ptr) : Prop where
  grown : ∃ w, h' = h ++ w
  ids : qs.map (idOf h') = ps.map (idOf h)
  fresh : ∀ a, some a ∈ qs → h.length ≤ a

theorem cloneAll_grown : ∀ {ps qs : List Ptr} {h h' : Customers}, cloneAll h ps = .ok (h', qs) →
    (∃ w, h' = h ++ w) ∧ none ∉ qs
  | [], _, h, _, hc => by
    cases hc
    exact ⟨⟨[], by simp⟩, by simp⟩
  | p :: ps, _, h, h', hc => by
    obtain ⟨⟨a, c⟩, hd, hc⟩ := bind_ok hc
    obtain ⟨⟨h2, rs⟩, hr, hc⟩ := bind_ok hc
    cases hc
    obtain ⟨⟨w, hw⟩, hrs⟩ := cloneAll_grown hr
    exact ⟨⟨some c.clone :: w, by rw [hw]; exact List.append_assoc _ _ _⟩, by simpa using hrs⟩

theorem map_idOf_append {h : Customers} {ps : List Ptr} (w : List (Option Customer))
    (hp : ∀ p ∈ ps, (idOf h p).isSome) :
    ps.map (idOf (h ++ w)) = ps.map (idOf h) := by
  refine List.map_congr_left fun p hmem => ?_
  obtain ⟨i, hi⟩ := Option.isSome_iff_exists.1 (hp p hmem)
  rw [hi, idOf_append w hi]

theorem cloneAll_ok : ∀ {ps qs : List Ptr} {h h' : Customers}, cloneAll h ps = .ok (h', qs) →
    (∀ p ∈ ps, (idOf h p).isSome) → Cloned h h' ps qs
  | [], qs, h, _, hc, _ => by
    cases hc
    exact ⟨⟨[], by simp⟩, rfl, by simp⟩
  | p :: ps, qs, h, h', hc, hp => by
    obtain ⟨⟨a, c⟩, hd, hc'⟩ := bind_ok hc
    obtain ⟨⟨h2, rs⟩, hr, he⟩ := bind_ok hc'
    cases he
    clear hc hc'
    rw [List.forall_mem_cons] at hp
    have hkeep := map_idOf_append [some c.clone] hp.2
    obtain ⟨⟨w, rfl⟩, hids, hfresh⟩ := cloneAll_ok hr fun q hq => by
      obtain ⟨i, hi⟩ := Option.isSome_iff_exists.1 (hp.2 q hq)
      rw [idOf_append _ hi]
      rfl
    refine ⟨⟨some c.clone :: w, by simp⟩, ?_, fun b hb => ?_⟩
    · have hq : idOf (h ++ [some c.clone] ++ w) (some h.length) = some c.id := by
        refine idOf_append w ?_
        simp [idOf]
      rw [List.map_cons, List.map_cons, hq, deref_idOf hd, hids, hkeep]
    · rcases List.mem_cons.1 hb with hb | hb
      · cases hb
        exact Nat.le_refl _
      · have := hfresh b hb
        rw [List.length_append] at this
        omega

/-- A table with ids for its customers. -/
def Table.seating (h : Customers) (t : Table) : Int × Int × Bool × List OrderPair × List (Option Int) :=
  (t.currentCapacity, t.capacity, t.isOpen, t.orderList, t.customersList.map (idOf h))

/-- The copies of a list of tables: each table as it was, with clones of its customers. -/
theorem copyTables_ok : ∀ {ts us : List Table} {h h' : Customers}, copyTables h ts = .ok (h', us) →
    (∀ p ∈ ts.flatMap Table.customersList, (idOf h p).isSome) →
    Cloned h h' (ts.flatMap Table.customersList) (us.flatMap Table.customersList) ∧
    us.map (Table.seating h') = ts.map (Table.seating h)
  | [], us, h, _, hc, _ => by
    cases hc
    exact ⟨⟨⟨[], by simp⟩, rfl, by simp⟩, rfl⟩
  | t :: ts, us, h, h', hc, ht => by
    obtain ⟨⟨h1, u⟩, hu, hc'⟩ := bind_ok hc
    obtain ⟨⟨h2, vs⟩, hvs, he⟩ := bind_ok hc'
    obtain ⟨⟨h3, qs⟩, hqs, hu'⟩ := bind_ok hu
    cases he
    cases hu'
    clear hc hc' hu
    rw [List.flatMap_cons, List.forall_mem_append] at ht
    obtain ⟨⟨w, rfl⟩, hids, hfresh⟩ := cloneAll_ok hqs ht.1
    have hrest := map_idOf_append w ht.2
    have hsome : ∀ p ∈ ts.flatMap Table.customersList, (idOf (h ++ w) p).isSome := fun p hp => by
      obtain ⟨i, hi⟩ := Option.isSome_iff_exists.1 (ht.2 p hp)
      rw [idOf_append w hi]
      rfl
    obtain ⟨⟨⟨w', rfl⟩, hids', hfresh'⟩, hall⟩ := copyTables_ok hvs hsome
    have hqsSome : ∀ q ∈ qs, (idOf (h ++ w) q).isSome := fun q hq => by
      have hm : idOf (h ++ w) q ∈ t.customersList.map (idOf h) := hids ▸ List.mem_map_of_mem hq
      obtain ⟨p, hp, hpe⟩ := List.mem_map.1 hm
      rw [← hpe]
      exact ht.1 p hp
    have hu : qs.map (idOf (h ++ w ++ w')) = t.customersList.map (idOf h) := by
      rw [map_idOf_append w' hqsSome, hids]
    refine ⟨⟨⟨w ++ w', by simp⟩, ?_, fun a ha => ?_⟩, ?_⟩
    · rw [List.flatMap_cons, List.flatMap_cons, List.map_append, List.map_append, hu, hids', hrest]
    · rw [List.flatMap_cons] at ha
      rcases List.mem_append.1 ha with ha | ha
      · exact hfresh a ha
      · have := hfresh' a ha
        rw [List.length_append] at this
        omega
    · have hts : ts.map (Table.seating (h ++ w)) = ts.map (Table.seating h) := by
        refine List.map_congr_left fun v hv => ?_
        have := map_idOf_append w fun p hp => ht.2 p (List.mem_flatMap.2 ⟨v, hv, hp⟩)
        simp only [Table.seating, this]
      rw [List.map_cons, List.map_cons, hall, hts]
      simp only [Table.seating, hu]

/-! ## New customers -/

/-- The customers an `open` creates are new objects numbered from the count on. -/
theorem newCustomers_ok : ∀ {cs : List (String × String)} {h h' : Customers} {n n' : Int} {ps : List Ptr},
    newCustomers h n cs = .ok (h', n', ps) → n ≤ n' ∧ (∃ w, h' = h ++ w) ∧ (∀ a, some a ∈ ps → h.length ≤ a) ∧
      (∀ p ∈ ps, ∃ i, idOf h' p = some i ∧ n ≤ i ∧ i < n') ∧ (ps.map (idOf h')).Nodup
  | [], _, _, n, _, _, hn => by
    cases hn
    exact ⟨Int.le_refl n, ⟨[], by simp⟩, by simp, by simp, by simp⟩
  | (name, word) :: cs, h, h', n, n', ps, hn => by
    rw [newCustomers] at hn
    cases htype : CustomerType.ofWord word with
    | none =>
      simp only [htype] at hn
      obtain ⟨m, hm, hn⟩ := bind_ok hn
      obtain ⟨⟨h2, n2, qs⟩, hqs, hn⟩ := bind_ok hn
      simp only [Except.ok.injEq, Prod.mk.injEq] at hn
      obtain ⟨rfl, rfl, rfl⟩ := hn
      obtain rfl := int_ok hm
      obtain ⟨hle, hw, hfresh, hids, hnodup⟩ := newCustomers_ok hqs
      refine ⟨by omega, hw, hfresh, fun p hp => ?_, hnodup⟩
      obtain ⟨i, hi, h1, h2⟩ := hids p hp
      exact ⟨i, hi, by omega, h2⟩
    | some type =>
      simp only [htype, Heap.new] at hn
      obtain ⟨m, hm, hn⟩ := bind_ok hn
      obtain ⟨⟨h2, n2, qs⟩, hqs, hn⟩ := bind_ok hn
      simp only [Except.ok.injEq, Prod.mk.injEq] at hn
      obtain ⟨rfl, rfl, rfl⟩ := hn
      obtain rfl := int_ok hm
      obtain ⟨hle, ⟨w, rfl⟩, hfresh, hids, hnodup⟩ := newCustomers_ok hqs
      have hself : idOf (h ++ [some { type, name, id := n }] ++ w) (some h.length) = some n := by
        refine idOf_append w ?_
        simp [idOf]
      refine ⟨by omega, ⟨_, List.append_assoc _ _ _⟩, fun a ha => ?_, fun p hp => ?_, ?_⟩
      · rcases List.mem_cons.1 ha with ha | ha
        · cases ha
          exact Nat.le_refl _
        · have := hfresh a ha
          rw [List.length_append] at this
          omega
      · rcases List.mem_cons.1 hp with rfl | hp
        · exact ⟨n, hself, Int.le_refl n, by omega⟩
        · obtain ⟨i, hi, h1, h2⟩ := hids p hp
          exact ⟨i, hi, by omega, h2⟩
      · rw [List.singleton_append, List.map_cons, hself]
        refine List.nodup_cons.2 ⟨fun hmem => ?_, hnodup⟩
        obtain ⟨p, hp, he⟩ := List.mem_map.1 hmem
        obtain ⟨i, hi, h1, -⟩ := hids p hp
        rw [hi, Option.some.injEq] at he
        omega

/-! ## The invariant -/

/-- Pointers to live customers with ids of their own, all below the count. -/
structure Seats (h : Customers) (ps : List Ptr) (n : Int) : Prop where
  real : ∀ p ∈ ps, ∃ i, idOf h p = some i ∧ i < n
  nodup : (ps.map (idOf h)).Nodup

structure Table.Ok (h : Customers) (t : Table) : Prop where
  count : t.currentCapacity = t.customersList.length
  bound : t.currentCapacity ≤ t.capacity
  closed : t.isOpen = false → t.customersList = [] ∧ t.orderList = []
  paid : ∀ o ∈ t.orderList, some o.1 ∈ t.customersList.map (idOf h)

/-- Every customer in use by the tables. -/
def Restaurant.seats (r : Restaurant) : List Ptr := r.tables.flatMap Table.customersList

/-- The pointers of an `open` in the log. -/
def BaseAction.customers (a : BaseAction) : List Ptr :=
  match a.kind with
  | .openTable _ customers => customers
  | _ => []

structure Sound (h : Customers) (r : Restaurant) : Prop where
  full : r.numOfTables = r.tables.length
  seats : Seats h r.seats r.customerCount
  tables : ∀ t ∈ r.tables, t.Ok h
  log : ∀ a ∈ r.actionsLog, none ∉ a.customers

structure Inv (w : World) : Prop where
  rest : Sound w.heap w.rest
  backup : ∀ b, w.backup = some b → Sound w.heap b
  apart : ∀ b, w.backup = some b → ∀ p ∈ w.rest.seats, p ∉ b.seats

variable {h h' : Customers} {ps qs : List Ptr} {n m : Int} {r r' : Restaurant} {t u : Table}

theorem Seats.perm (hs : Seats h ps n) (hp : ps.Perm qs) : Seats h qs n :=
  ⟨fun p hq => hs.real p (hp.mem_iff.2 hq), (hp.map _).nodup_iff.1 hs.nodup⟩

theorem Seats.congr (hs : Seats h ps n) (hk : ∀ p ∈ ps, idOf h' p = idOf h p) : Seats h' ps n :=
  ⟨fun p hp => by rw [hk p hp]; exact hs.real p hp, by rw [List.map_congr_left hk]; exact hs.nodup⟩

theorem Seats.mono (hs : Seats h ps n) (hn : n ≤ m) : Seats h ps m :=
  ⟨fun p hp => (hs.real p hp).imp fun _ hi => ⟨hi.1, by omega⟩, hs.nodup⟩

theorem Seats.left (hs : Seats h (ps ++ qs) n) : Seats h ps n :=
  ⟨fun p hp => hs.real p (List.mem_append_left qs hp), by
    have := hs.nodup
    rw [List.map_append] at this
    exact this.of_append_left⟩

theorem Seats.isSome (hs : Seats h ps n) : ∀ p ∈ ps, (idOf h p).isSome := fun p hp => by
  obtain ⟨i, hi, -⟩ := hs.real p hp
  rw [hi]
  rfl

theorem Seats.inj (hs : Seats h ps n) {p q : Ptr} (hp : p ∈ ps) (hq : q ∈ ps) (he : idOf h p = idOf h q) : p = q :=
  List.inj_on_of_nodup_map hs.nodup hp hq he

theorem Seats.disjoint (hs : Seats h (ps ++ qs) n) {p : Ptr} (hp : p ∈ ps) : p ∉ qs := fun hq =>
  List.disjoint_of_nodup_append hs.nodup.of_map hp hq

theorem Seats.grow (hs : Seats h ps n) (w : List (Option Customer)) : Seats (h ++ w) ps n :=
  hs.congr fun p hp => by
    obtain ⟨i, hi, -⟩ := hs.real p hp
    rw [hi, idOf_append w hi]

/-- Old pointers and new ones side by side. -/
theorem Seats.append (hs : Seats h ps n) (hq : ∀ p ∈ qs, ∃ i, idOf h p = some i ∧ n ≤ i ∧ i < m)
    (hnd : (qs.map (idOf h)).Nodup)
    (hn : n ≤ m) : Seats h (ps ++ qs) m := by
  refine ⟨fun p hp => ?_, ?_⟩
  · rcases List.mem_append.1 hp with hp | hp
    · exact (hs.mono hn).real p hp
    · obtain ⟨i, hi, -, hlt⟩ := hq p hp
      exact ⟨i, hi, hlt⟩
  · rw [List.map_append]
    refine List.Nodup.append hs.nodup hnd fun i hi hi' => ?_
    obtain ⟨p, hp, rfl⟩ := List.mem_map.1 hi
    obtain ⟨q, hq', he⟩ := List.mem_map.1 hi'
    obtain ⟨j, hj, hlt⟩ := hs.real p hp
    obtain ⟨k, hk, hle, -⟩ := hq q hq'
    rw [hj, hk, Option.some.injEq] at he
    omega

theorem Table.Ok.of_seating (ho : t.Ok h) (he : u.seating h' = t.seating h) : u.Ok h' := by
  simp only [Table.seating, Prod.mk.injEq] at he
  obtain ⟨hcc, hcap, hopen, hord, hids⟩ := he
  have hlen : u.customersList.length = t.customersList.length := by
    simpa using congrArg List.length hids
  refine ⟨by rw [hcc, hlen, ho.count], by rw [hcc, hcap]; exact ho.bound, fun hc => ?_, fun o hmem => ?_⟩
  · obtain ⟨h1, h2⟩ := ho.closed (hopen ▸ hc)
    refine ⟨List.length_eq_zero_iff.1 ?_, by rw [hord, h2]⟩
    rw [hlen, h1, List.length_nil]
  · rw [hids]
    exact ho.paid o (hord ▸ hmem)

theorem Table.Ok.congr (ho : t.Ok h) (hk : ∀ p ∈ t.customersList, idOf h' p = idOf h p) : t.Ok h' :=
  ho.of_seating (by simp only [Table.seating, List.map_congr_left hk])

theorem mem_seats (ht : t ∈ r.tables) {p : Ptr} (hp : p ∈ t.customersList) : p ∈ r.seats :=
  List.mem_flatMap.2 ⟨t, ht, hp⟩

theorem Sound.congr (hs : Sound h r) (hk : ∀ p ∈ r.seats, idOf h' p = idOf h p) : Sound h' r :=
  ⟨hs.full, hs.seats.congr hk, fun t ht => (hs.tables t ht).congr fun p hp => hk p (mem_seats ht hp), hs.log⟩

theorem Sound.grow (hs : Sound h r) (w : List (Option Customer)) : Sound (h ++ w) r :=
  hs.congr fun p hp => by
    obtain ⟨i, hi, -⟩ := hs.seats.real p hp
    rw [hi, idOf_append w hi]

/-- What points below the end of the heap is not one of the objects added there. -/
theorem Seats.not_fresh (hs : Seats h ps n) (hq : ∀ a, some a ∈ qs → h.length ≤ a) {p : Ptr}
    (hp : p ∈ ps) : p ∉ qs := fun hpq => by
  obtain ⟨i, hi, -⟩ := hs.real p hp
  cases p with
  | none => simp [idOf] at hi
  | some a =>
    have := idOf_lt hi
    have := hq a hpq
    omega

/-- A restaurant of clones. -/
theorem Sound.copied (hs : Sound h r) (hc : Cloned h h' r.seats r'.seats)
    (ht : r'.tables.map (Table.seating h') = r.tables.map (Table.seating h)) (hn : r'.customerCount = r.customerCount)
    (hfull : r'.numOfTables = r.numOfTables) (hlog : ∀ a ∈ r'.actionsLog, none ∉ a.customers) : Sound h' r' := by
  refine ⟨?_, ⟨fun q hq => ?_, hc.ids ▸ hs.seats.nodup⟩, fun u hu => ?_, hlog⟩
  · rw [hfull, hs.full]
    simpa using (congrArg List.length ht).symm
  · have hm : idOf h' q ∈ r.seats.map (idOf h) := hc.ids ▸ List.mem_map_of_mem hq
    obtain ⟨p, hp, he⟩ := List.mem_map.1 hm
    rw [hn, ← he]
    exact hs.seats.real p hp
  · have hm : u.seating h' ∈ r.tables.map (Table.seating h) := ht ▸ List.mem_map_of_mem hu
    obtain ⟨t, htm, he⟩ := List.mem_map.1 hm
    exact (hs.tables t htm).of_seating he.symm

end Rest
