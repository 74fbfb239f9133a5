import CCppProjects.Rest.Table
import CCppProjects.Lib.Scan
import Mathlib
/-
# What each customer picks (Customer.cpp)

Every loop over the menu picks the first dish of an order among the dishes of a kind. The orders are lexicographic:
the id breaks ties of the price.

| loop            | kind            | order                     |
|-----------------|-----------------|---------------------------|
| `smallestVegId` | VEG             | id                        |
| `pricestBVG`    | BVG             | `dearKey`                 |
| `cheapestDish`  | any             | `cheapKey`                |
| `pricestSPC`    | SPC             | `dearKey`                 |
| `cheapestBVG`   | BVG             | `cheapKey`                |
| `cheapestALC`   | ALC, not had yet| `cheapKey`                |
-/
namespace Rest

open Scan

variable {menu : List Dish} {c : Customer}

/-- The menu of a configuration: the id of a dish is its place, and prices are not negative. -/
def Numbered (menu : List Dish) : Prop := ∀ (i : Nat) d, menu[i]? = some d → d.id = i ∧ 0 ≤ d.price

theorem Numbered.of_mem (hn : Numbered menu) {d : Dish} (hd : d ∈ menu) : 0 ≤ d.id ∧ 0 ≤ d.price := by
  obtain ⟨i, hi⟩ := List.mem_iff_getElem?.1 hd
  have := hn i d hi
  omega

theorem Numbered.get (hn : Numbered menu) {d : Dish} (hd : d ∈ menu) : menu[d.id.toNat]? = some d := by
  obtain ⟨i, hi⟩ := List.mem_iff_getElem?.1 hd
  rw [(hn i d hi).1]
  simpa using hi

theorem Numbered.pairwise (hn : Numbered menu) : menu.Pairwise fun a b => a.id < b.id := by
  rw [List.pairwise_iff_getElem]
  intro i j hi hj hij
  have h1 := (hn i _ (List.getElem?_eq_getElem hi)).1
  have h2 := (hn j _ (List.getElem?_eq_getElem hj)).1
  omega

theorem Numbered.inj (hn : Numbered menu) {d e : Dish} (hd : d ∈ menu) (he : e ∈ menu) (hid : d.id = e.id) : d = e := by
  have h1 := hn.get hd
  rw [hid, hn.get he] at h1
  exact (Option.some.inj h1).symm

/-! ## The orders -/

/-- The cheaper dish, of two of one price the one with the smaller id. -/
def cheapKey (d : Dish) : Lex (Int × Int) := toLex (d.price, d.id)

/-- The dearer dish, of two of one price the one with the smaller id. -/
def dearKey (d : Dish) : Lex (Int × Int) := toLex (-d.price, d.id)

theorem cheapKey_lt {a b : Dish} : cheapKey a < cheapKey b ↔ a.price < b.price ∨ a.price = b.price ∧ a.id < b.id :=
  Prod.Lex.toLex_lt_toLex

theorem dearKey_lt {a b : Dish} : dearKey a < dearKey b ↔ b.price < a.price ∨ a.price = b.price ∧ a.id < b.id := by
  rw [dearKey, dearKey, Prod.Lex.toLex_lt_toLex]
  constructor <;> intro h <;> dsimp only at h ⊢ <;> omega

theorem cheapKey_le {a b : Dish} (h : cheapKey a ≤ cheapKey b) : a.price < b.price ∨ a.price = b.price ∧ a.id ≤ b.id :=
  Prod.Lex.toLex_le_toLex.1 h

theorem dearKey_le {a b : Dish} (h : dearKey a ≤ dearKey b) : b.price < a.price ∨ a.price = b.price ∧ a.id ≤ b.id := by
  have h := Prod.Lex.toLex_le_toLex.1 h
  dsimp only at h
  omega

/-! ## The loops -/

/-- The id and the price that a loop remembers of the best dish so far. -/
def noted : Option Dish → Int × Int
  | none => (-1, -1)
  | some d => (d.id, d.price)

/-- The id alone. -/
def notedId (best : Option Dish) : Int := (noted best).1

/-- How the dishes before one of the menu stand to it. -/
def Before (b d : Dish) : Prop := 0 ≤ b.id ∧ 0 ≤ b.price ∧ b.id < d.id

theorem Numbered.before (hn : Numbered menu) : menu.Pairwise Before := by
  refine hn.pairwise.imp_of_mem fun hb _ hlt => ?_
  have h := hn.of_mem hb
  exact ⟨h.1, h.2, hlt⟩

theorem better_of_kind {κ : Type} [LinearOrder κ] {p : Dish → Bool} {key : Dish → κ}
    {d : Dish} (hp : p d = true) (best : Option Dish) :
    better p key best d = best.elim (some d) fun b => if key d < key b then some d else some b := by
  unfold better
  rw [if_pos hp]
  cases best <;> rfl

theorem better_of_other {κ : Type} [LinearOrder κ] {p : Dish → Bool} {key : Dish → κ}
    {d : Dish} (hp : p d = false) (best : Option Dish) :
    better p key best d = best := by
  unfold better
  rw [if_neg (by rw [hp]; exact Bool.false_ne_true)]

/-- The loop of the cheapest dish compares prices only: a later dish has the greater id. -/
theorem cheapest_from : ∀ (rest : List Dish) (b : Dish), (b :: rest).Pairwise Before →
    rest.foldl (fun ((id, price) : Int × Int) d => if d.price < price then (d.id, d.price)
    else (id, price)) (b.id, b.price) =
      noted (rest.foldl (better (fun _ => true) cheapKey) (some b))
  | [], _, _ => rfl
  | d :: rest, b, h => by
    obtain ⟨hb, hd⟩ := List.pairwise_cons.1 h
    obtain ⟨-, -, hlt⟩ := hb d List.mem_cons_self
    rw [List.foldl_cons, List.foldl_cons, better_of_kind rfl, Option.elim_some]
    by_cases hp : d.price < b.price
    · rw [if_pos (cheapKey_lt.2 (.inl hp)), ← cheapest_from rest d hd]
      exact congrArg (fun x => List.foldl _ x rest) (if_pos hp)
    · have hnot : ¬ cheapKey d < cheapKey b := by
        rw [cheapKey_lt]
        omega
      rw [if_neg hnot, ← cheapest_from rest b (h.sublist ((List.sublist_cons_self d rest).cons_cons b))]
      exact congrArg (fun x => List.foldl _ x rest) (if_neg hp)

section Loops

variable (hn : Numbered menu)
include hn

theorem smallestVegId_eq : smallestVegId menu = notedId ((menu.filter fun d => d.type = .veg).argmin Dish.id) := by
  refine foldl_eq notedId hn.before fun best d _ hbefore => ?_
  by_cases ht : d.type = .veg
  · rw [better_of_kind (by simpa using ht), if_pos ht]
    cases best with
    | none => rfl
    | some b =>
      obtain ⟨hid, -, hlt⟩ := hbefore b rfl
      rw [Option.elim_some, if_neg (show ¬ d.id < b.id by omega)]
      change (if b.id = -1 then d.id else if d.id < b.id then d.id else b.id) = b.id
      rw [if_neg (by omega), if_neg (by omega)]
  · rw [better_of_other (by simpa using ht), if_neg ht]

theorem pricestBVG_eq : pricestBVG menu = noted ((menu.filter fun d => d.type = .bvg).argmin dearKey) := by
  refine foldl_eq noted hn.before fun best d _ hbefore => ?_
  by_cases ht : d.type = .bvg
  · rw [better_of_kind (by simpa using ht)]
    cases best with
    | none => simp [noted, ht]
    | some b =>
      obtain ⟨hid, -, -⟩ := hbefore b rfl
      change (if d.type = .bvg then if b.id = -1 then (d.id, d.price)
        else if b.price < d.price ∨ (b.price = d.price ∧ b.id > d.id) then (d.id, d.price)
          else (b.id, b.price) else (b.id, b.price)) = _
      rw [if_pos ht, if_neg (by omega), Option.elim_some]
      by_cases hlt : dearKey d < dearKey b
      · rw [if_pos hlt]
        rw [dearKey_lt] at hlt
        exact if_pos (by omega)
      · rw [if_neg hlt]
        rw [dearKey_lt] at hlt
        exact if_neg (by omega)
  · rw [better_of_other (by simpa using ht)]
    simp [ht]

theorem pricestSPC_eq : pricestSPC menu = noted ((menu.filter fun d => d.type = .spc).argmin dearKey) := by
  refine foldl_eq noted hn.before fun best d _ hbefore => ?_
  by_cases ht : d.type = .spc
  · rw [better_of_kind (by simpa using ht)]
    cases best with
    | none => simp [noted, ht]
    | some b =>
      obtain ⟨hid, -, -⟩ := hbefore b rfl
      change (if b.id = -1 ∧ d.type = .spc then (d.id, d.price) else if d.price ≥ b.price ∧ d.type = .spc then
        if (d.price = b.price ∧ d.id < b.id) ∨ d.price > b.price then (d.id, d.price)
          else (b.id, b.price) else (b.id, b.price)) = _
      rw [if_neg (by omega), Option.elim_some]
      by_cases hlt : dearKey d < dearKey b
      · rw [if_pos hlt]
        rw [dearKey_lt] at hlt
        rw [if_pos ⟨by omega, ht⟩]
        exact if_pos (by omega)
      · rw [if_neg hlt]
        rw [dearKey_lt] at hlt
        by_cases hge : d.price ≥ b.price
        · rw [if_pos ⟨hge, ht⟩]
          exact if_neg (by omega)
        · exact if_neg fun h => hge h.1
  · rw [better_of_other (by simpa using ht)]
    simp [ht]

theorem cheapestBVG_eq : cheapestBVG menu = noted ((menu.filter fun d => d.type = .bvg).argmin cheapKey) := by
  refine foldl_eq noted hn.before fun best d _ hbefore => ?_
  by_cases ht : d.type = .bvg
  · rw [better_of_kind (by simpa using ht)]
    cases best with
    | none => simp [noted, ht]
    | some b =>
      obtain ⟨hid, -, -⟩ := hbefore b rfl
      change (if b.id = -1 ∧ d.type = .bvg then (d.id, d.price) else if d.price ≤ b.price ∧ d.type = .bvg then
        if (d.price = b.price ∧ d.id < b.id) ∨ d.price < b.price then (d.id, d.price)
          else (b.id, b.price) else (b.id, b.price)) = _
      rw [if_neg (by omega), Option.elim_some]
      by_cases hlt : cheapKey d < cheapKey b
      · rw [if_pos hlt]
        rw [cheapKey_lt] at hlt
        rw [if_pos ⟨by omega, ht⟩]
        exact if_pos (by omega)
      · rw [if_neg hlt]
        rw [cheapKey_lt] at hlt
        by_cases hle : d.price ≤ b.price
        · rw [if_pos ⟨hle, ht⟩]
          exact if_neg (by omega)
        · exact if_neg fun h => hle h.1
  · rw [better_of_other (by simpa using ht)]
    simp [ht]

/-- The loop starts on the first dish, which it then meets again. -/
theorem cheapestDish_eq {first : Dish} {rest : List Dish} (hm : menu = first :: rest) :
    cheapestDish first menu = noted (menu.argmin cheapKey) := by
  have hself : ((if first.price < first.price then (first.id, first.price) else (first.id, first.price)) : Int × Int) =
      (first.id, first.price) := if_neg (Int.lt_irrefl _)
  have hall : menu.filter (fun _ => true) = menu := by simp
  have hbetter : menu.argmin cheapKey = rest.foldl (better (fun _ => true) cheapKey) (some first) := by
    rw [← hall, ← foldl_better, hm]
    rfl
  rw [hbetter, ← cheapest_from rest first (hm ▸ hn.before), hm, cheapestDish, List.foldl_cons]
  exact congrArg (fun x => List.foldl _ x rest) hself

theorem zipIdx_eq : menu.zipIdx = menu.map fun d => (d, d.id.toNat) := by
  ext1 i
  rw [List.getElem?_zipIdx, List.getElem?_map]
  cases hi : menu[i]? with
  | none => rfl
  | some d =>
    have := (hn i d hi).1
    simp only [Option.map_some]
    congr 2
    omega

theorem cheapestALC_eq (idOrdered : List Int) :
    cheapestALC idOrdered menu = noted ((menu.filter fun d => d.type = .alc ∧ d.id ∉ idOrdered).argmin cheapKey) := by
  rw [cheapestALC, zipIdx_eq hn, List.foldl_map]
  refine foldl_eq noted hn.before fun best d hd hbefore => ?_
  have hin : (idOrdered.any fun j => j = (d.id.toNat : Int)) = decide (d.id ∈ idOrdered) := by
    have := (hn.of_mem hd).1
    rw [Int.toNat_of_nonneg this, Bool.eq_iff_iff, List.any_eq_true]
    simp
  rw [cheapestALCStep, hin]
  by_cases ht : d.type = .alc
  · by_cases hmem : d.id ∈ idOrdered
    · rw [better_of_other (by simp [hmem])]
      simp [hmem]
    · rw [better_of_kind (by simp [ht, hmem])]
      cases best with
      | none => simp [noted, ht, hmem]
      | some b =>
        obtain ⟨-, hprice, hlt⟩ := hbefore b rfl
        have hfound : ¬ (noted (some b)).2 = -1 := show ¬ b.price = -1 by omega
        have hfirst : (if d.type = .alc ∧ (noted (some b)).2 = -1 then
            if decide (d.id ∈ idOrdered) = true then noted (some b) else (d.id, d.price)
          else noted (some b)) = noted (some b) := if_neg fun h => hfound h.2
        rw [hfirst, Option.elim_some]
        by_cases hp : d.price < b.price
        · rw [if_pos ⟨hp, ht⟩, if_pos (cheapKey_lt.2 (.inl hp)), if_neg (by simpa using hmem)]
          rfl
        · have hnot : ¬ cheapKey d < cheapKey b := by
            rw [cheapKey_lt]
            omega
          rw [if_neg hnot]
          exact if_neg fun h => hp h.1
  · rw [better_of_other (by simp [ht])]
    simp [ht]

end Loops

/-! ## Call after call -/

theorem order_veg (ht : c.type = .veg) :
    c.order menu = .ok ({ c with ordered := true }, [smallestVegId menu, (pricestBVG menu).1]) := by
  unfold Customer.order
  rw [ht]

theorem order_chp {first : Dish} {rest : List Dish} (ht : c.type = .chp) (hm : menu = first :: rest) :
    c.order menu =
      if c.ordered then .ok (c, []) else .ok ({ c with ordered := true }, [(cheapestDish first menu).1]) := by
  unfold Customer.order
  rw [ht, hm]

theorem order_spc (ht : c.type = .spc) : c.order menu =
    if c.firstOrder then .ok (c, [(cheapestBVG menu).1])
    else .ok ({ c with firstOrder := true }, [(pricestSPC menu).1]) := by
  unfold Customer.order
  rw [ht]

theorem order_alc (ht : c.type = .alc) : c.order menu =
    .ok ({ c with idOrdered := c.idOrdered ++ [(cheapestALC c.idOrdered menu).1] },
    [(cheapestALC c.idOrdered menu).1]) := by
  unfold Customer.order
  rw [ht]

/-- So many calls of `order` in a row, with what each returns. -/
def Customer.orders (menu : List Dish) : Nat → Customer → Except Fault (Customer × List (List Int))
  | 0, c => .ok (c, [])
  | n + 1, c => do
    let (c, ids) ← c.order menu
    let (c, rest) ← c.orders menu n
    .ok (c, ids :: rest)

/-- Calls that all return the same. -/
theorem orders_const {P : Customer → Prop} (ids : List Int) (h : ∀ c, P c → ∃ c', c.order menu = .ok (c', ids) ∧ P c') :
    ∀ (n : Nat) (c : Customer), P c → ∃ c', c.orders menu n = .ok (c', List.replicate n ids)
  | 0, c, _ => ⟨c, rfl⟩
  | n + 1, c, hc => by
    obtain ⟨c1, h1, hc1⟩ := h c hc
    obtain ⟨c', h2⟩ := orders_const ids h n c1 hc1
    refine ⟨c', ?_⟩
    rw [Customer.orders, h1, ok_bind]
    dsimp only
    rw [h2]
    rfl

/-- `id` is the first dish of a kind in an order, -1 without one. -/
def Picks (menu : List Dish) (kind : Dish → Prop) (first : Dish → Dish → Prop) (id : Int) : Prop :=
  (∃ d ∈ menu, kind d ∧ id = d.id ∧ ∀ e ∈ menu, kind e → first d e) ∨ (∀ e ∈ menu, ¬ kind e) ∧ id = -1

/-- A smaller id. -/
def Earlier (d e : Dish) : Prop := d.id ≤ e.id

/-- A lower price, of two of one price the smaller id. -/
def Cheaper (d e : Dish) : Prop := d.price < e.price ∨ d.price = e.price ∧ d.id ≤ e.id

/-- A higher price, of two of one price the smaller id. -/
def Dearer (d e : Dish) : Prop := e.price < d.price ∨ d.price = e.price ∧ d.id ≤ e.id

theorem picks_argmin {κ : Type} [LinearOrder κ] (kind : Dish → Prop) [DecidablePred kind]
    {key : Dish → κ} {first : Dish → Dish → Prop}
    (hle : ∀ d e, key d ≤ key e → first d e) :
    Picks menu kind first (notedId ((menu.filter fun d => kind d).argmin key)) := by
  cases h : (menu.filter fun d => kind d).argmin key with
  | none =>
    right
    refine ⟨fun e he hk => ?_, rfl⟩
    have hnil := List.argmin_eq_none.1 h
    have hmem : e ∈ menu.filter fun d => kind d := List.mem_filter.2 ⟨he, by simpa using hk⟩
    rw [hnil] at hmem
    cases hmem
  | some d =>
    left
    obtain ⟨hd, hk⟩ := List.mem_filter.1 (List.argmin_mem h)
    refine ⟨d, hd, by simpa using hk, rfl, fun e he hke =>
      hle d e (least_of_argmin h (List.mem_filter.2 ⟨he, by simpa using hke⟩))⟩

theorem picks_veg (hn : Numbered menu) : Picks menu (fun d => d.type = .veg) Earlier (smallestVegId menu) := by
  rw [smallestVegId_eq hn]
  exact picks_argmin _ fun _ _ h => h

theorem picks_cheapest (hn : Numbered menu) {first : Dish} {rest : List Dish} (hm : menu = first :: rest) :
    Picks menu (fun _ => True) Cheaper (cheapestDish first menu).1 := by
  have h : Picks menu (fun _ => True) Cheaper (notedId ((menu.filter fun _ => True).argmin cheapKey)) :=
    picks_argmin _ fun _ _ => cheapKey_le
  rw [cheapestDish_eq hn hm]
  simpa [notedId] using h

/-- The ordering strategies of three kinds of customers, over any number of calls: a vegetarian asks for the
first VEG dish and the dearest BVG, a cheap customer once for the cheapest dish, a spicy one first for the
dearest SPC and then for the cheapest BVG. -/
theorem strategies (menu : List Dish) (hne : menu ≠ []) (hn : Numbered menu) :
    ∃ veg dearBVG cheapest dearSPC cheapBVG : Int,
    Picks menu (fun d => d.type = .veg) Earlier veg ∧ Picks menu (fun d => d.type = .bvg) Dearer dearBVG ∧
    Picks menu (fun _ => True) Cheaper cheapest ∧
    Picks menu (fun d => d.type = .spc) Dearer dearSPC ∧ Picks menu (fun d => d.type = .bvg) Cheaper cheapBVG ∧
    ∀ (n : Nat) (c : Customer),
      (c.type = .veg → ∃ c', c.orders menu n = .ok (c', List.replicate n [veg, dearBVG])) ∧
      (c.type = .chp → c.ordered = false → ∃ c', c.orders menu (n + 1) = .ok (c', [cheapest] :: List.replicate n [])) ∧
      (c.type = .spc → c.firstOrder = false →
        ∃ c', c.orders menu (n + 1) = .ok (c', [dearSPC] :: List.replicate n [cheapBVG])) := by
  obtain ⟨first, rest, hm⟩ := List.exists_cons_of_ne_nil hne
  refine ⟨smallestVegId menu, (pricestBVG menu).1, (cheapestDish first menu).1, (pricestSPC menu).1,
    (cheapestBVG menu).1,
    picks_veg hn, ?_, picks_cheapest hn hm, ?_, ?_, fun n c => ⟨fun ht => ?_, fun ht hord => ?_, fun ht hfirst => ?_⟩⟩
  · rw [pricestBVG_eq hn]
    exact picks_argmin _ fun _ _ => dearKey_le
  · rw [pricestSPC_eq hn]
    exact picks_argmin _ fun _ _ => dearKey_le
  · rw [cheapestBVG_eq hn]
    exact picks_argmin _ fun _ _ => cheapKey_le
  · refine orders_const (P := fun c => c.type = .veg) _ (fun c hc => ?_) n c ht
    exact ⟨{ c with ordered := true }, order_veg hc, hc⟩
  · -- the first call sets `ordered`, and from then on nothing is asked for
    obtain ⟨c', hc'⟩ := orders_const (P := fun c => c.type = .chp ∧ c.ordered = true) []
      (fun c hc => ⟨c, by rw [order_chp hc.1 hm]; exact if_pos hc.2, hc⟩) n { c with ordered := true } ⟨ht, rfl⟩
    have hone : c.order menu = .ok ({ c with ordered := true }, [(cheapestDish first menu).1]) := by
      rw [order_chp ht hm]
      exact if_neg (by rw [hord]; exact Bool.false_ne_true)
    refine ⟨c', ?_⟩
    rw [Customer.orders, hone, ok_bind]
    dsimp only
    rw [hc']
    rfl
  · obtain ⟨c', hc'⟩ := orders_const (P := fun c => c.type = .spc ∧ c.firstOrder = true) [(cheapestBVG menu).1]
      (fun c hc => ⟨c, by rw [order_spc hc.1]; exact if_pos hc.2, hc⟩) n { c with firstOrder := true } ⟨ht, rfl⟩
    have hone : c.order menu = .ok ({ c with firstOrder := true }, [(pricestSPC menu).1]) := by
      rw [order_spc ht]
      exact if_neg (by rw [hfirst]; exact Bool.false_ne_true)
    refine ⟨c', ?_⟩
    rw [Customer.orders, hone, ok_bind]
    dsimp only
    rw [hc']
    rfl

/-- A menu of two spicy dishes of one price and two drinks. -/
theorem strategies_dinner : ∃ veg dearBVG cheapest dearSPC cheapBVG : Int,
    let menu : List Dish :=
  [⟨0, "curry", 40, .spc⟩, ⟨1, "vindaloo", 40, .spc⟩, ⟨2, "cola", 8, .bvg⟩, ⟨3, "water", 0, .bvg⟩]
    Picks menu (fun d => d.type = .veg) Earlier veg ∧ Picks menu (fun d => d.type = .bvg) Dearer dearBVG ∧
    Picks menu (fun _ => True) Cheaper cheapest ∧
    Picks menu (fun d => d.type = .spc) Dearer dearSPC ∧ Picks menu (fun d => d.type = .bvg) Cheaper cheapBVG ∧
    ∀ (n : Nat) (c : Customer),
      (c.type = .veg → ∃ c', c.orders menu n = .ok (c', List.replicate n [veg, dearBVG])) ∧
      (c.type = .chp → c.ordered = false → ∃ c', c.orders menu (n + 1) = .ok (c', [cheapest] :: List.replicate n [])) ∧
      (c.type = .spc → c.firstOrder = false →
        ∃ c', c.orders menu (n + 1) = .ok (c', [dearSPC] :: List.replicate n [cheapBVG])) := by
  refine strategies _ (by simp) fun i d hd => ?_
  match i, hd with
  | 0, hd | 1, hd | 2, hd | 3, hd => cases hd; decide
  | i + 4, hd => cases hd

/-! ## The alcoholic customer -/

/-- After `k` calls: the first `k` dishes of the price list have been had, and -1 for every call past its end. -/
structure Walked (ds : List Dish) (c : Customer) (k : Nat) : Prop where
  type : c.type = .alc
  had : c.idOrdered = (List.range k).map fun j => (ds[j]?.map Dish.id).getD (-1)

theorem Walked.had_iff {ds : List Dish} {k : Nat} (hw : Walked ds c k) {d : Dish} (hd : 0 ≤ d.id) :
    d.id ∈ c.idOrdered ↔ ∃ e ∈ ds.take k, e.id = d.id := by
  rw [hw.had, List.mem_map]
  constructor
  · rintro ⟨j, hj, he⟩
    cases hget : ds[j]? with
    | none =>
      rw [hget] at he
      simp only [Option.map_none, Option.getD_none] at he
      omega
    | some e =>
      rw [hget] at he
      exact ⟨e, List.mem_of_getElem? ((List.getElem?_take_of_lt (List.mem_range.1 hj)).trans hget), by simpa using he⟩
  · rintro ⟨e, he, hid⟩
    obtain ⟨j, hj⟩ := List.mem_iff_getElem?.1 he
    have hlt : j < k := by
      have := (List.getElem?_eq_some_iff.1 hj).1
      rw [List.length_take] at this
      omega
    rw [List.getElem?_take_of_lt hlt] at hj
    exact ⟨j, List.mem_range.2 hlt, by simp [hj, hid]⟩

/-- One call goes one dish up the price list. -/
theorem Walked.order {ds : List Dish} {k : Nat} (hn : Numbered menu)
    (hperm : ds.Perm (menu.filter fun d => d.type = .alc))
    (hds : ds.Pairwise fun a b => cheapKey a < cheapKey b) (hw : Walked ds c k) :
    ∃ c', c.order menu = .ok (c', [(ds[k]?.map Dish.id).getD (-1)]) ∧ Walked ds c' (k + 1) := by
  have hmem : ∀ d ∈ ds, d ∈ menu := fun d hd => (List.mem_filter.1 (hperm.mem_iff.1 hd)).1
  have hleft : (menu.filter fun d => d.type = .alc ∧ d.id ∉ c.idOrdered).Perm (ds.drop k) := by
    have h1 : (menu.filter fun d => d.type = .alc ∧ d.id ∉ c.idOrdered) =
        (menu.filter fun d => d.type = .alc).filter fun d => d.id ∉ c.idOrdered := by
      rw [List.filter_filter]
      refine List.filter_congr fun d _ => ?_
      rw [Bool.and_comm, Bool.decide_and]
    have h2 : ds.filter (fun d => d.id ∉ c.idOrdered) = ds.drop k := by
      have htake : (ds.take k).filter (fun d => d.id ∉ c.idOrdered) = [] := by
        refine List.filter_eq_nil_iff.2 fun d hd => ?_
        have hdm := List.mem_of_mem_take hd
        have := (hw.had_iff (hn.of_mem (hmem d hdm)).1).2 ⟨d, hd, rfl⟩
        simpa using this
      have hdrop : (ds.drop k).filter (fun d => d.id ∉ c.idOrdered) = ds.drop k := by
        refine List.filter_eq_self.2 fun d hd => ?_
        have hdm := List.mem_of_mem_drop hd
        rw [decide_eq_true_eq, hw.had_iff (hn.of_mem (hmem d hdm)).1]
        rintro ⟨e, he, hid⟩
        obtain rfl := hn.inj (hmem e (List.mem_of_mem_take he)) (hmem d hdm) hid
        rw [← List.take_append_drop k ds, List.pairwise_append] at hds
        exact lt_irrefl _ (hds.2.2 e he e hd)
      conv_lhs => rw [← List.take_append_drop k ds]
      rw [List.filter_append, htake, hdrop, List.nil_append]
    rw [h1, ← h2]
    exact hperm.symm.filter _
  have hpick : (cheapestALC c.idOrdered menu).1 = (ds[k]?.map Dish.id).getD (-1) := by
    rw [cheapestALC_eq hn, argmin_drop hds hleft]
    cases ds[k]? <;> rfl
  refine ⟨{ c with idOrdered := c.idOrdered ++ [(cheapestALC c.idOrdered menu).1] }, ?_, hw.type, ?_⟩
  · rw [order_alc hw.type, hpick]
  · rw [List.range_succ, List.map_append, ← hw.had]
    exact congrArg (fun x => c.idOrdered ++ [x]) hpick

theorem Walked.orders {ds : List Dish} (hn : Numbered menu) (hperm : ds.Perm (menu.filter fun d => d.type = .alc))
    (hds : ds.Pairwise fun a b => cheapKey a < cheapKey b) : ∀ (n k : Nat) (c : Customer), Walked ds c k →
    ∃ c', c.orders menu n = .ok (c', (List.range' k n).map fun j => [(ds[j]?.map Dish.id).getD (-1)])
  | 0, _, c, _ => ⟨c, rfl⟩
  | n + 1, k, c, hw => by
    obtain ⟨c1, h1, hw1⟩ := hw.order hn hperm hds
    obtain ⟨c', h2⟩ := Walked.orders hn hperm hds n (k + 1) c1 hw1
    refine ⟨c', ?_⟩
    rw [Customer.orders, h1, ok_bind]
    dsimp only
    rw [h2, List.range'_succ]
    rfl

/-- Successive calls of a new alcoholic customer return the ALC dishes by price and id, one after the other,
and -1 when they are through; a table serves the dish, and nothing for a -1. -/
theorem alcoholic_walks_up (menu : List Dish) (hn : Numbered menu) (c : Customer) (ht : c.type = .alc)
    (hnew : c.idOrdered = []) :
    ∃ ds : List Dish, ds.Perm (menu.filter fun d => d.type = .alc) ∧
      (ds.Pairwise fun a b => a.price < b.price ∨ a.price = b.price ∧ a.id < b.id) ∧
      (∀ n, ∃ c', c.orders menu n = .ok (c', (List.range n).map fun k => [(ds[k]?.map Dish.id).getD (-1)])) ∧
      ∀ (k : Nat) (id : Int), serve menu id [(ds[k]?.map Dish.id).getD (-1)] =
      .ok (ds[k]?.toList.map fun d => (id, d)) := by
  obtain ⟨ds, hds⟩ : ∃ ds, ds = (menu.filter fun d => d.type = .alc).insertionSort fun a b =>
    cheapKey a ≤ cheapKey b := ⟨_, rfl⟩
  have hperm : ds.Perm (menu.filter fun d => d.type = .alc) := by
    rw [hds]
    exact List.perm_insertionSort _ _
  have hmem : ∀ d ∈ ds, d ∈ menu := fun d hd => (List.mem_filter.1 (hperm.mem_iff.1 hd)).1
  have hstrict : ds.Pairwise fun a b => cheapKey a < cheapKey b := by
    have hle : ds.Pairwise fun a b => cheapKey a ≤ cheapKey b := by
      rw [hds]
      exact List.pairwise_insertionSort _ _
    have hnodup : ds.Nodup := by
      refine hperm.nodup_iff.2 (List.Nodup.filter _ ?_)
      exact hn.pairwise.imp fun {a b} hlt he => by
        rw [he] at hlt
        exact Int.lt_irrefl _ hlt
    refine List.Pairwise.imp_of_mem (fun {a b} ha hb hab => ?_) (hle.and hnodup)
    refine lt_of_le_of_ne hab.1 fun he => hab.2 (hn.inj (hmem a ha) (hmem b hb) ?_)
    exact congrArg (fun x : Lex (Int × Int) => (ofLex x).2) he
  refine ⟨ds, hperm, hstrict.imp fun h => cheapKey_lt.1 h, fun n => ?_, fun k id => ?_⟩
  · rw [List.range_eq_range']
    exact Walked.orders hn hperm hstrict n 0 c ⟨ht, hnew⟩
  · cases hk : ds[k]? with
    | none => rfl
    | some d =>
      have hd := hmem d (List.mem_of_getElem? hk)
      have hid := (hn.of_mem hd).1
      simp only [Option.map_some, Option.getD_some, serve, ok_bind]
      rw [if_neg (by omega), if_neg (by omega), hn.get hd]
      rfl

theorem alcoholic_walks_up_bar : ∃ ds : List Dish,
    let menu : List Dish := [⟨0, "wine", 30, .alc⟩, ⟨1, "beer", 10, .alc⟩, ⟨2, "cola", 8, .bvg⟩, ⟨3, "cider", 10, .alc⟩]
    ds.Perm (menu.filter fun d => d.type = .alc) ∧
      (ds.Pairwise fun a b => a.price < b.price ∨ a.price = b.price ∧ a.id < b.id) ∧
      (∀ n, ∃ c', Customer.orders menu n ⟨.alc, "ann", 0, false, false, []⟩ =
        .ok (c', (List.range n).map fun k => [(ds[k]?.map Dish.id).getD (-1)])) ∧
      ∀ (k : Nat) (id : Int), serve menu id [(ds[k]?.map Dish.id).getD (-1)] =
      .ok (ds[k]?.toList.map fun d => (id, d)) := by
  refine alcoholic_walks_up _ (fun i d hd => ?_) _ rfl rfl
  match i, hd with
  | 0, hd | 1, hd | 2, hd | 3, hd => cases hd; decide
  | i + 4, hd => cases hd

end Rest
