import CCppProjects.Fs.Runs
import Mathlib.Algebra.BigOperators.Group.Finset.Basic
import Mathlib.Algebra.BigOperators.Ring.Finset
import Mathlib.Algebra.Order.BigOperators.Group.Finset
import Mathlib.Algebra.Order.Group.Int
import Mathlib.Algebra.Ring.Int.Defs
/-
# Link counts

`nlink` of a file is the number of entries that name it, in the directories that still have a link themselves
(`Live`); `nlink` of a directory is one and one for each directory below it, for their `..`. `create` and
`sys_link` do not look whether the directory they enter a name into still has a link (sysfile.c:144-147,
248-250), and nothing bounds a `short`: the counts hold along every run whose calls enter names only into live
directories and below 32767 links (`Enters`).

`Counted` is what carries that. A directory is unlinked only when it is empty, so it has no directories below
it, so its one link is the last (`Counted.unlink_dir`).
-/
namespace Dirs

open Fs (Ty)
open Function (update)

/-- A directory that has a link. -/
def Live (T : Tree) (d : Nat) : Prop := (T d).type = .dir ∧ (T d).nlink ≠ 0

/-- `p` is `..` of `d`. -/
def Up (T : Tree) (d p : Nat) : Prop := (T d).ents[1]? = some { inum := p, name := "..".toList }

instance (T : Tree) (d : Nat) : Decidable (Live T d) := inferInstanceAs (Decidable (_ ∧ _))

instance (T : Tree) (d p : Nat) : Decidable (Up T d p) := inferInstanceAs (Decidable (_ = _))

/-- The entries that name `i`. -/
def names (i : Nat) (ents : List Dirent) : Nat := ents.countP fun e => e.inum == i

/-- The entries of live directories that name `i`. -/
def Tree.count (T : Tree) (N i : Nat) : Int := ∑ d ∈ Finset.range N, if Live T d then (names i (T d).ents : Int) else 0

/-- The live directories right below `d`. -/
def Tree.subs (T : Tree) (N d : Nat) : Int := ∑ x ∈ Finset.range N, if Live T x ∧ x ≠ d ∧ Up T x d then 1 else 0

structure Counted (N : Nat) (T : Tree) : Prop where
  inside : ∀ i, (T i).type ≠ .free → 1 ≤ i ∧ i < N
  root : Live T ROOTINO ∧ Up T ROOTINO ROOTINO
  dot : ∀ d, Live T d → (T d).ents[0]? = some { inum := d, name := ".".toList }
  dotdot : ∀ d, Live T d → ∃ p, Up T d p ∧ (T p).type = .dir
  dead : ∀ (d k : Nat) (e : Dirent), (T d).type = .dir → (T d).nlink = 0 → (T d).ents[k]? = some e →
    e.inum ≠ 0 → dots e.name = true
  named : ∀ d k e, Live T d → 2 ≤ k → (T d).ents[k]? = some e → e.inum ≠ 0 →
    (T e.inum).type ≠ .free ∧ ((T e.inum).type = .dir → Live T e.inum ∧ Up T e.inum d ∧ e.inum ≠ d)
  child : ∀ x, Live T x → x ≠ ROOTINO → ∃ p k e, Up T x p ∧ Live T p ∧ 2 ≤ k ∧ (T p).ents[k]? = some e ∧ e.inum = x
  once : ∀ d k l a b, Live T d → 2 ≤ k → 2 ≤ l → (T d).ents[k]? = some a → (T d).ents[l]? = some b → a.inum = b.inum →
    (T a.inum).type = .dir → a.inum ≠ 0 → k = l
  subs : ∀ d, Live T d → (T d).nlink = 1 + T.subs N d
  count : ∀ i, (T i).type ≠ .free → (T i).type ≠ .dir → (T i).nlink = T.count N i
  wide : ∀ i, short (T i).nlink = (T i).nlink

section

variable {T U : Tree} {N i j d dp p x k off : Nat} {ents : List Dirent} {e de : Dirent}
    {name : Name} {type : Ty} {left : Int}

/-! ## Sums with one term changed -/

theorem sum_change {f g : Nat → Int} {a : Nat} (ha : a < N) (h : ∀ d, d ≠ a → f d = g d) :
    ∑ d ∈ Finset.range N, f d = ∑ d ∈ Finset.range N, g d + (f a - g a) := by
  have hdiff : ∑ d ∈ Finset.range N, (f d - g d) = f a - g a :=
    Finset.sum_eq_single a (fun d _ hd => by rw [h d hd, Int.sub_self]) fun hn => absurd (Finset.mem_range.2 ha) hn
  rw [← hdiff, Finset.sum_sub_distrib]
  omega

theorem subs_nonneg : 0 ≤ T.subs N d := by
  refine Finset.sum_nonneg fun x _ => ?_
  split <;> decide

theorem names_le_count (hd : Live T d) (hlt : d < N) : (names i (T d).ents : Int) ≤ T.count N i := by
  have hle := Finset.single_le_sum (f := fun d => if Live T d then (names i (T d).ents : Int) else 0)
    (s := Finset.range N) (a := d)
    (fun x _ => by split <;> omega) (Finset.mem_range.2 hlt)
  rw [if_pos hd] at hle
  exact hle

/-! ## Entries -/

theorem freeSlot_free (h : ents[freeSlot ents]? = some e) : e.inum = 0 := by
  obtain ⟨hlt, rfl⟩ := List.getElem?_eq_some_iff.1 h
  exact beq_iff_eq.1 (List.findIdx_getElem (w := hlt))

theorem names_set (he : ents[off]? = some e) : (names i (ents.set off de) : Int) =
    names i ents - (if e.inum = i then 1 else 0) + (if de.inum = i then 1 else 0) := by
  have hone : ∀ e : Dirent, ((e.inum == i).toNat : Int) = if e.inum = i then 1 else 0 := fun e => by
    by_cases h : e.inum = i
    · rw [if_pos h, beq_iff_eq.2 h]
      rfl
    · rw [if_neg h, beq_eq_false_iff_ne.2 h]
      rfl
  rw [names, names, countP_set_int (fun e => e.inum == i) ents off de e he, hone, hone]

/-- One entry more. -/
theorem names_add (hi : i ≠ 0) : (names i (putEnt ents (freeSlot ents) de) : Int) = names i ents +
    (if de.inum = i then 1 else 0) := by
  unfold putEnt
  split
  · next hlt =>
    have he := List.getElem?_eq_getElem hlt
    rw [names_set he, freeSlot_free he, if_neg hi.symm, Int.sub_zero]
  · rw [names, names, List.countP_append, List.countP_singleton]
    by_cases h : de.inum = i <;> simp [h]

/-- One entry less. -/
theorem names_drop (he : ents[off]? = some e) (hi : i ≠ 0) :
    (names i (putEnt ents off { inum := 0, name := [] }) : Int) = names i ents - (if e.inum = i then 1 else 0) := by
  have hlt := (List.getElem?_eq_some_iff.1 he).1
  rw [putEnt, if_pos hlt, names_set he, if_neg hi.symm, Int.add_zero]

theorem Up.unique {q : Nat} (h : Up T d p) (h' : Up T d q) : p = q := by
  have := h.symm.trans h'
  simpa using this

/-- The first two entries of a live directory are in use. -/
theorem Counted.two_le_freeSlot (h : Counted N T) (hd : Live T d) : 2 ≤ freeSlot (T d).ents := by
  obtain ⟨p, hp, hpd⟩ := h.dotdot d hd
  have hpos : ∀ x, (T x).type = .dir → x ≠ 0 := fun x hx => by
    have := (h.inside x (by rw [hx]; decide)).1
    omega
  by_contra hlt
  have hcases : freeSlot (T d).ents = 0 ∨ freeSlot (T d).ents = 1 := by omega
  rcases hcases with h0 | h1
  · exact hpos d hd.1 (freeSlot_free (by rw [h0]; exact h.dot d hd))
  · exact hpos p hpd (freeSlot_free (by rw [h1]; exact hp))

/-- A name that is not one of the dots is behind them. -/
theorem Counted.two_le_off (h : Counted N T) (hd : Live T d) (hl : lookup (T d).ents name = some (off, i))
    (hdots : dots name = false) : 2 ≤ off := by
  obtain ⟨e, he, -, -, hc⟩ := lookup_some hl
  obtain ⟨p, hp, -⟩ := h.dotdot d hd
  rw [dots_congr hc] at hdots
  by_contra hlt
  have hcases : off = 0 ∨ off = 1 := by omega
  rcases hcases with rfl | rfl
  · obtain rfl := Option.some.inj (he.symm.trans (h.dot d hd))
    exact absurd hdots (by decide : ¬ dots ".".toList = false)
  · obtain rfl := Option.some.inj (he.symm.trans hp)
    exact absurd hdots (by decide : ¬ dots "..".toList = false)

/-- An entry of a live directory is one of its dots, which name directories, or behind them. -/
theorem Counted.dots_or (h : Counted N T) (hd : Live T d) (he : (T d).ents[k]? = some e) :
    ((T e.inum).type = .dir ∧ dots e.name = true) ∨ 2 ≤ k := by
  by_cases hk : 2 ≤ k
  · exact .inr hk
  left
  have hcases : k = 0 ∨ k = 1 := by omega
  rcases hcases with rfl | rfl
  · obtain rfl := Option.some.inj (he.symm.trans (h.dot d hd))
    exact ⟨hd.1, (by decide : dots ".".toList = true)⟩
  · obtain ⟨p, hp, hpd⟩ := h.dotdot d hd
    obtain rfl := Option.some.inj (he.symm.trans hp)
    exact ⟨hpd, (by decide : dots "..".toList = true)⟩

/-- No entry of a live directory names a free inode. -/
theorem Counted.ne_free (h : Counted N T) (hd : Live T d) (he : (T d).ents[k]? = some e)
    (hi : (T i).type = .free) (h0 : i ≠ 0) :
    e.inum ≠ i := by
  rintro rfl
  rcases h.dots_or hd he with ⟨hdir, -⟩ | hk
  · rw [hdir] at hi
    cases hi
  · exact (h.named d k e hd hk he h0).1 hi

theorem Counted.names_free (h : Counted N T) (hd : Live T d) (hi : (T i).type = .free) (h0 : i ≠ 0) :
    names i (T d).ents = 0 := by
  rw [names, List.countP_eq_zero]
  intro e he hei
  obtain ⟨k, hk⟩ := List.mem_iff_getElem?.1 he
  exact h.ne_free hd hk hi h0 (by simpa using hei)

theorem Counted.count_free (h : Counted N T) (hi : (T i).type = .free) (h0 : i ≠ 0) : T.count N i = 0 := by
  refine Finset.sum_eq_zero fun d _ => ?_
  split
  · next hd => rw [h.names_free hd hi h0, Nat.cast_zero]
  · rfl

/-! ## Giving up the last reference -/

theorem Counted.put (h : Counted N T) (hp : Tree.Put T j left U) : Counted N U := by
  cases hp with
  | kept hU =>
    rw [hU]
    exact h
  | freed hU ht hn _ =>
    have hj : U j = { T j with type := .free, ents := [] } := by rw [hU, Function.update_self]
    have hne : ∀ i, i ≠ j → U i = T i := fun i hi => by rw [hU, Function.update_of_ne hi]
    have hjlive : ¬ Live T j := fun hl => hl.2 hn
    have hlive : ∀ d, Live U d ↔ Live T d := fun d => by
      by_cases hd : d = j
      · subst hd
        refine iff_of_false (fun hl => ?_) hjlive
        rw [Live, hj] at hl
        cases hl.1
      · rw [Live, Live, hne d hd]
    have hlne : ∀ {d}, Live U d → d ≠ j := fun hl => by
      rintro rfl
      exact hjlive ((hlive _).1 hl)
    have hup : ∀ {d p}, Live U d → (Up U d p ↔ Up T d p) := fun hl => by rw [Up, Up, hne _ (hlne hl)]
    have hfile : ∀ i, (U i).type ≠ .free → i ≠ j := fun i hi => by
      rintro rfl
      rw [hj] at hi
      exact hi rfl
    have hsubs : ∀ d, U.subs N d = T.subs N d := fun d => by
      refine Finset.sum_congr rfl fun x _ => ?_
      by_cases hx : Live U x
      · rw [hlive] at hx
        simp only [hlive, hup ((hlive x).2 hx)]
      · have hx' : ¬ Live T x := fun hl => hx ((hlive x).2 hl)
        rw [if_neg fun hl => hx hl.1, if_neg fun hl => hx' hl.1]
    have hcount : ∀ i, U.count N i = T.count N i := fun i => by
      refine Finset.sum_congr rfl fun x _ => ?_
      by_cases hx : Live U x
      · rw [if_pos hx, if_pos ((hlive x).1 hx), hne x (hlne hx)]
      · rw [if_neg hx, if_neg fun hl => hx ((hlive x).2 hl)]
    refine ⟨fun i hi => ?_, ?_, fun d hd => ?_, fun d hd => ?_, fun d k e hd hn' he h0 => ?_,
      fun d k e hd hk he hn' => ?_, fun x hx hr => ?_,
      fun d k l a b hd hk hl ha hb hab hdir h0 => ?_, fun d hd => ?_, fun i hi hdir => ?_, fun i => ?_⟩
    · rw [hne i (hfile i hi)] at hi
      exact h.inside i hi
    · exact ⟨(hlive _).2 h.root.1, (hup ((hlive _).2 h.root.1)).2 h.root.2⟩
    · rw [hne d (hlne hd)]
      exact h.dot d ((hlive d).1 hd)
    · obtain ⟨p, hp, hpd⟩ := h.dotdot d ((hlive d).1 hd)
      -- the directory above is live: it names this one
      have hpj : p ≠ j := by
        rintro rfl
        by_cases hr : d = ROOTINO
        · subst hr
          exact hjlive (hp.unique h.root.2 ▸ h.root.1)
        · obtain ⟨q, _, _, hq, hql, -⟩ := h.child d ((hlive d).1 hd) hr
          exact hjlive (hp.unique hq ▸ hql)
      exact ⟨p, (hup hd).2 hp, by rw [hne p hpj, hpd]⟩
    · have hdj : d ≠ j := hfile d (by rw [hd]; decide)
      rw [hne d hdj] at hd hn' he
      exact h.dead d k e hd hn' he h0
    · rw [hne d (hlne hd)] at he
      obtain ⟨h1, h2⟩ := h.named d k e ((hlive d).1 hd) hk he hn'
      have hej : e.inum ≠ j := by
        intro hej
        rw [hej] at h1 h2
        by_cases hdir : (T j).type = .dir
        · exact hjlive (h2 hdir).1
        · -- the file has no link left, so no entry names it
          have hc := h.count j h1 hdir
          rw [hn] at hc
          have hpos : 0 < names j (T d).ents := List.countP_pos_iff.2 ⟨e, List.mem_of_getElem? he, by simpa using hej⟩
          have hle : (names j (T d).ents : Int) ≤ T.count N j := names_le_count ((hlive d).1 hd)
            (h.inside d (by rw [((hlive d).1 hd).1]; decide)).2
          omega
      rw [hne _ hej]
      refine ⟨h1, fun hdir => ?_⟩
      obtain ⟨h3, h4, h5⟩ := h2 hdir
      exact ⟨(hlive _).2 h3, (hup ((hlive _).2 h3)).2 h4, h5⟩
    · obtain ⟨p, k, e, hp, hpl, hk, he, hx'⟩ := h.child x ((hlive x).1 hx) hr
      have hpl' := (hlive p).2 hpl
      exact ⟨p, k, e, (hup hx).2 hp, hpl', hk, by rw [hne p (hlne hpl')]; exact he, hx'⟩
    · rw [hne d (hlne hd)] at ha hb
      rw [hne _ (hfile _ (by rw [hdir]; decide))] at hdir
      exact h.once d k l a b ((hlive d).1 hd) hk hl ha hb hab hdir h0
    · rw [hne d (hlne hd), hsubs]
      exact h.subs d ((hlive d).1 hd)
    · have hij := hfile i hi
      rw [hne i hij] at hi hdir ⊢
      rw [hcount]
      exact h.count i hi hdir
    · by_cases hij : i = j
      · rw [hij, hj]
        exact h.wide j
      · rw [hne i hij]
        exact h.wide i

theorem Counted.puts (h : Counted N T) (hp : Puts T U) : Counted N U := by
  induction hp with
  | refl => exact h
  | tail _ hp ih =>
    obtain ⟨i, left, hp⟩ := hp
    exact ih.put hp

/-! ## One entry more -/

/-- `U` is `T` with an entry for `i` in `dp`, and whatever `i` is now. -/
structure Entered (T U : Tree) (dp i : Nat) (name : Name) : Prop where
  ne : i ≠ dp
  ents : (U dp).ents = putEnt (T dp).ents (freeSlot (T dp).ents) { inum := i, name }
  type : (U dp).type = (T dp).type
  other : ∀ d, d ≠ i → d ≠ dp → U d = T d

/-- An entry of `U` is the new one or an old one. -/
theorem Entered.get (h : Entered T U dp i name) (hd : d ≠ i) (he : (U d).ents[k]? = some e) :
    (d = dp ∧ k = freeSlot (T dp).ents ∧ e = { inum := i, name }) ∨ (T d).ents[k]? = some e := by
  by_cases hdp : d = dp
  · subst hdp
    rw [h.ents, putEnt_getElem? freeSlot_le] at he
    split at he
    · next hk => exact .inl ⟨rfl, hk, (Option.some.inj he).symm⟩
    · exact .inr he
  · rw [h.other d hd hdp] at he
    exact .inr he

/-- An entry in use stays where it is. -/
theorem Entered.keep (h : Entered T U dp i name) (hd : d ≠ i) (he : (T d).ents[k]? = some e)
    (hn : e.inum ≠ 0) : (U d).ents[k]? = some e := by
  by_cases hdp : d = dp
  · subst hdp
    have hk : k ≠ freeSlot (T d).ents := by
      rintro rfl
      exact hn (freeSlot_free he)
    rw [h.ents, putEnt_getElem? freeSlot_le, if_neg hk]
    exact he
  · rw [h.other d hd hdp]
    exact he

theorem Entered.type_eq (h : Entered T U dp i name) (hd : d ≠ i) : (U d).type = (T d).type := by
  by_cases hdp : d = dp
  · rw [hdp, h.type]
  · rw [h.other d hd hdp]

theorem Entered.up (h : Entered T U dp i name) (hc : Counted N T) (hdp : Live T dp) (hd : d ≠ i) :
    Up U d p ↔ Up T d p := by
  by_cases hdd : d = dp
  · subst hdd
    have h1 : 1 ≠ freeSlot (T d).ents := by
      have := hc.two_le_freeSlot hdp
      omega
    rw [Up, Up, h.ents, putEnt_getElem? freeSlot_le, if_neg h1]
  · rw [Up, Up, h.other d hd hdd]

/-- A file, new or not, has one name more. -/
theorem Counted.enter_file (h : Counted N T) (hen : Entered T U dp i name) (hdp : Live T dp)
    (hnlink : (U dp).nlink = (T dp).nlink)
    (hi : 1 ≤ i ∧ i < N) (hTi : (T i).type ≠ .dir) (hfree : (U i).type ≠ .free) (hdir : (U i).type ≠ .dir)
    (hn : (U i).nlink = T.count N i + 1) (hwide : short (U i).nlink = (U i).nlink) : Counted N U := by
  have hlive : ∀ d, Live U d ↔ Live T d := fun d => by
    by_cases hd : d = i
    · subst hd
      exact iff_of_false (fun hl => hdir hl.1) fun hl => hTi hl.1
    · by_cases hdd : d = dp
      · subst hdd
        rw [Live, Live, hen.type, hnlink]
      · rw [Live, Live, hen.other d hd hdd]
  have hne : ∀ {d}, Live T d → d ≠ i := fun hl => by
    rintro rfl
    exact hTi hl.1
  have hup : ∀ {d p}, Live T d → (Up U d p ↔ Up T d p) := fun hl => hen.up h hdp (hne hl)
  have hsubs : ∀ d, U.subs N d = T.subs N d := fun d => by
    refine Finset.sum_congr rfl fun x _ => ?_
    by_cases hx : Live T x
    · simp only [hlive, hup hx]
    · rw [if_neg fun hl => hx ((hlive x).1 hl.1), if_neg fun hl => hx hl.1]
  have hcount : ∀ j, j ≠ 0 → U.count N j = T.count N j + if i = j then 1 else 0 := fun j h0 => by
    have hlt : dp < N := (h.inside dp (by rw [hdp.1]; decide)).2
    rw [Tree.count, sum_change hlt (g := fun d => if Live T d then (names j (T d).ents : Int) else 0)]
    · rw [if_pos ((hlive dp).2 hdp), if_pos hdp, hen.ents, names_add h0, Tree.count]
      dsimp only
      omega
    · intro d hd
      by_cases hl : Live T d
      · rw [if_pos ((hlive d).2 hl), if_pos hl, hen.other d (hne hl) hd]
      · rw [if_neg fun hu => hl ((hlive d).1 hu), if_neg hl]
  refine ⟨fun j hj => ?_, ?_, fun d hd => ?_, fun d hd => ?_, fun d k e hd hn' he h0 => ?_,
    fun d k e hd hk he hn' => ?_, fun x hx hr => ?_,
    fun d k l a b hd hk hl ha hb hab hdir' h0 => ?_, fun d hd => ?_, fun j hj hdir' => ?_, fun j => ?_⟩
  · by_cases hji : j = i
    · rw [hji]
      exact hi
    · rw [hen.type_eq hji] at hj
      exact h.inside j hj
  · exact ⟨(hlive _).2 h.root.1, (hup h.root.1).2 h.root.2⟩
  · rw [hlive] at hd
    exact hen.keep (hne hd) (h.dot d hd) (by have := (h.inside d (by rw [hd.1]; decide)).1; simp only; omega)
  · rw [hlive] at hd
    obtain ⟨p, hp, hpd⟩ := h.dotdot d hd
    have hpi : p ≠ i := by
      rintro rfl
      exact hTi hpd
    exact ⟨p, (hup hd).2 hp, by rw [hen.type_eq hpi, hpd]⟩
  · -- the directory entered is live, so this is another one
    have hdi : d ≠ i := by
      rintro rfl
      exact hdir hd
    have hdd : d ≠ dp := by
      rintro rfl
      rw [hnlink] at hn'
      exact hdp.2 hn'
    rw [hen.other d hdi hdd] at hd hn' he
    exact h.dead d k e hd hn' he h0
  · rw [hlive] at hd
    rcases hen.get (hne hd) he with ⟨-, -, rfl⟩ | he
    · exact ⟨hfree, fun hd' => absurd hd' hdir⟩
    · obtain ⟨h1, h2⟩ := h.named d k e hd hk he hn'
      by_cases hei : e.inum = i
      · rw [hei]
        exact ⟨hfree, fun hd' => absurd hd' hdir⟩
      · rw [hen.type_eq hei]
        refine ⟨h1, fun hd' => ?_⟩
        obtain ⟨h3, h4, h5⟩ := h2 hd'
        exact ⟨(hlive _).2 h3, (hup h3).2 h4, h5⟩
  · rw [hlive] at hx
    obtain ⟨p, k, e, hp, hpl, hk, he, hxe⟩ := h.child x hx hr
    have h0 : e.inum ≠ 0 := by
      have := (h.inside x (by rw [hx.1]; decide)).1
      omega
    exact ⟨p, k, e, (hup hx).2 hp, (hlive p).2 hpl, hk, hen.keep (hne hpl) he h0, hxe⟩
  · rw [hlive] at hd
    have hai : a.inum ≠ i := by
      intro hai
      rw [hai] at hdir'
      exact hdir hdir'
    have ha' : (T d).ents[k]? = some a := (hen.get (hne hd) ha).resolve_left fun hr => hai (by rw [hr.2.2])
    have hb' : (T d).ents[l]? = some b := (hen.get (hne hd) hb).resolve_left fun hr => hai (by rw [hab, hr.2.2])
    rw [hen.type_eq hai] at hdir'
    exact h.once d k l a b hd hk hl ha' hb' hab hdir' h0
  · rw [hlive] at hd
    have hnl : (U d).nlink = (T d).nlink := by
      by_cases hdd : d = dp
      · rw [hdd, hnlink]
      · rw [hen.other d (hne hd) hdd]
    rw [hnl, hsubs]
    exact h.subs d hd
  · by_cases hji : j = i
    · subst hji
      rw [hn, hcount j (by omega), if_pos rfl]
    · have hjd : j ≠ dp := by
        rintro rfl
        exact hdir' (by rw [hen.type]; exact hdp.1)
      have hj' := hj
      rw [hen.type_eq hji] at hj hdir'
      have h0 : j ≠ 0 := by
        have := (h.inside j hj).1
        omega
      rw [hcount j h0, if_neg (Ne.symm hji), Int.add_zero, hen.other j hji hjd]
      exact h.count j hj hdir'
  · by_cases hji : j = i
    · rw [hji]
      exact hwide
    · by_cases hjd : j = dp
      · rw [hjd, hnlink]
        exact h.wide dp
      · rw [hen.other j hji hjd]
        exact h.wide j

/-- `U` is `T` with a new directory `i` in `dp`. -/
structure NewDir (T U : Tree) (dp i : Nat) (name : Name) : Prop extends Entered T U dp i name where
  live : Live T dp
  free : (T i).type = .free
  nlink : (U dp).nlink = (T dp).nlink + 1
  new :
    U i = { type := .dir, nlink := 1, ents := [{ inum := i, name := ".".toList },
    { inum := dp, name := "..".toList }] }

theorem NewDir.ne_of_live (hm : NewDir T U dp i name) (hd : Live T d) : d ≠ i := by
  rintro rfl
  rw [Live, hm.free] at hd
  cases hd.1

theorem NewDir.live_iff (hm : NewDir T U dp i name) (h : Counted N T) : Live U d ↔ d = i ∨ Live T d := by
  by_cases hd : d = i
  · subst hd
    rw [Live, hm.new]
    simp
  · rw [or_iff_right hd]
    by_cases hdd : d = dp
    · subst hdd
      refine iff_of_true ⟨hm.type.trans hm.live.1, ?_⟩ hm.live
      have hone := h.subs d hm.live
      have hpos : 0 ≤ T.subs N d := subs_nonneg
      rw [hm.nlink]
      omega
    · rw [Live, Live, hm.other d hd hdd]

theorem NewDir.up_old (hm : NewDir T U dp i name) (h : Counted N T) (hd : Live T d) : Up U d p ↔ Up T d p :=
  hm.up h hm.live (hm.ne_of_live hd)

theorem NewDir.up_new (hm : NewDir T U dp i name) : Up U i p ↔ p = dp := by
  rw [Up, hm.new]
  simp [eq_comm]

theorem NewDir.lt_two (hm : NewDir T U dp i name) (he : (U i).ents[k]? = some e) : k < 2 := by
  rw [hm.new] at he
  exact (List.getElem?_eq_some_iff.1 he).1

/-- One directory more is right below `dp`, -/
theorem NewDir.subs_old (hm : NewDir T U dp i name) (h : Counted N T) (hi : i < N) (hd : Live T d) :
    U.subs N d = T.subs N d + if d = dp then 1 else 0 := by
  rw [Tree.subs, sum_change hi (g := fun x => if Live T x ∧ x ≠ d ∧ Up T x d then 1 else 0)]
  · rw [if_neg (fun hl : Live T i ∧ i ≠ d ∧ Up T i d => hm.ne_of_live hl.1 rfl), Tree.subs, Int.sub_zero]
    simp only [hm.live_iff h, true_or, (hm.ne_of_live hd).symm, hm.up_new, ne_eq, not_false_eq_true, true_and]
  · intro x hx
    simp only [hm.live_iff h, hx, false_or]
    by_cases hl : Live T x
    · simp only [hm.up_old h hl]
    · rw [if_neg fun h => hl h.1, if_neg fun h => hl h.1]

/-- and none below the new one. -/
theorem NewDir.subs_new (hm : NewDir T U dp i name) (h : Counted N T) : U.subs N i = 0 := by
  refine Finset.sum_eq_zero fun x _ => ?_
  rw [if_neg]
  rintro ⟨hx, hxi, hup⟩
  have hx' := ((hm.live_iff h).1 hx).resolve_left hxi
  obtain ⟨p, hp, hpd⟩ := h.dotdot x hx'
  obtain rfl := ((hm.up_old h hx').1 hup).unique hp
  rw [hm.free] at hpd
  cases hpd

theorem NewDir.count (hm : NewDir T U dp i name) (h : Counted N T) (h0 : j ≠ 0) (hji : j ≠ i) (hjd : j ≠ dp) :
    U.count N j = T.count N j := by
  refine Finset.sum_congr rfl fun d _ => ?_
  by_cases hdi : d = i
  · subst hdi
    rw [if_pos ((hm.live_iff h).2 (.inl rfl)), if_neg fun hl => hm.ne_of_live hl rfl, hm.new]
    simp [names, Ne.symm hji, Ne.symm hjd]
  · by_cases hl : Live T d
    · rw [if_pos ((hm.live_iff h).2 (.inr hl)), if_pos hl]
      by_cases hdd : d = dp
      · subst hdd
        rw [hm.ents, names_add h0]
        simp only [Ne.symm hji, if_false, Int.add_zero]
      · rw [hm.other d hdi hdd]
    · rw [if_neg fun hu => hl (((hm.live_iff h).1 hu).resolve_left hdi), if_neg hl]

theorem NewDir.named (hm : NewDir T U dp i name) (h : Counted N T) (hi : 1 ≤ i) (hd : Live U d) (hk : 2 ≤ k)
    (he : (U d).ents[k]? = some e) (hn : e.inum ≠ 0) :
    (U e.inum).type ≠ .free ∧ ((U e.inum).type = .dir → Live U e.inum ∧ Up U e.inum d ∧ e.inum ≠ d) := by
  rcases (hm.live_iff h).1 hd with rfl | hd
  · have := hm.lt_two he
    omega
  rcases hm.get (hm.ne_of_live hd) he with ⟨rfl, -, rfl⟩ | he
  · dsimp only
    exact ⟨by simp [hm.new], fun _ => ⟨(hm.live_iff h).2 (.inl rfl), hm.up_new.2 rfl, hm.ne⟩⟩
  · obtain ⟨h1, h2⟩ := h.named d k e hd hk he hn
    rw [hm.type_eq (h.ne_free hd he hm.free (by omega))]
    refine ⟨h1, fun hdir => ?_⟩
    obtain ⟨h3, h4, h5⟩ := h2 hdir
    exact ⟨(hm.live_iff h).2 (.inr h3), (hm.up_old h h3).2 h4, h5⟩

theorem NewDir.child (hm : NewDir T U dp i name) (h : Counted N T) (hx : Live U x) (hr : x ≠ ROOTINO) :
    ∃ p k e, Up U x p ∧ Live U p ∧ 2 ≤ k ∧ (U p).ents[k]? = some e ∧ e.inum = x := by
  have hold : ∀ {d}, Live T d → Live U d := fun hl => (hm.live_iff h).2 (.inr hl)
  rcases (hm.live_iff h).1 hx with rfl | hx
  · have hslot := h.two_le_freeSlot hm.live
    exact ⟨dp, freeSlot (T dp).ents, _, hm.up_new.2 rfl, hold hm.live, hslot,
      by rw [hm.ents, putEnt_getElem? freeSlot_le, if_pos rfl], rfl⟩
  · obtain ⟨p, k, e, hp, hpl, hk, he, hxe⟩ := h.child x hx hr
    have h0 : e.inum ≠ 0 := by
      have := (h.inside x (by rw [hx.1]; decide)).1
      omega
    exact ⟨p, k, e, (hm.up_old h hx).2 hp, hold hpl, hk, hm.keep (hm.ne_of_live hpl) he h0, hxe⟩

theorem NewDir.once (hm : NewDir T U dp i name) (h : Counted N T) (hi : 1 ≤ i) {l : Nat} {a b : Dirent} (hd : Live U d)
    (hk : 2 ≤ k) (hl : 2 ≤ l) (ha : (U d).ents[k]? = some a) (hb : (U d).ents[l]? = some b) (hab : a.inum = b.inum)
    (hdir : (U a.inum).type = .dir) (h0 : a.inum ≠ 0) : k = l := by
  rcases (hm.live_iff h).1 hd with rfl | hd
  · have := hm.lt_two ha
    omega
  have hfresh : ∀ {k : Nat} {e : Dirent}, (T d).ents[k]? = some e → e.inum ≠ i :=
    fun he => h.ne_free hd he hm.free (by omega)
  rcases hm.get (hm.ne_of_live hd) ha with ⟨rfl, rfl, rfl⟩ | ha'
  · rcases hm.get (hm.ne_of_live hd) hb with ⟨-, rfl, -⟩ | hb'
    · rfl
    · exact absurd hab.symm (hfresh hb')
  · rcases hm.get (hm.ne_of_live hd) hb with ⟨rfl, rfl, rfl⟩ | hb'
    · exact absurd hab (hfresh ha')
    · rw [hm.type_eq (hfresh ha')] at hdir
      exact h.once d k l a b hd hk hl ha' hb' hab hdir h0

/-- A new directory has one link, and gives one to the directory above. -/
theorem Counted.enter_dir (h : Counted N T) (hm : NewDir T U dp i name) (hi : 1 ≤ i ∧ i < N)
    (hwide : short (U dp).nlink = (U dp).nlink) : Counted N U := by
  have hold : ∀ {d}, Live T d → Live U d := fun hl => (hm.live_iff h).2 (.inr hl)
  refine ⟨fun j hj => ?_, ?_, fun d hd => ?_, fun d hd => ?_, fun d k e hd hn' he h0 => ?_,
    fun d k e hd hk he hn => hm.named h hi.1 hd hk he hn, fun x hx hr => hm.child h hx hr,
    fun d k l a b hd hk hl ha hb hab hdir h0 => hm.once h hi.1 hd hk hl ha hb hab hdir h0,
    fun d hd => ?_, fun j hj hdir => ?_, fun j => ?_⟩
  · by_cases hji : j = i
    · rw [hji]
      exact hi
    · rw [hm.type_eq hji] at hj
      exact h.inside j hj
  · exact ⟨hold h.root.1, (hm.up_old h h.root.1).2 h.root.2⟩
  · rcases (hm.live_iff h).1 hd with rfl | hd
    · rw [hm.new]
      rfl
    · exact hm.keep (hm.ne_of_live hd) (h.dot d hd) (by have := (h.inside d (by rw [hd.1]; decide)).1; simp only; omega)
  · rcases (hm.live_iff h).1 hd with rfl | hd
    · exact ⟨dp, hm.up_new.2 rfl, hm.type.trans hm.live.1⟩
    · obtain ⟨p, hp, hpd⟩ := h.dotdot d hd
      have hpi : p ≠ i := by
        rintro rfl
        rw [hm.free] at hpd
        cases hpd
      exact ⟨p, (hm.up_old h hd).2 hp, by rw [hm.type_eq hpi, hpd]⟩
  · have hnl : ¬ Live U d := fun hl => hl.2 hn'
    have hdi : d ≠ i := fun hdi => hnl ((hm.live_iff h).2 (.inl hdi))
    have hdd : d ≠ dp := by
      rintro rfl
      exact hnl (hold hm.live)
    rw [hm.other d hdi hdd] at hd hn' he
    exact h.dead d k e hd hn' he h0
  · rcases (hm.live_iff h).1 hd with rfl | hd
    · rw [hm.subs_new h, hm.new]
      rfl
    · rw [hm.subs_old h hi.2 hd]
      by_cases hdd : d = dp
      · subst hdd
        rw [hm.nlink, h.subs d hd, if_pos rfl]
        omega
      · rw [if_neg hdd, hm.other d (hm.ne_of_live hd) hdd, h.subs d hd]
        omega
  · have hji : j ≠ i := by
      rintro rfl
      rw [hm.new] at hdir
      exact hdir rfl
    have hjd : j ≠ dp := by
      rintro rfl
      exact hdir (hm.type.trans hm.live.1)
    rw [hm.type_eq hji] at hj hdir
    have h0 : j ≠ 0 := by
      have := (h.inside j hj).1
      omega
    rw [hm.count h h0 hji hjd, hm.other j hji hjd]
    exact h.count j hj hdir
  · by_cases hji : j = i
    · rw [hji, hm.new]
      rfl
    · by_cases hjd : j = dp
      · rw [hjd]
        exact hwide
      · rw [hm.other j hji hjd]
        exact h.wide j

/-! ## One entry less -/

/-- `U` is `T` without the entry `off` of `dp`, which names `i`, and with one link of `i` less. -/
structure Left (T U : Tree) (dp off i : Nat) (e : Dirent) : Prop where
  ne : i ≠ dp
  pos : i ≠ 0
  behind : 2 ≤ off
  old : (T dp).ents[off]? = some e ∧ e.inum = i
  ents : (U dp).ents = putEnt (T dp).ents off { inum := 0, name := [] }
  type : ∀ d, (U d).type = (T d).type
  same : (U i).ents = (T i).ents
  nlink : (U i).nlink = short ((T i).nlink - 1)
  other : ∀ d, d ≠ i → d ≠ dp → U d = T d

theorem Left.get (h : Left T U dp off i de) : (U d).ents[k]? = if d = dp ∧
    k = off then some { inum := 0, name := [] } else (T d).ents[k]? := by
  by_cases hdp : d = dp
  · subst hdp
    have hle := Nat.le_of_lt (List.getElem?_eq_some_iff.1 h.old.1).1
    simp only [h.ents, putEnt_getElem? hle, true_and]
  · rw [if_neg fun hr => hdp hr.1]
    by_cases hdi : d = i
    · rw [hdi, h.same]
    · rw [h.other d hdi hdp]

/-- An entry in use of `U` is one of `T`. -/
theorem Left.get_of (h : Left T U dp off i de) (he : (U d).ents[k]? = some e) (hn : e.inum ≠ 0) :
    (T d).ents[k]? = some e := by
  rw [h.get] at he
  split at he
  · rw [← Option.some.inj he] at hn
    exact absurd rfl hn
  · exact he

/-- An entry of `T` for something else is one of `U`. -/
theorem Left.get_old (h : Left T U dp off i de) (he : (T d).ents[k]? = some e) (hn : e.inum ≠ i) :
    (U d).ents[k]? = some e := by
  rw [h.get, if_neg, he]
  rintro ⟨rfl, rfl⟩
  obtain rfl := Option.some.inj (he.symm.trans h.old.1)
  exact hn h.old.2

theorem Left.up (h : Left T U dp off i de) : Up U d p ↔ Up T d p := by
  have := h.behind
  rw [Up, Up, h.get, if_neg (by omega)]

theorem Left.names (h : Left T U dp off i de) (h0 : j ≠ 0) :
    (names j (U d).ents : Int) = names j (T d).ents - if d = dp ∧ i = j then 1 else 0 := by
  by_cases hdp : d = dp
  · subst hdp
    rw [h.ents, names_drop h.old.1 h0, h.old.2]
    simp only [true_and]
  · rw [if_neg fun hr => hdp hr.1, Int.sub_zero]
    by_cases hdi : d = i
    · rw [hdi, h.same]
    · rw [h.other d hdi hdp]

theorem short_pred {z : Int} (h : short z = z) (hpos : 0 ≤ z) : short (z - 1) = z - 1 := by
  simp only [short] at h ⊢
  omega

theorem short_short {z : Int} : short (short z) = short z := by
  simp only [short]
  omega

/-- A file has one name less. -/
theorem Counted.leave_file (h : Counted N T) (hle : Left T U dp off i de) (hdp : Live T dp)
    (hnlink : (U dp).nlink = (T dp).nlink)
    (hfree : (T i).type ≠ .free) (hdir : (T i).type ≠ .dir) : Counted N U := by
  have hlt : dp < N := (h.inside dp (by rw [hdp.1]; decide)).2
  have hlive : ∀ d, Live U d ↔ Live T d := fun d => by
    by_cases hd : d = i
    · subst hd
      rw [Live, hle.type]
      exact iff_of_false (fun hl => hdir hl.1) fun hl => hdir hl.1
    · by_cases hdd : d = dp
      · subst hdd
        rw [Live, Live, hle.type, hnlink]
      · rw [Live, Live, hle.other d hd hdd]
  have hne : ∀ {d}, Live T d → d ≠ i := fun hl => by
    rintro rfl
    exact hdir hl.1
  have hnl : ∀ d, d ≠ i → (U d).nlink = (T d).nlink := fun d hdi => by
    by_cases hdd : d = dp
    · rw [hdd, hnlink]
    · rw [hle.other d hdi hdd]
  have hsubs : ∀ d, U.subs N d = T.subs N d := fun d => by
    simp only [Tree.subs, hlive, hle.up]
  have hcount : ∀ j, j ≠ 0 → U.count N j = T.count N j - if i = j then 1 else 0 := fun j h0 => by
    rw [Tree.count, sum_change hlt (g := fun d => if Live T d then (names j (T d).ents : Int) else 0)]
    · rw [if_pos ((hlive dp).2 hdp), if_pos hdp, hle.names h0, Tree.count]
      simp only [true_and]
      omega
    · intro d hd
      simp only [hlive]
      rw [hle.names h0, if_neg fun hr : d = dp ∧ i = j => hd hr.1, Int.sub_zero]
  have hpos : 0 < names i (T dp).ents :=
    List.countP_pos_iff.2 ⟨de, List.mem_of_getElem? hle.old.1, by simpa using hle.old.2⟩
  have hge : (Dirs.names i (T dp).ents : Int) ≤ T.count N i := names_le_count hdp hlt
  have hni := h.count i hfree hdir
  have hnlinki : (U i).nlink = (T i).nlink - 1 := by rw [hle.nlink, short_pred (h.wide i) (by omega)]
  refine ⟨fun j hj => ?_, ?_, fun d hd => ?_, fun d hd => ?_, fun d k e hd hn' he h0 => ?_,
    fun d k e hd hk he hn' => ?_, fun x hx hr => ?_,
    fun d k l a b hd hk hl ha hb hab hdir' h0 => ?_, fun d hd => ?_, fun j hj hdir' => ?_, fun j => ?_⟩
  · rw [hle.type] at hj
    exact h.inside j hj
  · exact ⟨(hlive _).2 h.root.1, hle.up.2 h.root.2⟩
  · rw [hlive] at hd
    exact hle.get_old (h.dot d hd) (hne hd)
  · rw [hlive] at hd
    obtain ⟨p, hp, hpd⟩ := h.dotdot d hd
    exact ⟨p, hle.up.2 hp, by rw [hle.type, hpd]⟩
  · rw [hle.type] at hd
    have hdi : d ≠ i := by
      rintro rfl
      exact hdir hd
    rw [hnl d hdi] at hn'
    exact h.dead d k e hd hn' (hle.get_of he h0) h0
  · rw [hlive] at hd
    obtain ⟨h1, h2⟩ := h.named d k e hd hk (hle.get_of he hn') hn'
    rw [hle.type]
    refine ⟨h1, fun hd' => ?_⟩
    obtain ⟨h3, h4, h5⟩ := h2 hd'
    exact ⟨(hlive _).2 h3, hle.up.2 h4, h5⟩
  · rw [hlive] at hx
    obtain ⟨p, k, e, hp, hpl, hk, he, hxe⟩ := h.child x hx hr
    exact ⟨p, k, e, hle.up.2 hp, (hlive p).2 hpl, hk, hle.get_old he (by rw [hxe]; exact hne hx), hxe⟩
  · rw [hlive] at hd
    rw [hle.type] at hdir'
    exact h.once d k l a b hd hk hl (hle.get_of ha h0) (hle.get_of hb (hab ▸ h0)) hab hdir' h0
  · rw [hlive] at hd
    rw [hnl d (hne hd), hsubs]
    exact h.subs d hd
  · rw [hle.type] at hj hdir'
    have h0 : j ≠ 0 := by
      have := (h.inside j hj).1
      omega
    rw [hcount j h0]
    by_cases hji : j = i
    · rw [hji, hnlinki, if_pos rfl, hni]
    · rw [if_neg (Ne.symm hji), Int.sub_zero, hnl j hji]
      exact h.count j hj hdir'
  · by_cases hji : j = i
    · rw [hji, hle.nlink, short_short]
    · rw [hnl j hji]
      exact h.wide j

theorem isdirempty_get (he : isdirempty ents = true) (hk : 2 ≤ k) (hek : ents[k]? = some e) : e.inum = 0 := by
  have hmem : e ∈ ents.drop 2 := by
    rw [List.mem_iff_getElem?]
    refine ⟨k - 2, ?_⟩
    rw [List.getElem?_drop, Nat.add_sub_cancel' hk, hek]
  exact beq_iff_eq.1 (List.all_eq_true.1 he e hmem)

/-- An empty directory has nothing right below it. -/
theorem Counted.subs_empty (h : Counted N T) (hd : Live T d) (he : isdirempty (T d).ents = true)
    (hx : Live T x) (hne : x ≠ d) : ¬ Up T x d := by
  intro hup
  have hr : x ≠ ROOTINO := by
    rintro rfl
    exact hne (h.root.2.unique hup)
  obtain ⟨p, k, e, hp, -, hk, hek, rfl⟩ := h.child x hx hr
  obtain rfl := hp.unique hup
  have h0 := isdirempty_get he hk hek
  have := (h.inside e.inum (by rw [hx.1]; decide)).1
  omega

/-- `U` is `T` without the empty directory `i` of `dp`. -/
structure DirGone (T U : Tree) (dp off i : Nat) (e : Dirent) : Prop extends Left T U dp off i e where
  live : Live T dp
  nlink_dp : (U dp).nlink = short ((T dp).nlink - 1)
  dir : (T i).type = .dir
  empty : isdirempty (T i).ents = true

/-- It is live, and right below `dp`. -/
theorem DirGone.live_up (hr : DirGone T U dp off i de) (h : Counted N T) : Live T i ∧ Up T i dp := by
  obtain ⟨-, hdir⟩ := h.named dp off de hr.live hr.behind hr.old.1 (by rw [hr.old.2]; exact hr.pos)
  rw [hr.old.2] at hdir
  exact ⟨(hdir hr.dir).1, (hdir hr.dir).2.1⟩

theorem DirGone.below (hr : DirGone T U dp off i de) (h : Counted N T) (hx : Live T x) (hxi : x ≠ i) : ¬ Up T x i :=
  h.subs_empty (hr.live_up h).1 hr.empty hx hxi

/-- Its one link is the last. -/
theorem DirGone.nlink_zero (hr : DirGone T U dp off i de) (h : Counted N T) : (U i).nlink = 0 := by
  have hsubs : T.subs N i = 0 :=
    Finset.sum_eq_zero fun x _ => if_neg fun hx : Live T x ∧ x ≠ i ∧ Up T x i => hr.below h hx.1 hx.2.1 hx.2.2
  rw [hr.nlink, h.subs i (hr.live_up h).1, hsubs]
  rfl

/-- The directory above has a link for it. -/
theorem DirGone.nlink_above (hr : DirGone T U dp off i de) (h : Counted N T) :
    (U dp).nlink = (T dp).nlink - 1 ∧ (U dp).nlink ≠ 0 := by
  obtain ⟨hil, hiup⟩ := hr.live_up h
  have hi : i < N := (h.inside i (by rw [hr.dir]; decide)).2
  have hsub := Finset.single_le_sum (f := fun x => if Live T x ∧ x ≠ dp ∧ Up T x dp then (1 : Int) else 0)
    (s := Finset.range N)
    (a := i) (fun x _ => by split <;> decide) (Finset.mem_range.2 hi)
  rw [if_pos ⟨hil, hr.ne, hiup⟩] at hsub
  have hsubs : (T dp).nlink = 1 + ∑ x ∈ Finset.range N, if Live T x ∧ x ≠ dp ∧
    Up T x dp then (1 : Int) else 0 := h.subs dp hr.live
  have hpred : (U dp).nlink = (T dp).nlink - 1 := by rw [hr.nlink_dp, short_pred (h.wide dp) (by omega)]
  exact ⟨hpred, by omega⟩

theorem DirGone.live_iff (hr : DirGone T U dp off i de) (h : Counted N T) : Live U d ↔ d ≠ i ∧ Live T d := by
  by_cases hd : d = i
  · subst hd
    exact iff_of_false (fun hl => hl.2 (hr.nlink_zero h)) fun hl => hl.1 rfl
  · rw [and_iff_right hd]
    by_cases hdd : d = dp
    · subst hdd
      exact iff_of_true ⟨(hr.type d).trans hr.live.1, (hr.nlink_above h).2⟩ hr.live
    · rw [Live, Live, hr.other d hd hdd]

theorem DirGone.subs (hr : DirGone T U dp off i de) (h : Counted N T) :
    U.subs N d = T.subs N d - if d = dp then 1 else 0 := by
  obtain ⟨hil, hiup⟩ := hr.live_up h
  have hi : i < N := (h.inside i (by rw [hr.dir]; decide)).2
  rw [Tree.subs, sum_change hi (g := fun x => if Live T x ∧ x ≠ d ∧ Up T x d then 1 else 0)]
  · rw [if_neg fun hl : Live U i ∧ i ≠ d ∧ Up U i d => ((hr.live_iff h).1 hl.1).1 rfl, Tree.subs]
    by_cases hdd : d = dp
    · subst hdd
      rw [if_pos ⟨hil, hr.ne, hiup⟩, if_pos rfl]
      omega
    · rw [if_neg fun hl : Live T i ∧ i ≠ d ∧ Up T i d => hdd (hl.2.2.unique hiup), if_neg hdd]
      omega
  · intro x hx
    simp only [hr.live_iff h, hr.up, ne_eq, hx, not_false_eq_true, true_and]

/-- Its own entries named directories only. -/
theorem DirGone.count (hr : DirGone T U dp off i de) (h : Counted N T) (h0 : j ≠ 0) (hj : (T j).type ≠ .dir) :
    U.count N j = T.count N j := by
  have hnames : Dirs.names j (T i).ents = 0 := by
    rw [Dirs.names, List.countP_eq_zero]
    intro e he hej
    obtain rfl : e.inum = j := by simpa using hej
    obtain ⟨k, hk⟩ := List.mem_iff_getElem?.1 he
    rcases h.dots_or (hr.live_up h).1 hk with ⟨hdir, -⟩ | hk2
    · exact hj hdir
    · exact h0 (isdirempty_get hr.empty hk2 hk)
  refine Finset.sum_congr rfl fun d _ => ?_
  by_cases hdi : d = i
  · subst hdi
    rw [if_neg fun hl => ((hr.live_iff h).1 hl).1 rfl, if_pos (hr.live_up h).1, hnames, Nat.cast_zero]
  · have hij : i ≠ j := by
      rintro rfl
      exact hj hr.dir
    simp only [hr.live_iff h, ne_eq, hdi, not_false_eq_true, true_and]
    rw [hr.names h0, if_neg fun hl : d = dp ∧ i = j => hij hl.2, Int.sub_zero]

/-- Only the entry that goes named it. -/
theorem DirGone.ne_of_entry (hr : DirGone T U dp off i de) (h : Counted N T) (hd : Live T d) (hk : 2 ≤ k)
    (he : (U d).ents[k]? = some e) (hn : e.inum ≠ 0) : e.inum ≠ i := by
  intro hei
  have he' := hr.get_of he hn
  have hup := ((h.named d k e hd hk he' hn).2 (by rw [hei]; exact hr.dir)).2.1
  rw [hei] at hup
  obtain rfl := hup.unique (hr.live_up h).2
  obtain rfl := h.once d k off e de hd hk hr.behind he' hr.old.1 (hei.trans hr.old.2.symm)
    (by rw [hei]; exact hr.dir) hn
  rw [hr.get, if_pos ⟨rfl, rfl⟩] at he
  rw [← Option.some.inj he] at hn
  exact hn rfl

/-- A directory without a link holds its dots at most. -/
theorem DirGone.dead (hr : DirGone T U dp off i de) (h : Counted N T) (hd : (U d).type = .dir) (hn : (U d).nlink = 0)
    (he : (U d).ents[k]? = some e) (h0 : e.inum ≠ 0) : dots e.name = true := by
  have he' := hr.get_of he h0
  by_cases hdi : d = i
  · subst hdi
    rcases h.dots_or (hr.live_up h).1 he' with ⟨-, hdots⟩ | hk
    · exact hdots
    · exact absurd (isdirempty_get hr.empty hk he') h0
  · have hnotdp : d ≠ dp := by
      rintro rfl
      exact (hr.nlink_above h).2 hn
    rw [hr.type] at hd
    rw [hr.other d hdi hnotdp] at hn
    exact h.dead d k e hd hn he' h0

/-- An empty directory had one link; the directory above gets one back. -/
theorem Counted.leave_dir (h : Counted N T) (hr : DirGone T U dp off i de) : Counted N U := by
  have hroot : i ≠ ROOTINO := by
    rintro rfl
    exact hr.ne (h.root.2.unique (hr.live_up h).2)
  refine ⟨fun j hj => ?_, ?_, fun d hd => ?_, fun d hd => ?_, fun d k e hd hn he h0 => hr.dead h hd hn he h0,
    fun d k e hd hk he hn => ?_, fun x hx hroot => ?_, fun d k l a b hd hk hl ha hb hab hdir h0 => ?_, fun d hd => ?_,
    fun j hj hdir => ?_, fun j => ?_⟩
  · rw [hr.type] at hj
    exact h.inside j hj
  · exact ⟨(hr.live_iff h).2 ⟨hroot.symm, h.root.1⟩, hr.up.2 h.root.2⟩
  · rw [hr.live_iff h] at hd
    exact hr.get_old (h.dot d hd.2) hd.1
  · rw [hr.live_iff h] at hd
    obtain ⟨p, hp, hpd⟩ := h.dotdot d hd.2
    exact ⟨p, hr.up.2 hp, by rw [hr.type, hpd]⟩
  · rw [hr.live_iff h] at hd
    obtain ⟨h1, h2⟩ := h.named d k e hd.2 hk (hr.get_of he hn) hn
    rw [hr.type]
    refine ⟨h1, fun hdir => ?_⟩
    obtain ⟨h3, h4, h5⟩ := h2 hdir
    exact ⟨(hr.live_iff h).2 ⟨hr.ne_of_entry h hd.2 hk he hn, h3⟩, hr.up.2 h4, h5⟩
  · rw [hr.live_iff h] at hx
    obtain ⟨p, k, e, hp, hpl, hk, he, hxe⟩ := h.child x hx.2 hroot
    have hpi : p ≠ i := by
      rintro rfl
      exact hr.below h hx.2 hx.1 hp
    exact ⟨p, k, e, hr.up.2 hp, (hr.live_iff h).2 ⟨hpi, hpl⟩, hk, hr.get_old he (by rw [hxe]; exact hx.1), hxe⟩
  · rw [hr.live_iff h] at hd
    rw [hr.type] at hdir
    exact h.once d k l a b hd.2 hk hl (hr.get_of ha h0) (hr.get_of hb (hab ▸ h0)) hab hdir h0
  · rw [hr.live_iff h] at hd
    rw [hr.subs h]
    by_cases hdd : d = dp
    · subst hdd
      rw [(hr.nlink_above h).1, h.subs d hr.live, if_pos rfl]
      omega
    · rw [hr.other d hd.1 hdd, if_neg hdd, Int.sub_zero]
      exact h.subs d hd.2
  · rw [hr.type] at hj hdir
    have h0 : j ≠ 0 := by
      have := (h.inside j hj).1
      omega
    have hji : j ≠ i := by
      rintro rfl
      exact hdir hr.dir
    have hjd : j ≠ dp := by
      rintro rfl
      exact hdir hr.live.1
    rw [hr.count h h0 hdir, hr.other j hji hjd]
    exact h.count j hj hdir
  · by_cases hji : j = i
    · rw [hji, hr.nlink, short_short]
    · by_cases hjd : j = dp
      · rw [hjd, hr.nlink_dp, short_short]
      · rw [hr.other j hji hjd]
        exact h.wide j

end

end Dirs
