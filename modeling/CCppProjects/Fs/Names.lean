import CCppProjects.Fs.Calls
import Mathlib.Logic.Relation
/-
# Names in a directory

`dirlink` is the only function that makes an entry, and it looks for the name first (fs.c:560-563): what a directory
holds is `Neat` from the first entry on. A name is compared up to DIRSIZ characters, as it is stored.
-/
namespace Dirs

open Fs (Ty)
open Function (update)

/-- The two names that no call takes away. -/
def dots (name : Name) : Bool := namecmp name ".".toList || namecmp name "..".toList

/-- Names are unique, and only the dots lead back to the directory itself. -/
structure Neat (d : Nat) (ents : List Dirent) : Prop where
  unique : ∀ {k l : Nat} {a b : Dirent}, ents[k]? = some a → ents[l]? = some b → a.inum ≠ 0 →
    b.inum ≠ 0 → namecmp a.name b.name = true → k = l
  own : ∀ a ∈ ents, a.inum = d → a.inum ≠ 0 → dots a.name = true

def Tidy (T : Tree) : Prop := ∀ d, Neat d (T d).ents

/-- References are given up, and with the last ones the inodes without links. -/
def Puts : Tree → Tree → Prop := Relation.ReflTransGen fun T U => ∃ i left, Tree.Put T i left U

/-- `create` finds the name unused and inode `i` free. -/
structure CanMake (c : Config) (T : Tree) (dp : Nat) (name : Name) (i : Nat) : Prop where
  dir : (T dp).type = .dir
  unused : lookup (T dp).ents name = none
  inside : 1 ≤ i ∧ i < c.ninodes
  free : (T i).type = .free

/-- `sys_link` finds a file or a device, and the new name unused. -/
structure CanLink (T : Tree) (i dp : Nat) (name : Name) : Prop where
  alloc : (T i).type ≠ .free
  file : (T i).type ≠ .dir
  dir : (T dp).type = .dir
  unused : lookup (T dp).ents name = none

/-- `sys_unlink` finds a file, a device or an empty directory under the name. -/
structure CanUnlink (T : Tree) (dp : Nat) (name : Name) (off i : Nat) : Prop where
  dir : (T dp).type = .dir
  found : lookup (T dp).ents name = some (off, i)
  dots : dots name = false
  alloc : (T i).type ≠ .free
  linked : 1 ≤ (T i).nlink
  empty : (T i).type = .dir → isdirempty (T i).ents = true

section

variable {T U : Tree} {ents : List Dirent} {name nm : Name} {i j k dp off : Nat} {de a : Dirent}
    {z left : Int} {type : Ty}

/-! ## Comparing and storing -/

theorem namecmp_iff : namecmp name nm = true ↔ name.take DIRSIZ = nm.take DIRSIZ := by
  rw [namecmp, beq_iff_eq]

theorem namecmp_take : namecmp (name.take DIRSIZ) nm = namecmp name nm := by
  rw [namecmp, namecmp, List.take_take, Nat.min_self]

theorem namecmp_comm : namecmp name nm = namecmp nm name := by
  rw [Bool.eq_iff_iff, namecmp_iff, namecmp_iff, eq_comm]

theorem dots_congr (h : namecmp name nm = true) : dots name = dots nm := by
  simp only [dots, namecmp, namecmp_iff.1 h]

theorem freeSlot_le : freeSlot ents ≤ ents.length := List.findIdx_le_length

theorem putEnt_getElem? (h : off ≤ ents.length) : (putEnt ents off de)[k]? = if k = off then some de else ents[k]? := by
  unfold putEnt
  split
  · next hlt =>
    by_cases hk : k = off
    · rw [if_pos hk, hk, List.getElem?_set_self hlt]
    · rw [if_neg hk, List.getElem?_set_ne (Ne.symm hk)]
  · next hge =>
    obtain rfl : off = ents.length := by omega
    by_cases hk : k = ents.length
    · subst hk
      simp
    · rw [if_neg hk]
      rcases Nat.lt_or_gt_of_ne hk with hk | hk
      · exact List.getElem?_append_left hk
      · rw [List.getElem?_eq_none (by rw [List.length_append]; exact hk), List.getElem?_eq_none (by omega)]

/-- The entry that a look-up finds. -/
theorem lookup_some (h : lookup ents name = some (off, i)) :
    ∃ e, ents[off]? = some e ∧ e.inum = i ∧ i ≠ 0 ∧ namecmp name e.name = true := by
  unfold lookup at h
  cases hf : ents.findIdx? fun de => de.inum != 0 && namecmp name de.name with
  | none =>
    rw [hf] at h
    cases h
  | some k =>
    rw [hf] at h
    obtain ⟨hlt, hk, -⟩ := List.findIdx?_eq_some_iff_getElem.1 hf
    simp only [List.getElem?_eq_getElem hlt, Option.map_some, Option.some.injEq, Prod.mk.injEq] at h
    obtain ⟨rfl, rfl⟩ := h
    simp only [Bool.and_eq_true, bne_iff_ne, ne_eq] at hk
    exact ⟨_, List.getElem?_eq_getElem hlt, rfl, hk.1, hk.2⟩

theorem lookup_none : lookup ents name = none ↔ ∀ e ∈ ents, e.inum ≠ 0 → namecmp name e.name = false := by
  unfold lookup
  cases hf : ents.findIdx? fun de => de.inum != 0 && namecmp name de.name with
  | none =>
    simp only [true_iff]
    intro e he hn
    have := List.findIdx?_eq_none_iff.1 hf e he
    simpa [hn] using this
  | some k =>
    obtain ⟨hlt, hk, -⟩ := List.findIdx?_eq_some_iff_getElem.1 hf
    simp only [Bool.and_eq_true, bne_iff_ne, ne_eq] at hk
    simp only [List.getElem?_eq_getElem hlt, Option.map_some, reduceCtorEq, false_iff]
    intro h
    rw [h _ (List.getElem_mem hlt) hk.1] at hk
    cases hk.2

/-- An entry for the directory itself has one of its own names. -/
theorem Neat.dots (h : Neat dp ents) (hl : lookup ents name = some (off, dp)) : dots name = true := by
  obtain ⟨e, he, hi, hn, hc⟩ := lookup_some hl
  rw [dots_congr hc]
  exact h.own e (List.mem_of_getElem? he) hi (hi ▸ hn)

theorem Neat.nil (d : Nat) : Neat d [] := ⟨fun h => by simp at h, by simp⟩

theorem Neat.put (h : Neat dp ents) (hoff : off ≤ ents.length) (hnew : de.inum ≠ 0 →
    ∀ e ∈ ents, e.inum ≠ 0 → namecmp de.name e.name = false)
    (hown : de.inum = dp → de.inum ≠ 0 → Dirs.dots de.name = true) : Neat dp (putEnt ents off de) := by
  constructor
  · intro k l a b ha hb hna hnb hc
    rw [putEnt_getElem? hoff] at ha hb
    split at ha <;> split at hb
    · next h1 h2 => rw [h1, h2]
    · obtain rfl := Option.some.inj ha
      rw [hnew hna b (List.mem_of_getElem? hb) hnb] at hc
      cases hc
    · obtain rfl := Option.some.inj hb
      rw [namecmp_comm, hnew hnb a (List.mem_of_getElem? ha) hna] at hc
      cases hc
    · exact h.unique ha hb hna hnb hc
  · intro a ha hd hn
    obtain ⟨k, hk⟩ := List.mem_iff_getElem?.1 ha
    rw [putEnt_getElem? hoff] at hk
    split at hk
    · obtain rfl := Option.some.inj hk
      exact hown hd hn
    · exact h.own a (List.mem_of_getElem? hk) hd hn

/-! ## What the calls do to a tree -/

theorem Tidy.update {d : Dinode} (h : Tidy T) (hd : Neat i d.ents) : Tidy (update T i d) := by
  intro j
  by_cases hj : j = i
  · rw [hj, Function.update_self]
    exact hd
  · rw [Function.update_of_ne hj]
    exact h j

theorem Tidy.addEnt (h : Tidy T) (hnone : lookup (T dp).ents name = none)
    (hi : i = dp → dots name = true) : Tidy (T.addEnt dp name i) := by
  refine h.update ((h dp).put freeSlot_le (fun _ e he hn => ?_) fun hd _ => ?_)
  · rw [namecmp_take]
    exact lookup_none.1 hnone e he hn
  · have : namecmp (name.take DIRSIZ) name = true := by rw [namecmp_take, namecmp_iff]
    rw [dots_congr this]
    exact hi hd

theorem Tidy.dropEnt (h : Tidy T) (hoff : off ≤ (T dp).ents.length) : Tidy (T.dropEnt dp off) :=
  h.update ((h dp).put hoff (fun hn => absurd rfl hn) fun _ hn => absurd rfl hn)

theorem Tidy.link (h : Tidy T) : Tidy (T.link i z) := h.update (h i)

theorem Tidy.put (h : Tidy T) (hp : Tree.Put T i left U) : Tidy U := by
  cases hp with
  | kept hU =>
    rw [hU]
    exact h
  | freed hU =>
    rw [hU]
    exact h.update (.nil i)

theorem Tidy.created (h : Tidy T) (hne : i ≠ dp) (hnone : lookup (T dp).ents name = none) :
    Tidy (T.created dp name i type) := by
  have hfresh : Tidy (T.fresh i type) := h.update (.nil i)
  have hfd : (T.fresh i type) dp = T dp := Function.update_of_ne hne.symm ..
  have hself : i = dp → dots name = true := fun hd => absurd hd hne
  unfold Tree.created
  split
  · have hlink : Tidy ((T.fresh i type).link dp 1) := hfresh.link
    have hli : (((T.fresh i type).link dp 1) i).ents = [] := by
      rw [Tree.link, Function.update_of_ne hne, Tree.fresh, Function.update_self]
    have hdot : Tidy (((T.fresh i type).link dp 1).addEnt i ".".toList i) :=
      hlink.addEnt (by rw [hli]; rfl) fun _ => by decide
    have hdi : ((((T.fresh i type).link dp 1).addEnt i ".".toList i) i).ents = [{ inum := i, name := ".".toList }] := by
      rw [Tree.addEnt, Function.update_self, hli]
      rfl
    have hdotdot : Tidy ((((T.fresh i type).link dp 1).addEnt i ".".toList i).addEnt i "..".toList dp) := by
      refine hdot.addEnt ?_ fun hd => absurd hd.symm hne
      have hcmp : namecmp ['.', '.'] ['.'] = false := by decide
      rw [hdi]
      simp [lookup, hcmp]
    refine hdotdot.addEnt ?_ hself
    rw [Tree.addEnt, Function.update_of_ne hne.symm, Tree.addEnt, Function.update_of_ne hne.symm,
      Tree.link, Function.update_self, hfd]
    exact hnone
  · refine hfresh.addEnt ?_ hself
    rw [hfd]
    exact hnone

theorem Tidy.puts (h : Tidy T) (hp : Puts T U) : Tidy U := by
  induction hp with
  | refl => exact h
  | tail _ hp ih =>
    obtain ⟨i, left, hp⟩ := hp
    exact ih.put hp

theorem CanUnlink.off_le {name : Name} (h : CanUnlink T dp name off i) : off ≤ (T dp).ents.length := by
  obtain ⟨e, he, -⟩ := lookup_some h.found
  exact Nat.le_of_lt (List.getElem?_eq_some_iff.1 he).1

theorem CanMake.ne {c : Config} {name : Name} (h : CanMake c T dp name i) : i ≠ dp := by
  rintro rfl
  have := h.dir
  rw [h.free] at this
  cases this

theorem CanLink.ne {name : Name} (h : CanLink T i dp name) : i ≠ dp := by
  rintro rfl
  exact h.file h.dir

theorem Tidy.dropped (h : Tidy T) (hoff : off ≤ (T dp).ents.length) : Tidy (T.dropped dp off i) := by
  unfold Tree.dropped
  split
  · exact (h.dropEnt hoff).link
  · exact h.dropEnt hoff

theorem Tidy.unlinked (h : Tidy T) (hoff : off ≤ (T dp).ents.length) : Tidy (T.unlinked dp off i) :=
  (h.dropped hoff).link

theorem Tidy.linked (h : Tidy T) (hc : CanLink T i dp name) : Tidy ((T.link i 1).addEnt dp name i) := by
  refine h.link.addEnt ?_ fun hd => absurd hd hc.ne
  rw [Tree.link, Function.update_of_ne hc.ne.symm]
  exact hc.unused

theorem Tree.Put.link (h : Tree.Put T dp left U) (hne : i ≠ dp) : Tree.Put (T.link i z) dp left (U.link i z) := by
  have hd : (T.link i z) dp = T dp := Function.update_of_ne hne.symm ..
  cases h with
  | kept h =>
    rw [h]
    exact .kept rfl
  | freed h ht hn hleft =>
    refine .freed ?_ (by rwa [hd]) (by rwa [hd]) hleft
    rw [hd, h, Tree.link, Tree.link, Function.update_of_ne hne, Function.update_comm hne]

theorem Tree.Put.puts (h : Tree.Put T i left U) : Puts T U := .single ⟨i, left, h⟩

/-- The name is gone with its entry. -/
theorem Tidy.lookup_dropEnt (h : Tidy T) (hl : lookup (T dp).ents name = some (off, i)) :
    lookup ((T.dropEnt dp off) dp).ents name = none := by
  obtain ⟨e, he, hi, hn, hc⟩ := lookup_some hl
  have hoff : off ≤ (T dp).ents.length := Nat.le_of_lt (List.getElem?_eq_some_iff.1 he).1
  rw [Tree.dropEnt, Function.update_self, lookup_none]
  intro a ha hna
  obtain ⟨k, hk⟩ := List.mem_iff_getElem?.1 ha
  rw [putEnt_getElem? hoff] at hk
  split at hk
  · obtain rfl := Option.some.inj hk
    exact absurd rfl hna
  · next hk' =>
    by_contra hca
    have : namecmp e.name a.name = true := by
      rw [namecmp_iff] at hc ⊢
      rw [← hc]
      exact namecmp_iff.1 (by simpa using hca)
    exact hk' ((h dp).unique hk he hna (hi ▸ hn) (by rwa [namecmp_comm]))

end

end Dirs
