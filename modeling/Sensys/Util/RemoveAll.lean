import Sensys.Orte.NodeList
import Sensys.Util.GroupTable
/-!
# Removing members from all groups

The loop goes through the slots and takes a group out of the table when it becomes empty. That
moves groups behind it back, and one that comes into the slot just freed is never looked at. Then
some group is still as it was when the loop ends. Either the first group that was moved has its
hash before the slot, and then it can only move further down (`Stuck`); or the groups that are
still to be cleaned are more than the entries that are still to come (`Short`).
-/
namespace Sensys.LogicalGroup
open Probing Orte List

/-- The group in slot `i` has no other members. -/
def Empties (t : GroupTable) (members : List String) (i : Nat) : Prop :=
  ∃ tag list, t.slot i = some (tag, some list) ∧ ∀ m ∈ list, m ∈ members

/-- Every group has all the members. -/
def AllHave (t : GroupTable) (members : List String) : Prop :=
  ∀ {p tag list}, t.slot p = some (tag, some list) → ∀ m ∈ members, m ∈ list

/-- What a group should be afterwards: it is gone if the last of its members is. -/
def remaining (members : List String) : Option (List String) → Option (Option (List String))
  | some [] => some (some [])
  | value => leftOver members value

/-- An error changes nothing; otherwise the members are gone from every group, the others are
there in order, and the groups that have none left are gone. -/
def RemovesEverywhere (t : GroupTable) (members : List String) (result : Rc × GroupTable) : Prop :=
  (result.1 ≠ .success ∧ result.1 ≠ .undefined ∧ result.2 = t) ∨
    (result.1 = .success ∧ ∀ tag,
    result.2.get hashKey tag = (t.get hashKey tag).bind (remaining members))

/-! ## One group after the other -/

variable {members : List String} {t : GroupTable} {j : Nat} {list : List String}
  {value : Option (List String)} {tag : String}
  {a b : String} {i : Nat} {q : Nat}

theorem leftOver_nodup (hnd : list.Nodup)
    (h : leftOver members (some list) = some value) : ∃ list, value = some list ∧ list.Nodup := by
  simp only [leftOver] at h
  split at h
  · cases h
  · cases h
    exact ⟨_, rfl, hnd.filter _⟩

section
variable {t : GroupTable} {tag : String}

theorem nextElt_eq_some {i p : Nat} (h : nextElt t i = some p) :
    i ≤ p ∧ p < t.capacity ∧ (t.slot p).isSome ∧ ∀ q, i ≤ q → q < p → t.slot q = none := by
  obtain ⟨hp, hmem, hno⟩ := find?_range'_eq_some.1 h
  obtain ⟨hle, hlt⟩ := mem_range'_1.1 hmem
  exact ⟨hle, by omega, hp, fun q hiq hqp => by simpa using hno q hiq hqp⟩

theorem nextElt_eq_none {i : Nat} (h : nextElt t i = none) : ∀ q, i ≤ q → t.slot q = none := by
  intro q hq
  by_contra hne
  obtain ⟨e, he⟩ := Option.ne_none_iff_exists'.1 hne
  have := Table.lt_of_slot he
  have := find?_eq_none.1 h q (mem_range'_1.2 ⟨hq, by omega⟩)
  simp [he] at this

theorem setValue_slot (h : t.Sound hashKey opalPolicy) {p : Nat} {old value : Option (List String)}
    (hp : t.slot p = some (tag, old)) : (setValue t tag value).2 = t.put p (some (tag, value)) := by
  simp [setValue, Table.set, h.find_of_slot hp, hp]

theorem removeValue_slot (h : t.Sound hashKey opalPolicy) {p : Nat}
    (hp : t.slot p = some (tag, value)) : Table.Removed hashKey t p (removeValue t tag).2 := by
  obtain ⟨t', ht'⟩ := h.toWF.removeAt hp
  have heq : (removeValue t tag).2 = t' := by
    simp [removeValue, Table.remove, h.find_of_slot hp, ht'.eq]
  rwa [heq]

variable {p : Nat} {tag : String} {list : List String}

/-- What taking the members out of the group in slot `p` does: it has a new value, or it is gone. -/
structure Taken (t : GroupTable) (p : Nat) (tag : String) (list members : List String)
    (t' : GroupTable) : Prop where
  usable : Usable t'
  get_eq : ∀ k, t'.get hashKey k = if k = tag then leftOver members (some list) else t.get hashKey k
  cases  : (∃ rest, list.filter (· ∉ members) = rest ∧ rest ≠ [] ∧
    t' = t.put p (some (tag, some rest))) ∨
    (∀ m ∈ list, m ∈ members) ∧ Table.Removed hashKey t p t'

theorem Usable.removeMembers (h : Usable t) (hp : t.slot p = some (tag, some list))
    (members : List String) :
    ∃ t', removeMembers tag list members t = (.success, t') ∧ Taken t p tag list members t' := by
  obtain ⟨_, hval, hnd⟩ := h.lists hp
  cases hval
  obtain ⟨hrc, hso, hget⟩ := removeMembers_eq h.toSound hnd (h.get_eq_some_iff.2 ⟨p, hp⟩) members
  refine ⟨_, Prod.ext hrc rfl, ⟨hso, fun {q tag' value} hq => ?_⟩, hget, ?_⟩
  · have hval := hso.get_eq_some_iff.2 ⟨q, hq⟩
    rw [hget] at hval
    split at hval
    · exact leftOver_nodup hnd hval
    · obtain ⟨r, hr⟩ := h.get_eq_some_iff.1 hval
      exact h.lists hr
  · simp only [LogicalGroup.removeMembers, ← diff_eq_foldl, hnd.sdiff_eq_filter]
    cases hre : list.filter (· ∉ members) with
    | nil => exact Or.inr ⟨by simpa using filter_eq_nil_iff.1 hre, removeValue_slot h.toSound hp⟩
    | cons m rest => exact Or.inl ⟨_, rfl, by simp, setValue_slot h.toSound hp⟩

end

/-! ## Without a move -/

/-- Up to slot `i` all groups are done, and from there on the table is as it was. -/
structure UpTo (t0 : GroupTable) (members : List String) (i : Nat) (t : GroupTable) : Prop where
  sound  : t.Sound hashKey opalPolicy
  capacity_eq : t.capacity = t0.capacity
  behind : ∀ q, i ≤ q → t.slot q = t0.slot q
  done   : ∀ {q tag value}, t0.slot q = some (tag, value) → q < i →
    t.get hashKey tag = leftOver members value
  absent : ∀ {tag}, t0.get hashKey tag = none → t.get hashKey tag = none

section
variable {t0 t t' : GroupTable} {members : List String} {i p : Nat}

theorem crosses_congr (hcap : t.capacity = t0.capacity) (hbe : ∀ q, p < q → t.slot q = t0.slot q)
    {j : Nat} :
    Table.Crosses hashKey t p j ↔ Table.Crosses hashKey t0 p j := by
  unfold Table.Crosses Table.home
  rw [hcap]
  exact and_congr_right fun hj => by rw [hbe j hj]

theorem UpTo.start (h : Usable t0) : UpTo t0 members 0 t0 where
  sound := h.toSound
  capacity_eq := rfl
  behind _ _ := rfl
  done _ hq := absurd hq (Nat.not_lt_zero _)
  absent h := h

theorem UpTo.skip (h : UpTo t0 members i t) (hip : i ≤ p)
    (hno : ∀ q, i ≤ q → q < p → t.slot q = none) :
    UpTo t0 members p t := by
  refine ⟨h.sound, h.capacity_eq, fun q hq => h.behind q (by omega),
    fun {q tag value} hq hlt => ?_, h.absent⟩
  by_cases hqi : q < i
  · exact h.done hq hqi
  · rw [← h.behind q (by omega), hno q (by omega) hlt] at hq
    cases hq

theorem UpTo.usable (h0 : Usable t0) (h : UpTo t0 members i t) : Usable t := by
  refine ⟨h.sound, fun {q tag value} hq => ?_⟩
  have hget := h.sound.get_eq_some_iff.2 ⟨q, hq⟩
  cases hold : t0.get hashKey tag with
  | none => simp [h.absent hold] at hget
  | some old =>
    obtain ⟨r, hr⟩ := h0.get_eq_some_iff.1 hold
    obtain ⟨list, rfl, hnd⟩ := h0.lists hr
    by_cases hri : r < i
    · rw [h.done hr hri] at hget
      exact leftOver_nodup hnd hget
    · rw [← h.behind r (by omega)] at hr
      rw [h.sound.get_eq_some_iff.2 ⟨r, hr⟩] at hget
      cases hget
      exact ⟨list, rfl, hnd⟩

/-- One group that is not emptied, or none behind it is on a walk that comes by. -/
theorem UpTo.step (h0 : Usable t0) (h : UpTo t0 members p t) {tag : String}
    (hp : t.slot p = some (tag, some list)) (ht : Taken t p tag list members t')
    (hno : Empties t0 members p → ∀ j, ¬ Table.Crosses hashKey t0 p j) :
    UpTo t0 members (p + 1) t' := by
  have hp0 : t0.slot p = some (tag, some list) := by rw [← h.behind p (Nat.le_refl _), hp]
  have hus := h.usable h0
  have hget := ht.get_eq
  have hla : t'.capacity = t.capacity ∧ ∀ q, p < q → t'.slot q = t.slot q := by
    rcases ht.cases with ⟨rest, -, -, heq⟩ | ⟨hsub, hat⟩
    · rw [heq]
      refine ⟨Table.capacity_put _ _ _, fun q hq => ?_⟩
      rw [Table.slot_put t (Table.lt_of_slot hp), if_neg (by omega)]
    · refine ⟨hat.capacity_eq, hat.behind hus.toWF hp fun j hj => ?_⟩
      exact hno ⟨tag, list, hp0, hsub⟩ j
        ((crosses_congr h.capacity_eq fun q hq => h.behind q (by omega)).1 hj)
  refine ⟨ht.usable.toSound, hla.1.trans h.capacity_eq, fun q hq => ?_,
    fun {q tag' value} hq hlt => ?_, fun {tag'} habs => ?_⟩
  · rw [hla.2 q (by omega), h.behind q (by omega)]
  · rw [hget]
    split
    · rename_i htag'
      subst htag'
      rw [h0.distinct hq hp0, hp0] at hq
      cases hq
      rfl
    · refine h.done hq (Nat.lt_of_le_of_ne (by omega) ?_)
      rintro rfl
      rw [hp0] at hq
      cases hq
      contradiction
  · rw [hget, if_neg, h.absent habs]
    rintro rfl
    rw [h0.get_eq_some_iff.2 ⟨p, hp0⟩] at habs
    cases habs

end

/-! ## With a move -/

/-- A group that has one of the members. -/
def dirty (members : List String) : Option (String × Option (List String)) → Bool
  | some (_, some list) => ∃ m ∈ members, m ∈ list
  | _ => false

/-- The entries from slot `i` on. -/
def toCome (t : GroupTable) (i : Nat) : Nat :=
  (List.range t.capacity).countP fun p => i ≤ p ∧ (t.slot p).isSome

/-- Fewer entries are to come than groups are to be cleaned. -/
def Short (members : List String) (i : Nat) (t : GroupTable) : Prop :=
  toCome t i < t.slots.countP (dirty members)

/-- A group that is not clean has been passed over, and its hash is before it. -/
def Stuck (members : List String) (i : Nat) (t : GroupTable) : Prop :=
  ∃ p e, p < i ∧ t.slot p = some e ∧ dirty members (some e) = true ∧ t.home hashKey e.1 ≤ p

theorem slots_eq_map (t : GroupTable) : t.slots = (List.range t.capacity).map t.slot := by
  refine ext_getElem? fun i => ?_
  by_cases hi : i < t.capacity
  · rw [Table.getElem?_eq_slot hi, getElem?_map, getElem?_range hi]
    rfl
  · rw [getElem?_eq_none (Nat.le_of_not_lt hi),
      getElem?_eq_none (by simpa using Nat.le_of_not_lt hi)]

section
variable {t t' : GroupTable} {members : List String} {i p : Nat}

theorem toCome_le (hcap : t'.capacity = t.capacity)
    (h : ∀ q, (t'.slot q).isSome → (t.slot q).isSome) :
    toCome t' i ≤ toCome t i := by
  unfold toCome
  rw [hcap]
  refine countP_mono_left fun q _ hq => ?_
  simp only [Bool.decide_and, Bool.and_eq_true, decide_eq_true_eq] at hq ⊢
  exact ⟨hq.1, h q hq.2⟩

theorem toCome_lt {j : Nat} (hcap : t'.capacity = t.capacity) (hij : i ≤ j)
    (h : ∀ q, (t'.slot q).isSome → (t.slot q).isSome) (hip : i ≤ p) (hold : (t.slot p).isSome)
    (hnew : j ≤ p → t'.slot p = none) : toCome t' j < toCome t i := by
  obtain ⟨e, he⟩ := Option.isSome_iff_exists.1 hold
  unfold toCome
  rw [hcap]
  refine Lists.countP_lt_countP (fun q _ hq => ?_) (mem_range.2 (Table.lt_of_slot he)) ?_ ?_
  · simp only [Bool.decide_and, Bool.and_eq_true, decide_eq_true_eq] at hq ⊢
    exact ⟨by omega, h q hq.2⟩
  · simp [hip, hold]
  · simpa using hnew

theorem toCome_next (hip : i ≤ p) (hp : (t.slot p).isSome) : toCome t (p + 1) + 1 ≤ toCome t i :=
  toCome_lt rfl (by omega) (fun _ => id) hip hp fun hle => absurd hle (by omega)

variable {tag : String} {list : List String}

theorem countP_dirty_set {x : Option (String × Option (List String))} (hlt : p < t.capacity) :
    t.slots.countP (dirty members) ≤ (t.slots.set p x).countP (dirty members) + 1 := by
  rw [countP_set hlt]
  split <;> omega

/-- One slot is changed, and then the other groups stay, in their slots or further down on their
walks. -/
theorem Taken.slots (ht : Taken t p tag list members t') (h : Usable t)
    (hp : t.slot p = some (tag, some list)) :
    t'.capacity = t.capacity ∧ (∀ q, (t'.slot q).isSome → (t.slot q).isSome) ∧
      (∃ x, t'.slots.Perm (t.slots.set p x)) ∧
      ∀ s e, s ≠ p → t.slot s = some e →
      ∃ s', t'.slot s' = some e ∧ (s' = s ∨ OnPath (t.home hashKey e.1) s' s) := by
  have hlt := Table.lt_of_slot hp
  rcases ht.cases with ⟨rest, -, -, heq⟩ | ⟨-, heq⟩
  · rw [heq]
    refine ⟨Table.capacity_put _ _ _, fun q hq => ?_, ⟨_, .refl _⟩,
      fun s e hs he => ⟨s, ?_, Or.inl rfl⟩⟩
    · rw [Table.slot_put t hlt] at hq
      split at hq
      · rename_i hpq
        rw [← hpq, hp]
        rfl
      · exact hq
    · rw [Table.slot_put t hlt, if_neg hs.symm, he]
  · refine ⟨heq.capacity_eq, heq.occupied, ⟨_, heq.perm⟩, fun s e hs he => ?_⟩
    have hmem : some e ∈ t'.slots := by
      rw [heq.perm.mem_iff, show t.slots.set p none = (t.put p none).slots from rfl,
        Table.mem_slots_iff]
      exact ⟨s, by rw [Table.slot_put t hlt, if_neg hs.symm, he]⟩
    obtain ⟨s', hs'⟩ := Table.mem_slots_iff.1 hmem
    obtain ⟨p0, hp0, hpa⟩ := heq.moved hs'
    obtain rfl : p0 = s := h.distinct (k := e.1) (v := e.2) (w := e.2) hp0 he
    exact ⟨s', hs', hpa⟩

section
variable (ht : Taken t p tag list members t') (h : Usable t) (hip : i ≤ p)
  (hp : t.slot p = some (tag, some list))
include ht h hip hp

theorem Short.step (hshort : Short members i t) : Short members (p + 1) t' := by
  obtain ⟨hcap, ho, ⟨x, hpe⟩, -⟩ := ht.slots h hp
  have hnext : toCome t (p + 1) + 1 ≤ toCome t i := toCome_next hip (by simp [hp])
  have hcom := toCome_le (i := p + 1) hcap ho
  have hco := @countP_dirty_set t members p x (Table.lt_of_slot hp)
  unfold Short at *
  rw [hpe.countP_eq]
  omega

theorem Stuck.step (hst : Stuck members i t) : Stuck members (p + 1) t' := by
  obtain ⟨s, e, hs, he, hdi, hh⟩ := hst
  obtain ⟨hcap, -, -, hsta⟩ := ht.slots h hp
  obtain ⟨s', hs', hpa⟩ := hsta s e (by omega) he
  have hle : t.home hashKey e.1 ≤ s' ∧ s' ≤ s := by
    unfold OnPath at hpa
    omega
  refine ⟨s', e, by omega, hs', hdi, ?_⟩
  rw [Table.home, hcap]
  exact hle.1

end

/-- **The loop**: what holds at its start and after each group holds when it comes to the end of
the table. -/
theorem removeLoop_rule {P : Nat → GroupTable → Prop} {Q : Rc × GroupTable → Prop}
    (hend : ∀ {i t}, Usable t → P i t → (∀ q, i ≤ q → t.slot q = none) → Q (.success, t))
    (hst : ∀ {i p t tag list t'}, Usable t → P i t → i ≤ p →
      (∀ q, i ≤ q → q < p → t.slot q = none) →
      t.slot p = some (tag, some list) → Taken t p tag list members t' → P (p + 1) t')
    (h : Usable t) (hP : P i t) {fuel : Nat} (hf : t.capacity - i < fuel) :
    Q (removeLoop members fuel i t) := by
  induction fuel generalizing i t with
  | zero => omega
  | succ fuel ih =>
    unfold removeLoop
    cases hnext : nextElt t i with
    | none => exact hend h hP (nextElt_eq_none hnext)
    | some p =>
      obtain ⟨hip, hpl, hso, hno⟩ := nextElt_eq_some hnext
      obtain ⟨⟨tag, value⟩, hp⟩ := Option.isSome_iff_exists.1 hso
      obtain ⟨list, rfl, -⟩ := h.lists hp
      obtain ⟨t', heq, ht⟩ := h.removeMembers hp members
      have hcap := (ht.slots h hp).1
      simp only [hp, heq]
      exact ih ht.usable (hst h hP hip hno hp ht) (by omega)

/-- A group that is not clean is left at the end. -/
theorem exists_dirty (hl : Short members i t ∨ Stuck members i t) :
    ∃ q e, t.slot q = some e ∧ dirty members (some e) = true := by
  rcases hl with hshort | ⟨q, e, -, he, hdi, -⟩
  · obtain ⟨x, hx, hdi⟩ := countP_pos_iff.1 (Nat.lt_of_le_of_lt (Nat.zero_le _) hshort)
    cases x with
    | none => cases hdi
    | some e =>
      obtain ⟨q, hq⟩ := Table.mem_slots_iff.1 hx
      exact ⟨q, e, hq, hdi⟩
  · exact ⟨q, e, he, hdi⟩

end

/-! ## The whole loop -/

section
variable {t0 t t' : GroupTable} {members : List String} {i p : Nat} (h0 : Usable t0)
include h0

/-- Without a group that is moved into a slot just freed, every group is done. -/
theorem removeLoop_undisturbed
    (hno : ∀ q, Empties t0 members q → ∀ j, ¬ Table.Crosses hashKey t0 q j) :
    (removeLoop members (t0.capacity + 1) 0 t0).1 = .success ∧
      UpTo t0 members t0.capacity (removeLoop members (t0.capacity + 1) 0 t0).2 := by
  refine removeLoop_rule (P := fun i t => UpTo t0 members i t ∧ i ≤ t0.capacity)
    (Q := fun r => r.1 = .success ∧ UpTo t0 members t0.capacity r.2) ?_ ?_ h0
      ⟨UpTo.start h0, Nat.zero_le _⟩ (by omega)
  · rintro i t - ⟨h, hi⟩ hnon
    exact ⟨rfl, h.skip hi fun q hq _ => hnon q hq⟩
  · rintro i p t tag list t' - ⟨h, -⟩ hip hnon hp ht
    have hlt := Table.lt_of_slot hp
    have hcap := h.capacity_eq
    exact ⟨(h.skip hip hnon).step h0 hp ht (hno p), by omega⟩

/-- The first group that becomes empty on the way to another one. -/
theorem UpTo.lost (hne : members ≠ []) (hall : AllHave t0 members) (h : UpTo t0 members p t)
    {tag : String} (hp : t.slot p = some (tag, some list)) (ht : Taken t p tag list members t')
    (hem : Empties t0 members p) {j : Nat}
    (hj : Table.Crosses hashKey t0 p j) : Short members (p + 1) t' ∨ Stuck members (p + 1) t' := by
  have hus := h.usable h0
  have hlt := Table.lt_of_slot hp
  have hp0 : t0.slot p = some (tag, some list) := by rw [← h.behind p (Nat.le_refl _), hp]
  have hsub : ∀ m ∈ list, m ∈ members := by
    obtain ⟨tag', list', h', hsub⟩ := hem
    rw [hp0] at h'
    cases h'
    exact hsub
  obtain ⟨m, hmem⟩ := exists_mem_of_ne_nil _ hne
  -- from `p` on every group has the members
  have hdi : ∀ {q e}, p ≤ q → t.slot q = some e → dirty members (some e) = true := by
    intro q e hq he
    rw [h.behind q hq] at he
    obtain ⟨l, hval, -⟩ := @Usable.lists _ h0 q e.1 e.2 he
    obtain ⟨tag', value'⟩ := e
    subst hval
    simpa [dirty] using ⟨m, hmem, hall he m hmem⟩
  have hat : Table.Removed hashKey t p t' := by
    rcases ht.cases with ⟨rest, hre, hrne, -⟩ | ⟨-, hat⟩
    · refine absurd (hre ▸ filter_eq_nil_iff.2 fun x hx => ?_) hrne
      simpa using hsub x hx
    · exact hat
  have hcr : Table.Crosses hashKey t p j :=
    (crosses_congr h.capacity_eq fun q hq => h.behind q (by omega)).2 hj
  obtain ⟨k, e', hpk, hk, hm, hca⟩ := hat.crossing hus.toWF hp hcr
  rcases hca with hh | ⟨g, hpg, hold, hnew⟩
  · refine Or.inr ⟨p, e', by omega, hm, hdi (by omega) hk, ?_⟩
    rw [Table.home, hat.capacity_eq]
    exact hh
  · have hl : toCome t' (p + 1) < toCome t (p + 1) :=
      toCome_lt hat.capacity_eq (Nat.le_refl _) hat.occupied (by omega) hold fun _ => hnew
    have hnext : toCome t (p + 1) + 1 ≤ toCome t p := toCome_next (Nat.le_refl _) (by simp [hp])
    have hco := @countP_dirty_set t members p none hlt
    have hcom : toCome t p ≤ t.slots.countP (dirty members) := by
      rw [slots_eq_map, countP_map]
      refine countP_mono_left fun q _ hq => ?_
      simp only [Bool.decide_and, Bool.and_eq_true, decide_eq_true_eq] at hq
      obtain ⟨e, he⟩ := Option.isSome_iff_exists.1 hq.2
      simpa [he] using hdi hq.1 he
    unfold Short
    rw [hat.perm.countP_eq]
    omega

/-- With such a group, some group keeps the members. -/
theorem removeLoop_disturbed (hne : members ≠ []) (hall : AllHave t0 members) {q j : Nat}
    (hem : Empties t0 members q) (hj : Table.Crosses hashKey t0 q j) :
    (removeLoop members (t0.capacity + 1) 0 t0).1 = .success ∧
      Usable (removeLoop members (t0.capacity + 1) 0 t0).2 ∧
      ∃ r e, (removeLoop members (t0.capacity + 1) 0 t0).2.slot r = some e ∧
      dirty members (some e) = true := by
  -- the slot `q` is still to come, or a group is lost already
  refine removeLoop_rule (P := fun i t => (UpTo t0 members i t ∧ i ≤ q) ∨ Short members i t ∨
    Stuck members i t)
    (Q := fun r => r.1 = .success ∧ Usable r.2 ∧ ∃ s e, r.2.slot s = some e ∧
      dirty members (some e) = true)
    ?_ ?_ h0 (Or.inl ⟨UpTo.start h0, Nat.zero_le _⟩) (by omega)
  · rintro i t hus (⟨h, hiq⟩ | hl) hnon
    · obtain ⟨tag, list, hq, -⟩ := hem
      rw [← h.behind q hiq, hnon q hiq] at hq
      cases hq
    · exact ⟨rfl, hus, exists_dirty hl⟩
  · rintro i p t tag list t' hus (⟨h, hiq⟩ | hl) hip hnon hp ht
    · have hup := h.skip hip hnon
      have hpq : p ≤ q := by
        by_contra hlt
        obtain ⟨tag, list, hq, -⟩ := hem
        rw [← h.behind q hiq, hnon q hiq (by omega)] at hq
        cases hq
      by_cases hh : Empties t0 members p ∧ ∃ j, Table.Crosses hashKey t0 p j
      · obtain ⟨hem', j', hj'⟩ := hh
        exact Or.inr (hup.lost h0 hne hall hp ht hem' hj')
      · have hno : Empties t0 members p → ∀ j, ¬ Table.Crosses hashKey t0 p j :=
          fun he j hj => hh ⟨he, j, hj⟩
        have hpne : p ≠ q := by
          rintro rfl
          exact hno hem j hj
        exact Or.inl ⟨hup.step h0 hp ht hno, by omega⟩
    · exact Or.inr (hl.imp (Short.step ht hus hip hp) (Stuck.step ht hus hip hp))

end

theorem Usable.exists_list (h : Usable t) (tag : String) (value : Option (List String))
    (hmem : some (tag, value) ∈ t.slots) :
    ∃ list, value = some list := by
  obtain ⟨p, hp⟩ := Table.mem_slots_iff.1 hmem
  obtain ⟨list, hval, -⟩ := h.lists hp
  exact ⟨list, hval⟩

/-- Either every group has the members, or the answer is that a node does not exist. -/
theorem allMembersExist_cases (members : List String)
    {slots : List (Option (String × Option (List String)))}
    (hl : ∀ tag value, some (tag, value) ∈ slots → ∃ list, value = some list) :
    (allMembersExist members slots = .success ∧ ∀ tag list, some (tag, some list) ∈ slots →
      ∀ m ∈ members, m ∈ list) ∨
      (allMembersExist members slots = .nodeNotExist ∧
        ∃ tag list, some (tag, some list) ∈ slots ∧ ¬ ∀ m ∈ members, m ∈ list) := by
  induction slots with
  | nil => exact Or.inl ⟨rfl, fun _ _ h => by cases h⟩
  | cons x slots ih =>
    have ih := ih fun tag value h => hl tag value (mem_cons_of_mem _ h)
    match x with
    | none => simpa [allMembersExist] using ih
    | some (tag, none) =>
      obtain ⟨_, h⟩ := hl tag none mem_cons_self
      cases h
    | some (tag, some list) =>
      by_cases hli : ∀ m ∈ members, m ∈ list
      · rw [allMembersExist, if_pos hli]
        refine ih.imp (And.imp_right fun hre tag' list' h => ?_) (And.imp_right ?_)
        · rcases mem_cons.1 h with h | h
          · cases h
            exact hli
          · exact hre tag' list' h
        · rintro ⟨tag', list', h, hnot⟩
          exact ⟨tag', list', mem_cons_of_mem _ h, hnot⟩
      · rw [allMembersExist, if_neg hli]
        exact Or.inr ⟨rfl, tag, list, mem_cons_self, hli⟩

/-! ## Groups without members -/

/-- Nothing is taken out of any group, but the first one without members is taken out of the
table. -/
theorem removeLoop_empty (h : Usable t) (hq : t.slot q = some (tag, some [])) :
    ∃ tag, t.get hashKey tag = some (some []) ∧
      (removeLoop [] (t.capacity + 1) 0 t).2.get hashKey tag = none := by
  -- the table is as it was, or the group is gone and does not come back
  refine removeLoop_rule (P := fun i s => (s = t ∧ i ≤ q) ∨
    ∃ tag, t.get hashKey tag = some (some []) ∧ s.get hashKey tag = none)
    (Q := fun r => ∃ tag, t.get hashKey tag = some (some []) ∧ r.2.get hashKey tag = none)
    ?_ ?_ h (Or.inl ⟨rfl, Nat.zero_le _⟩) (by omega)
  · rintro i s - (⟨rfl, hiq⟩ | hg) hno
    · rw [hno q hiq] at hq
      cases hq
    · exact hg
  · rintro i p s tag' list s' hus (⟨rfl, hiq⟩ | ⟨gone, hold, hno'⟩) hip hno hp ht
    · cases list with
      | nil =>
        refine Or.inr ⟨tag', hus.get_eq_some_iff.2 ⟨p, hp⟩, ?_⟩
        rw [ht.get_eq, if_pos rfl]
        rfl
      | cons m list =>
        have hsa : s' = s := by
          rcases ht.cases with ⟨rest, hre, -, rfl⟩ | ⟨hsub, -⟩
          · obtain rfl : m :: list = rest := by simpa using hre
            exact Table.put_slot hp
          · exact absurd (hsub m mem_cons_self) not_mem_nil
        have hpne : p ≠ q := by
          rintro rfl
          simp [hp] at hq
        have hle : ¬ q < p := fun hlt => by simp [hno q hiq hlt] at hq
        exact Or.inl ⟨hsa, by omega⟩
    · refine Or.inr ⟨gone, hold, ?_⟩
      rw [ht.get_eq, if_neg, hno']
      rintro rfl
      rw [hus.get_eq_some_iff.2 ⟨p, hp⟩] at hno'
      cases hno'

theorem remaining_of_ne (hne : list ≠ []) :
    remaining members (some list) = leftOver members (some list) := by
  cases list with
  | nil => exact absurd rfl hne
  | cons m list => rfl

/-- A group that still has one of the members is not as it should be. -/
theorem not_dirty_remaining (hne : list ≠ []) (h : remaining members (some list) = some value) :
    dirty members (some (tag, value)) = false := by
  rw [remaining_of_ne hne] at h
  simp only [leftOver] at h
  split at h
  · cases h
  · cases h
    simp only [dirty, decide_eq_false_iff_not, not_exists, not_and]
    exact fun m hm hmem => by simpa [hm] using of_mem_filter hmem

theorem removeAllTags_undisturbed (h : Proper t)
    (hno : ∀ q, Empties t members q → ∀ j, ¬ Table.Crosses hashKey t q j) :
    RemovesEverywhere t members (removeLoop members (t.capacity + 1) 0 t) := by
  obtain ⟨hrc, hup⟩ := removeLoop_undisturbed h.usable hno
  refine Or.inr ⟨hrc, fun tag => ?_⟩
  cases hget : t.get hashKey tag with
  | none => exact hup.absent hget
  | some value =>
    obtain ⟨q, hq⟩ := h.get_eq_some_iff.1 hget
    obtain ⟨list, rfl, hne, -⟩ := h.groups hq
    rw [hup.done hq (Table.lt_of_slot hq)]
    exact (remaining_of_ne hne).symm

theorem removeAllTags_disturbed (h : Proper t) (hne : members ≠ [])
    (hall : AllHave t members) (hem : Empties t members q) (hj : Table.Crosses hashKey t q j) :
    ¬ RemovesEverywhere t members (removeLoop members (t.capacity + 1) 0 t) := by
  obtain ⟨hrc, hus, r, ⟨tag, value⟩, hr, hdi⟩ := removeLoop_disturbed h.usable hne hall hem hj
  rintro (⟨hrc', -⟩ | ⟨-, hget⟩)
  · exact hrc' hrc
  · have hr' := (hget tag).symm.trans (hus.get_eq_some_iff.2 ⟨r, hr⟩)
    obtain ⟨old, hold, hrem⟩ := Option.bind_eq_some_iff.1 hr'
    obtain ⟨q, hq⟩ := h.get_eq_some_iff.1 hold
    obtain ⟨list, rfl, hl, -⟩ := h.groups hq
    rw [not_dirty_remaining hl hrem] at hdi
    cases hdi

theorem removeAllTags_empty (h : Usable t)
    (hq : t.slot q = some (tag, some [])) :
    ¬ RemovesEverywhere t [] (removeLoop [] (t.capacity + 1) 0 t) := by
  obtain ⟨tag', hold, hnew⟩ := removeLoop_empty h hq
  rintro (⟨-, -, hsa⟩ | ⟨-, hget⟩)
  · rw [hsa, hold] at hnew
    cases hnew
  · rw [hget, hold] at hnew
    cases hnew

theorem remove_all_cases {L : Libc} {regex : String} (h : Usable t)
    (hsi : t.size ≠ 0) (hre : regex ≠ "*") (hna : extractNames L regex = .ok members) :
    (AllHave t members ∧ remove L "*" regex t = removeLoop members (t.capacity + 1) 0 t) ∨
      (¬ AllHave t members ∧ remove L "*" regex t = (.nodeNotExist, t)) := by
  rw [remove, if_neg hsi, if_neg hre, hna]
  simp only [removeInternal, if_true, removeAllTags]
  rcases allMembersExist_cases members h.exists_list with ⟨hex, hall⟩ | ⟨hex, tag, list, hmem, hnot⟩
  · rw [hex]
    exact Or.inl ⟨fun {p tag list} hp => hall tag list (Table.mem_slots_iff.2 ⟨p, hp⟩), rfl⟩
  · rw [hex]
    refine Or.inr ⟨fun hall => ?_, rfl⟩
    obtain ⟨p, hp⟩ := Table.mem_slots_iff.1 hmem
    exact hnot (hall hp)

/-- When removing members from all groups does what it should: if the request is not refused, no
group is empty before it, and none that becomes empty is on the way to a group behind it. -/
theorem remove_all_iff {L : Libc} {t : GroupTable} {regex : String} {members : List String}
    (h : Usable t) (hregex : regex ≠ "*") (hnames : extractNames L regex = .ok members) :
    RemovesEverywhere t members (remove L "*" regex t) ↔
      (AllHave t members → ∀ i, (∀ tag, t.slot i ≠ some (tag, some [])) ∧
        (Empties t members i → ∀ j, ¬ Table.Crosses hashKey t i j)) := by
  by_cases hsi : t.size = 0
  · have hno := h.slot_eq_none hsi
    rw [remove, if_pos hsi]
    refine iff_of_true (Or.inl ⟨by simp, by simp, rfl⟩) fun _ i => ⟨fun tag => by simp [hno], ?_⟩
    rintro ⟨tag, list, hi, -⟩
    simp [hno] at hi
  · rcases remove_all_cases h hsi hregex hnames with ⟨hall, heq⟩ | ⟨hnot, heq⟩
    · rw [heq]
      by_cases hpr : ∀ p tag, t.slot p ≠ some (tag, some [])
      · have hp := h.proper hpr
        constructor
        · refine fun hok _ i => ⟨hpr i, fun hem j hj => ?_⟩
          have hne : members ≠ [] := by
            obtain ⟨tag, list, hi, hsub⟩ := hem
            rintro rfl
            cases list with
            | nil => exact hpr i tag hi
            | cons m list => exact absurd (hsub m mem_cons_self) not_mem_nil
          exact removeAllTags_disturbed hp hne hall hem hj hok
        · exact fun hco => removeAllTags_undisturbed hp fun q => (hco hall q).2
      · -- a group without members has all of them only if there are none
        push Not at hpr
        obtain ⟨p, tag, hp⟩ := hpr
        have hnil : members = [] :=
          eq_nil_iff_forall_not_mem.2 fun m hm => not_mem_nil (hall hp m hm)
        subst hnil
        exact iff_of_false (removeAllTags_empty h hp) fun hco => (hco hall p).1 tag hp
    · rw [heq]
      exact iff_of_true (Or.inl ⟨by simp, by simp, rfl⟩) fun hall => (hnot @hall).elim

/-! ## Two groups with one member -/

def samplePair (L : Libc) (a b : String) : GroupTable := (add L b "x" (add L a "x" init).2).2

theorem extractNames_x (L : Libc) : extractNames L "x" = .ok ["x"] := by
  rfl

theorem samplePair_proper (L : Libc) (a b : String) : Proper (samplePair L a b) :=
  (proper_init.add (extractNames_x L) (by simp)).add (extractNames_x L) (by simp)

/-- The first group comes into slot `i`, the second one into slot `j`. -/
structure Laid (a b : String) (i j : Nat) : Prop where
  home  : hashKey a % 2011 = i
  lt    : j < 2011
  ne    : i ≠ j
  apart : a ≠ b
  path  : ∀ p, OnPath (hashKey b % 2011) p j → i = p

theorem Laid.eq (h : Laid a b i j) (L : Libc) :
    samplePair L a b = (init.enter i (a, some ["x"])).enter j (b, some ["x"]) := by
  have hcap : init.capacity = 2011 := length_replicate
  have hi := h.home
  have hilt : i < 2011 := by omega
  have hf : add L a "x" init = (.success, init.enter i (a, some ["x"])) := by
    refine add_new (extractNames_x L)
      (Table.find_free (by rw [hcap]; decide) (by rw [hcap]; exact hilt) (init_slot _) ?_)
      (init_slot _) (by rw [hcap]; decide)
    intro p _ hp
    rw [Table.home, hcap, hi] at hp
    exact absurd hp (onPath_self _ _)
  have hcap' : (init.enter i (a, some ["x"])).capacity = 2011 := by rw [Table.capacity_enter, hcap]
  have hno : (init.enter i (a, some ["x"])).slot j = none := by
    rw [Table.slot_enter _ (by rw [hcap]; exact hilt), if_neg h.ne, init_slot]
  rw [samplePair, hf]
  refine congrArg Prod.snd (add_new (extractNames_x L) (Table.find_free (by rw [hcap']; decide)
    (by rw [hcap']; exact h.lt) hno ?_) hno
    (by rw [hcap']; show 2 < opalPolicy.trigger 2011; decide))
  intro p _ hp
  rw [Table.home, hcap'] at hp
  exact ⟨(a, some ["x"]),
    by rw [Table.slot_enter _ (by rw [hcap]; exact hilt), if_pos (h.path p hp)], h.apart⟩

theorem Laid.capacity (h : Laid a b i j) (L : Libc) : (samplePair L a b).capacity = 2011 := by
  rw [h.eq, Table.capacity_enter, Table.capacity_enter]
  exact length_replicate

theorem Laid.slot (h : Laid a b i j) (L : Libc) (p : Nat) :
    (samplePair L a b).slot p =
      if j = p then some (b, some ["x"]) else if i = p then some (a, some ["x"]) else none := by
  have hcap : init.capacity = 2011 := length_replicate
  have hi := h.home
  rw [h.eq, Table.slot_enter _ (by rw [Table.capacity_enter, hcap]; exact h.lt),
    Table.slot_enter _ (by rw [hcap]; omega), init_slot]

/-- Both are in the slot of their hash, and both are removed. -/
theorem remove_all_iff_apart :
    RemovesEverywhere (samplePair sampleLibc "group38" "group39") ["x"]
      (remove sampleLibc "*" "x" (samplePair sampleLibc "group38" "group39")) := by
  have ha : hashKey "group38" % 2011 = 718 := by decide +kernel
  have hb : hashKey "group39" % 2011 = 749 := by decide +kernel
  have hl : Laid "group38" "group39" 718 749 :=
    ⟨ha, by decide, by decide, by decide, fun p hp => absurd (hb ▸ hp) (onPath_self _ _)⟩
  have hpr := samplePair_proper sampleLibc "group38" "group39"
  refine (remove_all_iff hpr.usable (by decide) (extractNames_x _)).2 fun _ i =>
    ⟨fun tag hi => ?_, ?_⟩
  · obtain ⟨list, hval, hne, -⟩ := hpr.groups hi
    cases hval
    exact hne rfl
  · rintro - j ⟨-, e, he, hon⟩
    rw [Table.home, hl.capacity] at hon
    rw [hl.slot] at he
    split at he
    · cases he
      subst j
      exact onPath_self _ _ hon
    · split at he
      · cases he
        subst j
        exact onPath_self _ _ hon
      · cases he

/-- The second group is in the slot behind that of their hash. When the first one is gone it is
moved there, and keeps its member. -/
theorem second_group_kept :
    ¬ RemovesEverywhere (samplePair sampleLibc "group38" "group100") ["x"]
      (remove sampleLibc "*" "x" (samplePair sampleLibc "group38" "group100")) := by
  have ha : hashKey "group38" % 2011 = 718 := by decide +kernel
  have hb : hashKey "group100" % 2011 = 718 := by decide +kernel
  have hl : Laid "group38" "group100" 718 719 := by
    refine ⟨ha, by decide, by decide, by decide, fun p hp => ?_⟩
    unfold OnPath at hp
    omega
  have hpr := samplePair_proper sampleLibc "group38" "group100"
  have hall : AllHave (samplePair sampleLibc "group38" "group100") ["x"] := by
    intro p tag list hp
    rw [hl.slot] at hp
    split at hp
    · cases hp
      exact fun m hm => hm
    · split at hp
      · cases hp
        exact fun m hm => hm
      · cases hp
  have hem : Empties (samplePair sampleLibc "group38" "group100") ["x"] 718 :=
    ⟨"group38", ["x"], by rw [hl.slot]; rfl, fun m hm => hm⟩
  have hcr : Table.Crosses hashKey (samplePair sampleLibc "group38" "group100") 718 719 := by
    refine ⟨by decide, ("group100", some ["x"]), by rw [hl.slot]; rfl, ?_⟩
    rw [Table.home, hl.capacity, hb]
    decide
  have hsi : (samplePair sampleLibc "group38" "group100").size ≠ 0 := by
    rw [hl.eq]
    exact Nat.succ_ne_zero _
  rcases remove_all_cases hpr.usable hsi (by decide) (extractNames_x _) with ⟨-, heq⟩ | ⟨hnot, -⟩
  · rw [heq]
    exact removeAllTags_disturbed hpr (by decide) hall hem hcr
  · exact (hnot @hall).elim

end Sensys.LogicalGroup
