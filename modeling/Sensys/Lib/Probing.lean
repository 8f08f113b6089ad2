import Mathlib.Data.List.Perm.Basic
import Mathlib.Data.List.Count
/-!
# Open addressing with linear probing

A table is a row of slots. The entry of a key stands in the first slot that was free when it came,
from the slot of its hash on; behind the last slot comes the first. A key is found by the same
walk, so the slots between its hash and its entry must not be free (`WF.path`). Slots are compared
by their place on the way from one slot to another: `OnPath h q p`.
-/
namespace Probing
open List

/-- `q` comes before `p` on the way from `h`, with a jump from the last slot to the first if `p`
is before `h`. -/
def OnPath (h q p : Nat) : Prop := (h ≤ q ∧ q < p) ∨ (p < h ∧ (h ≤ q ∨ q < p))
deriving Decidable

def next (n i : Nat) : Nat := if i + 1 = n then 0 else i + 1

/-- The first slot from `i` on at which `stop` holds; `none` if `fuel` slots were not enough. -/
def walk (stop : Nat → Bool) (n : Nat) : Nat → Nat → Option Nat
  | 0, _ => none
  | fuel + 1, i => if stop i then some i else walk stop n fuel (next n i)

theorem next_lt {n i : Nat} (h : i < n) : next n i < n := by
  unfold next
  split <;> omega

theorem onPath_self (h q : Nat) : ¬ OnPath h q h := by
  unfold OnPath
  omega

theorem onPath_end (h p : Nat) : ¬ OnPath h p p := by
  unfold OnPath
  omega

/-- The way from `i` starts with `i` and goes on from the next slot. -/
theorem onPath_next {n i p q : Nat} (hp : p < n) (hq : q < n) (hne : i ≠ p) :
    OnPath i q p ↔ q = i ∨ OnPath (next n i) q p := by
  unfold OnPath next
  split <;> omega

section
variable {stop : Nat → Bool} {n : Nat} {fuel i q : Nat}

theorem walk_spec (hi : i < n) (h : walk stop n fuel i = some q) :
    q < n ∧ stop q = true ∧ ∀ p < n, OnPath i p q → stop p = false := by
  induction fuel generalizing i with
  | zero => cases h
  | succ fuel ih =>
    rw [walk] at h
    split at h
    · rename_i hs
      cases h
      exact ⟨hi, hs, fun p _ hp => absurd hp (onPath_self _ _)⟩
    · rename_i hs
      obtain ⟨hq, hst, hpa⟩ := ih (next_lt hi) h
      refine ⟨hq, hst, fun p hp hpq => ?_⟩
      have hne : i ≠ q := by
        rintro rfl
        exact hs hst
      rcases (onPath_next hq hp hne).1 hpq with rfl | hpq
      · simpa using hs
      · exact hpa p hp hpq

/-- How many slots there are on the way. -/
def dist (n h p : Nat) : Nat := if h ≤ p then p - h else p + n - h

theorem dist_lt (hi : i < n) (hq : q < n) : dist n i q < n := by
  unfold dist
  split <;> omega

theorem walk_isSome (hi : i < n) (hq : q < n) (hst : stop q = true)
    (hf : dist n i q < fuel) : (walk stop n fuel i).isSome := by
  induction fuel generalizing i with
  | zero => omega
  | succ fuel ih =>
    rw [walk]
    split
    · rfl
    · rename_i hs
      have hne : i ≠ q := by
        rintro rfl
        exact hs hst
      refine ih (next_lt hi) ?_
      unfold dist next at *
      split at hf <;> split <;> split <;> omega

theorem walk_eq {i q : Nat} (hi : i < n) (hq : q < n) (hst : stop q = true)
    (hpa : ∀ p < n, OnPath i p q → stop p = false) : walk stop n n i = some q := by
  obtain ⟨q', hq'⟩ := Option.isSome_iff_exists.1 (walk_isSome hi hq hst (dist_lt hi hq))
  obtain ⟨hlt, hst', hpa'⟩ := walk_spec hi hq'
  -- of two slots on the way from `i` one comes first
  have ho : q = q' ∨ OnPath i q q' ∨ OnPath i q' q := by
    unfold OnPath
    omega
  rcases ho with rfl | h | h
  · exact hq'
  · simp [hpa' q hq h] at hst
  · simp [hpa q' hlt h] at hst'

end

structure Table (K V : Type) where
  slots : List (Option (K × V))
  /-- The number of entries, kept beside the slots. -/
  size  : Nat
deriving DecidableEq, Repr

namespace Table
variable {K V : Type}

def capacity (t : Table K V) : Nat := t.slots.length

/-- What is in a slot. -/
def slot (t : Table K V) (i : Nat) : Option (K × V) := (t.slots[i]?).join

def put (t : Table K V) (i : Nat) (x : Option (K × V)) : Table K V :=
  { t with slots := t.slots.set i x }

@[simp]
theorem capacity_put (t : Table K V) (i : Nat) (x : Option (K × V)) :
    (t.put i x).capacity = t.capacity := by
  simp [capacity, put]

variable {i : Nat} {k : K} {v : V} {g : Policy} {t : Table K V} {e : K × V}

theorem slot_put (t : Table K V) (hi : i < t.capacity) (x : Option (K × V)) (j : Nat) :
    (t.put i x).slot j = if i = j then x else t.slot j := by
  unfold slot put
  rw [getElem?_set]
  split
  · rw [if_pos (show i < t.slots.length from hi)]
    rfl
  · rfl

theorem lt_of_slot (h : t.slot i = some e) : i < t.capacity := by
  by_contra hi
  have : t.slots[i]? = none := getElem?_eq_none (Nat.le_of_not_lt hi)
  simp [slot, this] at h

theorem put_slot (h : t.slot i = some e) : t.put i (some e) = t := by
  obtain ⟨hi, he⟩ := List.getElem?_eq_some_iff.1 (Option.join_eq_some_iff.1 h)
  simp [put, ← he]

theorem mem_slots_iff : some e ∈ t.slots ↔ ∃ i, t.slot i = some e := by
  rw [mem_iff_getElem?]
  unfold slot
  simp only [Option.join_eq_some_iff]

section
variable (hash : K → Nat)

/-- The slot of the hash. -/
def home (t : Table K V) (k : K) : Nat := hash k % t.capacity

/-- What keeps every entry in reach of its key. -/
structure Placed (t : Table K V) : Prop where
  distinct : ∀ {i j k v w}, t.slot i = some (k, v) → t.slot j = some (k, w) → i = j
  path     : ∀ {p e}, t.slot p = some e → ∀ q < t.capacity, OnPath (t.home hash e.1) q p →
    (t.slot q).isSome
  free     : ∃ f < t.capacity, t.slot f = none

/-- And the size is the number of entries. -/
structure WF (t : Table K V) : Prop extends Placed hash t where
  size_eq  : t.size = t.slots.countP Option.isSome

end

variable {hash : K → Nat} {t : Table K V} {p : Nat}

theorem home_lt (h : 0 < t.capacity) (k : K) : t.home hash k < t.capacity := Nat.mod_lt _ h

theorem Placed.capacity_pos (h : t.Placed hash) : 0 < t.capacity := by
  obtain ⟨f, hf, -⟩ := h.free
  omega

theorem getElem?_eq_slot (h : i < t.capacity) : t.slots[i]? = some (t.slot i) := by
  unfold slot
  rw [getElem?_eq_getElem h]
  rfl

theorem countP_put (hi : i < t.capacity) (x : Option (K × V)) :
    (t.put i x).slots.countP Option.isSome =
    t.slots.countP Option.isSome - (if (t.slot i).isSome then 1 else 0) + if x.isSome then 1
    else 0 := by
  have hget := getElem?_eq_slot hi
  rw [getElem?_eq_getElem hi, Option.some_inj] at hget
  rw [← hget]
  exact countP_set hi

theorem WF.slot_eq_none (h : t.WF hash) (hsi : t.size = 0) (i : Nat) : t.slot i = none := by
  by_contra hi
  obtain ⟨e, he⟩ := Option.ne_none_iff_exists'.1 hi
  have hpos : 0 < t.slots.countP Option.isSome :=
    countP_pos_iff.2 ⟨some e, mem_slots_iff.2 ⟨i, he⟩, rfl⟩
  rw [← h.size_eq, hsi] at hpos
  cases hpos

theorem exists_free (h : t.slots.countP Option.isSome < t.capacity) :
    ∃ f < t.capacity, t.slot f = none := by
  have hlt : 0 < t.slots.countP Option.isNone := by
    have := length_eq_countP_add_countP (p := Option.isSome) (l := t.slots)
    have hnot : t.slots.countP (fun x => decide ¬x.isSome = true) =
        t.slots.countP Option.isNone := by
      refine countP_congr fun x _ => ?_
      cases x <;> simp
    unfold capacity at h
    omega
  obtain ⟨x, hx, hno⟩ := countP_pos_iff.1 hlt
  obtain ⟨f, hf⟩ := mem_iff_getElem?.1 hx
  obtain ⟨hlt, -⟩ := List.getElem?_eq_some_iff.1 hf
  exact ⟨f, hlt, by simp [slot, hf, Option.isNone_iff_eq_none.1 hno]⟩

/-- The first free slot of the walk of a key. -/
structure FreeFor (t : Table K V) (hash : K → Nat) (k : K) (f : Nat) : Prop where
  lt   : f < t.capacity
  free : t.slot f = none
  path : ∀ q < t.capacity, OnPath (t.home hash k) q f → (t.slot q).isSome

/-- A walk that stops at free slots only stops at the first one. -/
theorem Placed.walk_free (h : t.Placed hash) (k : K) {stop : Nat → Bool}
    (hst : ∀ i, stop i = true ↔ t.slot i = none) :
    ∃ f, walk stop t.capacity t.capacity (t.home hash k) = some f ∧ t.FreeFor hash k f := by
  obtain ⟨f0, hf0, hno⟩ := h.free
  have hh : t.home hash k < t.capacity := home_lt h.capacity_pos k
  obtain ⟨f, hf⟩ :=
    Option.isSome_iff_exists.1 (walk_isSome hh hf0 ((hst f0).2 hno) (dist_lt hh hf0))
  obtain ⟨hlt, hend, hpa⟩ := walk_spec hh hf
  refine ⟨f, hf, hlt, (hst f).1 hend, fun q hq hon => ?_⟩
  rw [Option.isSome_iff_ne_none, ne_eq, ← hst, hpa q hq hon]
  exact Bool.false_ne_true

theorem slot_replicate (n s i : Nat) : Table.slot (⟨replicate n none, s⟩ : Table K V) i = none := by
  simp only [slot, getElem?_replicate]
  split <;> rfl

theorem placed_replicate {n : Nat} (hn : 0 < n) (s : Nat) :
    Placed hash (⟨replicate n none, s⟩ : Table K V) := by
  refine ⟨fun hi => ?_, fun hp => ?_, 0, by simpa [capacity] using hn, slot_replicate n s 0⟩
  · simp [slot_replicate] at hi
  · simp [slot_replicate] at hp

/-- When a table grows, and to how many slots. -/
structure Policy where
  trigger : Nat → Nat
  grown   : Nat → Nat
  trigger_lt : ∀ {c}, 0 < c → trigger c < c
  lt_grown   : ∀ c, c < grown c
  trigger_lt_grown : ∀ {c}, 0 < c → trigger c < trigger (grown c)

/-- An entry goes to the first free slot from its hash on. -/
def reinsert (hash : K → Nat) (t : Table K V) (e : K × V) : Table K V :=
  match walk (fun i => (t.slot i).isNone) t.capacity t.capacity (t.home hash e.1) with
  | none => t
  | some f => t.put f (some e)

/-- All entries go to a new row of slots, in the order of the old one. -/
def grow (hash : K → Nat) (g : Policy) (t : Table K V) : Table K V :=
  t.slots.foldl (fun t' x => match x with
    | none => t'
    | some e => reinsert hash t' e) ⟨List.replicate (g.grown t.capacity) none, t.size⟩

theorem Placed.put_free (h : t.Placed hash) {f : Nat} (hk : ∀ p v, t.slot p ≠ some (k, v))
    (hf : t.FreeFor hash k f) (hroom : t.slots.countP Option.isSome + 1 < t.capacity) :
    (t.put f (some (k, v))).Placed hash ∧
      (t.put f (some (k, v))).slots.countP Option.isSome = t.slots.countP Option.isSome + 1 ∧
      ∀ {k' v'}, (∃ p, (t.put f (some (k, v))).slot p = some (k', v')) ↔
        (k' = k ∧ v' = v) ∨ ∃ p, t.slot p = some (k', v') := by
  have hsl : ∀ p, (t.put f (some (k, v))).slot p = if f = p then some (k, v) else t.slot p :=
    slot_put t hf.lt _
  have hco : (t.put f (some (k, v))).slots.countP Option.isSome =
      t.slots.countP Option.isSome + 1 := by
    rw [countP_put hf.lt, hf.free]
    simp
  refine ⟨⟨fun {i j k' v' w'} hi hj => ?_, fun {p e} hp q hq hon => ?_, ?_⟩, hco, fun {k' v'} => ?_⟩
  · rw [hsl] at hi hj
    split at hi <;> split at hj
    · omega
    · cases hi
      exact absurd hj (hk j w')
    · cases hj
      exact absurd hi (hk i v')
    · exact h.distinct hi hj
  · simp only [capacity_put, home] at hq hon
    rw [hsl] at hp ⊢
    split
    · rfl
    · split at hp
      · rename_i hfp
        subst hfp
        cases hp
        exact hf.path q hq hon
      · exact h.path hp q hq hon
  · exact exists_free (by rw [hco, capacity_put]; exact hroom)
  · constructor
    · rintro ⟨p, hp⟩
      rw [hsl] at hp
      split at hp
      · cases hp
        exact Or.inl ⟨rfl, rfl⟩
      · exact Or.inr ⟨p, hp⟩
    · rintro (⟨rfl, rfl⟩ | ⟨p, hp⟩)
      · exact ⟨f, by rw [hsl, if_pos rfl]⟩
      · refine ⟨p, ?_⟩
        rw [hsl, if_neg, hp]
        rintro rfl
        simp [hf.free] at hp

/-- No two of the slots have entries of one key. -/
def Apart (l : List (Option (K × V))) : Prop :=
  l.Pairwise fun x y => ∀ e e' : K × V, x = some e → y = some e' → e.1 ≠ e'.1

theorem Placed.apart (h : t.Placed hash) : Apart t.slots := by
  rw [Apart, pairwise_iff_getElem]
  intro i j hi hj hij e e' he he' heq
  have h1 : t.slot i = some (e.1, e.2) := by simp [slot, getElem?_eq_getElem hi, he]
  have h2 : t.slot j = some (e.1, e'.2) := by simp [slot, getElem?_eq_getElem hj, he', heq]
  have := h.distinct h1 h2
  omega

theorem foldl_reinsert {l : List (Option (K × V))} (hl : Apart l) (h : t.Placed hash)
    (hnew : ∀ e, some e ∈ l → ∀ p v, t.slot p ≠ some (e.1, v))
    (hroom : t.slots.countP Option.isSome + l.countP Option.isSome < t.capacity) :
    let t' := l.foldl (fun t' x => match x with
      | none => t'
      | some e => reinsert hash t' e) t
    t'.Placed hash ∧ t'.capacity = t.capacity ∧ t'.size = t.size ∧
      t'.slots.countP Option.isSome = t.slots.countP Option.isSome + l.countP Option.isSome ∧
      ∀ e, (∃ p, t'.slot p = some e) ↔ (∃ p, t.slot p = some e) ∨ some e ∈ l := by
  induction l generalizing t with
  | nil => exact ⟨h, rfl, rfl, rfl, by simp⟩
  | cons x l ih =>
    obtain ⟨hx, hl'⟩ := pairwise_cons.1 hl
    cases x with
    | none =>
      obtain ⟨h1, h2, h3, h4, h5⟩ := ih hl' h (fun e he => hnew e (mem_cons_of_mem _ he)) hroom
      exact ⟨h1, h2, h3, by rw [countP_cons_of_neg (by simp)]; exact h4, fun e => by simpa using h5 e⟩
    | some e =>
      rw [countP_cons_of_pos (by simp)] at hroom
      obtain ⟨f, hwa, hf⟩ := h.walk_free e.1 fun _ => Option.isNone_iff_eq_none
      have hab := hnew e mem_cons_self
      obtain ⟨hput, hco, hcon⟩ := h.put_free (v := e.2) hab hf (by omega)
      have hins : reinsert hash t e = t.put f (some e) := by simp [reinsert, hwa]
      simp only [foldl_cons, hins]
      have hnew' : ∀ e', some e' ∈ l → ∀ p v, (t.put f (some e)).slot p ≠ some (e'.1, v) := by
        intro e' he' p v hp
        rcases hcon.1 ⟨p, hp⟩ with ⟨heq, -⟩ | ⟨q, hq⟩
        · exact hx _ he' e e' rfl rfl heq.symm
        · exact hnew e' (mem_cons_of_mem _ he') q v hq
      obtain ⟨h1, h2, h3, h4, h5⟩ := ih hl' hput hnew' (by rw [capacity_put, hco]; omega)
      refine ⟨h1, by rw [h2, capacity_put], h3, ?_, fun e' => ?_⟩
      · rw [h4, hco, countP_cons_of_pos (by simp)]
        omega
      · have hcon' : (∃ p, (t.put f (some e)).slot p = some e') ↔
            e' = e ∨ ∃ q, t.slot q = some e' := by
          rw [Prod.ext_iff]
          exact @hcon e'.1 e'.2
        rw [h5, hcon', mem_cons, Option.some_inj, or_assoc, or_left_comm]

/-- A table as the operations leave it: it grows as soon as it holds `trigger` entries. -/
structure Sound (hash : K → Nat) (g : Policy) (t : Table K V) : Prop extends WF hash t where
  below : t.size < g.trigger t.capacity

theorem Sound.room (h : t.Sound hash g) : t.size + 1 < t.capacity := by
  have h1 := h.below
  have h2 := g.trigger_lt h.capacity_pos
  omega

theorem sound_grow (h : t.WF hash) (hroom : t.size < t.capacity)
    (hf : t.size ≤ g.trigger t.capacity) :
    (grow hash g t).Sound hash g ∧ ∀ e, (∃ p, (grow hash g t).slot p = some e) ↔
      ∃ p, t.slot p = some e := by
  have hg := g.lt_grown t.capacity
  have hcap : (⟨replicate (g.grown t.capacity) none, t.size⟩ : Table K V).capacity =
      g.grown t.capacity := by
    simp [capacity]
  have hz : (replicate (g.grown t.capacity) (none : Option (K × V))).countP Option.isSome = 0 := by
    simp
  obtain ⟨h1, h2, h3, h4, h5⟩ :=
    foldl_reinsert h.apart (placed_replicate (Nat.zero_lt_of_lt hg) t.size)
    (by simp [slot_replicate])
    (by rw [hcap, hz, ← h.size_eq]; omega)
  refine ⟨⟨⟨h1, ?_⟩, ?_⟩, fun e => ?_⟩
  · show Table.size (foldl _ _ _) = _
    rw [h3]
    simp only [hz, Nat.zero_add, ← h.size_eq] at h4
    exact h4.symm
  · have hc : (grow hash g t).capacity = g.grown t.capacity := h2.trans hcap
    have hs : (grow hash g t).size = t.size := h3
    have := g.trigger_lt_grown h.capacity_pos
    rw [hc, hs]
    omega
  · exact (h5 e).trans (by simp [slot_replicate, mem_slots_iff])

/-- A new entry. -/
def enter (t : Table K V) (i : Nat) (e : K × V) : Table K V := ⟨t.slots.set i (some e), t.size + 1⟩

@[simp]
theorem capacity_enter (t : Table K V) (i : Nat) (e : K × V) :
    (t.enter i e).capacity = t.capacity :=
  capacity_put t i (some e)

theorem slot_enter (t : Table K V) (hi : i < t.capacity) (e : K × V) (j : Nat) :
    (t.enter i e).slot j = if i = j then some e else t.slot j :=
  slot_put t hi (some e) j

/-- What is in the slots when there is something else in the slot of a key. -/
theorem Placed.exists_slot_put (h : t.Placed hash) {w : V} (hp : t.slot p = some (k, w))
    {x : Option (K × V)} :
    (∃ q, (t.put p x).slot q = some e) ↔ x = some e ∨ e.1 ≠ k ∧ ∃ q, t.slot q = some e := by
  simp only [slot_put t (lt_of_slot hp)]
  constructor
  · rintro ⟨q, hq⟩
    split at hq
    · exact Or.inl hq
    · rename_i hpq
      refine Or.inr ⟨?_, q, hq⟩
      rintro rfl
      exact hpq (h.distinct hp hq)
  · rintro (rfl | ⟨hne, q, hq⟩)
    · exact ⟨p, if_pos rfl⟩
    · refine ⟨q, ?_⟩
      rw [if_neg, hq]
      rintro rfl
      rw [hp] at hq
      cases hq
      exact hne rfl

theorem WF.put_same (h : t.WF hash) {w : V} (hp : t.slot p = some (k, w)) :
    (t.put p (some (k, v))).WF hash ∧ ∀ k' v',
      (∃ q, (t.put p (some (k, v))).slot q = some (k', v')) ↔
      (k' = k ∧ v' = v) ∨ (k' ≠ k ∧ ∃ q, t.slot q = some (k', v')) := by
  have hlt := lt_of_slot hp
  have hsl : ∀ q, (t.put p (some (k, v))).slot q = if p = q then some (k, v) else t.slot q :=
    slot_put t hlt _
  have hkey : ∀ {q e}, (t.put p (some (k, v))).slot q = some e →
      ∃ v', t.slot q = some (e.1, v') := by
    intro q e hq
    rw [hsl] at hq
    split at hq
    · rename_i hpq
      subst hpq
      cases hq
      exact ⟨w, hp⟩
    · exact ⟨e.2, hq⟩
  refine ⟨⟨⟨fun {i j k' v' w'} hi hj => ?_, fun {q e} hq r hr hon => ?_, ?_⟩, ?_⟩, fun k' v' => ?_⟩
  · obtain ⟨_, hi⟩ := hkey hi
    obtain ⟨_, hj⟩ := hkey hj
    exact h.distinct hi hj
  · obtain ⟨v', hq⟩ := hkey hq
    simp only [capacity_put, home] at hr hon
    rw [hsl]
    split
    · rfl
    · exact h.path hq r hr hon
  · obtain ⟨f, hf, hno⟩ := h.free
    refine ⟨f, by simpa using hf, ?_⟩
    rw [hsl, if_neg, hno]
    rintro rfl
    simp [hp] at hno
  · have hpos : 0 < t.slots.countP Option.isSome :=
      countP_pos_iff.2 ⟨_, mem_slots_iff.2 ⟨p, hp⟩, rfl⟩
    rw [countP_put hlt, hp]
    exact h.size_eq.trans (Nat.sub_add_cancel hpos).symm
  · rw [h.exists_slot_put hp]
    simp [eq_comm]

theorem Sound.enter (h : t.Sound hash g) {f : Nat} (hk : ∀ p v, t.slot p ≠ some (k, v))
    (hf : t.FreeFor hash k f) :
    (t.enter f (k, v)).WF hash ∧ ∀ k' v', (∃ p, (t.enter f (k, v)).slot p = some (k', v')) ↔
      (k' = k ∧ v' = v) ∨ (k' ≠ k ∧ ∃ p, t.slot p = some (k', v')) := by
  obtain ⟨hput, hco, hcon⟩ := h.put_free (v := v) hk hf (h.size_eq ▸ h.room)
  refine ⟨⟨⟨hput.distinct, hput.path, hput.free⟩, ?_⟩, fun k' v' => ?_⟩
  · show t.size + 1 = _
    rw [h.size_eq]
    exact hco.symm
  · refine hcon.trans (or_congr_right ⟨fun ⟨p, hp⟩ => ⟨?_, p, hp⟩, fun h => h.2⟩)
    rintro rfl
    exact hk p v' hp

variable [DecidableEq K]

/-- The slot at which the walk for a key ends: that of its entry, or a free one. -/
def find (hash : K → Nat) (t : Table K V) (k : K) : Option Nat :=
  walk (fun i => match t.slot i with
    | none => true
    | some e => e.1 = k) t.capacity t.capacity (t.home hash k)

def get (hash : K → Nat) (t : Table K V) (k : K) : Option V :=
  (t.find hash k).bind fun i => (t.slot i).map Prod.snd

section
variable (h : t.Placed hash)
include h

theorem Placed.find_of_slot (hp : t.slot p = some (k, v)) : t.find hash k = some p := by
  refine walk_eq (home_lt h.capacity_pos k) (lt_of_slot hp) (by simp [hp]) fun q hq hpa => ?_
  obtain ⟨⟨k', w⟩, he⟩ := Option.isSome_iff_exists.1 (h.path hp q hq hpa)
  simp only [he, decide_eq_false_iff_not]
  rintro rfl
  rw [h.distinct he hp] at hpa
  unfold OnPath at hpa
  omega

/-- For a key that is not there the walk ends at a free slot. -/
theorem Placed.find_absent (hk : ∀ p v, t.slot p ≠ some (k, v)) :
    ∃ f, t.find hash k = some f ∧ t.FreeFor hash k f := by
  refine h.walk_free k fun i => ?_
  cases hi : t.slot i with
  | none => simp
  | some e =>
    simp only [decide_eq_true_eq, reduceCtorEq, iff_false]
    rintro rfl
    exact hk i e.2 hi

theorem Placed.get_eq_some_iff : t.get hash k = some v ↔ ∃ p, t.slot p = some (k, v) := by
  by_cases hk : ∃ p w, t.slot p = some (k, w)
  · obtain ⟨p, w, hp⟩ := hk
    have hget : t.get hash k = some w := by simp [get, h.find_of_slot hp, hp]
    rw [hget]
    refine ⟨fun heq => ⟨p, by rw [hp, Option.some.inj heq]⟩, ?_⟩
    rintro ⟨q, hq⟩
    rw [h.distinct hq hp, hp] at hq
    cases hq
    rfl
  · simp only [not_exists] at hk
    obtain ⟨f, hf, hfree⟩ := h.find_absent hk
    simp [get, hf, hfree.free, hk]

theorem Placed.get_eq_none_iff : t.get hash k = none ↔ ∀ p v, t.slot p ≠ some (k, v) := by
  rw [Option.eq_none_iff_forall_ne_some]
  constructor
  · exact fun hn p v hp => hn v (h.get_eq_some_iff.2 ⟨p, hp⟩)
  · intro hn v hv
    obtain ⟨p, hp⟩ := h.get_eq_some_iff.1 hv
    exact hn p v hp

end

/-- The walk for a key ends at a free slot if other entries are on the way. -/
theorem find_free (hpos : 0 < t.capacity) {q : Nat} (hq : q < t.capacity) (hno : t.slot q = none)
    (hpa : ∀ p < t.capacity, OnPath (t.home hash k) p q → ∃ e, t.slot p = some e ∧ e.1 ≠ k) :
    t.find hash k = some q := by
  refine walk_eq (home_lt hpos k) hq (by simp [hno]) fun p hp hon => ?_
  obtain ⟨e, he, hne⟩ := hpa p hp hon
  simpa [he] using hne

/-- A value for a key: in the place of the old one, or in a free slot; `none` if the walk does not
end. -/
def set (hash : K → Nat) (g : Policy) (t : Table K V) (k : K) (v : V) : Option (Table K V) :=
  (t.find hash k).map fun i =>
    match t.slot i with
    | some _ => t.put i (some (k, v))
    | none =>
      let t := t.enter i (k, v)
      if g.trigger t.capacity ≤ t.size then grow hash g t else t

/-- What is found in a table that has one entry instead of another. -/
theorem Placed.get_of_contents {t' : Table K V} (h : t.Placed hash) (h' : t'.Placed hash)
    (hco : ∀ k' v', (∃ p, t'.slot p = some (k', v')) ↔
      (k' = k ∧ v' = v) ∨ (k' ≠ k ∧ ∃ p, t.slot p = some (k', v'))) (k' : K) :
    t'.get hash k' = if k' = k then some v else t.get hash k' := by
  split
  · rename_i hk
    exact h'.get_eq_some_iff.2 ((hco _ _).2 (Or.inl ⟨hk, rfl⟩))
  · rename_i hk
    ext v'
    rw [h'.get_eq_some_iff, h.get_eq_some_iff, hco]
    simp [hk]

/-- **Setting a key changes what is found for it, and nothing else.** -/
theorem Sound.set (h : t.Sound hash g) (k : K) (v : V) :
    ∃ t', t.set hash g k v = some t' ∧ t'.Sound hash g ∧
      ∀ k', t'.get hash k' = if k' = k then some v else t.get hash k' := by
  by_cases hk : ∃ p w, t.slot p = some (k, w)
  · obtain ⟨p, w, hp⟩ := hk
    obtain ⟨hwf, hco⟩ := h.put_same (v := v) hp
    refine ⟨t.put p (some (k, v)), by simp [Table.set, h.find_of_slot hp, hp], ⟨hwf, ?_⟩,
      h.get_of_contents hwf.toPlaced hco⟩
    rw [capacity_put]
    exact h.below
  · simp only [not_exists] at hk
    obtain ⟨f, hfi, hf⟩ := h.find_absent hk
    obtain ⟨hwf, hco⟩ := h.enter (v := v) hk hf
    have hcap : (t.enter f (k, v)).capacity = t.capacity := capacity_enter t f _
    have hsi : (t.enter f (k, v)).size = t.size + 1 := rfl
    have hset : t.set hash g k v = some (if g.trigger t.capacity ≤ t.size + 1
        then grow hash g (t.enter f (k, v)) else t.enter f (k, v)) := by
      simp only [Table.set, hfi, Option.map_some, hf.free, hcap, hsi]
    have hbe := h.below
    have hroom := h.room
    split at hset
    · obtain ⟨hs, hsa⟩ := sound_grow (g := g) hwf (by omega) (by rw [hcap]; omega)
      exact ⟨_, hset, hs, h.get_of_contents hs.toPlaced fun k' v' => (hsa _).trans (hco k' v')⟩
    · exact ⟨_, hset, ⟨hwf, by rw [hcap]; omega⟩, h.get_of_contents hwf.toPlaced hco⟩

end Table

end Probing
