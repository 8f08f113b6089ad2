import Sensys.Lib.Probing
/-!
# Removing from an open-addressing table

`removeAt` frees a slot and looks at the entries behind it. `Compacting` is the invariant of that
loop: all walks are whole, except that those of entries not yet looked at may come by the gap.
`Removed.behind` and `Removed.crossing` say which entries change their slot.
-/
namespace Probing

namespace Table
variable {K V : Type} {hash : K → Nat} {t : Table K V}

/-- The entries behind a gap, up to the next free slot: each goes to the first free slot of its
walk, if that comes before its own. -/
def compact (hash : K → Nat) : Nat → Nat → Table K V → Table K V
  | 0, _, t => t
  | fuel + 1, ii, t =>
    match t.slot ii with
    | none => t
    | some e =>
      match walk (fun j => j == ii || (t.slot j).isNone) t.capacity t.capacity (t.home hash e.1) with
      | none => t
      | some jj =>
        compact hash fuel (next t.capacity ii)
          (if jj = ii then t else (t.put jj (some e)).put ii none)

/-- Removing what is in a slot; `none` if there is nothing. -/
def removeAt (hash : K → Nat) (t : Table K V) (i : Nat) : Option (Table K V) :=
  match t.slot i with
  | none => none
  | some _ =>
    some { compact hash t.capacity (next t.capacity i) (t.put i none) with size := t.size - 1 }

variable {e : K × V} {i : Nat} {t' : Table K V} {P : Table K V → Nat → Nat → Prop}

theorem perm_move {g ii : Nat} (hg : g < t.capacity) (hgap : t.slot g = none)
    (hii : t.slot ii = some e) : ((t.put g (some e)).put ii none).slots.Perm t.slots := by
  have hlt := lt_of_slot hii
  have h1 := getElem?_eq_slot hg
  have h2 := getElem?_eq_slot hlt
  rw [hgap, List.getElem?_eq_getElem hg] at h1
  rw [hii, List.getElem?_eq_getElem hlt] at h2
  have hsw := List.set_set_perm hg hlt
  rwa [Option.some.inj h1, Option.some.inj h2] at hsw

/-- The table `t` while the entries behind slot `i` of `t0` are looked at, before `ii`, with the
gap at `g`. -/
structure Compacting (hash : K → Nat) (t0 : Table K V) (i : Nat) (t : Table K V)
    (ii g : Nat) : Prop where
  capacity_eq : t.capacity = t0.capacity
  i_lt      : i < t.capacity
  ii_lt     : ii < t.capacity
  g_lt      : g < t.capacity
  scanned_g : OnPath i g ii
  gap       : t.slot g = none
  occupied  : ∀ p, p ≠ g → ((t.slot p).isSome ↔ (t0.slot p).isSome)
  scanned   : ∀ p < t.capacity, OnPath i p ii → (t0.slot p).isSome
  unscanned : ∀ p < t.capacity, ¬ OnPath i p ii → t.slot p = t0.slot p
  moved     : ∀ {p e}, t.slot p = some e →
    ∃ p0, t0.slot p0 = some e ∧ (p = p0 ∨ OnPath (t.home hash e.1) p p0)
  perm      : t.slots.Perm (t0.slots.set i none)
  distinct  : ∀ {p q k v w}, t.slot p = some (k, v) → t.slot q = some (k, w) → p = q
  path      : ∀ {p e}, t.slot p = some e → ∀ q < t.capacity, OnPath (t.home hash e.1) q p →
    (t.slot q).isSome ∨ (q = g ∧ ¬ OnPath i p ii)

namespace Compacting
variable {t0 : Table K V} {i ii g : Nat} {e : K × V}

theorem start (h : t0.WF hash) (hi : t0.slot i = some e) :
    Compacting hash t0 i (t0.put i none) (next t0.capacity i) i := by
  have hlt := lt_of_slot hi
  obtain ⟨f, hf, hfree⟩ := h.free
  have hne : f ≠ i := by
    rintro rfl
    simp [hi] at hfree
  have hsl : ∀ p, (t0.put i none).slot p = if i = p then none else t0.slot p := slot_put t0 hlt none
  have hh : ∀ k, (t0.put i none).home hash k = t0.home hash k := fun k => by simp [home]
  -- one slot has been looked at
  have hone : ∀ p < t0.capacity, OnPath i p (next t0.capacity i) ↔ p = i := by
    unfold OnPath next
    split <;> omega
  refine ⟨by simp, by simpa using hlt, by simpa using next_lt hlt, by simpa using hlt, (hone i hlt).2 rfl, by simp [hsl], fun p hp => ?_,
    fun p hp hpa => ?_, fun p hp hpa => ?_, fun hp => ?_, .refl _, fun hp hq => ?_,
    fun hp q hq hpa => ?_⟩
  · rw [hsl, if_neg (Ne.symm hp)]
  · rw [(hone p (by simpa using hp)).1 hpa, hi]
    rfl
  · rw [hsl, if_neg]
    rintro rfl
    exact hpa ((hone i hlt).2 rfl)
  · rename_i p e'
    rw [hsl] at hp
    split at hp
    · cases hp
    · exact ⟨p, hp, Or.inl rfl⟩
  · rw [hsl] at hp hq
    split at hp
    · cases hp
    split at hq
    · cases hq
    exact h.distinct hp hq
  · rename_i p e'
    rw [hsl] at hp ⊢
    split at hp
    · cases hp
    · rename_i hip
      simp only [capacity_put, hh] at hq hpa
      split
      · rename_i hiq
        exact Or.inr ⟨hiq.symm, fun hon => hip ((hone p (lt_of_slot hp)).1 hon).symm⟩
      · exact Or.inl (h.path hp q hq hpa)

variable (hc : Compacting hash t0 i t ii g)
include hc

theorem exists_free (hfree : ∃ f < t0.capacity, t0.slot f = none) :
    ∃ f < t.capacity, ¬ OnPath i f ii ∧ t0.slot f = none ∧ t.slot f = none := by
  obtain ⟨f, hf, hno⟩ := hfree
  rw [← hc.capacity_eq] at hf
  have hun : ¬ OnPath i f ii := fun h => by simpa [hno] using hc.scanned f hf h
  exact ⟨f, hf, hun, hno, (hc.unscanned f hf hun).trans hno⟩

theorem ii_ne : ii ≠ i := by
  rintro rfl
  exact onPath_self _ _ hc.scanned_g

variable {p : Nat} {e' : K × V}

theorem g_ne (hii : t.slot ii = some e) : g ≠ ii := by
  rintro rfl
  simp [hc.gap] at hii

/-- Where the walk of the next entry ends: at the gap if it comes by, in its own slot if not. -/
theorem walk_eq (hpos : 0 < t.capacity) (hii : t.slot ii = some e) :
    walk (fun j => j == ii || (t.slot j).isNone) t.capacity t.capacity (t.home hash e.1) =
      some (if OnPath (t.home hash e.1) g ii then g else ii) := by
  have hh : t.home hash e.1 < t.capacity := home_lt hpos _
  have hbu : ∀ q < t.capacity, OnPath (t.home hash e.1) q ii → q ≠ g → (t.slot q).isSome :=
    fun q hq hpa hne =>
    (hc.path hii q hq hpa).resolve_right fun h => hne h.1
  split
  · refine Probing.walk_eq hh hc.g_lt (by simp [hc.gap]) fun q hq hpa => ?_
    have hqi : OnPath (t.home hash e.1) q ii ∧ q ≠ g ∧ q ≠ ii := by
      unfold OnPath at *
      omega
    simpa [hqi.2.2] using hbu q hq hqi.1 hqi.2.1
  · rename_i hg
    refine Probing.walk_eq hh hc.ii_lt (by simp) fun q hq hpa => ?_
    have hqi : q ≠ g ∧ q ≠ ii := by
      refine ⟨?_, ?_⟩
      · rintro rfl
        exact hg hpa
      · unfold OnPath at hpa
        omega
    simpa [hqi.2] using hbu q hq hpa hqi.1

section
variable (hfree : ∃ f < t0.capacity, t0.slot f = none) (hii : t.slot ii = some e)
include hfree hii

theorem scanned_next (hp : p < t.capacity) :
    OnPath i p (next t.capacity ii) ↔ p = ii ∨ OnPath i p ii := by
  obtain ⟨f, hf, hfun, -, hfn⟩ := hc.exists_free hfree
  have hfi : f ≠ ii := by
    rintro rfl
    simp [hfn] at hii
  unfold OnPath next at *
  split <;> omega

theorem stay (hg : ¬ OnPath (t.home hash e.1) g ii) :
    Compacting hash t0 i t (next t.capacity ii) g := by
  have hsc := fun p (hp : p < t.capacity) => hc.scanned_next hfree hii hp
  refine ⟨hc.capacity_eq, hc.i_lt, next_lt hc.ii_lt, hc.g_lt,
    (hsc g hc.g_lt).2 (Or.inr hc.scanned_g), hc.gap, hc.occupied, fun p hp hpa => ?_,
    fun p hp hpa => ?_, hc.moved, hc.perm, hc.distinct, fun hp q hq hpa => ?_⟩
  · rcases (hsc p hp).1 hpa with rfl | hpa
    · rw [← hc.occupied p (hc.g_ne hii).symm, hii]
      rfl
    · exact hc.scanned p hp hpa
  · exact hc.unscanned p hp fun h => hpa ((hsc p hp).2 (Or.inr h))
  · rename_i p e'
    rcases hc.path hp q hq hpa with h | ⟨rfl, hun⟩
    · exact Or.inl h
    · refine Or.inr ⟨rfl, fun hnew => ?_⟩
      rcases (hsc p (lt_of_slot hp)).1 hnew with rfl | hold
      · rw [hii] at hp
        cases hp
        exact hg hpa
      · exact hun hold

end

/-! The next entry moves into the gap. -/

theorem slot_move (p : Nat) : ((t.put g (some e)).put ii none).slot p =
    if ii = p then none else if g = p then some e else t.slot p := by
  rw [slot_put _ (by simpa using hc.ii_lt), slot_put _ hc.g_lt]

theorem of_slot_move (hp : ((t.put g (some e)).put ii none).slot p = some e') :
    p ≠ ii ∧ (p = g ∧ e' = e ∨ p ≠ g ∧ t.slot p = some e') := by
  rw [hc.slot_move] at hp
  split at hp
  · cases hp
  rename_i hpi
  split at hp
  · rename_i hgp
    exact ⟨Ne.symm hpi, Or.inl ⟨hgp.symm, (Option.some.inj hp).symm⟩⟩
  · rename_i hgp
    exact ⟨Ne.symm hpi, Or.inr ⟨Ne.symm hgp, hp⟩⟩

theorem distinct_move (hii : t.slot ii = some e) {q : Nat} {k : K} {v w : V}
    (hp : ((t.put g (some e)).put ii none).slot p = some (k, v))
    (hq : ((t.put g (some e)).put ii none).slot q = some (k, w)) : p = q := by
  obtain ⟨hpi, ⟨rfl, rfl⟩ | ⟨-, hpo⟩⟩ := hc.of_slot_move hp
  · obtain ⟨hqi, ⟨rfl, -⟩ | ⟨-, hqo⟩⟩ := hc.of_slot_move hq
    · rfl
    · exact absurd (hc.distinct hii hqo).symm hqi
  · obtain ⟨-, ⟨rfl, rfl⟩ | ⟨-, hqo⟩⟩ := hc.of_slot_move hq
    · exact absurd (hc.distinct hpo hii) hpi
    · exact hc.distinct hpo hqo

section
variable (hfree : ∃ f < t0.capacity, t0.slot f = none) (hii : t.slot ii = some e)
include hfree hii

/-- A walk that comes by `ii` and ends before it would come by a free slot. -/
theorem unscanned_of_path (hp : t.slot p = some e') (hpi : p ≠ ii)
    (hpa : OnPath (t.home hash e'.1) ii p) : ¬ OnPath i p (next t.capacity ii) := by
  intro hnew
  have hpl := lt_of_slot hp
  have hpo := ((hc.scanned_next hfree hii hpl).1 hnew).resolve_left hpi
  obtain ⟨f, hf, hfun, -, hfn⟩ := hc.exists_free hfree
  have hfp : OnPath (t.home hash e'.1) f p := by
    unfold OnPath at *
    omega
  rcases hc.path hp f hf hfp with h | ⟨rfl, -⟩
  · simp [hfn] at h
  · exact hfun hc.scanned_g

theorem path_move (hg : OnPath (t.home hash e.1) g ii)
    (hp : ((t.put g (some e)).put ii none).slot p = some e') {q : Nat} (hq : q < t.capacity)
    (hpa : OnPath (t.home hash e'.1) q p) :
    (((t.put g (some e)).put ii none).slot q).isSome ∨
      (q = ii ∧ ¬ OnPath i p (next t.capacity ii)) := by
  rw [hc.slot_move]
  obtain ⟨hpi, ⟨rfl, rfl⟩ | ⟨-, hp⟩⟩ := hc.of_slot_move hp
  · -- the entry that has moved
    have hqi : OnPath (t.home hash e'.1) q ii ∧ q ≠ p ∧ q ≠ ii := by
      unfold OnPath at *
      omega
    have hbu := (hc.path hii q hq hqi.1).resolve_right fun h => hqi.2.1 h.1
    rw [if_neg (Ne.symm hqi.2.2), if_neg (Ne.symm hqi.2.1)]
    exact Or.inl hbu
  · split
    · rename_i hiq
      subst hiq
      exact Or.inr ⟨rfl, hc.unscanned_of_path hfree hii hp hpi hpa⟩
    split
    · exact Or.inl rfl
    · rename_i hgq
      exact Or.inl ((hc.path hp q hq hpa).resolve_right fun h => hgq h.1.symm)

theorem move (hg : OnPath (t.home hash e.1) g ii) :
    Compacting hash t0 i ((t.put g (some e)).put ii none) (next t.capacity ii) ii := by
  have hsc := fun p (hp : p < t.capacity) => hc.scanned_next hfree hii hp
  have hgi := hc.g_ne hii
  have hiil := hc.ii_lt
  have hh : ∀ k, ((t.put g (some e)).put ii none).home hash k = t.home hash k :=
    fun k => by simp [home]
  have hold : (t0.slot ii).isSome := by
    rw [← hc.occupied ii (Ne.symm hgi), hii]
    rfl
  refine ⟨by simpa using hc.capacity_eq,
    by simpa using hc.i_lt, by simpa using next_lt hiil, by simpa using hiil, (hsc ii hiil).2 (Or.inl rfl), by simp [hc.slot_move], fun p hp => ?_, fun p hp hpa => ?_, fun p hp hpa => ?_,
    fun hp => ?_, (perm_move hc.g_lt hc.gap hii).trans hc.perm, hc.distinct_move hii,
    fun hp q hq hpa => ?_⟩
  · rw [hc.slot_move, if_neg (Ne.symm hp)]
    split
    · rename_i hgp
      subst hgp
      simpa using hc.scanned g hc.g_lt hc.scanned_g
    · rename_i hgp
      exact hc.occupied p (Ne.symm hgp)
  · simp only [capacity_put] at hp
    rcases (hsc p hp).1 hpa with rfl | hpa
    · exact hold
    · exact hc.scanned p hp hpa
  · simp only [capacity_put] at hp
    have hpi : ¬(p = ii ∨ OnPath i p ii) := fun h => hpa ((hsc p hp).2 h)
    rw [hc.slot_move, if_neg fun h => hpi (Or.inl h.symm), if_neg,
      hc.unscanned p hp fun h => hpi (Or.inr h)]
    rintro rfl
    exact hpi (Or.inr hc.scanned_g)
  · obtain ⟨-, ⟨rfl, rfl⟩ | ⟨-, hp⟩⟩ := hc.of_slot_move hp
    · refine ⟨ii, ?_, Or.inr (by rw [hh]; exact hg)⟩
      rw [← hc.unscanned ii hiil (onPath_end _ _), hii]
    · obtain ⟨p0, h0, h⟩ := hc.moved hp
      exact ⟨p0, h0, by rw [hh]; exact h⟩
  · simp only [capacity_put, hh] at hq hpa
    exact hc.path_move hfree hii hg hp hq hpa

end

theorem finish (h0 : t0.WF hash) (hi : t0.slot i = some e) (hii : t.slot ii = none) :
    ({ t with size := t0.size - 1 } : Table K V).WF hash := by
  refine ⟨⟨hc.distinct, fun {p e'} hp q hq hpa => ?_, g, hc.g_lt, hc.gap⟩, ?_⟩
  · rcases hc.path hp q hq hpa with h | ⟨rfl, hun⟩
    · exact h
    · -- the walk to an entry that was not looked at comes by the free slot behind the gap
      have hpii : p ≠ ii := by
        rintro rfl
        have hp : t.slot p = some e' := hp
        simp [hii] at hp
      have hon : OnPath (t.home hash e'.1) ii p := by
        have h1 := hc.scanned_g
        have hpa : OnPath (t.home hash e'.1) q p := hpa
        unfold OnPath at *
        omega
      rcases hc.path hp ii hc.ii_lt hon with h | ⟨rfl, -⟩
      · simp [hii] at h
      · exact absurd hc.scanned_g (onPath_end _ _)
  · have h1 := countP_put (lt_of_slot hi) none
    rw [hi] at h1
    rw [hc.perm.countP_eq, h0.size_eq]
    exact h1.symm

/-- A turn of the loop keeps `P`. -/
structure Kept (hash : K → Nat) (t0 : Table K V) (i : Nat)
    (P : Table K V → Nat → Nat → Prop) : Prop where
  stay : ∀ {t ii g e}, Compacting hash t0 i t ii g → P t ii g → t.slot ii = some e →
    ¬ OnPath (t.home hash e.1) g ii → P t (next t.capacity ii) g
  move : ∀ {t ii g e}, Compacting hash t0 i t ii g → P t ii g → t.slot ii = some e →
    OnPath (t.home hash e.1) g ii → P ((t.put g (some e)).put ii none) (next t.capacity ii) ii

/-- What holds of the loop holds of its end. -/
theorem compact_induct (hfree : ∃ f < t0.capacity, t0.slot f = none)
    (hk : Kept hash t0 i P) (hP : P t ii g) (fuel : Nat)
    (hfu : ∀ f < t0.capacity, ¬ OnPath i f ii → t0.slot f = none →
      dist t.capacity ii f < fuel) :
    ∃ ii' g', Compacting hash t0 i (compact hash fuel ii t) ii' g' ∧
      (compact hash fuel ii t).slot ii' = none ∧
      P (compact hash fuel ii t) ii' g' := by
  induction fuel generalizing t ii g with
  | zero =>
    obtain ⟨f, hf, hun, hno, -⟩ := hc.exists_free hfree
    have := hfu f (hc.capacity_eq ▸ hf) hun hno
    omega
  | succ fuel ih =>
    unfold compact
    cases hii : t.slot ii with
    | none => exact ⟨ii, g, hc, hii, hP⟩
    | some e =>
      have hpos : 0 < t.capacity := by have := hc.ii_lt; omega
      have hl : ∀ f < t0.capacity, ¬ OnPath i f (next t.capacity ii) → t0.slot f = none →
          dist t.capacity (next t.capacity ii) f < fuel := by
        intro f hf hun hno
        rw [← hc.capacity_eq] at hf
        have hun' : ¬(f = ii ∨ OnPath i f ii) := fun h => hun ((hc.scanned_next hfree hii hf).2 h)
        have h1 := hfu f (hc.capacity_eq ▸ hf) (fun h => hun' (Or.inr h)) hno
        have h2 := hc.ii_lt
        unfold dist next at *
        split at h1 <;> split <;> split <;> omega
      simp only [hc.walk_eq hpos hii]
      by_cases hg : OnPath (t.home hash e.1) g ii
      · simp only [if_pos hg, if_neg (hc.g_ne hii)]
        exact ih (hc.move hfree hii hg) (hk.move hc hP hii hg) (by simpa using hl)
      · simp only [if_neg hg, if_pos]
        exact ih (hc.stay hfree hii hg) (hk.stay hc hP hii hg) hl

end Compacting

/-- A property of the loop that holds at its start holds of the table it leaves. -/
theorem WF.removeAt_induct (h : t.WF hash) (hi : t.slot i = some e)
    (hk : Compacting.Kept hash t i P) (hst : P (t.put i none) (next t.capacity i) i) :
    ∃ t' ii g, t.removeAt hash i = some { t' with size := t.size - 1 } ∧
      Compacting hash t i t' ii g ∧ t'.slot ii = none ∧ P t' ii g := by
  obtain ⟨ii, g, hc, hii, hP⟩ := (Compacting.start h hi).compact_induct h.free hk hst t.capacity
    fun f hf _ _ => by
      rw [capacity_put]
      exact dist_lt (next_lt (lt_of_slot hi)) hf
  exact ⟨_, ii, g, by simp only [removeAt, hi], hc, hii, hP⟩

/-- **Removing keeps a table in order**: all other entries stay, one slot becomes free, and an
entry is afterwards in its own slot or in one on the way to it. -/
structure Removed (hash : K → Nat) (t : Table K V) (i : Nat) (t' : Table K V) : Prop where
  eq : t.removeAt hash i = some t'
  wf : t'.WF hash
  capacity_eq : t'.capacity = t.capacity
  perm : t'.slots.Perm (t.slots.set i none)
  occupied : ∀ p, (t'.slot p).isSome → (t.slot p).isSome
  moved : ∀ {p e}, t'.slot p = some e →
    ∃ p0, t.slot p0 = some e ∧ (p = p0 ∨ OnPath (t.home hash e.1) p p0)

theorem WF.removeAt (h : t.WF hash) (hi : t.slot i = some e) : ∃ t', Removed hash t i t' := by
  obtain ⟨t', ii, g, heq, hc, hii, -⟩ :=
    h.removeAt_induct (P := fun _ _ _ => True) hi
      ⟨fun _ _ _ _ => trivial, fun _ _ _ _ => trivial⟩ trivial
  refine ⟨_, heq, hc.finish h hi hii, hc.capacity_eq, hc.perm, fun p hp => ?_, fun {p e'} hp => ?_⟩
  · by_cases hpg : p = g
    · subst hpg
      exact hc.scanned p hc.g_lt hc.scanned_g
    · exact (hc.occupied p hpg).1 hp
  · obtain ⟨p0, hp0, hpa⟩ := hc.moved hp
    refine ⟨p0, hp0, ?_⟩
    rwa [home, hc.capacity_eq] at hpa

/-- The entry in slot `j` is one whose walk comes by slot `i` further down. -/
def Crosses (hash : K → Nat) (t : Table K V) (i j : Nat) : Prop :=
  i < j ∧ ∃ e, t.slot j = some e ∧ OnPath (t.home hash e.1) i j

/-- While no such entry has been met behind slot `i`, the gap is still there. -/
def Untouched (t : Table K V) (i : Nat) (t' : Table K V) (ii g : Nat) : Prop :=
  (∀ p, i < p → t'.slot p = t.slot p) ∧ g ≤ i ∧ (i < ii → g = i)

theorem Untouched.stay {ii g : Nat} (hc : Compacting hash t i t' ii g)
    (hP : Untouched t i t' ii g) : Untouched t i t' (next t'.capacity ii) g := by
  obtain ⟨hsa, hgle, hgi⟩ := hP
  refine ⟨hsa, hgle, fun hlt => hgi ?_⟩
  have := hc.ii_ne
  unfold next at hlt
  split at hlt <;> omega

theorem Untouched.move {ii g : Nat} (hno : ∀ j, ¬ Crosses hash t i j)
    (hc : Compacting hash t i t' ii g) (hP : Untouched t i t' ii g) (hii : t'.slot ii = some e)
    (hg : OnPath (t'.home hash e.1) g ii) :
    Untouched t i ((t'.put g (some e)).put ii none) (next t'.capacity ii) ii := by
  obtain ⟨hsa, hgle, hgi⟩ := hP
  have hne := hc.ii_ne
  -- behind `i` the gap is still at `i`, and the walk of the entry does not come by
  have hle : ii < i := by
    by_contra hii'
    have hii' : i < ii := by omega
    rw [hgi hii'] at hg
    rw [hsa ii hii'] at hii
    refine hno ii ⟨hii', e, hii, ?_⟩
    rwa [home, ← hc.capacity_eq]
  refine ⟨fun p hp => ?_, by omega, fun hlt' => ?_⟩
  · rw [hc.slot_move, if_neg (by omega), if_neg (by omega)]
    exact hsa p hp
  · unfold next at hlt'
    split at hlt' <;> omega

/-- Without such an entry, removing changes nothing behind the slot. -/
theorem Removed.behind (hr : Removed hash t i t') (h : t.WF hash) (hi : t.slot i = some e)
    (hno : ∀ j, ¬ Crosses hash t i j) : ∀ p, i < p → t'.slot p = t.slot p := by
  have hlt := lt_of_slot hi
  have hst : Untouched t i (t.put i none) (next t.capacity i) i :=
    ⟨fun p hp => by rw [slot_put t hlt, if_neg (by omega)], Nat.le_refl _, fun _ => rfl⟩
  obtain ⟨t', ii, g, heq, -, -, hP⟩ := h.removeAt_induct hi
    ⟨fun hc hP _ _ => Untouched.stay hc hP, Untouched.move hno⟩ hst
  rw [Option.some.inj (hr.eq.symm.trans heq)]
  exact hP.1

/-- Up to the first such entry the gap is at `i`; then the entry is there, and the gap stays
behind `i` if the walk of the entry goes past the last slot. -/
def Crossing (hash : K → Nat) (t : Table K V) (i : Nat) (t' : Table K V) (ii g : Nat) : Prop :=
  (i < ii ∧ g = i ∧ ∀ j, j < ii → ¬ Crosses hash t i j) ∨
    ∃ j e, i < j ∧ t.slot j = some e ∧ t'.slot i = some e ∧ OnPath i j ii ∧
      (t.home hash e.1 ≤ i ∨ (j < t.home hash e.1 ∧ i < g))

section
variable {t' : Table K V} {i ii g j0 : Nat} {e : K × V}

theorem Crosses.lt_capacity (h : Crosses hash t i j0) : j0 < t.capacity := by
  obtain ⟨-, e, he, -⟩ := h
  exact lt_of_slot he

theorem Compacting.home_eq (hc : Compacting hash t i t' ii g) (k : K) :
    t'.home hash k = t.home hash k := by
  rw [home, home, hc.capacity_eq]

theorem Crossing.start (hj0 : Crosses hash t i j0) :
    Crossing hash t i (t.put i none) (next t.capacity i) i := by
  have h1 := hj0.lt_capacity
  have h2 := hj0.1
  have hnext : next t.capacity i = i + 1 := by
    unfold next
    rw [if_neg (by omega)]
  refine Or.inl ⟨by omega, rfl, fun j hj hcr => ?_⟩
  have := hcr.1
  omega

theorem Crossing.stay (h : t.WF hash) (hj0 : Crosses hash t i j0) (hc : Compacting hash t i t' ii g)
    (hP : Crossing hash t i t' ii g) (hii : t'.slot ii = some e)
    (hg : ¬ OnPath (t'.home hash e.1) g ii) :
    Crossing hash t i t' (next t'.capacity ii) g := by
  have hiil := hc.ii_lt
  rcases hP with ⟨hlt, rfl, hno⟩ | ⟨j, e', hij, hj, hsl, hsc, hca⟩
  · have hst : ∀ j, j < ii + 1 → ¬ Crosses hash t g j := by
      intro j hj hcr
      rcases Nat.lt_succ_iff_lt_or_eq.1 hj with hj | rfl
      · exact hno j hj hcr
      · obtain ⟨-, e', hj', hpa⟩ := hcr
        rw [hc.unscanned j hiil (onPath_end _ _), hj'] at hii
        cases hii
        exact hg (by rwa [hc.home_eq])
    have hnext : next t'.capacity ii = ii + 1 := by
      refine if_neg fun hlast => hst j0 ?_ hj0
      rw [hlast, hc.capacity_eq]
      exact hj0.lt_capacity
    exact Or.inl ⟨by omega, rfl, fun j hj => hst j (hnext ▸ hj)⟩
  · have hjl : j < t'.capacity := hc.capacity_eq ▸ lt_of_slot hj
    exact Or.inr ⟨j, e', hij, hj, hsl, (hc.scanned_next h.free hii hjl).2 (Or.inr hsc), hca⟩

theorem Crossing.move (h : t.WF hash) (hc : Compacting hash t i t' ii g)
    (hP : Crossing hash t i t' ii g) (hii : t'.slot ii = some e)
    (hg : OnPath (t'.home hash e.1) g ii) :
    Crossing hash t i ((t'.put g (some e)).put ii none) (next t'.capacity ii) ii := by
  have hne := hc.ii_ne
  have hiil := hc.ii_lt
  rcases hP with ⟨hlt, rfl, hno⟩ | ⟨j, e', hij, hj, hsl, hsc, hca⟩
  · refine Or.inr ⟨ii, e, hlt, ?_, ?_, (hc.scanned_next h.free hii hiil).2 (Or.inl rfl), ?_⟩
    · rw [← hc.unscanned ii hiil (onPath_end _ _), hii]
    · rw [hc.slot_move, if_neg (by omega), if_pos rfl]
    · rw [hc.home_eq] at hg
      unfold OnPath at hg
      omega
  · have hjl : j < t'.capacity := hc.capacity_eq ▸ lt_of_slot hj
    refine Or.inr ⟨j, e', hij, hj, ?_, (hc.scanned_next h.free hii hjl).2 (Or.inr hsc), ?_⟩
    · rw [hc.slot_move, if_neg hne, if_neg, hsl]
      rintro rfl
      simp [hc.gap] at hsl
    · refine hca.imp id fun hg' => ⟨hg'.1, ?_⟩
      -- between the slot and the hash of the entry there is a free slot, and the loop has not come by
      obtain ⟨f, hf, hfun, hfn, -⟩ := hc.exists_free h.free
      have hfp : ¬ OnPath (t.home hash e'.1) f j := fun hon => by
        have := h.path hj f (hc.capacity_eq ▸ hf) hon
        simp [hfn] at this
      unfold OnPath at *
      omega

/-- With such entries, the first of them goes to the slot; and unless its hash is not behind the
slot, a slot behind becomes free. -/
theorem Removed.crossing (hr : Removed hash t i t') (h : t.WF hash) (hi : t.slot i = some e)
    (hj0 : Crosses hash t i j0) :
    ∃ j e', i < j ∧ t.slot j = some e' ∧ t'.slot i = some e' ∧
      (t.home hash e'.1 ≤ i ∨ ∃ g, i < g ∧ (t.slot g).isSome ∧ t'.slot g = none) := by
  obtain ⟨t', ii, g, heq, hc, hii, hP⟩ := h.removeAt_induct hi
    ⟨Crossing.stay h hj0, Crossing.move h⟩ (Crossing.start hj0)
  rcases hP with ⟨hlt, rfl, hno⟩ | ⟨j, e', hij, hj, hsl, -, hca⟩
  · -- the walk of the entry would come by a free slot
    have hji : ¬ j0 < ii := fun hlt => hno j0 hlt hj0
    obtain ⟨hij, e', hj, hpa⟩ := hj0
    have hun := hc.unscanned ii hc.ii_lt (onPath_end _ _)
    rw [hii] at hun
    have hne : j0 ≠ ii := by
      rintro rfl
      simp [hj] at hun
    have hon : OnPath (t.home hash e'.1) ii j0 := by
      unfold OnPath at *
      omega
    have := h.path hj ii (hc.capacity_eq ▸ hc.ii_lt) hon
    simp [← hun] at this
  · rw [Option.some.inj (hr.eq.symm.trans heq)]
    refine ⟨j, e', hij, hj, hsl, hca.imp id fun hg => ⟨g, hg.2, ?_, hc.gap⟩⟩
    exact hc.scanned g hc.g_lt hc.scanned_g

end

variable [DecidableEq K]

/-- Removing a key; `none` if it is not there. -/
def remove (hash : K → Nat) (t : Table K V) (k : K) : Option (Table K V) :=
  (t.find hash k).bind (t.removeAt hash)

/-- **Removing a key changes what is found for it, and nothing else.** -/
theorem Sound.remove {g : Policy} (h : t.Sound hash g) {k : K} {v : V}
    (hk : t.get hash k = some v) :
    ∃ t', t.remove hash k = some t' ∧ t'.Sound hash g ∧
      ∀ k', t'.get hash k' = if k' = k then none else t.get hash k' := by
  obtain ⟨p, hp⟩ := h.get_eq_some_iff.1 hk
  obtain ⟨t', heq, hwf, hcap, hpe, -, -⟩ := h.toWF.removeAt hp
  have hlt := lt_of_slot hp
  have hsi : t'.size ≤ t.size := by
    rw [hwf.size_eq, h.size_eq, hpe.countP_eq, List.countP_set hlt]
    simp
  have hmem : ∀ e, (∃ q, t'.slot q = some e) ↔ e.1 ≠ k ∧ ∃ q, t.slot q = some e := by
    intro e
    rw [← mem_slots_iff, hpe.mem_iff, show t.slots.set p none = (t.put p none).slots from rfl,
      mem_slots_iff, h.exists_slot_put hp]
    simp
  refine ⟨t', by simp [Table.remove, h.find_of_slot hp, heq], ⟨hwf, ?_⟩, fun k' => ?_⟩
  · have := h.below
    rw [hcap]
    omega
  · split
    · rename_i hk'
      subst hk'
      exact hwf.get_eq_none_iff.2 fun q w hq => ((hmem _).1 ⟨q, hq⟩).1 rfl
    · rename_i hk'
      ext w
      rw [hwf.get_eq_some_iff, h.get_eq_some_iff, hmem]
      simp [hk']

end Table

end Probing
