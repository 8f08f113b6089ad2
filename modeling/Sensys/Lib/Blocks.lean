import Mathlib.Data.List.Dedup
import Mathlib.Data.List.Nodup
/-!
# Elements by their places, and by their blocks

Two lists are the same if each element has the same place in both. A list of blocks with distinct
tags is the same as another one if the tags of the blocks that are not empty come in the same
order, and the blocks with the same tag are the same.
-/
namespace Blocks
open List

/-! ## Places -/

section
variable {α ν : Type} {label : Nat → ν} {l : List α}

/-- Each element with the label of its place. -/
def labelled (label : Nat → ν) (l : List α) : List (ν × α) := l.zipIdx.map fun x => (label x.2, x.1)

theorem mem_labelled {p : ν × α} :
    p ∈ labelled label l ↔ ∃ i, l[i]? = some p.2 ∧ label i = p.1 := by
  simp only [labelled, mem_map, Prod.exists]
  constructor
  · rintro ⟨a, i, hmem, rfl⟩
    exact ⟨i, mem_zipIdx_iff_getElem?.1 hmem, rfl⟩
  · rintro ⟨i, hi, hl⟩
    exact ⟨p.2, i, mem_zipIdx_iff_getElem?.2 hi, by rw [hl]⟩

theorem mem_labelled_iff (hinj : Function.Injective label) {i : Nat} {a : α} :
    (label i, a) ∈ labelled label l ↔ l[i]? = some a := by
  rw [mem_labelled]
  constructor
  · rintro ⟨j, hj, heq⟩
    rw [← hinj heq]
    exact hj
  · intro h
    exact ⟨i, h, rfl⟩

theorem labelled_eq_iff (hinj : Function.Injective label) {l m : List α} :
    (∀ p, p ∈ labelled label l ↔ p ∈ labelled label m) ↔ l = m := by
  constructor
  · intro h
    ext i a
    rw [← mem_labelled_iff hinj, ← mem_labelled_iff hinj]
    exact h (label i, a)
  · rintro rfl p
    rfl

end

/-! ## Blocks -/

section
variable {δ ν γ : Type} {name : δ → ν} {block : δ → List γ} {ds ds' : List δ}

/-- The elements of all blocks, with the tags. -/
def tagged (name : δ → ν) (block : δ → List γ) (ds : List δ) : List (ν × γ) :=
  ds.flatMap fun d => (block d).map fun c => (name d, c)

/-- The blocks that are not empty. -/
def full (block : δ → List γ) (ds : List δ) : List δ := ds.filter fun d => !(block d).isEmpty

theorem mem_tagged {ds : List δ} {p : ν × γ} :
    p ∈ tagged name block ds ↔ ∃ d ∈ ds, name d = p.1 ∧ p.2 ∈ block d := by
  simp only [tagged, mem_flatMap, mem_map]
  constructor
  · rintro ⟨d, hd, c, hc, rfl⟩
    exact ⟨d, hd, rfl, hc⟩
  · rintro ⟨d, hd, hname, hc⟩
    exact ⟨d, hd, p.2, hc, by rw [hname]⟩

theorem tagged_full (ds : List δ) : tagged name block (full block ds) = tagged name block ds := by
  induction ds with
  | nil => rfl
  | cons d ds ih =>
    unfold tagged full at ih ⊢
    cases hbl : block d with
    | nil | cons c l => simp [hbl, ih]

theorem tagged_eq_of_full (hna : ds.map name = ds'.map name)
    (hbl : ∀ d ∈ ds, ∀ d' ∈ ds', name d = name d' → block d = block d') :
    tagged name block ds = tagged name block ds' := by
  induction ds generalizing ds' with
  | nil =>
    cases ds' with
    | nil => rfl
    | cons => simp at hna
  | cons d ds ih =>
    cases ds' with
    | nil => simp at hna
    | cons d' ds' =>
      obtain ⟨hname, hna⟩ := List.cons.inj hna
      have hblo := hbl d mem_cons_self d' mem_cons_self hname
      have hre := ih hna fun e he e' he' => hbl e (mem_cons_of_mem _ he) e' (mem_cons_of_mem _ he')
      unfold tagged at hre ⊢
      rw [flatMap_cons, flatMap_cons, hname, hblo, hre]

variable [DecidableEq ν]

theorem filter_tagged {ds : List δ} (hno : (ds.map name).Nodup) {d : δ} (hd : d ∈ ds) :
    (tagged name block ds).filter (fun p => decide (p.1 = name d)) = (block d).map fun c =>
      (name d, c) := by
  induction ds with
  | nil => cases hd
  | cons a ds ih =>
    obtain ⟨ha, hno⟩ := nodup_cons.1 hno
    have hsp : tagged name block (a :: ds) = ((block a).map fun c => (name a, c)) ++
      tagged name block ds := rfl
    rw [hsp, filter_append]
    rcases mem_cons.1 hd with rfl | hd
    · have hre : (tagged name block ds).filter (fun p => decide (p.1 = name d)) = [] := by
        apply filter_eq_nil_iff.2
        intro p hp hname
        obtain ⟨d', hd', heq, _⟩ := mem_tagged.1 hp
        exact ha (of_decide_eq_true hname ▸ heq ▸ mem_map_of_mem hd')
      rw [hre, filter_map]
      simp [Function.comp_def]
    · have hne : name a ≠ name d := fun heq => ha (heq ▸ mem_map_of_mem hd)
      rw [filter_map, ih hno hd]
      simp [Function.comp_def, hne]

theorem dedup_tags {ds : List δ} (hno : (ds.map name).Nodup) :
    ((tagged name block ds).map Prod.fst).dedup = (full block ds).map name := by
  induction ds with
  | nil => rfl
  | cons a ds ih =>
    obtain ⟨ha, hno⟩ := nodup_cons.1 hno
    have hnot : name a ∉ (tagged name block ds).map Prod.fst := by
      intro hmem
      obtain ⟨p, hp, heq⟩ := mem_map.1 hmem
      obtain ⟨d, hd, hname, _⟩ := mem_tagged.1 hp
      exact ha (heq ▸ hname ▸ mem_map_of_mem hd)
    have hsp : (tagged name block (a :: ds)).map Prod.fst =
        ((block a).map fun _ => name a) ++ (tagged name block ds).map Prod.fst := by
      simp [tagged, Function.comp_def]
    rw [hsp]
    cases hbl : block a with
    | nil => simpa [full, hbl] using ih hno
    | cons c l =>
      -- the last of the equal tags is the one that is kept
      have hlast : ∀ l : List γ,
        (((c :: l).map fun _ => name a) ++ (tagged name block ds).map Prod.fst).dedup =
          name a :: ((tagged name block ds).map Prod.fst).dedup := by
        intro l
        induction l with
        | nil => exact dedup_cons_of_notMem hnot
        | cons c' l ihl =>
          rw [map_cons, cons_append, dedup_cons_of_mem (by simp)]
          exact ihl
      rw [hlast, ih hno]
      simp [full, hbl]

theorem tagged_eq_iff (hno : (ds.map name).Nodup) (hno' : (ds'.map name).Nodup) :
    tagged name block ds = tagged name block ds' ↔
      (full block ds).map name = (full block ds').map name ∧ ∀ d ∈ ds, ∀ d' ∈ ds',
      name d = name d' → block d = block d' := by
  constructor
  · intro heq
    constructor
    · rw [← dedup_tags hno, ← dedup_tags hno', heq]
    · intro d hd d' hd' hname
      have hf := @filter_tagged _ _ _ name block _ ds hno d hd
      rw [heq, hname, filter_tagged hno' hd'] at hf
      exact (map_injective_iff.2 (fun c c' h => (Prod.mk.inj h).2) hf).symm
  · rintro ⟨hna, hbl⟩
    rw [← tagged_full ds, ← tagged_full ds']
    refine tagged_eq_of_full hna fun d hd d' hd' => ?_
    exact hbl d (mem_filter.1 hd).1 d' (mem_filter.1 hd').1

end

end Blocks
