import Mathlib
/-!
# Sorting by insertion among other elements

Elements are put before the first one with a larger key. Only marked elements are put in this way;
the others are appended, and they are in the list with their keys. `Ordered` is what holds of such
a list: before a marked element no key is larger.
-/
namespace StableSort
open List

variable {α κ : Type} [LinearOrder κ] {key : α → κ} {marked : α → Bool}

def insertByKey (key : α → κ) (x : α) : List α → List α
  | [] => [x]
  | a :: l => if key x < key a then x :: a :: l else a :: insertByKey key x l

variable {x : α} {l : List α}

theorem mem_insertByKey {b : α} : b ∈ insertByKey key x l ↔ b = x ∨ b ∈ l := by
  induction l with
  | nil => simp [insertByKey]
  | cons a l ih =>
    rw [insertByKey]
    split
    · simp
    · simp [ih, or_left_comm]

def Ordered (key : α → κ) (marked : α → Bool) (l : List α) : Prop :=
  l.Pairwise fun a b => marked b = true → key a ≤ key b

theorem ordered_nil : Ordered key marked [] := List.Pairwise.nil

theorem Ordered.lt_of_lt {a : α} (h : Ordered key marked (a :: l)) (hlt : key x < key a) {b : α}
    (hb : b ∈ a :: l) (hm : marked b = true) : key x < key b := by
  rcases mem_cons.1 hb with rfl | hb
  · exact hlt
  · exact lt_of_lt_of_le hlt ((pairwise_cons.1 h).1 b hb hm)

theorem Ordered.insertByKey (h : Ordered key marked l) :
    Ordered key marked (insertByKey key x l) := by
  induction l with
  | nil => exact pairwise_singleton _ _
  | cons a l ih =>
    rw [StableSort.insertByKey]
    split
    · rename_i hlt
      refine pairwise_cons.2 ⟨?_, h⟩
      intro b hb hm
      exact le_of_lt (h.lt_of_lt hlt hb hm)
    · rename_i hle
      obtain ⟨ha, hl⟩ := pairwise_cons.1 h
      refine pairwise_cons.2 ⟨?_, ih hl⟩
      intro b hb hm
      rcases mem_insertByKey.1 hb with rfl | hb
      · exact le_of_not_gt hle
      · exact ha b hb hm

theorem Ordered.concat (h : Ordered key marked l) (hx : marked x = false) :
    Ordered key marked (l ++ [x]) := by
  refine pairwise_append.2 ⟨h, pairwise_singleton _ _, ?_⟩
  intro a _ b hb hm
  rw [mem_singleton.1 hb, hx] at hm
  cases hm

/-- A new element is the last one with its key. -/
theorem Ordered.filter_insertByKey (h : Ordered key marked l) (k : κ) :
    (StableSort.insertByKey key x l).filter (fun a => marked a && decide (key a = k)) =
      l.filter (fun a => marked a && decide (key a = k)) ++ [x].filter fun a =>
      marked a && decide (key a = k) := by
  induction l with
  | nil => rfl
  | cons a l ih =>
    rw [StableSort.insertByKey]
    split
    · rename_i hlt
      by_cases hx : marked x = true ∧ key x = k
      · -- what stands behind has larger keys
        have hno : (a :: l).filter (fun a => marked a && decide (key a = k)) = [] := by
          apply filter_eq_nil_iff.2
          intro b hb hq
          simp only [Bool.and_eq_true, decide_eq_true_eq] at hq
          have hgt := h.lt_of_lt hlt hb hq.1
          rw [hx.2, hq.2] at hgt
          exact lt_irrefl _ hgt
        rw [filter_cons, hno]
        simp [hx]
      · have hnot : (marked x && decide (key x = k)) = false := by simpa using hx
        simp [filter_cons, hnot]
    · rw [filter_cons, filter_cons, ih (pairwise_cons.1 h).2]
      split <;> simp

theorem eq_of_filter_eq {m : List α} (hl : l.Pairwise fun a b => key a ≤ key b)
    (hm : m.Pairwise fun a b => key a ≤ key b)
    (h : ∀ k, l.filter (fun a => decide (key a = k)) = m.filter fun a => decide (key a = k)) :
    l = m := by
  induction l generalizing m with
  | nil =>
    cases m with
    | nil => rfl
    | cons b m =>
      have hb := h (key b)
      simp at hb
  | cons a l ih =>
    cases m with
    | nil =>
      have ha := h (key a)
      simp at ha
    | cons b m =>
      obtain ⟨ha, hl'⟩ := pairwise_cons.1 hl
      obtain ⟨hb, hm'⟩ := pairwise_cons.1 hm
      -- each of the two heads is in the other list
      have hab : key a ≤ key b := by
        have hmem : b ∈ (a :: l).filter fun c => decide (key c = key b) := by
          rw [h]
          simp
        rcases mem_cons.1 (mem_filter.1 hmem).1 with rfl | hmem
        · exact le_refl _
        · exact ha b hmem
      have hba : key b ≤ key a := by
        have hmem : a ∈ (b :: m).filter fun c => decide (key c = key a) := by
          rw [← h]
          simp
        rcases mem_cons.1 (mem_filter.1 hmem).1 with rfl | hmem
        · exact le_refl _
        · exact hb a hmem
      have hkey : key a = key b := le_antisymm hab hba
      have hh : a = b := by
        have hk := h (key a)
        simp [hkey] at hk
        exact hk.1
      subst hh
      congr 1
      refine ih hl' hm' fun k => ?_
      have hk := h k
      by_cases heq : key a = k <;> simpa [filter_cons, heq] using hk

end StableSort
