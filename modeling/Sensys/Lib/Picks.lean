import Mathlib.Data.List.Basic
import Mathlib.Data.List.Forall2
/-!
# Picking elements in order

A list is gone through once. The first element of the first kind is taken, then the first one of
the next kind behind it, and so on. This finds an element of each kind, in order, if there are
such elements at all, and it looks no further than needed.
-/
namespace Picks

variable {τ α : Type} {has : τ → α → Bool} {ts : List τ} {l picks rest : List α}

/-- What is picked, and what is left behind the last of it. -/
def pick (has : τ → α → Bool) : List τ → List α → Option (List α × List α)
  | [], l => some ([], l)
  | _ :: _, [] => none
  | t :: ts, a :: l => if has t a then (pick has ts l).map fun r =>
    (a :: r.1, r.2) else pick has (t :: ts) l

/-- There are elements of these kinds, in this order. -/
def HasInOrder (has : τ → α → Bool) (ts : List τ) (l : List α) : Prop :=
  ∃ picks, picks.Sublist l ∧ List.Forall₂ (fun t a => has t a = true) ts picks

theorem HasInOrder.mono {l m : List α} (h : HasInOrder has ts l) (hsub : l.Sublist m) :
    HasInOrder has ts m := by
  obtain ⟨picks, hpi, hall⟩ := h
  exact ⟨picks, hpi.trans hsub, hall⟩

theorem pick_eq_some (h : pick has ts l = some (picks, rest)) :
    ∃ used, l = used ++ rest ∧ picks.Sublist used ∧
      List.Forall₂ (fun t a => has t a = true) ts picks := by
  fun_induction pick has ts l generalizing picks with
  | case1 l =>
    cases h
    exact ⟨[], rfl, .slnil, .nil⟩
  | case2 => cases h
  | case3 t ts a l ha ih =>
    obtain ⟨⟨picks', rest'⟩, hpi, heq⟩ := Option.map_eq_some_iff.1 h
    cases heq
    obtain ⟨used, rfl, hsub, hall⟩ := ih hpi
    exact ⟨a :: used, rfl, hsub.cons_cons a, .cons ha hall⟩
  | case4 t ts a l ha ih =>
    obtain ⟨used, rfl, hsub, hall⟩ := ih h
    exact ⟨a :: used, rfl, hsub.cons a, hall⟩

theorem pick_append (h : pick has ts l = some (picks, rest)) (m : List α) :
    pick has ts (l ++ m) = some (picks, rest ++ m) := by
  fun_induction pick has ts l generalizing picks with
  | case1 l =>
    cases h
    rw [pick]
  | case2 => cases h
  | case3 t ts a l ha ih =>
    obtain ⟨⟨picks', rest'⟩, hpi, heq⟩ := Option.map_eq_some_iff.1 h
    cases heq
    rw [List.cons_append, pick, if_pos ha, ih hpi]
    rfl
  | case4 t ts a l ha ih => rw [List.cons_append, pick, if_neg ha, ih h]

theorem exists_pick_iff {l : List α} : (∃ r, pick has ts l = some r) ↔ HasInOrder has ts l := by
  constructor
  · rintro ⟨⟨picks, rest⟩, h⟩
    obtain ⟨used, rfl, hsub, hall⟩ := pick_eq_some h
    exact ⟨picks, hsub.trans (List.sublist_append_left _ _), hall⟩
  · intro h
    induction l generalizing ts with
    | nil =>
      obtain ⟨picks, hsub, hall⟩ := h
      cases hsub
      cases hall
      exact ⟨_, rfl⟩
    | cons a l ih =>
      obtain ⟨picks, hsub, hall⟩ := h
      cases hall with
      | nil => exact ⟨_, rfl⟩
      | @cons t b ts picks hb hall =>
        rw [pick]
        split
        · -- an earlier element does as well
          have hta : picks.Sublist l := by
            cases hsub with
            | cons _ hsub => exact (List.sublist_cons_self b picks).trans hsub
            | cons_cons _ hsub => exact hsub
          obtain ⟨r, hr⟩ := ih ⟨picks, hta, hall⟩
          exact ⟨_, by rw [hr, Option.map_some]⟩
        · rename_i ha
          cases hsub with
          | cons _ hsub => exact ih ⟨b :: picks, hsub, .cons hb hall⟩
          | cons_cons _ hsub => exact absurd hb ha

end Picks
