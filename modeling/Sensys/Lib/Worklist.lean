import Mathlib.Data.Finset.Card
import Mathlib.Logic.Hydra
import Mathlib.Logic.Relation
/-!
# Worklists over a finite graph

A worklist takes its first element away and puts elements that the graph joins to it at the end.
When every element put back is below the one taken, the list runs empty (`wellFounded_step`); the
edges of a finite graph that lead to another node are such an order as long as no two different
nodes reach each other (`wellFounded_strict`).
-/
namespace Worklist
open Relation

variable {α : Type} {E : α → α → Prop}

/-- A path to another node has a first step to another node. -/
theorem exists_leaving {a b : α} (h : ReflTransGen E a b) (hne : a ≠ b) :
    ∃ c, E a c ∧ c ≠ a ∧ ReflTransGen E c b := by
  induction h using ReflTransGen.head_induction_on with
  | refl => exact absurd rfl hne
  | head hac hcb ih =>
    rename_i a c
    by_cases hc : c = a
    · subst hc; exact ih hne
    · exact ⟨c, hac, hc, hcb⟩

/-- In a finite graph where no two nodes reach each other, following edges to other nodes ends. -/
theorem wellFounded_strict (s : Finset α) (hs : ∀ a b, E a b → b ∈ s)
    (hno : ∀ a b, ReflTransGen E a b → ReflTransGen E b a → a = b) :
    WellFounded fun b a => E a b ∧ b ≠ a := by
  classical
  -- the other nodes that can be reached get fewer with each step
  let rank : α → Nat := fun a => (s.filter fun c => c ≠ a ∧ ReflTransGen E a c).card
  refine Subrelation.wf (fun {b a} hba => ?_) (measure rank).wf
  obtain ⟨hab, hne⟩ := hba
  apply Finset.card_lt_card
  rw [Finset.ssubset_iff_of_subset]
  · refine ⟨b, ?_, by simp⟩
    rw [Finset.mem_filter]
    exact ⟨hs a b hab, hne, ReflTransGen.single hab⟩
  · intro c hc
    rw [Finset.mem_filter] at hc ⊢
    obtain ⟨hcs, _, hbc⟩ := hc
    refine ⟨hcs, ?_, ReflTransGen.head hab hbc⟩
    rintro rfl
    exact hne (hno b c hbc (ReflTransGen.single hab))

/-- One turn of a worklist: the first element goes, elements below it come in at the end. -/
def Step (r : α → α → Prop) (l' l : List α) : Prop :=
  ∃ a rest added, l = a :: rest ∧ l' = rest ++ added ∧ ∀ b ∈ added, r b a

theorem wellFounded_step {r : α → α → Prop} (h : WellFounded r) : WellFounded (Step r) := by
  refine Subrelation.wf (fun {l' l} hst => ?_)
    (InvImage.wf (fun l : List α => (l : Multiset α)) h.cutExpand)
  obtain ⟨a, rest, added, rfl, rfl, hr⟩ := hst
  refine ⟨added, a, fun b hb => hr b (by simpa using hb), ?_⟩
  rw [← Multiset.coe_singleton, Multiset.coe_add, Multiset.coe_add, Multiset.coe_eq_coe]
  exact List.perm_append_singleton a (rest ++ added)

end Worklist
