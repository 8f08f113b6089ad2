import Mathlib.Logic.Function.Basic
/-!
# Partial maps under `Function.update`

What an entry of a partial map holds after one entry was cleared or set.
-/
namespace Maps

variable {α β : Type} [DecidableEq α] {f : α → Option β} {a i : α} {x y : β}

theorem update_none_eq_some_iff : Function.update f a none i = some x ↔ i ≠ a ∧ f i = some x := by
  by_cases hi : i = a <;> simp [Function.update_apply, hi]

theorem update_some_eq_some_iff :
    Function.update f a (some y) i = some x ↔ i = a ∧ y = x ∨ i ≠ a ∧ f i = some x := by
  by_cases hi : i = a <;> simp [Function.update_apply, hi]

end Maps
