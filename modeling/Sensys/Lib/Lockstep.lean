import Sensys.Lib.Results
/-!
# Folds that may fail

Two computations that may fail are in lockstep if they fail in the same way or give related results.
A fold keeps that, with a relation that may speak of what is still to come.
-/
namespace Lockstep
open List

variable {ε α β γ δ : Type}

/-- The same failure, or related results. -/
inductive Rel (R : α → β → Prop) : Except ε α → Except ε β → Prop
  | ok {a : α} {b : β} (h : R a b) : Rel R (.ok a) (.ok b)
  | error (e : ε) : Rel R (.error e) (.error e)

variable {R : α → β → Prop} {l : List γ} {a : α} {f : α → γ → Except ε α} {b : β} {S : γ → δ → Prop}
  {x : Except ε α} {y : Except ε β}
  {r : α}

theorem Rel.bind {f : α → Except ε γ}
    {g : β → Except ε δ} (h : Rel R x y) (hfg : ∀ a b, R a b → Rel S (f a) (g b)) :
    Rel S (x.bind f) (y.bind g) := by
  cases h with
  | ok h => exact hfg _ _ h
  | error e => exact .error e

/-- **A fold keeps what each of its steps keeps.** -/
theorem Rel.foldlM {g : β → γ → Except ε β} (R : List γ → α → β → Prop)
    (hst : ∀ c rest a b, R (c :: rest) a b → Rel (R rest) (f a c) (g b c)) (h : R l a b) :
    Rel (R []) (l.foldlM f a) (l.foldlM g b) := by
  induction l generalizing a b with
  | nil => exact .ok h
  | cons c rest ih =>
    exact (hst c rest a b h).bind fun _ _ h => ih h

/-- What every step keeps, a fold that comes to its end has kept. -/
theorem foldlM_invariant {P : α → Prop} (hst : ∀ a c a', P a → f a c = .ok a' → P a') (ha : P a)
    (h : l.foldlM f a = .ok r) : P r := by
  induction l generalizing a with
  | nil =>
    cases h
    exact ha
  | cons c rest ih =>
    obtain ⟨a', hf, hre⟩ := Results.exists_of_bind_ok h
    exact ih (hst a c a' ha hf) hre

end Lockstep
