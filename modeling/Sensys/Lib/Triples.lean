import Mathlib
/-!
# Triples of programs with exits

Programs with a state that may exit with an error are `EStateM` programs, and what they do is said
with triples of `Std.Do`. `triple_iff` says what a triple means for a run, and `forM_spec` is the
rule for a loop over a list.
-/
namespace Triples
open Std.Do
set_option mvcgen.warning false

theorem triple_iff {ε σ α : Type} {x : EStateM ε σ α} {P : σ → Prop} {Q : α → σ → Prop}
    {E : ε → σ → Prop} :
    ⦃fun s => ⌜P s⌝⦄ x ⦃post⟨fun a s => ⌜Q a s⌝, fun e s => ⌜E e s⌝⟩⦄ ↔
      ∀ s, P s → match x.run s with
        | .ok a s' => Q a s'
        | .error e s' => E e s' := by
  apply forall_congr'
  intro s
  apply imp_congr_right
  cases h : x.run s <;> simp [WP.wp, PredTrans.apply, h]

theorem exists_spec {ε σ α β : Type} {x : EStateM ε σ α} {P : β → σ → Prop} {Q : α → σ → Prop}
    {E : ε → σ → Prop}
    (h : ∀ b, ⦃fun s => ⌜P b s⌝⦄ x ⦃post⟨fun a s => ⌜Q a s⌝, fun e s => ⌜E e s⌝⟩⦄) :
    ⦃fun s => ⌜∃ b, P b s⌝⦄ x ⦃post⟨fun a s => ⌜Q a s⌝, fun e s => ⌜E e s⌝⟩⦄ := by
  rw [triple_iff]
  rintro s ⟨b, hb⟩
  exact triple_iff.1 (h b) s hb

/-- From the states of `P` the program ends in one of `Q` or exits in one of `E`. -/
abbrev Leads {ε σ α : Type} (P : σ → Prop) (x : EStateM ε σ α) (Q E : σ → Prop) : Prop :=
  ⦃fun s => ⌜P s⌝⦄ x ⦃post⟨fun _ s => ⌜Q s⌝, fun _ s => ⌜E s⌝⟩⦄

/-- However the program ends, `P` is kept. -/
abbrev Keeps {ε σ α : Type} (P : σ → Prop) (x : EStateM ε σ α) : Prop := Leads P x P P

variable {m : Type → Type} {ps : PostShape} [Monad m] [WPMonad m ps] {α : Type} {l : List α}
  {f : α → m PUnit}

/-- **Loops**: the invariant may speak of the elements that are done. -/
theorem forM_spec (I : List α → Assertion ps) (E : ExceptConds ps)
    (h : ∀ done a, ⦃I done⦄ f a ⦃(fun _ => I (done ++ [a]), E)⦄) :
    ⦃I []⦄ l.forM f ⦃(fun _ => I l, E)⦄ := by
  suffices hall : ∀ done, ⦃I done⦄ l.forM f ⦃(fun _ => I (done ++ l), E)⦄ from hall []
  induction l with
  | nil =>
    intro done
    change Triple (pure PUnit.unit : m PUnit) _ _
    rw [List.append_nil]
    mvcgen
  | cons a l ih =>
    intro done
    change Triple (f a >>= fun _ => l.forM f) _ _
    have hst := h done a
    have hre := ih (done ++ [a])
    rw [List.append_assoc, List.singleton_append] at hre
    mvcgen [hst, hre]

theorem forM_invariant {I : Assertion ps} {E : ExceptConds ps}
    (h : ∀ a, ⦃I⦄ f a ⦃(fun _ => I, E)⦄) : ⦃I⦄ l.forM f ⦃(fun _ => I, E)⦄ :=
  forM_spec (fun _ => I) E fun _ a => h a

end Triples
