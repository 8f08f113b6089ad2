/-!
# Runs of a partial step function

A system is a `step : σ → α → Option σ`; `none` means the action is not possible in that
state. `run` folds a list of actions, `Along C` says that every step of the run meets the
condition `C` in the state it starts from. `run_induction` is the only induction over runs:
an invariant may speak of the actions done so far, so history is never kept in the state.
-/
namespace Run

variable {σ α : Type}

/-- The state after a list of actions, if every one of them is possible. -/
def run (step : σ → α → Option σ) : σ → List α → Option σ
  | s, [] => some s
  | s, a :: as =>
    match step s a with
    | some s' => run step s' as
    | none => none

/-- Every step of the run meets `C`. Nothing is asked beyond an impossible action. -/
def Along (step : σ → α → Option σ) (C : σ → α → Prop) : σ → List α → Prop
  | _, [] => True
  | s, a :: as =>
    C s a ∧ match step s a with
      | some s' => Along step C s' as
      | none => True

/-- What the steps of a run give out, in order; `out` sees the state the step starts from. -/
def emitted {β : Type} (step : σ → α → Option σ) (out : σ → α → List β) : σ → List α → List β
  | _, [] => []
  | s, a :: as =>
    out s a ++ match step s a with
      | some s' => emitted step out s' as
      | none => []

instance decidableAlong (step : σ → α → Option σ) (C : σ → α → Prop) [∀ s a, Decidable (C s a)] :
    ∀ (s : σ) (as : List α), Decidable (Along step C s as)
  | _, [] => isTrue trivial
  | s, a :: as =>
    match h : step s a with
    | some s' =>
      have := decidableAlong step C s' as
      decidable_of_iff (C s a ∧ Along step C s' as) (by simp only [Along, h])
    | none => decidable_of_iff (C s a) (by simp only [Along, h, and_true])

/-- What holds where a run ends can be computed. -/
instance decidableReaches {P : σ → Prop} [DecidablePred P] :
    (o : Option σ) → Decidable (∃ s, o = some s ∧ P s)
  | none => isFalse (by simp)
  | some s => decidable_of_iff (P s) (by simp)

variable {step : σ → α → Option σ} {C D : σ → α → Prop}

variable {s t : σ} {as : List α} {a : α}

theorem run_cons {s' : σ} (h : run step s (a :: as) = some s') :
    ∃ t, step s a = some t ∧ run step t as = some s' := by
  simp only [run] at h
  split at h
  · rename_i t ht; exact ⟨t, ht, h⟩
  · cases h

theorem run_append (s : σ) (as bs : List α) :
    run step s (as ++ bs) = (run step s as).bind (run step · bs) := by
  induction as generalizing s with
  | nil => rfl
  | cons a as ih =>
    simp only [List.cons_append, run]
    cases step s a with
    | none => rfl
    | some t => exact ih t

theorem run_snoc {u : σ} (h : run step s as = some t) (ha : step t a = some u) :
    run step s (as ++ [a]) = some u := by
  simp [run_append, h, run, ha]

theorem emitted_snoc {β : Type} {out : σ → α → List β} (h : run step s as = some t) (a : α) :
    emitted step out s (as ++ [a]) = emitted step out s as ++ out t a := by
  induction as generalizing s with
  | nil =>
    cases h
    rw [List.nil_append, emitted, emitted, List.nil_append]
    cases step t a <;> simp [emitted]
  | cons b as ih =>
    obtain ⟨u, hu, hre⟩ := run_cons h
    simp only [List.cons_append, emitted, hu, List.append_assoc]
    rw [ih hre]

theorem along_cons (h : Along step C s (a :: as)) (ht : step s a = some t) :
    C s a ∧ Along step C t as := by
  simpa only [Along, ht] using h

theorem along_append {bs : List α} (h : Along step C s (as ++ bs))
    (ht : run step s as = some t) : Along step C s as ∧ Along step C t bs := by
  induction as generalizing s with
  | nil => cases ht; exact ⟨trivial, h⟩
  | cons a as ih =>
    obtain ⟨u, hu, hr⟩ := run_cons ht
    have h' : Along step C s (a :: (as ++ bs)) := h
    obtain ⟨hc, hre⟩ := along_cons h' hu
    obtain ⟨h1, h2⟩ := ih hre hr
    exact ⟨by simpa only [Along, hu] using ⟨hc, h1⟩, h2⟩

/-- A stronger condition on each step is met along the same run. -/
theorem Along.mono (hCD : ∀ s a, C s a → D s a) (h : Along step C s as) : Along step D s as := by
  induction as generalizing s with
  | nil => trivial
  | cons a as ih =>
    refine ⟨hCD s a h.1, ?_⟩
    cases hs : step s a with
    | none => trivial
    | some t => exact ih (along_cons h hs).2

theorem along_of_forall {P : α → Prop} (h : ∀ a ∈ as, P a) (s : σ) :
    Along step (fun _ a => P a) s as := by
  induction as generalizing s with
  | nil => trivial
  | cons a as ih =>
    refine ⟨h a (by simp), ?_⟩
    cases step s a with
    | none => trivial
    | some t => exact ih (fun b hb => h b (by simp [hb])) t

theorem Along.and (h : Along step C s as) (h' : Along step D s as) :
    Along step (fun s a => C s a ∧ D s a) s as := by
  induction as generalizing s with
  | nil => trivial
  | cons a as ih =>
    refine ⟨⟨h.1, h'.1⟩, ?_⟩
    cases hs : step s a with
    | none => trivial
    | some t => exact ih (along_cons h hs).2 (along_cons h' hs).2

theorem along_of_invariant {I : σ → Prop}
    (hst : ∀ s a, I s → C s a → D s a ∧ ∀ s', step s a = some s' → I s') (hI : I s)
    (h : Along step C s as) : Along step D s as := by
  induction as generalizing s with
  | nil => trivial
  | cons a as ih =>
    obtain ⟨hd, hnext⟩ := hst s a hI h.1
    refine ⟨hd, ?_⟩
    cases hs : step s a with
    | none => trivial
    | some t => exact ih (hnext t hs) (along_cons h hs).2

/-- A run comes to its end if each of its actions is possible. -/
theorem isSome_run_iff :
    (run step s as).isSome = true ↔ Along step (fun s a => (step s a).isSome = true) s as := by
  induction as generalizing s with
  | nil => simp [run, Along]
  | cons a as ih =>
    cases hs : step s a with
    | none => simp [run, Along, hs]
    | some t => simp [run, Along, hs, ih]

/-- Where every step that meets the condition is possible, the run comes to its end, and what the
steps preserve holds there. -/
theorem exists_run {I : σ → Prop} (hst : ∀ s a, I s → C s a → ∃ s', step s a = some s' ∧ I s')
    (hI : I s) (hC : Along step C s as) : ∃ s', run step s as = some s' ∧ I s' := by
  induction as generalizing s with
  | nil => exact ⟨s, rfl, hI⟩
  | cons a as ih =>
    obtain ⟨t, ht, hIt⟩ := hst s a hI hC.1
    simpa only [run, ht] using ih hIt (along_cons hC ht).2

/-- What one step preserves, a whole run preserves. `I p s` may speak of the actions `p`
that led to `s`; the induction is on the actions still to come. -/
theorem run_induction {I : List α → σ → Prop}
    (hst : ∀ p s a s', I p s → C s a → step s a = some s' → I (p ++ [a]) s') {p : List α} {s' : σ}
    (hI : I p s) (hr : run step s as = some s')
    (hC : Along step C s as) : I (p ++ as) s' := by
  induction as generalizing p s with
  | nil => cases hr; simpa using hI
  | cons a as ih =>
    obtain ⟨t, ht, hre⟩ := run_cons hr
    obtain ⟨hc, hC'⟩ := along_cons hC ht
    have := ih (hst p s a t hI hc ht) hre hC'
    simpa using this

end Run
