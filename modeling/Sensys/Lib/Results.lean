import Sensys.Lib.Lists
/-!
# Programs that may fail

A program that succeeds does so step by step, and a run over a list that succeeds does so at every
element.
-/
namespace Results

variable {ε α β γ : Type} {x : Except ε α}

theorem exists_of_bind_ok {f : α → Except ε γ} {c : γ} (h : x >>= f = .ok c) :
    ∃ a, x = .ok a ∧ f a = .ok c := by
  cases x with
  | error e => cases h
  | ok a => exact ⟨a, rfl, h⟩

theorem map_eq_ok {f : α → β} {b : β} (h : x.map f = .ok b) : ∃ a, x = .ok a ∧ f a = b := by
  cases x with
  | error e => cases h
  | ok a => exact ⟨a, rfl, Except.ok.inj h⟩

/-! ## Runs over a list -/

variable {f : α → Except ε β} {l : List α} {bs : List β}

theorem mapM_eq_ok {g : α → β} (h : ∀ a ∈ l, f a = .ok (g a)) : l.mapM f = .ok (l.map g) := by
  induction l with
  | nil => rfl
  | cons a l ih =>
    rw [List.mapM_cons, h a List.mem_cons_self, ih (List.forall_mem_cons.1 h).2]
    rfl

theorem mapM_map_ok (f : α → Except ε β) (g : β → γ) (l : List α) :
    l.mapM (fun a => (f a).map g) = (l.mapM f).map (List.map g) := by
  induction l with
  | nil => rfl
  | cons a l ih =>
    rw [List.mapM_cons, List.mapM_cons, ih]
    cases f a with
    | error e => rfl
    | ok b => cases l.mapM f <;> rfl

theorem forall₂_of_mapM (h : l.mapM f = .ok bs) : List.Forall₂ (fun a b => f a = .ok b) l bs := by
  induction l generalizing bs with
  | nil =>
    cases h
    exact .nil
  | cons a l ih =>
    rw [List.mapM_cons] at h
    obtain ⟨b, hb, h⟩ := exists_of_bind_ok h
    obtain ⟨bs', hbs', h⟩ := exists_of_bind_ok h
    cases h
    exact .cons hb (ih hbs')

theorem map_some_of_mapM {f : α → Option β} (h : l.mapM f = some bs) : bs.map some = l.map f := by
  induction l generalizing bs with
  | nil =>
    cases h
    rfl
  | cons a l ih =>
    rw [List.mapM_cons] at h
    obtain ⟨b, hb, h⟩ := Option.bind_eq_some_iff.1 h
    obtain ⟨bs', hbs', h⟩ := Option.bind_eq_some_iff.1 h
    cases h
    rw [List.map_cons, List.map_cons, hb, ih hbs']

/-- Whatever a run over a list gives comes from one of its steps. -/
theorem exists_of_mem_mapM {b : β} (h : l.mapM f = .ok bs) (hb : b ∈ bs) : ∃ a ∈ l, f a = .ok b :=
  Lists.exists_of_forall₂_right (forall₂_of_mapM h) hb

theorem exists_ok_of_mapM {a : α} (h : l.mapM f = .ok bs) (ha : a ∈ l) : ∃ b ∈ bs, f a = .ok b :=
  Lists.exists_of_forall₂_left (forall₂_of_mapM h) ha

end Results
