import Mathlib.Data.Int.Order.Basic
import Mathlib.Data.List.Induction
import Mathlib.Logic.Function.Basic
/-!
# Limiting the rate of elements with the same key

Elements come one after the other, each with a key, a time and a wait. One passes unless another
one with its key has passed less than its wait before it. The state is the time of the last one
that passed, for each key.
-/
namespace RateLimit
open List

variable {α κ : Type*} [DecidableEq κ] (key : α → κ) (time wait : α → ℤ)

def passes (last : κ → Option ℤ) (a : α) : Bool := (last (key a)).all fun t => t + wait a ≤ time a

def after (last : κ → Option ℤ) (a : α) : κ → Option ℤ :=
  if passes key time wait last a then Function.update last (key a) (some (time a)) else last

/-- Each element, and whether it passes. -/
def log (last : κ → Option ℤ) : List α → List (α × Bool)
  | [] => []
  | a :: l => (a, passes key time wait last a) :: log (after key time wait last a) l

/-- The last element with the key `k` that has passed. -/
def lastPassed (k : κ) : List (α × Bool) → Option α
  | [] => none
  | (a, b) :: before => (lastPassed k before).or (if b = true ∧ key a = k then some a else none)

variable {key time wait} (last : κ → Option ℤ) (l : List α) (k : κ)

theorem map_fst_log : (log key time wait last l).map Prod.fst = l := by
  induction l generalizing last with
  | nil => rfl
  | cons a l ih => rw [log, map_cons, ih]

theorem log_append (l m : List α) :
    log key time wait last (l ++ m) = log key time wait last l ++
      log key time wait (l.foldl (after key time wait) last) m := by
  induction l generalizing last with
  | nil => rfl
  | cons a l ih => rw [cons_append, log, ih, log, foldl_cons, cons_append]

theorem lastPassed_append (l m : List (α × Bool)) :
    lastPassed key k (l ++ m) = (lastPassed key k m).or (lastPassed key k l) := by
  induction l with
  | nil => simp [lastPassed]
  | cons p l ih => rw [cons_append, lastPassed, ih, lastPassed, Option.or_assoc]

theorem lastPassed_concat (l : List (α × Bool)) (a : α) (b : Bool) :
    lastPassed key k (l ++ [(a, b)]) = if b = true ∧ key a = k then some a
      else lastPassed key k l := by
  rw [lastPassed_append, lastPassed, lastPassed, Option.none_or]
  split <;> simp

variable {before : List (α × Bool)} {l : List α} {rest : List (α × Bool)} {a : α}

/-- Two keys that say the same of the elements. -/
theorem lastPassed_congr {κ' : Type*} [DecidableEq κ'] {key' : α → κ'} {k : κ} {k' : κ'}
    (h : ∀ p ∈ before, key p.1 = k ↔ key' p.1 = k') :
    lastPassed key k before = lastPassed key' k' before := by
  induction before with
  | nil => rfl
  | cons p before ih =>
    obtain ⟨a, b⟩ := p
    have ha : key a = k ↔ key' a = k' := h (a, b) mem_cons_self
    rw [lastPassed, lastPassed, ih (forall_mem_cons.1 h).2]
    simp only [ha]

theorem foldl_after :
    l.foldl (after key time wait) (fun _ => none) k =
      (lastPassed key k (log key time wait (fun _ => none) l)).map time := by
  induction l using List.reverseRecOn with
  | nil => rfl
  | append_singleton l a ih =>
    rw [foldl_append, log_append, log, log, lastPassed_concat, foldl_cons, foldl_nil, after]
    by_cases hpa : passes key time wait (l.foldl (after key time wait) fun _ => none) a = true
    · rw [if_pos hpa]
      by_cases hk : key a = k
      · rw [if_pos ⟨hpa, hk⟩, ← hk, Function.update_self]
        rfl
      · rw [if_neg fun h => hk h.2, Function.update_of_ne (Ne.symm hk), ih]
    · rw [if_neg hpa, if_neg fun h => hpa h.1, ih]

theorem exists_of_log {b : Bool} {last : κ → Option ℤ}
    (h : log key time wait last l = before ++ (a, b) :: rest) :
    ∃ l₁ l₂, l = l₁ ++ a :: l₂ ∧ before = log key time wait last l₁ ∧
      b = passes key time wait (l₁.foldl (after key time wait) last) a := by
  induction before generalizing l last with
  | nil =>
    cases l with
    | nil => cases h
    | cons c l =>
      obtain ⟨hh, -⟩ := List.cons.inj h
      obtain ⟨rfl, rfl⟩ := Prod.mk.inj hh
      exact ⟨[], l, rfl, rfl, rfl⟩
  | cons p before ih =>
    cases l with
    | nil => cases h
    | cons c l =>
      obtain ⟨rfl, hta⟩ := List.cons.inj h
      obtain ⟨l₁, l₂, rfl, hbe, hb⟩ := ih hta
      exact ⟨c :: l₁, l₂, rfl, by rw [hbe, log], hb⟩

/-- An element passes if and only if its wait is over since the last one that has. -/
theorem passed_iff {b : Bool}
    (h : log key time wait (fun _ => none) l = before ++ (a, b) :: rest) :
    b = true ↔ ∀ p ∈ lastPassed key (key a) before, time p + wait a ≤ time a := by
  obtain ⟨l₁, l₂, -, rfl, rfl⟩ := exists_of_log h
  rw [passes, foldl_after]
  cases lastPassed key (key a) (log key time wait (fun _ => none) l₁) with
  | none | some p => simp

variable (key) in
/-- With times that do not decrease, the last one has the greatest time. -/
theorem le_lastPassed (hm : (before.map Prod.fst).Pairwise fun a b => time a ≤ time b) {p : α}
    (hp : (p, true) ∈ before) : ∃ q ∈ lastPassed key (key p) before, time p ≤ time q := by
  induction before using List.reverseRecOn with
  | nil => cases hp
  | append_singleton before last ih =>
    rw [map_append, pairwise_append] at hm
    obtain ⟨a, b⟩ := last
    rw [lastPassed_concat]
    obtain hp | hp := mem_append.1 hp
    · split
      · exact ⟨a, rfl, hm.2.2 p (mem_map_of_mem hp) a (by simp)⟩
      · exact ih hm.1 hp
    · obtain ⟨rfl, rfl⟩ := Prod.mk.inj (mem_singleton.1 hp)
      rw [if_pos ⟨rfl, rfl⟩]
      exact ⟨p, rfl, le_refl _⟩

/-- Two elements with the same key that pass are the wait of the second apart. -/
theorem apart (hm : l.Pairwise fun a b => time a ≤ time b)
    (h : log key time wait (fun _ => none) l = before ++ (a, true) :: rest) {p : α}
    (hp : (p, true) ∈ before) (hkey : key p = key a) :
    time p + wait a ≤ time a := by
  have hfst : before.map Prod.fst <+: l := by
    have hmap := congrArg (List.map Prod.fst) h
    rw [map_fst_log, map_append] at hmap
    rw [hmap]
    exact prefix_append _ _
  obtain ⟨q, hq, hle⟩ := le_lastPassed key (hm.sublist hfst.sublist) hp
  have hwa := (passed_iff h).1 rfl q (hkey ▸ hq)
  exact le_trans (Int.add_le_add_right hle _) hwa

theorem filter_log {p : α → Bool} {last last' : κ → Option ℤ}
    (hp : ∀ a ∈ l, ∀ b ∈ l, key a = key b → p a = p b)
    (hlast : ∀ a ∈ l, p a = true → last (key a) = last' (key a)) :
    (log key time wait last l).filter (fun x => p x.1) = log key time wait last' (l.filter p) := by
  induction l generalizing last last' with
  | nil => rfl
  | cons a l ih =>
    have hp' : ∀ b ∈ l, ∀ c ∈ l, key b = key c → p b = p c :=
      fun b hb c hc => hp b (mem_cons_of_mem _ hb) c (mem_cons_of_mem _ hc)
    obtain ⟨hsa, hlast⟩ := forall_mem_cons.1 hlast
    rw [log]
    cases hpa : p a with
    | true =>
      have hpas : passes key time wait last a = passes key time wait last' a := by
        rw [passes, passes, hsa hpa]
      rw [filter_cons_of_pos (by exact hpa), filter_cons_of_pos hpa, log, hpas]
      congr 1
      refine ih hp' fun b hb hpb => ?_
      rw [after, after, hpas]
      split
      · by_cases hk : key b = key a
        · rw [hk, Function.update_self, Function.update_self]
        · rw [Function.update_of_ne hk, Function.update_of_ne hk]
          exact hlast b hb hpb
      · exact hlast b hb hpb
    | false =>
      rw [filter_cons_of_neg (by simp [hpa]), filter_cons_of_neg (by simp [hpa])]
      refine ih hp' fun b hb hpb => ?_
      have hk : key b ≠ key a := fun hk => by
        have := hp b (mem_cons_of_mem _ hb) a mem_cons_self hk
        rw [hpa, hpb] at this
        cases this
      rw [after]
      split
      · rw [Function.update_of_ne hk]
        exact hlast b hb hpb
      · exact hlast b hb hpb

end RateLimit
