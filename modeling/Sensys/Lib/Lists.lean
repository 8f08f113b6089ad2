import Mathlib.Data.List.Forall2
import Mathlib.Data.List.Induction
/-!
# Lists of pending things

Small facts about a list from which one element is taken, or from which the elements of one shape
are picked; counts under two conditions; and lists of which one element is changed.
-/
namespace Lists
open List

variable {α β : Type}

variable {l : List α} {b a : α} {i : Nat} {R : α → β → Prop} {σ γ : Type} {m : List β}

theorem count_erase_add [DecidableEq α] (hb : b ∈ l) (a : α) :
    (l.erase b).count a + (if b = a then 1 else 0) = l.count a := by
  rw [count_erase]
  by_cases h : b = a
  · subst h
    have := count_pos_iff.2 hb
    simp; omega
  · simp [h]

/-- After one element is taken and others are appended, what is not among those was there before. -/
theorem mem_of_mem_erase_append [DecidableEq α] {new : List α} (h : a ∈ l.erase b ++ new)
    (hnew : a ∉ new) : a ∈ l := by
  rcases mem_append.1 h with h | h
  · exact mem_of_mem_erase h
  · exact absurd h hnew

theorem count_ite_singleton [DecidableEq α] {p : Prop} [Decidable p] (h : a ≠ b) :
    (if p then [b] else []).count a = 0 :=
  count_eq_zero.2 (by simp [h])

theorem mem_filterMap_inv {f : α → Option β} {g : β → α} (hfg : ∀ a b, f a = some b ↔ a = g b)
    {b : β} : b ∈ l.filterMap f ↔ g b ∈ l := by
  rw [mem_filterMap]
  constructor
  · rintro ⟨a, ha, hb⟩
    rw [hfg] at hb
    exact hb ▸ ha
  · exact fun h => ⟨g b, h, (hfg _ _).2 rfl⟩

theorem flatMap_filterMap {f : α → List γ} {g : α → Option β} {w : β → List γ}
    (h : ∀ a ∈ l, f a = (g a).elim [] w) :
    l.flatMap f = (l.filterMap g).flatMap w := by
  induction l with
  | nil => rfl
  | cons a l ih =>
    rw [flatMap_cons, h a mem_cons_self, ih (forall_mem_cons.1 h).2, filterMap_cons]
    cases g a <;> rfl

theorem countP_lt_countP {p q : α → Bool} (h : ∀ x ∈ l, p x = true → q x = true) (ha : a ∈ l)
    (hq : q a = true) (hp : p a = false) : l.countP p < l.countP q := by
  obtain ⟨l₁, l₂, rfl⟩ := append_of_mem ha
  have h₁ : l₁.countP p ≤ l₁.countP q := countP_mono_left fun x hx => h x (by simp [hx])
  have h₂ : l₂.countP p ≤ l₂.countP q := countP_mono_left fun x hx => h x (by simp [hx])
  simp only [countP_append, countP_cons, hq, hp]
  simp
  omega

theorem concat_eq_some (h : (l ++ [b])[i]? = some a) :
    (i < l.length ∧ l[i]? = some a) ∨ (i = l.length ∧ a = b) := by
  rw [getElem?_append] at h
  split at h
  · rename_i hi
    exact Or.inl ⟨hi, h⟩
  · rw [getElem?_singleton] at h
    split at h
    · exact Or.inr ⟨by omega, (Option.some.inj h).symm⟩
    · cases h

theorem modify_append_left (h : i < l.length) (m : List α) (f : α → α) :
    (l ++ m).modify i f = l.modify i f ++ m := by
  induction l generalizing i with
  | nil => cases h
  | cons a l ih =>
    cases i with
    | zero => rfl
    | succ i => simp [ih (Nat.lt_of_succ_lt_succ h)]

theorem modify_append_cons (l : List α) (a : α) (m : List α) (f : α → α) :
    (l ++ a :: m).modify l.length f = l ++ f a :: m := by
  induction l with
  | nil => rfl
  | cons b l ih => simp [ih]

theorem forall₂_filter_map {γ δ : Type} {S : γ → δ → Prop} {p : α → Bool} {q : β → Bool} {f : α → γ}
    {g : β → δ} (h : List.Forall₂ R l m) (hpq : ∀ a b, R a b → p a = q b)
    (hS : ∀ a b, R a b → p a = true → S (f a) (g b)) :
    List.Forall₂ S ((l.filter p).map f) ((m.filter q).map g) := by
  induction h with
  | nil => exact .nil
  | @cons a b l m hab _ ih =>
    rw [filter_cons, filter_cons, ← hpq a b hab]
    by_cases ha : p a = true
    · rw [if_pos ha, if_pos ha, map_cons, map_cons]
      exact .cons (hS a b hab ha) ih
    · rw [if_neg ha, if_neg ha]
      exact ih

theorem map_take_eq_iff {f : α → β} {n : Nat} :
    n ≤ l.length ∧ (l.take n).map f = l.map f ↔ n = l.length := by
  constructor
  · rintro ⟨hn, heq⟩
    have hlen := congrArg length heq
    simp at hlen
    omega
  · rintro rfl
    simp

/-! ## Parts of a list -/

/-- The elements of `l` from the index `pos` on start with `part`. -/
def PartAt (l : List α) (pos : Nat) (part : List α) : Prop :=
  ∃ before after, l = before ++ (part ++ after) ∧ before.length = pos

section
variable {l part part' : List α} {a : α} {pos : Nat}

theorem PartAt.head (h : PartAt l pos (a :: part)) : l[pos]? = some a := by
  obtain ⟨before, after, rfl, rfl⟩ := h
  simp

theorem PartAt.append_left (h : PartAt l pos (part ++ part')) : PartAt l pos part := by
  obtain ⟨before, after, rfl, rfl⟩ := h
  exact ⟨before, part' ++ after, by simp, rfl⟩

theorem PartAt.append_right (h : PartAt l pos (part ++ part')) :
    PartAt l (pos + part.length) part' := by
  obtain ⟨before, after, rfl, rfl⟩ := h
  exact ⟨before ++ part, after, by simp, by simp⟩

theorem PartAt.tail (h : PartAt l pos (a :: part)) : PartAt l (pos + 1) part :=
  @PartAt.append_right _ l [a] part pos h

end

section
variable {R : α → β → Prop} {l : List α} {m : List β}

theorem exists_of_forall₂_left (h : List.Forall₂ R l m) {a : α} (ha : a ∈ l) : ∃ b ∈ m, R a b := by
  induction h with
  | nil => cases ha
  | @cons a' b l m hab _ ih =>
    obtain rfl | ha := mem_cons.mp ha
    · exact ⟨b, mem_cons_self, hab⟩
    · obtain ⟨b', hb', hR⟩ := ih ha
      exact ⟨b', mem_cons_of_mem b hb', hR⟩

theorem exists_of_forall₂_right (h : List.Forall₂ R l m) {b : β} (hb : b ∈ m) : ∃ a ∈ l, R a b := by
  obtain ⟨a, ha, hR⟩ := exists_of_forall₂_left h.flip hb
  exact ⟨a, ha, hR⟩

end

/-! ## Passes over a list with a state -/

/-- Every element is replaced, from the first to the last, and a state is carried along. -/
def mapAccum {σ : Type} (f : σ → α → σ × β) (s : σ) : List α → σ × List β
  | [] => (s, [])
  | a :: l => ((mapAccum f (f s a).1 l).1, (f s a).2 :: (mapAccum f (f s a).1 l).2)

/-- The same with steps of a program. -/
def mapAccumM {m : Type → Type} [Monad m] {γ : Type} (f : α → β → m (α × γ)) (a : α) :
    List β → m (α × List γ)
  | [] => pure (a, [])
  | b :: l => do
    let (a, c) ← f a b
    let (a, cs) ← mapAccumM f a l
    pure (a, c :: cs)

/-- What every step does to the state and leaves behind, the whole pass does. -/
theorem mapAccum_rule {f : σ → α → σ × β} {R : List γ → σ → σ → Prop} (hnil : ∀ s, R [] s s)
    (hap : ∀ {l m s t u}, R l s t → R m t u → R (l ++ m) s u) (g : β → List γ)
    (hst : ∀ s a, R (g (f s a).2) s (f s a).1)
    (l : List α) (s : σ) : R ((mapAccum f s l).2.flatMap g) s (mapAccum f s l).1 := by
  induction l generalizing s with
  | nil => exact hnil s
  | cons a l ih =>
    exact hap (hst s a) (ih (f s a).1)

theorem mapAccum_map {f : σ → α → σ × β} {g : β → γ} {g' : α → γ} (h : ∀ s a, g (f s a).2 = g' a)
    (l : List α) (s : σ) :
    (mapAccum f s l).2.map g = l.map g' := by
  induction l generalizing s with
  | nil => rfl
  | cons a l ih => rw [mapAccum, map_cons, map_cons, h, ih]

theorem exists_of_mem_mapAccum {σ : Type} {f : σ → α → σ × β} {s : σ} {b : β}
    (h : b ∈ (mapAccum f s l).2) :
    ∃ a ∈ l, ∃ s', b = (f s' a).2 := by
  induction l generalizing s with
  | nil => cases h
  | cons a l ih =>
    rcases mem_cons.1 h with rfl | h
    · exact ⟨a, mem_cons_self, s, rfl⟩
    · obtain ⟨a', ha', s', hb⟩ := ih h
      exact ⟨a', mem_cons_of_mem _ ha', s', hb⟩

/-- What is added at the end decides, as long as all was well before. -/
theorem forall_isPrefix_iff {P : List α → Prop} {Q : List α → α → Prop} {l : List α} (hnil : P [])
    (hst : ∀ k a, k ++ [a] <+: l → P k → (P (k ++ [a]) ↔ Q k a)) : (∀ k, k <+: l → P k) ↔
      ∀ k a, k ++ [a] <+: l → Q k a := by
  constructor
  · exact fun h k a hk => (hst k a hk (h k ((prefix_append k [a]).trans hk))).1 (h _ hk)
  · intro h k
    induction k using List.reverseRecOn with
    | nil => exact fun _ => hnil
    | append_singleton k a ih => exact fun hk =>
      (hst k a hk (ih ((prefix_append k [a]).trans hk))).2 (h k a hk)

end Lists
