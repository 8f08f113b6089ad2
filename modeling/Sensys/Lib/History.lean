import Sensys.Lib.Lists
/-!
# Programs with a history

A program may exit with an error, and otherwise has put something at the end of a history that it
never reads. `Gives p gs Q` says what it has put there and what its result is like, `Tells p T`
only how the two go together. When the same elements are visited again for each of a list of
names, and each visit changes them, `emits` is what they leave in the history.
-/
namespace History
open List

variable {ν α γ : Type}

section
variable (gives : ν → α → List γ) (after : ν → α → α) {μ : Type} (f : μ → List ν) (ns ms : List ν)

/-- What is left behind for the names, one after the other. -/
def emits : List ν → α → List γ
  | [], _ => []
  | n :: ns, a => gives n a ++ emits ns (after n a)

def afterAll (ns : List ν) (a : α) : α := ns.foldl (fun a n => after n a) a

theorem afterAll_cons (n : ν) (ns : List ν) (a : α) :
    afterAll after (n :: ns) a = afterAll after ns (after n a) := rfl

theorem emits_append (a : α) :
    emits gives after (ns ++ ms) a = emits gives after ns a ++
      emits gives after ms (afterAll after ns a) := by
  induction ns generalizing a with
  | nil => rfl
  | cons n ns ih => rw [cons_append, emits, emits, ih, append_assoc, afterAll_cons]

theorem afterAll_append (a : α) :
    afterAll after (ns ++ ms) a = afterAll after ms (afterAll after ns a) :=
  foldl_append

theorem emits_flatMap (ms : List μ) (a : α) :
    emits gives after (ms.flatMap f) a =
      emits (fun m => emits gives after (f m)) (fun m => afterAll after (f m)) ms a := by
  induction ms generalizing a with
  | nil => rfl
  | cons m ms ih => rw [flatMap_cons, emits_append, ih, emits]

theorem afterAll_flatMap (ms : List μ) (a : α) :
    afterAll after (ms.flatMap f) a = afterAll (fun m => afterAll after (f m)) ms a := by
  induction ms generalizing a with
  | nil => rfl
  | cons m ms ih => rw [flatMap_cons, afterAll_append, ih, afterAll_cons]

theorem emits_map (f : μ → ν) (ms : List μ) (a : α) :
    emits gives after (ms.map f) a = emits (fun m => gives (f m)) (fun m => after (f m)) ms a := by
  induction ms generalizing a with
  | nil => rfl
  | cons m ms ih => rw [map_cons, emits, emits, ih]

theorem afterAll_map (f : μ → ν) (ms : List μ) (a : α) :
    afterAll after (ms.map f) a = afterAll (fun m => after (f m)) ms a :=
  foldl_map

/-- Visiting an image is visiting what it is the image of. -/
theorem emits_image {β : Type} {gives' : ν → β → List γ} {after' : ν → β → β} {f : α → β}
    (hg : ∀ n a, gives' n (f a) = gives n a) (ha : ∀ n a, after' n (f a) = f (after n a))
    (ns : List ν) (a : α) : emits gives' after' ns (f a) = emits gives after ns a := by
  induction ns generalizing a with
  | nil => rfl
  | cons n ns ih => rw [emits, emits, hg, ha, ih]

/-- Elements that are visited together are each visited on their own. -/
theorem mem_emits_map {g : γ} (ns : List ν) (l : List α) :
    g ∈ emits (fun n l => l.flatMap (gives n)) (fun n l => l.map (after n)) ns l ↔
      ∃ a ∈ l, g ∈ emits gives after ns a := by
  induction ns generalizing l with
  | nil => simp [emits]
  | cons n ns ih =>
    simp only [emits, mem_append, ih, mem_flatMap, mem_map, exists_exists_and_eq_and]
    constructor
    · rintro (⟨a, ha, hg⟩ | ⟨a, ha, hg⟩)
      · exact ⟨a, ha, .inl hg⟩
      · exact ⟨a, ha, .inr hg⟩
    · rintro ⟨a, ha, hg | hg⟩
      · exact .inl ⟨a, ha, hg⟩
      · exact .inr ⟨a, ha, hg⟩

end

/-! ## Programs -/

variable {ε β δ : Type}

/-- If the program comes to its end, it has put `gs` at the end of the history, and the result is
as `Q` says. -/
def Gives (p : EStateM ε (List γ) α) (gs : List γ) (Q : α → Prop) : Prop :=
  ∀ l a l', p.run l = .ok a l' → l' = l ++ gs ∧ Q a

namespace Gives
variable {p : EStateM ε (List γ) α} {gs gs' : List γ} {Q R : α → Prop}

theorem mono (h : Gives p gs Q) (hQ : ∀ a, Q a → R a) : Gives p gs R :=
  fun l a l' hrun => ⟨(h l a l' hrun).1, hQ a (h l a l' hrun).2⟩

theorem pure {a : α} (h : Q a) : Gives (pure a : EStateM ε (List γ) α) [] Q := by
  rintro l _ _ ⟨⟩
  exact ⟨(append_nil l).symm, h⟩

theorem throw (e : ε) : Gives (throw e : EStateM ε (List γ) α) gs Q := nofun

theorem bind {f : α → EStateM ε (List γ) β} {R : β → Prop} (hp : Gives p gs Q)
    (hf : ∀ a, Q a → Gives (f a) gs' R) :
    Gives (p >>= f) (gs ++ gs') R := by
  intro l b l' h
  rw [EStateM.run_bind] at h
  cases hrun : p.run l with
  | error e l₁ =>
    rw [hrun] at h
    cases h
  | ok a l₁ =>
    rw [hrun] at h
    obtain ⟨rfl, ha⟩ := hp l a l₁ hrun
    obtain ⟨rfl, hb⟩ := hf a ha _ b l' h
    exact ⟨append_assoc .., hb⟩

theorem bind_pure {f : α → β} {R : β → Prop} (hp : Gives p gs Q) (hf : ∀ a, Q a → R (f a)) :
    Gives (p >>= fun a => Pure.pure (f a)) gs R := by
  have h := hp.bind (fun a ha => Gives.pure (hf a ha))
  rwa [append_nil] at h

theorem record (g : γ) :
    Gives (modify (· ++ [g]) : EStateM ε (List γ) PUnit) [g] fun _ => True := by
  rintro l _ _ ⟨⟩
  exact ⟨rfl, trivial⟩

variable {ω : Type} {V : α → ω} {G : ν → ω → List γ} {A : ν → ω → ω}

/-- **A loop** over names, with what each turn sees of the state. -/
theorem foldlM {f : α → ν → EStateM ε (List γ) α}
    (h : ∀ n a, Gives (f a n) (G n (V a)) fun a' => V a' = A n (V a)) (ns : List ν) (a : α) :
    Gives (ns.foldlM f a) (emits G A ns (V a)) fun a' => V a' = afterAll A ns (V a) := by
  induction ns generalizing a with
  | nil => exact Gives.pure rfl
  | cons n ns ih =>
    refine (h n a).bind fun a' ha' => ?_
    have hre := ih a'
    rw [ha'] at hre
    exact hre

/-- **A pass** over items that replaces each of them. -/
theorem mapAccumM {I : α → Prop} {R : β → β → Prop} {G : β → List γ}
    {f : α → β → EStateM ε (List γ) (α × β)}
    (h : ∀ a b, I a → Gives (f a b) (G b) fun r => I r.1 ∧ R b r.2) (l : List β)
    {a : α} (ha : I a) :
    Gives (Lists.mapAccumM f a l) (l.flatMap G) fun r => I r.1 ∧ List.Forall₂ R l r.2 := by
  induction l generalizing a with
  | nil => exact Gives.pure ⟨ha, .nil⟩
  | cons b l ih =>
    refine (h a b ha).bind fun r hr => ?_
    exact (ih hr.1).bind_pure fun rest hre => ⟨hre.1, .cons hr.2 hre.2⟩

end Gives

/-- If the program comes to its end, what it has put at the end of the history and its result are
as `T` says. -/
def Tells (p : EStateM ε (List γ) α) (T : List γ → α → Prop) : Prop :=
  ∀ l a l', p.run l = .ok a l' → ∃ gs, l' = l ++ gs ∧ T gs a

theorem Gives.tells {p : EStateM ε (List γ) α} {gs : List γ} {Q : α → Prop} (h : Gives p gs Q) :
    Tells p fun gs' a => gs' = gs ∧ Q a :=
  fun l a l' hrun => ⟨gs, (h l a l' hrun).1, rfl, (h l a l' hrun).2⟩

namespace Tells
variable {p : EStateM ε (List γ) α} {T U : List γ → α → Prop}

theorem mono (h : Tells p T) (hTU : ∀ gs a, T gs a → U gs a) : Tells p U := by
  intro l a l' hrun
  obtain ⟨gs, hl, hT⟩ := h l a l' hrun
  exact ⟨gs, hl, hTU gs a hT⟩

theorem pure {a : α} (h : T [] a) : Tells (pure a : EStateM ε (List γ) α) T := by
  rintro l _ _ ⟨⟩
  exact ⟨[], (append_nil l).symm, h⟩

theorem throw (e : ε) : Tells (throw e : EStateM ε (List γ) α) T := by
  rintro l _ _ ⟨⟩

theorem bind {f : α → EStateM ε (List γ) β} {U : List γ → β → Prop} (hp : Tells p T)
    (hf : ∀ gs a, T gs a → Tells (f a) fun gs' b => U (gs ++ gs') b) : Tells (p >>= f) U := by
  intro l b l' h
  rw [EStateM.run_bind] at h
  cases hrun : p.run l with
  | error e l₁ =>
    rw [hrun] at h
    cases h
  | ok a l₁ =>
    rw [hrun] at h
    obtain ⟨gs, rfl, hT⟩ := hp l a l₁ hrun
    obtain ⟨gs', rfl, hU⟩ := hf gs a hT _ b l' h
    exact ⟨gs ++ gs', append_assoc .., hU⟩

theorem bind_pure {f : α → β} {U : List γ → β → Prop} (hp : Tells p T)
    (hf : ∀ gs a, T gs a → U gs (f a)) :
    Tells (p >>= fun a => Pure.pure (f a)) U :=
  hp.bind fun gs a hT => Tells.pure (by rw [append_nil]; exact hf gs a hT)

variable {R : List γ → α → α → Prop} (hnil : ∀ a, R [] a a)
  (happend : ∀ {gs gs' a b c}, R gs a b → R gs' b c → R (gs ++ gs') a c)
include hnil happend

/-- What every turn of a loop tells of the state, the loop tells. -/
theorem foldlM {f : α → ν → EStateM ε (List γ) α} (h : ∀ a n, Tells (f a n) fun gs b => R gs a b)
    (ns : List ν) (a : α) :
    Tells (ns.foldlM f a) fun gs b => R gs a b := by
  induction ns generalizing a with
  | nil => exact Tells.pure (hnil a)
  | cons n ns ih => exact (h a n).bind fun gs b hR => (ih b).mono fun gs' c hR' => happend hR hR'

/-- The same for a pass over items. -/
theorem mapAccumM {f : α → β → EStateM ε (List γ) (α × β)}
    (h : ∀ a b, Tells (f a b) fun gs r => R gs a r.1) (l : List β) (a : α) :
    Tells (Lists.mapAccumM f a l) fun gs r => R gs a r.1 := by
  induction l generalizing a with
  | nil => exact Tells.pure (hnil a)
  | cons b l ih =>
    exact (h a b).bind fun gs r hR => (ih r.1).bind_pure fun gs' rest hR' => happend hR hR'

end Tells

end History
