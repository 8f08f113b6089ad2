import Mathlib.Logic.Relation
import Mathlib.Data.List.Basic
/-!
# Forests in which a vertex may have no label

A vertex without a label hands what is under it to the next label above. `tops` are the labels
with none above, `Below F a G` says that `G` is what is under `a`, and `Parent` that a label is
the next one above another.
-/

/-- The first tree, with what is under its root, and the others. -/
inductive Hier (α : Type) where
  | nil
  | cons (label : Option α) (inner next : Hier α)
deriving DecidableEq, Repr

namespace Hier
open List

variable {α : Type}

def labels : Hier α → List α
  | nil => []
  | cons label inner next => label.toList ++ (inner.labels ++ next.labels)

/-- The labels with no label above, each with those under it. -/
def kids : Hier α → List (α × List α)
  | nil => []
  | cons (some a) inner next => (a, inner.labels) :: next.kids
  | cons none inner next => inner.kids ++ next.kids

def tops (F : Hier α) : List α := F.kids.map Prod.fst

inductive Below : Hier α → α → Hier α → Prop
  | here {a : α} {inner next : Hier α} : Below (cons (some a) inner next) a inner
  | inner {label : Option α} {inner next G : Hier α} {a : α} (h : Below inner a G) : Below
      (cons label inner next) a G
  | next {label : Option α} {inner next G : Hier α} {a : α} (h : Below next a G) : Below
      (cons label inner next) a G

/-- The label `b` is strictly under `a`. -/
def Under (F : Hier α) (b a : α) : Prop := ∃ G, Below F a G ∧ b ∈ G.labels

/-- The label `a` is the next one above `b`. -/
def Parent (F : Hier α) (b a : α) : Prop := ∃ G, Below F a G ∧ b ∈ G.tops

variable {F G H : Hier α} {a b c : α} {label : Option α}

@[simp]
theorem mem_labels_cons :
    a ∈ (cons label F G).labels ↔ label = some a ∨ a ∈ F.labels ∨ a ∈ G.labels := by
  simp only [labels, mem_append, Option.mem_toList]

@[simp]
theorem mem_tops_some : b ∈ (cons (some a) F G).tops ↔ b = a ∨ b ∈ G.tops := mem_cons

@[simp]
theorem mem_tops_none : b ∈ (cons none F G).tops ↔ b ∈ F.tops ∨ b ∈ G.tops := by simp [tops, kids]

theorem mem_tops_next (label : Option α) (F : Hier α) (h : b ∈ G.tops) :
    b ∈ (cons label F G).tops := by
  cases label with
  | none => exact mem_tops_none.2 (Or.inr h)
  | some a => exact mem_tops_some.2 (Or.inr h)

theorem mem_labels_iff : a ∈ F.labels ↔ ∃ G, Below F a G := by
  induction F with
  | nil =>
    constructor
    · intro h
      cases h
    · rintro ⟨G, h⟩
      cases h
  | cons label inner next ihi ihn =>
    rw [mem_labels_cons, ihi, ihn]
    constructor
    · rintro (rfl | ⟨G, h⟩ | ⟨G, h⟩)
      · exact ⟨inner, .here⟩
      · exact ⟨G, .inner h⟩
      · exact ⟨G, .next h⟩
    · rintro ⟨G, h⟩
      cases h with
      | here => exact Or.inl rfl
      | inner h => exact Or.inr (Or.inl ⟨G, h⟩)
      | next h => exact Or.inr (Or.inr ⟨G, h⟩)

theorem Below.mem_labels (h : Below F a G) : a ∈ F.labels := mem_labels_iff.2 ⟨G, h⟩

theorem Below.trans (h : Below F a G) (h' : Below G b H) : Below F b H := by
  induction h with
  | here => exact .inner h'
  | inner _ ih => exact .inner (ih h')
  | next _ ih => exact .next (ih h')

theorem Below.labels_subset (h : Below F a G) : G.labels ⊆ F.labels := by
  intro b hb
  obtain ⟨H, hH⟩ := mem_labels_iff.1 hb
  exact (h.trans hH).mem_labels

theorem exists_below_of_mem_kids {l : List α} (h : (a, l) ∈ F.kids) :
    ∃ G, Below F a G ∧ l = G.labels := by
  induction F with
  | nil => cases h
  | cons label inner next ihi ihn =>
    have hnext : (a, l) ∈ next.kids → ∃ G, Below (cons label inner next) a G ∧ l = G.labels :=
      fun h => by
      obtain ⟨G, hG, hl⟩ := ihn h
      exact ⟨G, .next hG, hl⟩
    cases label with
    | none =>
      rcases mem_append.1 h with h | h
      · obtain ⟨G, hG, hl⟩ := ihi h
        exact ⟨G, .inner hG, hl⟩
      · exact hnext h
    | some b =>
      rcases mem_cons.1 h with h | h
      · obtain ⟨rfl, rfl⟩ := Prod.mk.inj h
        exact ⟨inner, .here, rfl⟩
      · exact hnext h

theorem tops_subset (F : Hier α) : F.tops ⊆ F.labels := by
  intro b hb
  induction F with
  | nil => cases hb
  | cons label inner next ihi ihn =>
    rw [mem_labels_cons]
    cases label with
    | none =>
      rcases mem_tops_none.1 hb with hb | hb
      · exact Or.inr (Or.inl (ihi hb))
      · exact Or.inr (Or.inr (ihn hb))
    | some a =>
      rcases mem_tops_some.1 hb with rfl | hb
      · exact Or.inl rfl
      · exact Or.inr (Or.inr (ihn hb))

theorem Parent.under (h : Parent F b a) : Under F b a := by
  obtain ⟨G, hG, hb⟩ := h
  exact ⟨G, hG, G.tops_subset hb⟩

theorem Under.mem_left (h : Under F b a) : b ∈ F.labels := by
  obtain ⟨G, hG, hb⟩ := h
  exact hG.labels_subset hb

theorem Under.mem_right (h : Under F b a) : a ∈ F.labels := by
  obtain ⟨G, hG, -⟩ := h
  exact hG.mem_labels

theorem Under.lift (h : Under G c b) (hG : Below F a G) : Under F c b := by
  obtain ⟨H, hH, hc⟩ := h
  exact ⟨H, hG.trans hH, hc⟩

theorem Below.length_lt (h : Below F a G) : G.labels.length < F.labels.length := by
  induction h with
  | here =>
    simp only [labels, Option.toList_some, length_append, length_singleton]
    omega
  | inner _ ih | next _ ih =>
    simp only [labels, length_append]
    omega

theorem top_or_under (h : b ∈ F.labels) : b ∈ F.tops ∨ ∃ a ∈ F.tops, Under F b a := by
  induction F with
  | nil => cases h
  | cons label inner next ihi ihn =>
    rcases mem_labels_cons.1 h with rfl | hinner | hnext
    · exact Or.inl (mem_tops_some.2 (Or.inl rfl))
    · cases label with
      | none =>
        rcases ihi hinner with htop | ⟨a, ha, G, hG, hb⟩
        · exact Or.inl (mem_tops_none.2 (Or.inl htop))
        · exact Or.inr ⟨a, mem_tops_none.2 (Or.inl ha), G, .inner hG, hb⟩
      | some a => exact Or.inr ⟨a, mem_tops_some.2 (Or.inl rfl), inner, .here, hinner⟩
    · rcases ihn hnext with htop | ⟨a, ha, G, hG, hb⟩
      · exact Or.inl (mem_tops_next _ _ htop)
      · exact Or.inr ⟨a, mem_tops_next _ _ ha, G, .next hG, hb⟩

/-- A label under another has a parent, which is that one or under it. -/
theorem Under.exists_parent (h : Under F b a) : Parent F b a ∨ ∃ c, Parent F c a ∧ Under F b c := by
  obtain ⟨G, hG, hb⟩ := h
  rcases top_or_under hb with htop | ⟨c, hc, hun⟩
  · exact Or.inl ⟨G, hG, htop⟩
  · exact Or.inr ⟨c, ⟨G, hG, hc⟩, hun.lift hG⟩

/-! ## Different labels -/

theorem nodup_cons (h : (cons label F G).labels.Nodup) :
    F.labels.Nodup ∧ G.labels.Nodup ∧ (∀ a, label = some a → a ∉ F.labels ∧ a ∉ G.labels) ∧
      ∀ a ∈ F.labels, a ∉ G.labels := by
  rw [labels, nodup_append] at h
  obtain ⟨-, hre, hl⟩ := h
  rw [nodup_append] at hre
  refine ⟨hre.1, hre.2.1, ?_, fun a ha hg => hre.2.2 a ha a hg rfl⟩
  rintro a rfl
  have hne : a ∉ F.labels ++ G.labels := fun hmem => hl a (by simp) a hmem rfl
  rwa [mem_append, not_or] at hne

section
variable (hF : F.labels.Nodup)
include hF

theorem Below.unique (h : Below F a G) (h' : Below F a H) : G = H := by
  induction F with
  | nil => cases h
  | cons label inner next ihi ihn =>
    obtain ⟨hi, hn, hl, hd⟩ := nodup_cons hF
    cases h with
    | here =>
      cases h' with
      | here => rfl
      | inner h' => exact absurd h'.mem_labels (hl a rfl).1
      | next h' => exact absurd h'.mem_labels (hl a rfl).2
    | inner h =>
      cases h' with
      | here => exact absurd h.mem_labels (hl a rfl).1
      | inner h' => exact ihi hi h h'
      | next h' => exact absurd h'.mem_labels (hd a h.mem_labels)
    | next h =>
      cases h' with
      | here => exact absurd h.mem_labels (hl a rfl).2
      | inner h' => exact absurd h.mem_labels (hd a h'.mem_labels)
      | next h' => exact ihn hn h h'

theorem not_under_of_top (htop : b ∈ F.tops) : ¬ Under F b a := by
  rintro ⟨G, hG, hb⟩
  induction F with
  | nil => cases hG
  | cons label inner next ihi ihn =>
    obtain ⟨hi, hn, hl, hd⟩ := nodup_cons hF
    -- the part in which `b` is at the top is the one it is under `a` in
    have hpa : (label = some b ∨ b ∈ next.tops) ∨ (label = none ∧ b ∈ inner.tops) := by
      cases label with
      | none => exact (mem_tops_none.1 htop).symm.imp Or.inr fun h => ⟨rfl, h⟩
      | some c => exact Or.inl ((mem_tops_some.1 htop).imp (fun h => by rw [h]) id)
    cases hG with
    | here =>
      rcases hpa with (hla | htop) | ⟨hno, -⟩
      · exact (hl b hla).1 hb
      · exact hd b hb (next.tops_subset htop)
      · cases hno
    | inner hG =>
      have hb' := hG.labels_subset hb
      rcases hpa with (hla | htop) | ⟨-, htop⟩
      · exact (hl b hla).1 hb'
      · exact hd b hb' (next.tops_subset htop)
      · exact ihi hi htop hG
    | next hG =>
      have hb' := hG.labels_subset hb
      rcases hpa with (hla | htop) | ⟨-, htop⟩
      · exact (hl b hla).2 hb'
      · exact ihn hn htop hG
      · exact hd b (inner.tops_subset htop) hb'

theorem Under.trans (h : Under F c b) (h' : Under F b a) : Under F c a := by
  obtain ⟨G, hG, hc⟩ := h
  obtain ⟨H, hH, hb⟩ := h'
  obtain ⟨G', hG'⟩ := mem_labels_iff.1 hb
  rw [(hH.trans hG').unique hF hG] at hG'
  exact ⟨H, hH, hG'.labels_subset hc⟩

theorem Under.ne (h : Under F b a) : b ≠ a := by
  rintro rfl
  obtain ⟨G, hG, hb⟩ := h
  obtain ⟨H, hH⟩ := mem_labels_iff.1 hb
  have hlt := hH.length_lt
  rw [(hG.trans hH).unique hF hG] at hlt
  exact Nat.lt_irrefl _ hlt

theorem Parent.between (h : Parent F c b) (h' : Under F c a) : b = a ∨ Under F b a := by
  obtain ⟨G, hG, hc⟩ := h
  obtain ⟨H, hH, hc'⟩ := h'
  induction F with
  | nil => cases hG
  | cons label inner next ihi ihn =>
    obtain ⟨hi, hn, hl, hd⟩ := nodup_cons hF
    have hcG := G.tops_subset hc
    cases hG with
    | here =>
      cases hH with
      | here => exact Or.inl rfl
      | inner hH => exact absurd ⟨H, hH, hc'⟩ (not_under_of_top hi hc)
      | next hH => exact absurd (hH.labels_subset hc') (hd c hcG)
    | inner hG =>
      cases hH with
      | here => exact Or.inr ⟨H, .here, hG.mem_labels⟩
      | inner hH =>
        refine (ihi hi hG hH).imp id ?_
        rintro ⟨K, hK, hb⟩
        exact ⟨K, .inner hK, hb⟩
      | next hH => exact absurd (hH.labels_subset hc') (hd c (hG.labels_subset hcG))
    | next hG =>
      cases hH with
      | here => exact absurd (hG.labels_subset hcG) (hd c hc')
      | inner hH => exact absurd (hG.labels_subset hcG) (hd c (hH.labels_subset hc'))
      | next hH =>
        refine (ihn hn hG hH).imp id ?_
        rintro ⟨K, hK, hb⟩
        exact ⟨K, .next hK, hb⟩

theorem Parent.unique (h : Parent F c a) (h' : Parent F c b) : a = b := by
  rcases h.between hF h'.under with rfl | hab
  · rfl
  · rcases h'.between hF h.under with rfl | hba
    · rfl
    · exact absurd rfl (Under.ne hF (hab.trans hF hba))

theorem under_iff_transGen : Under F b a ↔ Relation.TransGen (Parent F) b a := by
  constructor
  · rintro ⟨G, hG, hb⟩
    -- along the size of what is under `a`
    induction hn : G.labels.length using Nat.strongRecOn generalizing a G with
    | ind n ih =>
      subst hn
      rcases top_or_under hb with htop | ⟨c, hc, H, hH, hb'⟩
      · exact .single ⟨G, hG, htop⟩
      · exact .tail (ih _ hH.length_lt H (hG.trans hH) hb' rfl) ⟨G, hG, hc⟩
  · intro h
    induction h with
    | single h => exact h.under
    | tail _ h ih => exact ih.trans hF h.under

end

end Hier
