import Mathlib.Data.List.Basic
/-!
# A buffer that is read and written

A buffer is a function from indices; `Holds b i l` says that the list `l` is there from index `i`
on. A part of it that is copied to the left, element by element, arrives as it was.
-/
namespace Buffer
open List

variable {α : Type}

def put (b : Nat → α) (k : Nat) (x : α) : Nat → α := fun j => if j = k then x else b j

/-- The list is in the buffer from index `i` on. -/
def Holds (b : Nat → α) : Nat → List α → Prop
  | _, [] => True
  | i, x :: l => b i = x ∧ Holds b (i + 1) l

/-- Copies `n` elements from `q` to `w`, one after the other, changing each with `f`. -/
def copy (f : α → α) : Nat → Nat → Nat → (Nat → α) → (Nat → α)
  | 0, _, _, b => b
  | n + 1, w, q, b => copy f n (w + 1) (q + 1) (put b w (f (b q)))

theorem put_self (b : Nat → α) (k : Nat) (x : α) : put b k x k = x := if_pos rfl

variable {j i w q : Nat} {b : Nat → α} {l : List α} (f : α → α)

theorem put_of_ne (b : Nat → α) {k : Nat} (h : j ≠ k) (x : α) : put b k x j = b j := if_neg h

theorem Holds.append {m : List α} :
    Holds b i (l ++ m) ↔ Holds b i l ∧ Holds b (i + l.length) m := by
  induction l generalizing i with
  | nil => simp [Holds]
  | cons x l ih =>
    rw [cons_append, Holds, ih, Holds, and_assoc, length_cons, Nat.add_right_comm, Nat.add_assoc]

theorem Holds.congr {b' : Nat → α} (h : Holds b i l)
    (hb : ∀ j, i ≤ j → j < i + l.length → b' j = b j) : Holds b' i l := by
  induction l generalizing i with
  | nil => trivial
  | cons x l ih =>
    refine ⟨?_, ih h.2 fun j hj hlt => hb j (by omega) (by simp only [length_cons]; omega)⟩
    rw [hb i (Nat.le_refl _) (by simp)]
    exact h.1

theorem Holds.put_left {k : Nat} (h : Holds b i l) (hk : k < i) (x : α) : Holds (put b k x) i l :=
  h.congr fun j hj _ => put_of_ne b (by omega) x

theorem Holds.put_end (h : Holds b i l) (x : α) : Holds (put b (i + l.length) x) i (l ++ [x]) := by
  refine Holds.append.2 ⟨h.congr fun j _ hlt => put_of_ne b (by omega) x, put_self _ _ _, trivial⟩

theorem Holds.getElem (h : Holds b i l) (hj : j < l.length) : b (i + j) = l[j] := by
  induction l generalizing i j with
  | nil => cases hj
  | cons x l ih =>
    cases j with
    | zero => exact h.1
    | succ j =>
      rw [show i + (j + 1) = i + 1 + j by omega]
      exact ih h.2 (by simpa using hj)

theorem Holds.map_range (h : Holds b 0 l) : (List.range l.length).map b = l := by
  refine ext_getElem (by simp) fun j hj _ => ?_
  have hlt : j < l.length := by simpa using hj
  simpa using h.getElem hlt

theorem holds_getD (pre l : List α) (x : α) :
    Holds (fun j => (pre ++ l).getD j x) pre.length (l ++ [x]) := by
  induction l generalizing pre with
  | nil => exact ⟨by simp, trivial⟩
  | cons y l ih =>
    have ih := ih (pre ++ [y])
    simp only [append_assoc, singleton_append, length_append, length_singleton] at ih
    exact ⟨by simp, ih⟩

theorem copy_outside {n : Nat} (b : Nat → α) (hj : j < w ∨ w + n ≤ j) : copy f n w q b j = b j := by
  induction n generalizing w q b with
  | zero => rfl
  | succ n ih => rw [copy, ih _ (by omega), put_of_ne _ (by omega)]

/-- Copying to the left reads every element before it is overwritten. -/
theorem Holds.copy (h : Holds b q l) (hwq : w ≤ q) : Holds (copy f l.length w q b) w (l.map f) := by
  induction l generalizing w q b with
  | nil => trivial
  | cons x l ih =>
    have hq : b q = x := h.1
    refine ⟨?_, ih (h.2.put_left (by omega) _) (by omega)⟩
    show Buffer.copy f l.length (w + 1) (q + 1) (put b w (f (b q))) w = f x
    rw [copy_outside f _ (by omega), put_self, hq]

/-- What is copied to the end of what is held, with one element more. -/
theorem Holds.copy_put {out : List α} (hout : Holds b 0 out) (hl : Holds b q l)
    (hq : out.length ≤ q) (x : α) :
    Holds (put (Buffer.copy f l.length out.length q b) (out.length + l.length) x) 0
      (out ++ l.map f ++ [x]) := by
  have hold : Holds (Buffer.copy f l.length out.length q b) 0 (out ++ l.map f) := by
    refine Holds.append.2 ⟨hout.congr fun j _ hj => copy_outside f b (by omega), ?_⟩
    rw [Nat.zero_add]
    exact hl.copy f hq
  have hput := hold.put_end x
  rwa [length_append, length_map, Nat.zero_add] at hput

theorem copy_put_of_gt {n : Nat} (b : Nat → α) (hj : w + n < j) (x : α) :
    put (copy f n w q b) (w + n) x j = b j := by
  rw [put_of_ne _ (by omega), copy_outside f b (by omega)]

end Buffer
