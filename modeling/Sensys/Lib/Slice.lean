import Mathlib.Data.List.Basic
import Mathlib.Order.Monotone.Basic
/-!
# Parts of a sequence

`slice s a n` are the elements of the sequence `s` from the position `a` up to, but not including,
`n`. A queue of the latest elements of a sequence is a slice: elements are added at its end, and
removed in front while a condition holds.
-/
namespace Lists

variable {α : Type*}

def slice (s : Nat → α) (a n : Nat) : List α := (List.range' a (n - a)).map s

variable {a n : Nat}

section
variable (s : Nat → α)
include s

theorem slice_of_le (h : n ≤ a) : slice s a n = [] := by
  rw [slice, Nat.sub_eq_zero_of_le h]
  rfl

theorem slice_of_lt (h : a < n) : slice s a n = s a :: slice s (a + 1) n := by
  obtain ⟨k, rfl⟩ := Nat.exists_eq_add_of_lt h
  have hlen : a + k + 1 - a = (a + k + 1 - (a + 1)) + 1 := by omega
  rw [slice, hlen, List.range'_succ]
  rfl

theorem slice_succ (h : a ≤ n) : slice s a (n + 1) = slice s a n ++ [s n] := by
  obtain ⟨k, rfl⟩ := Nat.exists_eq_add_of_le h
  rw [slice, slice, Nat.add_sub_cancel_left, Nat.add_assoc, Nat.add_sub_cancel_left,
    List.range'_1_concat, List.map_append]
  rfl

theorem head?_slice (h : a < n) : (slice s a n).head? = some (s a) := by
  rw [slice_of_lt s h]
  rfl

theorem getLast?_slice (h : a ≤ n) : (slice s a (n + 1)).getLast? = some (s n) := by
  rw [slice_succ s h, List.getLast?_concat]

theorem exists_dropWhile_slice (p : α → Bool) (h : a ≤ n) :
    ∃ b, a ≤ b ∧ b ≤ n ∧ (slice s a n).dropWhile p = slice s b n ∧
      (∀ i, a ≤ i → i < b → p (s i) = true) ∧
      (b < n → p (s b) = false) := by
  induction k : n - a generalizing a with
  | zero =>
    obtain rfl : a = n := by omega
    refine ⟨a, Nat.le_refl a, Nat.le_refl a,
      by rw [slice_of_le s (Nat.le_refl a)]; rfl, fun i hi hi' => by omega, fun hlt => by omega⟩
  | succ k ih =>
    have hlt : a < n := by omega
    rw [slice_of_lt s hlt]
    cases hp : p (s a) with
    | false =>
      refine ⟨a, Nat.le_refl a, h, ?_, fun i hi hi' => by omega, fun _ => hp⟩
      rw [List.dropWhile_cons_of_neg (by simp [hp]), slice_of_lt s hlt]
    | true =>
      obtain ⟨b, hab, hbn, hdr, hbe, hb⟩ := ih hlt (by omega)
      refine ⟨b, by omega, hbn, by rw [List.dropWhile_cons_of_pos hp, hdr], fun i hi hi' => ?_, hb⟩
      obtain rfl | hne := Nat.eq_or_lt_of_le hi
      · exact hp
      · exact hbe i hne hi'

end

theorem pairwise_slice {r : α → α → Prop} {s : Nat → α}
    (h : ∀ i j, a ≤ i → i < j → j < n → r (s i) (s j)) :
    (slice s a n).Pairwise r := by
  rw [slice, List.pairwise_map]
  refine List.Pairwise.imp_of_mem ?_ List.pairwise_lt_range'
  intro i j hi hj hij
  rw [List.mem_range'_1] at hi hj
  exact h i j hi.1 hij (by omega)

end Lists
