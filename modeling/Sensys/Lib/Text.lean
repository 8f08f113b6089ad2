import Mathlib.Algebra.Ring.Int.Defs
import Mathlib.Algebra.Ring.Nat
import Mathlib.Data.List.TakeWhile
import Mathlib.Data.List.Induction
/-!
# Texts

A text is a list of characters. Scanning for a character is `takeWhile` and `dropWhile`; a number is
written with `Nat.toDigits 10` and read back with `digitsValue`.
-/
namespace Text
open List

/-! What is said of the characters of a text is decided along the text, not for every character
there is. -/

instance (priority := 2000) decidableForallMem (p : Char → Prop) [DecidablePred p] (t : List Char) :
    Decidable (∀ c ∈ t, p c) :=
  List.decidableBAll p t

instance (priority := 2000) decidableExistsMem (p : Char → Prop) [DecidablePred p] (t : List Char) :
    Decidable (∃ c ∈ t, p c) :=
  List.decidableBEx p t

/-- The number a run of decimal digits stands for. -/
def digitsValue (ds : List Char) : Nat := Nat.ofDigitChars 10 ds 0

/-- The value of a digit in a base up to 36. -/
def digitOf (c : Char) : Nat :=
  if c.isDigit then c.toNat - '0'.toNat
  else if c.isLower then c.toNat - 'a'.toNat + 10
  else if c.isUpper then c.toNat - 'A'.toNat + 10
  else 36

/-- The digits at the front of a text. -/
def readDigits (base : Nat) (s : List Char) : Nat :=
  (s.takeWhile fun c => digitOf c < base).foldl (fun n c => n * base + digitOf c) 0

/-- A number without its sign, as C reads it: `0x` is skipped if a digit follows, and in base 0 a
number that starts with 0 is octal. -/
def readUnsigned (base : Nat) : List Char → Nat
  | '0' :: x :: c :: s =>
    if (base = 0 ∨ base = 16) ∧ (x = 'x' ∨ x = 'X') ∧ digitOf c < 16 then readDigits 16 (c :: s)
    else readDigits (if base = 0 then 8 else base) ('0' :: x :: c :: s)
  | '0' :: s => readDigits (if base = 0 then 8 else base) ('0' :: s)
  | s => readDigits (if base = 0 then 10 else base) s

theorem digitOf_lt_ten (c : Char) : decide (digitOf c < 10) = c.isDigit := by
  unfold digitOf
  split_ifs with hdigit
  · have hle : c.toNat ≤ 57 := by
      simp only [Char.isDigit, Bool.and_eq_true, decide_eq_true_eq,
        UInt32.le_iff_toNat_le] at hdigit
      exact hdigit.2
    rw [hdigit, decide_eq_true]
    simp
    omega
  all_goals simp [hdigit]

theorem readUnsigned_ten (s : List Char) :
    readUnsigned 10 s = digitsValue (s.takeWhile Char.isDigit) := by
  have hread : readDigits 10 s = digitsValue (s.takeWhile Char.isDigit) := by
    have hfold : ∀ (ds : List Char) (n : Nat), (∀ c ∈ ds, c.isDigit = true) →
        ds.foldl (fun n c => n * 10 + digitOf c) n = Nat.ofDigitChars 10 ds n := by
      intro ds
      induction ds with
      | nil => exact fun _ _ => rfl
      | cons c ds ih =>
        intro n h
        rw [foldl_cons, Nat.ofDigitChars_cons, ih _ fun d hd => h d (mem_cons_of_mem _ hd)]
        simp [digitOf, h c mem_cons_self, Nat.mul_comm]
    simp only [readDigits, digitOf_lt_ten]
    exact hfold _ 0 fun c hc => mem_takeWhile_imp hc
  unfold readUnsigned
  split <;> simpa using hread

@[simp]
theorem digitsValue_toDigits (n : Nat) : digitsValue (Nat.toDigits 10 n) = n :=
  Nat.ofDigitChars_ten_toDigits

/-- `n` with zeros in front, `d` digits wide. -/
def pad (d n : Nat) : List Char :=
  List.replicate (d - (Nat.toDigits 10 n).length) '0' ++ Nat.toDigits 10 n

variable {d n : Nat} (t : List Char)

theorem isDigit_of_mem_pad {c : Char} (h : c ∈ pad d n) : c.isDigit = true := by
  rcases mem_append.1 h with h | h
  · rw [eq_of_mem_replicate h]; rfl
  · exact Nat.isDigit_of_mem_toDigits (by omega) (by omega) h

theorem length_pad (h : (Nat.toDigits 10 n).length ≤ d) : (pad d n).length = d := by
  simp only [pad, length_append, length_replicate]
  omega

theorem pad_ne_nil (d n : Nat) : pad d n ≠ [] := by
  simp [pad, Nat.toDigits_ne_nil]

@[simp]
theorem digitsValue_pad (d n : Nat) : digitsValue (pad d n) = n := by
  simp [digitsValue, pad, Nat.ofDigitChars_append, Nat.ofDigitChars_replicate_zero]

theorem digitsValue_concat (c : Char) :
    digitsValue (t ++ [c]) = 10 * digitsValue t + (c.toNat - '0'.toNat) := by
  simp [digitsValue, Nat.ofDigitChars]

/-- Digits of a given number are determined by the value. -/
theorem digits_unique {t u : List Char} (ht : ∀ c ∈ t, c.isDigit = true)
    (hu : ∀ c ∈ u, c.isDigit = true) (hlen : t.length = u.length)
    (hval : digitsValue t = digitsValue u) : t = u := by
  induction t using List.reverseRecOn generalizing u with
  | nil => exact (length_eq_zero_iff.1 hlen.symm).symm
  | append_singleton t c ih =>
    obtain rfl | ⟨u, d, rfl⟩ := u.eq_nil_or_concat
    · simp at hlen
    · have hc := Char.isDigit_iff_toNat.1 (ht c (by simp))
      have hd := Char.isDigit_iff_toNat.1 (hu d (by simp))
      rw [concat_eq_append] at hlen ⊢
      rw [concat_eq_append, digitsValue_concat, digitsValue_concat] at hval
      have h9 : '9'.toNat = '0'.toNat + 9 := rfl
      have hcd : c = d := Char.ext (UInt32.toNat_inj.1 (show c.toNat = d.toNat by omega))
      have htu : t = u :=
        ih (fun a ha => ht a (by simp [ha])) (fun a ha => hu a (by simp [ha]))
          (by simpa using hlen) (by omega)
      rw [hcd, htu]

theorem digitsValue_lt (h : ∀ c ∈ t, c.isDigit = true) : digitsValue t < 10 ^ t.length := by
  induction t using List.reverseRecOn with
  | nil => decide
  | append_singleton t c ih =>
    have hc := Char.isDigit_iff_toNat.1 (h c (by simp))
    have h9 : '9'.toNat = '0'.toNat + 9 := rfl
    have ih := ih fun a ha => h a (by simp [ha])
    rw [digitsValue_concat, length_append, length_singleton, Nat.pow_succ]
    omega

theorem length_toDigits_le (hd : 0 < d) (h : n < 10 ^ d) : (Nat.toDigits 10 n).length ≤ d :=
  (Nat.length_toDigits_le_iff (by omega) hd).2 h

/-- Digits are the padded form of what they stand for. -/
theorem pad_digitsValue {t : List Char} (hne : t ≠ []) (h : ∀ c ∈ t, c.isDigit = true) :
    pad t.length (digitsValue t) = t := by
  have hlen : (pad t.length (digitsValue t)).length = t.length :=
    length_pad (length_toDigits_le (length_pos_iff.2 hne) (digitsValue_lt t h))
  exact digits_unique (fun c hc => isDigit_of_mem_pad hc) h hlen (digitsValue_pad _ _)

section scan
variable {α : Type} {p : α → Bool} {w rest : List α} {c : α}

theorem decide_ne_of_notMem [DecidableEq α] (h : c ∉ w) : ∀ a ∈ w, decide (a ≠ c) = true :=
  fun _ ha => decide_eq_true fun heq => h (heq ▸ ha)

/-- A scan over `w` stops at the first element that is not like `w`. -/
theorem takeWhile_append_cons (hw : ∀ a ∈ w, p a = true) (hc : p c = false) :
    (w ++ c :: rest).takeWhile p = w := by
  rw [takeWhile_append_of_pos hw, takeWhile_cons_of_neg (by simp [hc]), append_nil]

theorem dropWhile_append_cons (hw : ∀ a ∈ w, p a = true) (hc : p c = false) :
    (w ++ c :: rest).dropWhile p = c :: rest := by
  rw [dropWhile_append_of_pos hw, dropWhile_cons_of_neg (by simp [hc])]

theorem dropWhile_eq_cons {l : List α} (h : l.dropWhile p = c :: rest) :
    l = l.takeWhile p ++ c :: rest ∧ p c = false := by
  refine ⟨by rw [← h, takeWhile_append_dropWhile], ?_⟩
  have hc := List.head?_dropWhile_not p l
  simpa [h] using hc

end scan

theorem isDigit_eq_false_of_isAlpha {c : Char} (h : c.isAlpha = true) : c.isDigit = false := by
  delta Char.isAlpha Char.isUpper Char.isLower at h
  simp only [Char.isDigit, Bool.or_eq_true, Bool.and_eq_true, decide_eq_true_eq,
    Bool.and_eq_false_iff, decide_eq_false_iff_not] at h ⊢
  simp only [UInt32.le_iff_toNat_le] at h ⊢
  simp at h ⊢
  omega

theorem isAlpha_eq_false_of_isDigit {c : Char} (h : c.isDigit = true) : c.isAlpha = false := by
  by_contra ha
  have := isDigit_eq_false_of_isAlpha (by simpa using ha)
  simp [h] at this

end Text
