import Mathlib.Data.Nat.Log
import Mathlib.Data.Rat.Floor
import Sensys.Db.FunctionQuery
/-!
# Quantities as intervals (`query_double_to_interval`, `orcm/tools/octl/query.c:644-688`)

Doubles are rationals. One that is not negative becomes an integer by `⌊·⌋`, and `modf` gives
`Int.fract` and `⌊·⌋`. Up to `2 ^ 31` units an `int` holds all the numbers. That `log10` rounds
down to the digits that there are is assumed.
-/
namespace Sensys.Octl
open Orte Db Text List

/-- `%02d`. -/
def show2 (n : Int) : Text := if n < 0 then showInt n else pad 2 n.natAbs

def intervalText (p : Bool × Int × Int × Int) : Text :=
  (if p.1 then ['-'] else []) ++ show2 p.2.1 ++ ':' :: show2 p.2.2.1 ++ ':' :: show2 p.2.2.2

/-- The sign, hours, minutes and seconds that are printed, and the space for the text. -/
def doubleToInterval (quantity : ℚ) (units : Char) : Option ((Bool × Int × Int × Int) × Nat) := do
  let (hours, minutes, seconds) ←
    if units = 'S' then some (0, 0, ⌊|quantity|⌋)
    else if units = 'M' then some (0, |quantity|, 0)
    else if units = 'H' then some (|quantity|, 0, 0)
    else none
  let minutes := minutes + Int.fract hours * 60
  let tseconds := ⌊seconds + Int.fract minutes * 60⌋
  let tminutes := ⌊minutes⌋ + tseconds / 60
  let hours := ⌊hours⌋ + tminutes / 60
  let length := Nat.log 10 (if hours ≠ 0 then hours else 1).natAbs + 2
  some ((quantity < 0, hours, tminutes % 60, tseconds % 60), length + 7)

theorem length_show2 (n : Nat) : (show2 n).length = max 2 (Nat.log 10 n + 1) := by
  have hle : (Nat.toDigits 10 n).length ≤ Nat.log 10 n + 1 :=
    length_toDigits_le (Nat.succ_pos _) (Nat.lt_pow_succ_log_self (by omega) n)
  have hn : n < 10 ^ (Nat.toDigits 10 n).length :=
    (Nat.length_toDigits_le_iff (by omega) Nat.length_toDigits_pos).1 (Nat.le_refl _)
  have hlt : Nat.log 10 n < (Nat.toDigits 10 n).length :=
    Nat.log_lt_of_lt_pow' Nat.length_toDigits_pos.ne' hn
  simp only [show2, pad, Int.natAbs_natCast, length_append, length_replicate,
    if_neg (Int.natCast_nonneg n).not_gt]
  omega

/-- A whole number of units, with the seconds in a unit. -/
theorem doubleToInterval_eq (q : Int) {units : Char} {n k T : Nat} (hn : |(q : ℚ)| = n)
    (hk : (units, k) ∈ [('S', 1), ('M', 60), ('H', 3600)]) (hT : n * k = T) :
    doubleToInterval q units =
      some ((decide (q < 0), ↑(T / 3600), ↑(T / 60 % 60), ↑(T % 60)),
      Nat.log 10 (T / 3600) + 9) := by
  have hlog : ∀ h : Nat, Nat.log 10 (if (h : Int) ≠ 0 then (h : Int) else 1).natAbs = Nat.log 10 h
    | 0 => rfl
    | h + 1 => rfl
  rw [← hlog]
  simp only [mem_cons, Prod.mk.injEq, not_mem_nil, or_false] at hk
  obtain ⟨rfl, rfl⟩ | ⟨rfl, rfl⟩ | ⟨rfl, rfl⟩ := hk
  · simp [doubleToInterval, hn, ← hT, show (n : Int) / 60 / 60 = n / 3600 by omega]
  · simp [doubleToInterval, hn, ← hT, show (n : Int) * 60 / 3600 = n / 60 by omega]
  · simp [doubleToInterval, hn, ← hT]
    omega

/-- The text always denotes the quantity. There is no space for both a sign and the zero in front
of a single digit. -/
theorem doubleToInterval_right_iff (q : Int) {units : Char} {k : Nat}
    (hk : (units, k) ∈ [('S', 1), ('M', 60), ('H', 3600)]) :
    ∃ h m s size : Nat, doubleToInterval q units = some ((decide (q < 0), ↑h, ↑m, ↑s), size) ∧
      m < 60 ∧ s < 60 ∧
      h * 3600 + m * 60 + s = q.natAbs * k ∧
      ((intervalText (decide (q < 0), ↑h, ↑m, ↑s)).length + 1 ≤ size ↔
      0 ≤ q ∨ 36000 ≤ q.natAbs * k) := by
  generalize hT : q.natAbs * k = T
  refine ⟨_, _, _, _, doubleToInterval_eq q (by simp) hk hT, Nat.mod_lt _ (by omega),
    Nat.mod_lt _ (by omega), by omega, ?_⟩
  have hlog : 0 < Nat.log 10 (T / 3600) ↔ 10 ≤ T / 3600 := by simp [Nat.log_pos_iff]
  have hm : Nat.log 10 (T / 60 % 60) < 2 := Nat.log_lt_of_lt_pow' (by omega) (by omega)
  have hs : Nat.log 10 (T % 60) < 2 := Nat.log_lt_of_lt_pow' (by omega) (by omega)
  simp only [intervalText, length_append, length_cons, length_show2]
  by_cases hq : q < 0 <;> simp [hq] <;> omega

theorem two_hours_right :
    ∃ h m s size : Nat, doubleToInterval (2 : Int) 'H' = some ((false, ↑h, ↑m, ↑s), size) ∧
      m < 60 ∧ s < 60 ∧
    h * 3600 + m * 60 + s = 7200 ∧ ((intervalText (false, ↑h, ↑m, ↑s)).length + 1 ≤ size ↔
    0 ≤ (2 : Int) ∨ 36000 ≤ 7200) :=
  @doubleToInterval_right_iff 2 'H' 3600 (by decide)

/-- An hour ago is written as `-01:00:00`. -/
theorem hour_ago_too_long :
    doubleToInterval (-1) 'H' = some ((true, 1, 0, 0), 9) ∧
      (intervalText (true, 1, 0, 0)).length + 1 = 10 := by
  decide +kernel

end Sensys.Octl
