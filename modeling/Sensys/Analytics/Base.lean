import Mathlib.Data.Rat.Cast.Order
import Mathlib.Tactic.NormNum
import Sensys.Opal.Dss
/-!
# What the steps of a workflow share

| here | there |
| --- | --- |
| `Reading`, `getNumber` | an item of `compute_data`, `orcm_util_get_number_orcm_value` (`orcm/util/utils.c:658-708`) |
| `getTimeInSec` | `orcm_util_get_time_in_sec` (`orcm/util/utils.c:718-772`) |
| `TimeItem`, `getSampleTime` | an item of `non_compute_data`, `orcm_analytics_base_get_sample_time` (`orcm/mca/analytics/base/analytics_base_stubs.c:521-552`) |

Doubles are rationals, and arithmetic on them is exact.
-/
namespace Sensys.Analytics
open Orte Opal

inductive Reading where
  | integer (type : IntType) (n : Int)
  /-- A float or a double. -/
  | real (x : ℚ)
  /-- Of another type. -/
  | other
deriving DecidableEq, Repr

/-- The member `int64` is read of an unsigned integer of 64 bits. -/
def getNumber : Reading → ℚ
  | .integer .uint64 n => (n.bmod (2 ^ 64) : Int)
  | .integer _ n => n
  | .real x => x
  | .other => 0

def dblMax : ℚ := (2 ^ 53 - 1) * 2 ^ 971

/-- The smallest positive double that is normalised. -/
def dblMin : ℚ := 1 / 2 ^ 1022

/-- A number that its type can hold. -/
def Reading.Valid : Reading → Prop
  | .integer type n => type.Holds n
  | .real x => -dblMax ≤ x ∧ x ≤ dblMax
  | .other => False

/-- The number that is meant. -/
def Reading.value : Reading → ℚ
  | .integer _ n => n
  | .real x => x
  | .other => 0

/-! ## Times -/

def secondsMultiplier : Char → Nat
  | 'd' => 86400
  | 'h' => 3600
  | 'm' => 60
  | _ => 1

/-- The last character is the unit if it is not a digit. Of an empty text the one before it is
read, and `(size_t)-1` characters are copied; this has no result. -/
def getTimeInSec (time : Text) : Option UInt64 :=
  time.getLast?.map fun type =>
    let digits := if type.isDigit then time else time.dropLast
    if digits.all Char.isDigit then UInt64.ofInt
      (min (strtol 0 digits) longMax * secondsMultiplier type) else 0

/-- No attribute with such a key is an empty text. -/
def Timed (keys : List Text) (attributes : List (Text × Text)) : Prop :=
  ∀ a ∈ attributes, a.1 ∈ keys → a.2 ≠ []

instance (keys : List Text) : DecidablePred (Timed keys) :=
  fun _ => inferInstanceAs (Decidable (∀ a ∈ _, _))

theorem exists_getTimeInSec {time : Text} (h : time ≠ []) :
    ∃ seconds, getTimeInSec time = some seconds := by
  rw [getTimeInSec, List.getLast?_eq_some_getLast h]
  exact ⟨_, rfl⟩

structure Timeval where
  sec  : Int
  usec : Int
deriving DecidableEq, Repr

def timevalToUint64 (tv : Timeval) : UInt64 :=
  let sec := UInt64.ofInt tv.sec
  if 5000000 ≤ tv.usec then sec + 1 else sec

structure TimeItem where
  key : Option Text
  tv  : Timeval
deriving DecidableEq, Repr

/-- `strstr(key, "time")`. -/
def hasTime (key : Text) : Bool := key.tails.any (['t', 'i', 'm', 'e'].isPrefixOf ·)

/-- The first item with such a key, if the ones before it have a key. -/
def getSampleTime : List TimeItem → Option UInt64
  | [] => none
  | item :: rest =>
    match item.key with
    | none => none
    | some key => if hasTime key then some (timevalToUint64 item.tv) else getSampleTime rest

/-- Return values. -/
inductive Rc where
  | badParam
  | recvMoreThanPosted
  | outOfResource
  | emissionFailed
  /-- The call does not return in a way that is defined. -/
  | undefined
deriving DecidableEq, Repr

/-- What becomes of a result. -/
inductive Emission where
  | sent
  /-- An error is returned. -/
  | failed
  /-- The value for the next step could not be created, which is no error. -/
  | lost
deriving DecidableEq, Repr

/-- A result for the next step, with the numbers of samples and values that it is computed of. -/
structure Summary where
  result        : ℚ
  numSampleRecv : Nat
  numDataPoint  : Nat
deriving DecidableEq, Repr

end Sensys.Analytics
