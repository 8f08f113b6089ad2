import Sensys.Analytics.Base
/-!
# The aggregate step (`orcm/mca/analytics/aggregate/analytics_aggregate.c`)

| here | there |
| --- | --- |
| `Aggregate`, `Aggregate.new` | `orcm_analytics_aggregate` (`analytics_aggregate.h:27-34`), `orcm_analytics_aggregate_con` (`:39-45`) |
| `getOperationName`, `computeAverage`, `computeMin`, `computeMax`, `computeAgg`, `analyze` | `:86-234` |

A step has at least one attribute. What becomes of a result is an input (`Emission`).
-/
namespace Sensys.Analytics.Aggregating
open Orte

structure Aggregate where
  average   : ℚ
  min       : ℚ
  max       : ℚ
  numSample : UInt32
deriving DecidableEq, Repr

def Aggregate.new : Aggregate := ⟨0, dblMax, -dblMax, 0⟩

/-- Only the first attribute is looked at. -/
def getOperationName : List (Text × Text) → Option Text
  | (key, value) :: _ => if key = ['c', 'o', 'm', 'p', 'u', 't', 'e'] then some value else none
  | [] => none

def computeAverage (a : Aggregate) (data : List Reading) : Aggregate × ℚ :=
  let sum := data.foldl (fun sum x => sum + getNumber x) 0
  let value := (a.average * a.numSample.toNat + sum) / (a.numSample.toNat + data.length)
  ({ a with average := value, numSample := a.numSample + UInt32.ofNat data.length }, value)

def computeMin (a : Aggregate) (data : List Reading) : Aggregate × ℚ :=
  let a :=
    data.foldl (fun a x => if getNumber x < a.min then { a with min := getNumber x } else a) a
  (a, a.min)

def computeMax (a : Aggregate) (data : List Reading) : Aggregate × ℚ :=
  let a :=
    data.foldl (fun a x => if getNumber x > a.max then { a with max := getNumber x } else a) a
  (a, a.max)

/-- An operation may be cut short: `strncmp(op, word, strlen(op))`. -/
def computeAgg (op : Text) (a : Aggregate) (data : List Reading) : Option (Aggregate × ℚ) :=
  if op.isPrefixOf ['a', 'v', 'e', 'r', 'a', 'g', 'e'] then some (computeAverage a data)
  else if op.isPrefixOf ['m', 'i', 'n'] then some (computeMin a data)
  else if op.isPrefixOf ['m', 'a', 'x'] then some (computeMax a data)
  else none

structure Outcome where
  state   : Aggregate
  rc      : Except Rc Unit
  emitted : Option ℚ

def analyze (attributes : List (Text × Text)) (a : Aggregate) (data : List Reading)
    (emission : Emission) : Outcome :=
  if data = [] then ⟨a, .ok (), none⟩
  else
    match (getOperationName attributes).bind fun op => computeAgg op a data with
    | none => ⟨a, .error .badParam, none⟩
    | some (a, value) =>
      match emission with
      | .sent => ⟨a, .ok (), some value⟩
      | _ => ⟨a, .error .emissionFailed, none⟩

/-- Samples one after the other, and the last result. -/
def analyzeAll (attributes : List (Text × Text)) (samples : List (List Reading)) : Outcome :=
  samples.foldl (fun o data => analyze attributes o.state data .sent) ⟨.new, .ok (), none⟩

end Sensys.Analytics.Aggregating
