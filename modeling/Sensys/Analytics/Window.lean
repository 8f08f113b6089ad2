import Mathlib.Data.UInt
import Sensys.Analytics.Base
/-!
# The window step (`orcm/mca/analytics/window/analytics_window.c`)

| here | there |
| --- | --- |
| `WinStatistics`, `WinStatistics.new` | `win_statistics_t` (`analytics_window.h:22-33`), `win_statistics_con` (`:28-39`) |
| `resetWindow`, `fillWinStatistics`, `fillAttributes` | `:153-229` |
| `accumulate`, `accumulateData` | `accumulate_data_average` .. `accumulate_data` (`:231-279`) |
| `computing` | `:281-301` |
| `handleFullWindow` | `:391-450`: what is sent to the next step |
| `doComputeTimeWindow`, `doComputeCounterWindow`, `doCompute` | `:452-516` |
| `analyze` | `fill_first_sample`, `analyze` (`:518-560`) |

`sqrt` is a parameter. Counts of samples and data points are numbers. What becomes of a result is
an input (`Emission`): its parts may not be created, or the event for the database not be stored.
-/
namespace Sensys.Analytics.Window
open Orte

structure WinStatistics where
  winSize       : UInt64
  winLeft       : UInt64
  winRight      : UInt64
  numSampleRecv : Nat
  numDataPoint  : Nat
  sumMinMax     : ℚ
  sumSquare     : ℚ
  computeType   : Option Text
  winType       : Option Text
deriving DecidableEq

def WinStatistics.new : WinStatistics := ⟨0, 0, 0, 0, 0, 0, 0, none, none⟩

/-- `0 == strncmp(text, word, strlen(word))`. -/
def starts (word : Text) (text : Option Text) : Bool := text.any (word.isPrefixOf ·)

def averageWord : Text := ['a', 'v', 'e', 'r', 'a', 'g', 'e']
def minWord : Text := ['m', 'i', 'n']
def maxWord : Text := ['m', 'a', 'x']
def sdWord : Text := ['s', 'd']
def timeWord : Text := ['t', 'i', 'm', 'e']
def counterWord : Text := ['c', 'o', 'u', 'n', 't', 'e', 'r']

/-- The value the accumulation starts with. -/
def initial (computeType : Option Text) : ℚ :=
  if starts minWord computeType then dblMax else if starts maxWord computeType then dblMin else 0

def resetWindow (w : WinStatistics) (left incre : UInt64) : WinStatistics :=
  { w with
    winLeft := left, winRight := left + incre, numSampleRecv := 0, numDataPoint := 0, sumMinMax :=
    initial w.computeType, sumSquare := 0 }

def knownCompute (computeType : Option Text) : Bool :=
  starts averageWord computeType || starts minWord computeType || starts maxWord computeType ||
    starts sdWord computeType

/-- The statistics are changed also where it fails. -/
def fillWinStatistics (w : WinStatistics) : WinStatistics × Except Rc Unit :=
  if w.winSize = 0 then (w, .error .badParam)
  else
    let w := { w with winType := some (w.winType.getD timeWord) }
    if !starts timeWord w.winType && !starts counterWord w.winType then (w, .error .badParam)
    else if !knownCompute w.computeType then (w, .error .badParam)
    else if starts timeWord w.winType then (resetWindow w 0 0, .ok ())
    else (resetWindow w 0 w.winSize, .ok ())

def winSizeWord : Text := ['w', 'i', 'n', '_', 's', 'i', 'z', 'e']

def fillAttribute (w : WinStatistics) (attr : Text × Text) : Except Rc WinStatistics :=
  if attr.1 = winSizeWord then
    match getTimeInSec attr.2 with
    | some winSize => .ok { w with winSize }
    | none => .error .undefined
  else if attr.1 = ['c', 'o', 'm', 'p', 'u', 't', 'e'] then .ok
    { w with computeType := some (w.computeType.getD attr.2) }
  else if attr.1 = ['t', 'y', 'p', 'e'] then .ok { w with winType := some (w.winType.getD attr.2) }
  else .ok w

def fillAttributes (w : WinStatistics) (attributes : List (Text × Text)) :
    WinStatistics × Except Rc Unit :=
  match attributes.foldlM fillAttribute w with
  | .ok w => fillWinStatistics w
  | .error rc => (w, .error rc)

def accumulate (w : WinStatistics) (num : ℚ) : WinStatistics :=
  if starts averageWord w.computeType then { w with sumMinMax := w.sumMinMax + num }
  else if starts minWord w.computeType then if num < w.sumMinMax then { w with sumMinMax := num }
    else w
  else if starts maxWord w.computeType then if num > w.sumMinMax then { w with sumMinMax := num }
    else w
  else { w with sumMinMax := w.sumMinMax + num, sumSquare := w.sumSquare + num ^ 2 }

def accumulateData (w : WinStatistics) (data : List Reading) : WinStatistics :=
  (data.map getNumber).foldl accumulate { w with numSampleRecv := w.numSampleRecv + 1, numDataPoint := w.numDataPoint + data.length }

def computing (sqrt : ℚ → ℚ) (w : WinStatistics) : ℚ :=
  if starts averageWord w.computeType then w.sumMinMax / w.numDataPoint
  else if starts minWord w.computeType || starts maxWord w.computeType then w.sumMinMax
  else if 1 < w.numDataPoint then
    let temp := w.numDataPoint * w.sumSquare - w.sumMinMax ^ 2
    if 0 ≤ temp then sqrt (temp / (w.numDataPoint * (w.numDataPoint - 1))) else 0
  else 0

/-! ## Samples -/

/-- A sample, and what becomes of a result that it completes. -/
structure Input where
  key         : Option (List Text)
  nonCompute  : Option (List TimeItem)
  computeData : Option (List Reading)
  emission    : Emission
deriving DecidableEq

structure Outcome where
  state   : WinStatistics
  rc      : Except Rc Unit
  emitted : Option Summary

section
variable (sqrt : ℚ → ℚ)

def handleFullWindow (w : WinStatistics) (emission : Emission) : Except Rc (Option Summary) :=
  if w.numSampleRecv = 0 then .ok none
  else
    match emission with
    | .sent => .ok (some ⟨computing sqrt w, w.numSampleRecv, w.numDataPoint⟩)
    | .failed => .error .emissionFailed
    | .lost => .ok none

def doComputeTimeWindow (w : WinStatistics) (nonCompute : List TimeItem) (data : List Reading)
    (emission : Emission) : Outcome :=
  match getSampleTime nonCompute with
  | none => ⟨w, .error .badParam, none⟩
  | some sampleTime =>
    if sampleTime < w.winLeft then ⟨w, .error .recvMoreThanPosted, none⟩
    else if w.winLeft = w.winRight then
      ⟨accumulateData { w with winLeft := sampleTime, winRight := sampleTime + w.winSize } data,
        .ok (), none⟩
    else if sampleTime ≥ w.winRight then
      match handleFullWindow sqrt w emission with
      | .error rc => ⟨w, .error rc, none⟩
      | .ok emitted =>
        let w :=
          if sampleTime ≥
            w.winRight + w.winSize then resetWindow w
            (sampleTime - sampleTime % w.winSize) w.winSize
          else resetWindow w w.winRight w.winSize
        ⟨accumulateData w data, .ok (), emitted⟩
    else ⟨accumulateData w data, .ok (), none⟩

def doComputeCounterWindow (w : WinStatistics) (data : List Reading) (emission : Emission) :
    Outcome :=
  let w := accumulateData w data
  if w.winRight.toNat ≤ w.numSampleRecv then
    match handleFullWindow sqrt w emission with
    | .error rc => ⟨w, .error rc, none⟩
    | .ok emitted => ⟨resetWindow w 0 w.winSize, .ok (), emitted⟩
  else ⟨w, .ok (), none⟩

def doCompute (w : WinStatistics) (x : Input) : Outcome :=
  match x.key, x.nonCompute, x.computeData with
  | some (_ :: _), some nonCompute, some (value :: values) =>
    if starts timeWord w.winType then doComputeTimeWindow sqrt w nonCompute
      (value :: values) x.emission
    else doComputeCounterWindow sqrt w (value :: values) x.emission
  | _, _, _ => ⟨w, .error .badParam, none⟩

/-- The attributes are those of the step. -/
def analyze (attributes : List (Text × Text)) (w : WinStatistics) (x : Input) : Outcome :=
  if w.numSampleRecv = 0 then
    match fillAttributes w attributes with
    | (w, .ok ()) => doCompute sqrt w x
    | (w, .error rc) => ⟨w, .error rc, none⟩
  else doCompute sqrt w x

end

end Sensys.Analytics.Window
