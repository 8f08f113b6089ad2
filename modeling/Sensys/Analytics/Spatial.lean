import Mathlib.Data.List.AList
import Sensys.Analytics.Base
/-!
# The spatial step (`orcm/mca/analytics/spatial/analytics_spatial.c`)

| here | there |
| --- | --- |
| `ComputeType`, `getComputeType` | `orcm_analytics_base_get_compute_type` (`analytics_base_stubs.c:553-572`) |
| `Statistics`, `Statistics.new` | `spatial_statistics_t` (`analytics_spatial.h:22-34`), `spatial_statistics_con` (`:30-42`) |
| `resetStatistics`, `fillSpatialStatistics`, `initSpatialStatistics`, `operation`, `findSd`, `doCompute` | `:130-211`, `:271-350` |
| `handleFullBucket` | `:352-393`: what is sent to the next step |
| `findNode`, `fillBucket` | `fill_bucket` (`:424-487`) |
| `collectSample`, `analyze` | `:489-559` |

The table of the buckets is a list of entries with different keys. Its lists are those of the
samples; memory for the table is available. What becomes of a result is an input (`Emission`), and
so are the time and whether a timer can be started. Expanding the list of nodes and `sqrt` are
parameters. A timeout may come at any time. A call that reads an empty time, or whose list of
nodes has no end, is marked with `Rc.undefined`.
-/
namespace Sensys.Analytics.Spatial
open Orte

inductive ComputeType where
  | ave
  | min
  | max
  | sd
deriving DecidableEq, Repr

/-- `none` for `ORCM_ANALYTICS_COMPUTE_UNKNOWN`. -/
def getComputeType (text : Text) : Option ComputeType :=
  if text = ['a', 'v', 'e', 'r', 'a', 'g', 'e'] then some .ave
  else if text = ['m', 'i', 'n'] then some .min
  else if text = ['m', 'a', 'x'] then some .max
  else if text = ['s', 'd'] then some .sd
  else none

structure Statistics where
  interval      : UInt64
  size          : Nat
  nodelist      : List Text
  computeType   : Option ComputeType
  lastRoundTime : Option Timeval
  buckets       : AList fun _ : Text => List Reading
  result        : ℚ
  numDataPoint  : Nat
  timeoutEvent  : Bool
  timeout       : UInt64

def Statistics.new : Statistics := ⟨60, 0, [], none, none, ∅, 0, 0, false, 60⟩

/-- The value that the computation starts with. -/
def initial : Option ComputeType → ℚ
  | some .min => dblMax
  | some .max => dblMin
  | _ => 0

def resetStatistics (s : Statistics) (currentTime : Option Timeval) : Statistics :=
  { s with
    buckets := ∅, numDataPoint := 0, result := initial s.computeType, lastRoundTime :=
    currentTime.or s.lastRoundTime
    timeoutEvent := false }

def fillSpatialStatistics (s : Statistics) : Statistics × Except Rc Unit :=
  if s.computeType = none then (s, .error .badParam)
  else
    let s := { s with size := s.nodelist.length }
    if s.size = 0 ∨ s.interval = 0 ∨ s.timeout = 0 then (s, .error .badParam)
    else (resetStatistics s none, .ok ())

def nodelistWord : Text := ['n', 'o', 'd', 'e', 'l', 'i', 's', 't']
def intervalWord : Text := ['i', 'n', 't', 'e', 'r', 'v', 'a', 'l']
def timeoutWord : Text := ['t', 'i', 'm', 'e', 'o', 'u', 't']

/-- `parse` is `orcm_logical_group_parse_array_string`. A list of nodes is only read if there is
none. -/
def initSpatialStatistics (parse : Text → Except Rc (List Text)) :
    List (Text × Text) → Statistics → Statistics × Except Rc Unit
  | [], s => fillSpatialStatistics s
  | (key, value) :: attributes, s =>
    if key = nodelistWord then
      if s.nodelist = [] then
        match parse value with
        | .ok nodes => initSpatialStatistics parse attributes { s with nodelist := nodes }
        | .error rc => (s, .error rc)
      else initSpatialStatistics parse attributes s
    else if key = ['c', 'o', 'm', 'p', 'u', 't', 'e'] then
      initSpatialStatistics parse attributes { s with computeType := getComputeType value }
    else if key = intervalWord then
      match getTimeInSec value with
      | some interval => initSpatialStatistics parse attributes { s with interval }
      | none => (s, .error .undefined)
    else if key = timeoutWord then
      match getTimeInSec value with
      | some timeout => initSpatialStatistics parse attributes { s with timeout }
      | none => (s, .error .undefined)
    else initSpatialStatistics parse attributes s

def operation (type : Option ComputeType) (result num : ℚ) : ℚ :=
  if type = some .ave ∨ type = some .sd then result + num
  else if type = some .min then if result > num then num else result
  else if result < num then num else result

/-- The lists in the buckets, in the order of the nodes. -/
def Statistics.held (s : Statistics) : List (List Reading) :=
  s.nodelist.filterMap fun node => s.buckets.lookup node

section
variable (sqrt : ℚ → ℚ) {type : ComputeType} {s : Statistics}

def findSd (s : Statistics) : Statistics :=
  if s.computeType = some .sd then
    let sum :=
      s.held.foldl (fun sum data =>
      data.foldl (fun sum x => sum + (getNumber x - s.result) ^ 2) sum) 0
    { s with result := sqrt (sum / s.numDataPoint) }
  else s

/-- The statistics are changed also where it fails. -/
def doCompute (s : Statistics) : Statistics × Except Rc Unit :=
  let s := s.nodelist.foldl (fun s node =>
    match s.buckets.lookup node with
    | none => s
    | some data =>
      { s with
        numDataPoint := s.numDataPoint + data.length
        result := data.foldl (fun result x => operation s.computeType result (getNumber x)) s.result }) s
  if s.numDataPoint = 0 then (s, .error .badParam)
  else if s.computeType = some .ave ∨ s.computeType = some .sd then
    (findSd sqrt { s with result := s.result / s.numDataPoint }, .ok ())
  else (findSd sqrt s, .ok ())

/-- The result that is sent, if it is. -/
def handleFullBucket (s : Statistics) (emission : Emission) :
    Statistics × Except Rc (Option Summary) :=
  match doCompute sqrt s with
  | (s, .error rc) => (s, .error rc)
  | (s, .ok ()) =>
    match emission with
    | .sent => (s, .ok (some ⟨s.result, s.buckets.keys.length, s.numDataPoint⟩))
    | .failed => (s, .error .emissionFailed)
    | .lost => (s, .ok none)

/-- An item of the key of a sample. -/
structure KeyItem where
  key    : Option Text
  string : Option Text
deriving DecidableEq, Repr

structure Sample where
  key         : Option (List KeyItem)
  /-- Whether `non_compute_data` is not `NULL`. -/
  nonCompute  : Bool
  computeData : List Reading
  now         : Timeval
  emission    : Emission
  /-- Whether a timer can be started. -/
  timer       : Bool
deriving DecidableEq

/-- A timeout is a call without `compute_data`. -/
inductive Input where
  | sample (x : Sample)
  | timeout (now : Timeval) (emission : Emission)
deriving DecidableEq

def Input.emission : Input → Emission
  | .sample x => x.emission
  | .timeout _ emission => emission

structure Outcome where
  state   : Statistics
  rc      : Except Rc Unit
  emitted : Option Summary

/-- The first item with the key `hostname`. -/
def hostname : List KeyItem → Except Rc (Option Text)
  | [] => .ok none
  | item :: items =>
    match item.key with
    | none => .error .badParam
    | some key =>
      if key = ['h', 'o', 's', 't', 'n', 'a', 'm', 'e'] then
        match item.string with
        | none => .error .badParam
        | some host => .ok (some host)
      else hostname items

/-- The items are looked through for each node. -/
def findNode (key : List KeyItem) : List Text → Except Rc Text
  | [] => .error .badParam
  | node :: nodes =>
    match hostname key with
    | .error rc => .error rc
    | .ok host => if host = some node then .ok node else findNode key nodes

/-- `none` where no value is returned for the next step. -/
def fillBucket (s : Statistics) (x : Sample) : Statistics × Except Rc (Option Summary) :=
  match findNode (x.key.getD []) s.nodelist with
  | .error rc => (s, .error rc)
  | .ok node =>
    let s := { s with buckets := s.buckets.insert node x.computeData }
    if s.size = s.buckets.keys.length then handleFullBucket sqrt s x.emission
    else if s.buckets.keys.length = 1 ∧ s.timeoutEvent = false then
      if x.timer then ({ s with timeoutEvent := true }, .error .recvMoreThanPosted)
      else (s, .error .outOfResource)
    else (s, .error .recvMoreThanPosted)

/-- `orcm_util_time_diff`. -/
def timeDiff (time1 time2 : Timeval) : ℚ :=
  (time2.sec + time2.usec / 1000000) - (time1.sec + time1.usec / 1000000)

/-- The interval since the last result is over. -/
def intervalOver (s : Statistics) (now : Timeval) : Prop :=
  ∀ last ∈ s.lastRoundTime, (s.interval.toNat : ℚ) ≤ timeDiff last now
deriving Decidable

def Sample.complete (x : Sample) : Prop :=
  x.key.getD [] ≠ [] ∧ x.nonCompute = true ∧ x.computeData ≠ []
deriving Decidable

/-- The statistics are reset after a result. -/
def closeRound (now : Timeval) : Statistics × Except Rc (Option Summary) → Outcome
  | (s, .ok (some m)) => ⟨resetStatistics s (some now), .ok (), some m⟩
  | (s, .ok none) => ⟨s, .ok (), none⟩
  | (s, .error rc) => ⟨s, .error rc, none⟩

def collectSample (s : Statistics) (x : Sample) : Outcome :=
  if ¬x.complete then ⟨s, .error .badParam, none⟩
  else if intervalOver s x.now then closeRound x.now (fillBucket sqrt s x)
  else ⟨s, .error .recvMoreThanPosted, none⟩

/-- The attributes are read again until they are accepted. -/
def ready (parse : Text → Except Rc (List Text)) (attributes : List (Text × Text))
    (s : Statistics) : Statistics × Except Rc Unit :=
  if s.size = 0 then initSpatialStatistics parse attributes s else (s, .ok ())

def analyze (parse : Text → Except Rc (List Text)) (attributes : List (Text × Text)) (s : Statistics)
    (input : Input) : Outcome :=
  match ready parse attributes s with
  | (s, .error rc) => ⟨{ s with size := 0 }, .error rc, none⟩
  | (s, .ok ()) =>
    match input with
    | .timeout now emission => closeRound now (handleFullBucket sqrt s emission)
    | .sample x => collectSample sqrt s x

/-! ## What is computed -/

/-- The result for the numbers in the buckets. -/
def aggregate (numbers : List ℚ) : ComputeType → ℚ
  | .ave => numbers.sum / numbers.length
  | .min => numbers.foldl min dblMax
  | .max => numbers.foldl max dblMin
  | .sd => sqrt ((numbers.map fun x => (x - numbers.sum / numbers.length) ^ 2).sum / numbers.length)

theorem operation_sum (h : type = .ave ∨ type = .sd) : operation (some type) = (· + ·) := by
  funext result num
  rw [operation, if_pos (by simpa using h)]

theorem operation_min : operation (some .min) = min := by
  funext result num
  simp only [operation, min_def]
  split_ifs <;> grind

theorem operation_max : operation (some .max) = max := by
  funext result num
  simp only [operation, max_def]
  split_ifs <;> grind

/-- The numbers in the buckets of the nodes. -/
def numbersOf (buckets : AList fun _ : Text => List Reading) (nodes : List Text) : List ℚ :=
  (nodes.filterMap fun node => buckets.lookup node).flatten.map getNumber

def Statistics.numbers (s : Statistics) : List ℚ := numbersOf s.buckets s.nodelist

theorem foldl_nodes (nodes : List Text) (s : Statistics) :
    nodes.foldl (fun s node =>
      match s.buckets.lookup node with
      | none => s
      | some data =>
        { s with
          numDataPoint := s.numDataPoint + data.length
          result := data.foldl (fun result x => operation s.computeType result (getNumber x)) s.result }) s =
    { s with
      numDataPoint := s.numDataPoint + (numbersOf s.buckets nodes).length
      result := (numbersOf s.buckets nodes).foldl (operation s.computeType) s.result } := by
  induction nodes generalizing s with
  | nil => rfl
  | cons node nodes ih =>
    rw [List.foldl_cons, ih]
    cases hl : s.buckets.lookup node with
    | none => simp [numbersOf, hl]
    | some data => simp [numbersOf, hl, List.foldl_map, Function.comp_def, Nat.add_assoc]

theorem doCompute_fresh (htype : s.computeType = some type) (hnum : s.numDataPoint = 0)
    (hre : s.result = initial (some type)) (hne : s.numbers ≠ []) :
    doCompute sqrt s =
      ({ s with numDataPoint := s.numbers.length, result := aggregate sqrt s.numbers type }, .ok ()) := by
  have hpos : s.numbers.length ≠ 0 := by simpa using hne
  have hsum : ∀ b : ℚ,
      s.held.foldl (fun sum data => data.foldl (fun sum x => sum + (getNumber x - b) ^ 2) sum) 0 =
        (s.numbers.map fun x => (x - b) ^ 2).sum := by
    intro b
    rw [← List.foldl_flatten, List.sum_eq_foldl, Statistics.numbers, numbersOf, List.foldl_map,
      List.foldl_map]
    rfl
  unfold doCompute
  rw [foldl_nodes, show numbersOf s.buckets s.nodelist = s.numbers from rfl, hnum, Nat.zero_add, hre,
    htype]
  simp only [if_neg hpos]
  cases type with
  | ave =>
    rw [operation_sum (Or.inl rfl)]
    simp [findSd, aggregate, initial, List.sum_eq_foldl]
  | sd =>
    rw [operation_sum (Or.inr rfl)]
    simp only [initial, ← List.sum_eq_foldl, findSd, or_true, if_true, aggregate, ← hsum]
    rfl
  | min =>
    rw [operation_min]
    simp [findSd, aggregate, initial]
  | max =>
    rw [operation_max]
    simp [findSd, aggregate, initial]

theorem doCompute_empty (hnum : s.numDataPoint = 0) (hem : s.numbers = []) :
    doCompute sqrt s = (s, .error .badParam) := by
  unfold doCompute
  rw [foldl_nodes, show numbersOf s.buckets s.nodelist = s.numbers from rfl, hem]
  exact if_pos hnum

theorem handleFullBucket_fresh (htype : s.computeType = some type) (hnum : s.numDataPoint = 0)
    (hre : s.result = initial (some type)) (hne : s.numbers ≠ []) :
    handleFullBucket sqrt s .sent =
      ({ s with numDataPoint := s.numbers.length, result := aggregate sqrt s.numbers type },
        .ok (some ⟨aggregate sqrt s.numbers type, s.buckets.keys.length, s.numbers.length⟩)) := by
  rw [handleFullBucket, doCompute_fresh sqrt htype hnum hre hne]

end

end Sensys.Analytics.Spatial
