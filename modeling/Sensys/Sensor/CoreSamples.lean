import Sensys.Sensor.RuntimeMetrics
import Sensys.Util.Vardata
/-!
# Samples of core temperatures and frequencies

| here | there |
| --- | --- |
| `Coretemp.Tracker` | a `coretemp_tracker_t`: its label and its file, as it is when the sample is taken |
| `Coretemp.collect`, `Coretemp.log` | `collect_coretemp_sample`, `coretemp_log` (`coretemp/sensor_coretemp.c:506-763`) |
| `Freq.Pstate` | a `pstate_tracker_t` |
| `Freq.collect`, `Freq.log` | `collect_freq_sample`, `freq_log` (`freq/sensor_freq.c:467-726`) |
| `Freq.getUnits` | `:727-735` |
| `Metric` | an `orcm_value_t` of the compute data: label, value and units |

A file is given by its lines, and is missing if it cannot be opened. How many values follow is
packed before a file is opened: all tracked ones, or the collected labels of the table if there is
an inventory. What a division rounds to is a parameter.
-/
namespace Sensys.Cores
open Orte Text SensorData List

/-- `n / 1000.0` and `n / 1000000.0` as a `float`. -/
structure Rounding where
  thousandth : UInt64 → BitVec 32
  millionth  : UInt64 → BitVec 32

/-- The quotients survive the way through their texts, which they do as they have at most six
decimals before they are rounded to a `float`. -/
structure Rounding.Kept {β : Type} (R : Rounding) (d : Dss β) : Prop where
  thousandth : ∀ n, d.Keeps (.float (R.thousandth n))
  millionth  : ∀ n, d.Keeps (.float (R.millionth n))

theorem reads_kept {β : Type} {d : Dss β} {x : BitVec 32} (h : d.Keeps (.float x)) :
    Reads d.readFloat (d.writeFloat x) x := by
  have hre := d.reads_float x
  rwa [show d.strtof (d.showFloat x) = x from h] at hre

structure Metric where
  label : Text
  value : Data
  units : Text
deriving DecidableEq

/-- An `orcm_analytics_value_t`: the host name, the time and the compute data. -/
structure Sent where
  hostname : Text
  ctime    : Int64 × Int64
  compute  : List Metric
deriving DecidableEq

abbrev File := Option (List Text)

/-- One value, if the file can be read. -/
def OneValue (file : File) : Prop := ∀ lines, file = some lines → lines.length = 1

theorem OneValue.eq_none_or {file : File} (h : OneValue file) :
    file = none ∨ ∃ line, file = some [line] := by
  cases file with
  | none => exact .inl rfl
  | some lines =>
    obtain ⟨line, rfl⟩ := length_eq_one_iff.1 (h lines rfl)
    exact .inr ⟨line, rfl⟩

namespace Coretemp

structure Tracker where
  label : Text
  file  : File

section
variable {β : Type} (d : Dss β) (R : Rounding) (metrics : RuntimeMetrics)

def enabled (t : Tracker) : Bool := metrics.doCollectMetrics (some t.label)

def packFile (t : Tracker) : List β :=
  match t.file with
  | none => []
  | some lines =>
    if enabled metrics t then
      d.text.write t.label ++ lines.flatMap fun line =>
        d.writeFloat (R.thousandth (strtoul 10 line))
    else []

/-- The label alone does not count. -/
def packed (t : Tracker) : Bool :=
  match t.file with
  | none => false
  | some lines => enabled metrics t && !lines.isEmpty

def ncores (tracking : List Tracker) : Int32 :=
  Int32.ofNat (if metrics.isInventoryAvailable then metrics.countOfCollectedLabels
    else tracking.length)

/-- What is transmitted, and the files that are still tracked. -/
def collect (nodename : Text) (time : Int64 × Int64) (tracking : List Tracker) :
    Option (List β) × List Tracker :=
  if metrics.countOfCollectedLabels = 0 ∧ ¬ metrics.doCollectMetrics none then (none, tracking)
  else if tracking = [] then (none, tracking)
  else
    let buffer :=
      d.text.write "coretemp".toList ++ (d.text.write nodename ++ (d.timeval.write time ++
      (d.int32.write (ncores metrics tracking) ++ tracking.flatMap (packFile d R metrics))))
    (if tracking.any (packed metrics) then some buffer else none,
      tracking.filter fun t => t.file.isSome)

def readMetric : Reader β Fault Metric := do
  let label ← d.text.read
  let fval ← d.readFloat
  pure ⟨label, .float fval, "degrees C".toList⟩

def log : Reader β Fault Sent := do
  let hostname ← d.text.read
  let sampletime ← d.timeval.read
  let ncores ← d.int32.read
  let compute ← readN (readMetric d) ncores.toNatClampNeg
  pure ⟨hostname, sampletime, compute⟩

/-- The name of the plugin is unpacked by the caller. -/
def receive : Reader β Fault Sent := do
  let _ ← d.text.read
  log d

/-- The values that are sent to the analytics. -/
def reported (buffer : List β) : Except Fault (List Metric) :=
  ((receive d).run buffer).map fun q => q.1.compute

end

/-- The label and the value of each file that is readable and enabled. -/
def readings (R : Rounding) (metrics : RuntimeMetrics) (tracking : List Tracker) :
    List (Text × BitVec 32) :=
  tracking.filterMap fun t =>
    if enabled metrics t then (t.file.bind List.head?).map fun line =>
      (t.label, R.thousandth (strtoul 10 line)) else none

def metric (r : Text × BitVec 32) : Metric := ⟨r.1, .float r.2, "degrees C".toList⟩

/-- As many values as are announced. -/
def announced (metrics : RuntimeMetrics) (tracking : List Tracker) : Nat :=
  (ncores metrics tracking).toNatClampNeg

/-- The files that are readable and enabled. -/
def available (metrics : RuntimeMetrics) (tracking : List Tracker) : Nat :=
  tracking.countP fun t => t.file.isSome && enabled metrics t

section
variable {β : Type} {d : Dss β} {R : Rounding} {metrics : RuntimeMetrics} {tracking : List Tracker}
  {time : Int64 × Int64}
  {buffer : List β} {nodename : Text}

def writeReading (d : Dss β) (r : Text × BitVec 32) : List β := d.text.write r.1 ++ d.writeFloat r.2

theorem reads_readMetric {r : Text × BitVec 32} (h : d.Keeps (.float r.2)) :
    Reads (readMetric d) (writeReading d r) (metric r) :=
  (d.text.reads r.1).bind (reads_kept h).bind_pure

theorem keeps_readings (hR : R.Kept d) :
    ∀ r ∈ readings R metrics tracking, d.Keeps (.float r.2) := by
  intro r hr
  obtain ⟨t, -, ht⟩ := mem_filterMap.1 hr
  split at ht
  · obtain ⟨line, -, rfl⟩ := Option.map_eq_some_iff.1 ht
    exact hR.thousandth _
  · cases ht

theorem readMetric_ends {e : Fault} (he : d.text.read.run [] = .error e) :
    (readMetric d).run [] = .error e := by
  rw [readMetric, StateT.run_bind, he]
  rfl

theorem flatMap_packFile (hone : ∀ t ∈ tracking, OneValue t.file) :
    tracking.flatMap (packFile d R metrics) =
      (readings R metrics tracking).flatMap (writeReading d) := by
  refine Lists.flatMap_filterMap fun t ht => ?_
  obtain hf | ⟨line, hf⟩ := (hone t ht).eq_none_or
  · simp [packFile, hf]
  · cases hen : enabled metrics t <;> simp [packFile, hf, hen, writeReading]

theorem length_readings (hone : ∀ t ∈ tracking, OneValue t.file) :
    (readings R metrics tracking).length = available metrics tracking := by
  rw [readings, available, length_filterMap_eq_countP]
  refine countP_congr fun t ht => ?_
  obtain hf | ⟨line, hf⟩ := (hone t ht).eq_none_or
  · simp [hf]
  · cases hen : enabled metrics t <;> simp [hf]

section
variable (h : (collect d R metrics nodename time tracking).1 = some buffer)
include h

theorem collect_eq_some :
    buffer = d.text.write "coretemp".toList ++ (d.text.write nodename ++ (d.timeval.write time ++
      (d.int32.write (ncores metrics tracking) ++ tracking.flatMap (packFile d R metrics)))) := by
  unfold collect at h
  split at h
  · cases h
  split at h
  · cases h
  split at h
  · exact (Option.some.inj h).symm
  · cases h

theorem reported_collect :
    reported d buffer =
      ((readN (readMetric d) (announced metrics tracking)).run
      (tracking.flatMap (packFile d R metrics))).map fun q => q.1 := by
  rw [collect_eq_some h, reported, receive, (d.text.reads _).run_bind, log,
    (d.text.reads _).run_bind, (d.timeval.reads _).run_bind, (d.int32.reads _).run_bind,
    map_run_bind_pure]
  rfl

end

/-- The values of the readable files are reported if as many are announced. -/
theorem reported_iff (hend : d.Ends) (hR : R.Kept d) (hone : ∀ t ∈ tracking, OneValue t.file)
    (h : (collect d R metrics nodename time tracking).1 = some buffer) :
    reported d buffer = .ok ((readings R metrics tracking).map metric) ↔
      announced metrics tracking = available metrics tracking := by
  obtain ⟨e, he⟩ := hend
  rw [reported_collect h, flatMap_packFile hone, ← @length_readings R _ _ hone]
  rw [map_readN_flatMap_iff (fun r hr => reads_readMetric (keeps_readings hR r hr))
    (readMetric_ends he) _ fun l => l]
  exact Lists.map_take_eq_iff

end

end Coretemp

namespace Freq

/-- A tracked file of the processor's state; a tracked core has a file only. -/
structure Pstate where
  sysname : Text
  file    : File

def coreLabel (core : Nat) : Text := "core".toList ++ Nat.toDigits 10 core

def getUnits (label : Text) : Text :=
  if label = "num_pstates".toList ∨ label = "no_turbo".toList ∨ label = "allow_turbo".toList then []
    else "%".toList

section
variable {β : Type} (d : Dss β) (R : Rounding) (metrics : RuntimeMetrics) (null : List β)

/-- A string of which `null` is packed for `NULL`. -/
def packString : Option Text → List β
  | none => null
  | some s => d.text.write s

/-- The lines of the file of a core. The label is released with the first value that is packed. -/
def packLines (label : Option Text) : List Text → List β
  | [] => []
  | line :: lines =>
    if metrics.doCollectMetrics label then
      packString d null label ++
        (d.uint8.write 16 ++ (d.writeFloat (R.millionth (strtoul 10 line)) ++ packLines none lines))
    else packLines label lines

/-- The files of the cores; none if one of them cannot be opened, since the sample is given up
then. -/
def packCores (core : Nat) : List File → Option (List β)
  | [] => some []
  | none :: _ => none
  | some lines :: files => (packCores (core + 1) files).map fun rest =>
    packLines d R metrics null (some (coreLabel core)) lines ++ rest

def packPstate (p : Pstate) : List β :=
  match p.file with
  | none => []
  | some lines =>
    if metrics.doCollectMetrics (some p.sysname) then
      d.text.write p.sysname ++
        (d.uint8.write 11 ++ lines.flatMap fun line => d.uint32.write (strtoul 10 line).toUInt32)
    else []

/-- A value of a file is packed for the label. -/
def packed (label : Text) (file : File) : Bool :=
  metrics.doCollectMetrics (some label) && file.any fun lines => !lines.isEmpty

def ncores (tracking : List File) (pstates : List Pstate) : Int32 :=
  if metrics.isInventoryAvailable then Int32.ofNat metrics.countOfCollectedLabels
  else Int32.ofNat tracking.length + Int32.ofNat pstates.length

/-- What is transmitted, and the files of the processor's state that are still tracked. -/
def collect (nodename : Text) (time : Int64 × Int64) (tracking : List File)
    (pstates : List Pstate) : Option (List β) × List Pstate :=
  if metrics.countOfCollectedLabels = 0 ∧ ¬ metrics.doCollectMetrics none then (none, pstates)
  else if tracking = [] then (none, pstates)
  else
    match packCores d R metrics null 0 tracking with
    | none => (none, pstates)
    | some cores =>
      let buffer :=
        d.text.write "freq".toList ++
        (d.text.write nodename ++ (d.int32.write (ncores metrics tracking pstates) ++
        (d.timeval.write time ++ (cores ++ pstates.flatMap (packPstate d metrics)))))
      (if (tracking.zipIdx.any fun x => packed metrics (coreLabel x.2) x.1) ||
        pstates.any fun p => packed metrics p.sysname p.file then
          some buffer
        else none,
        pstates.filter fun p => p.file.isSome)

/-- A value of a type that is not known is left in the buffer. -/
def readMetric : Reader β Fault (Option Metric) := do
  let label ← d.text.read
  let type ← d.uint8.read
  if type = 16 then do
    let fval ← d.readFloat
    pure (some ⟨label, .float fval, "GHz".toList⟩)
  else if type = 11 then do
    let uival ← d.uint32.read
    pure (some ⟨label, .uint32 uival, getUnits label⟩)
  else pure none

def log : Reader β Fault Sent := do
  let hostname ← d.text.read
  let ncores ← d.int32.read
  let sampletime ← d.timeval.read
  let compute ← readN (readMetric d) ncores.toNatClampNeg
  pure ⟨hostname, sampletime, compute.filterMap id⟩

/-- The name of the plugin is unpacked by the caller. -/
def receive : Reader β Fault Sent := do
  let _ ← d.text.read
  log d

/-- The values that are sent to the analytics. -/
def reported (buffer : List β) : Except Fault (List Metric) :=
  ((receive d).run buffer).map fun q => q.1.compute

end

inductive Reading where
  | core (label : Text) (ghz : BitVec 32)
  | pstate (label : Text) (value : UInt32)

def Reading.metric : Reading → Metric
  | .core label ghz => ⟨label, .float ghz, "GHz".toList⟩
  | .pstate label value => ⟨label, .uint32 value, getUnits label⟩

/-- The value of the first line of a file that is readable and enabled. -/
def reading (metrics : RuntimeMetrics) (make : Text → UInt64 → Reading) (label : Text)
    (file : File) : Option Reading :=
  if metrics.doCollectMetrics (some label) then (file.bind List.head?).map fun line =>
    make label (strtoul 10 line) else none

/-- The files of the cores, with their places. -/
def coreReadings (R : Rounding) (metrics : RuntimeMetrics) (tracking : List (File × Nat)) :
    List Reading :=
  tracking.filterMap fun x =>
    reading metrics (fun label n => .core label (R.millionth n)) (coreLabel x.2) x.1

def pstateReadings (metrics : RuntimeMetrics) (pstates : List Pstate) : List Reading :=
  pstates.filterMap fun p =>
    reading metrics (fun label n => .pstate label n.toUInt32) p.sysname p.file

def readings (R : Rounding) (metrics : RuntimeMetrics) (tracking : List File)
    (pstates : List Pstate) : List Reading :=
  coreReadings R metrics tracking.zipIdx ++ pstateReadings metrics pstates

/-- As many values as are announced. -/
def announced (metrics : RuntimeMetrics) (tracking : List File) (pstates : List Pstate) : Nat :=
  (ncores metrics tracking pstates).toNatClampNeg

/-- The files that are readable and enabled. -/
def available (metrics : RuntimeMetrics) (tracking : List File) (pstates : List Pstate) : Nat :=
  (tracking.zipIdx.countP fun x => x.1.isSome && metrics.doCollectMetrics (some (coreLabel x.2))) +
    pstates.countP fun p => p.file.isSome && metrics.doCollectMetrics (some p.sysname)

section
variable {β : Type} {d : Dss β} {R : Rounding} {metrics : RuntimeMetrics} {null : List β}
  {pstates : List Pstate}
  {tracking : List File}

def writeReading (d : Dss β) : Reading → List β
  | .core label ghz => d.text.write label ++ (d.uint8.write 16 ++ d.writeFloat ghz)
  | .pstate label value => d.text.write label ++ (d.uint8.write 11 ++ d.uint32.write value)

def Reading.Kept (d : Dss β) : Reading → Prop
  | .core _ ghz => d.Keeps (.float ghz)
  | .pstate _ _ => True

theorem reads_readMetric {r : Reading} (h : r.Kept d) :
    Reads (readMetric d) (writeReading d r) (some r.metric) := by
  cases r with
  | core label ghz =>
    exact (d.text.reads label).bind ((d.uint8.reads 16).bind (reads_kept h).bind_pure)
  | pstate label value =>
    exact (d.text.reads label).bind ((d.uint8.reads 11).bind (d.uint32.reads value).bind_pure)

theorem readMetric_ends {e : Fault} (he : d.text.read.run [] = .error e) :
    (readMetric d).run [] = .error e := by
  rw [readMetric, StateT.run_bind, he]
  rfl

theorem kept_reading {make : Text → UInt64 → Reading} (hmake : ∀ label n, (make label n).Kept d)
    {label : Text} {file : File} {r : Reading} (h : reading metrics make label file = some r) :
    r.Kept d := by
  unfold reading at h
  split at h
  · obtain ⟨line, -, rfl⟩ := Option.map_eq_some_iff.1 h
    exact hmake _ _
  · cases h

theorem kept_readings (hR : R.Kept d) : ∀ r ∈ readings R metrics tracking pstates, r.Kept d := by
  intro r hr
  rcases mem_append.1 hr with hr | hr
  · obtain ⟨x, -, hx⟩ := mem_filterMap.1 hr
    refine kept_reading (fun _ n => ?_) hx
    exact hR.millionth n
  · obtain ⟨p, -, hp⟩ := mem_filterMap.1 hr
    refine kept_reading (fun _ _ => ?_) hp
    trivial

/-- A file has a value to report if it is readable and enabled. -/
theorem isSome_reading {file : File} (hone : OneValue file) (make : Text → UInt64 → Reading)
    (label : Text) :
    (reading metrics make label file).isSome =
      (file.isSome && metrics.doCollectMetrics (some label)) := by
  obtain rfl | ⟨line, rfl⟩ := hone.eq_none_or
  · simp [reading]
  · by_cases hen : metrics.doCollectMetrics (some label) = true <;> simp [reading, hen]

theorem packCores_eq_some (hone : ∀ file ∈ tracking, OneValue file) {core : Nat} {bytes : List β}
    (h : packCores d R metrics null core tracking = some bytes) :
    bytes = (coreReadings R metrics (tracking.zipIdx core)).flatMap (writeReading d) := by
  induction tracking generalizing core bytes with
  | nil =>
    cases h
    rfl
  | cons file tracking ih =>
    obtain rfl | ⟨line, rfl⟩ := (hone file mem_cons_self).eq_none_or
    · cases h
    · obtain ⟨rest, hre, rfl⟩ := Option.map_eq_some_iff.1 h
      have ih := ih (forall_mem_cons.1 hone).2 hre
      unfold coreReadings at ih ⊢
      rw [ih, zipIdx_cons, filterMap_cons]
      by_cases hen : metrics.doCollectMetrics (some (coreLabel core)) = true
      · simp [packLines, reading, hen, writeReading, packString]
      · simp [packLines, reading, hen]

theorem flatMap_packPstate (hone : ∀ p ∈ pstates, OneValue p.file) :
    pstates.flatMap (packPstate d metrics) =
      (pstateReadings metrics pstates).flatMap (writeReading d) := by
  refine Lists.flatMap_filterMap fun p hp => ?_
  obtain hf | ⟨line, hf⟩ := (hone p hp).eq_none_or
  · simp [packPstate, reading, hf]
  · cases hen : metrics.doCollectMetrics (some p.sysname) <;>
      simp [packPstate, reading, hf, hen, writeReading]

variable {nodename : Text} {time : Int64 × Int64} {buffer : List β}

theorem collect_eq_some
    (h : (collect d R metrics null nodename time tracking pstates).1 = some buffer) :
    ∃ cores, packCores d R metrics null 0 tracking = some cores ∧
      buffer = d.text.write "freq".toList ++
      (d.text.write nodename ++ (d.int32.write (ncores metrics tracking pstates) ++
        (d.timeval.write time ++ (cores ++ pstates.flatMap (packPstate d metrics))))) := by
  unfold collect at h
  split at h
  · cases h
  split at h
  · cases h
  split at h
  · cases h
  rename_i cores hco
  split at h
  · exact ⟨cores, hco, (Option.some.inj h).symm⟩
  · cases h

variable (hco : ∀ file ∈ tracking, OneValue file) (hps : ∀ p ∈ pstates, OneValue p.file)
include hco hps

theorem length_readings :
    (readings R metrics tracking pstates).length = available metrics tracking pstates := by
  unfold readings available coreReadings pstateReadings
  rw [length_append, length_filterMap_eq_countP, length_filterMap_eq_countP]
  congr 1
  · apply countP_congr
    rintro ⟨file, core⟩ hmem
    rw [isSome_reading (hco file (fst_mem_of_mem_zipIdx hmem))]
  · apply countP_congr
    intro p hp
    rw [isSome_reading (hps p hp)]

variable (h : (collect d R metrics null nodename time tracking pstates).1 = some buffer)
include h

theorem reported_collect :
    reported d buffer = ((readN (readMetric d) (announced metrics tracking pstates)).run
      ((readings R metrics tracking pstates).flatMap (writeReading d))).map fun q =>
      q.1.filterMap id := by
  obtain ⟨cores, hby, rfl⟩ := collect_eq_some h
  rw [reported, receive, (d.text.reads _).run_bind, log, (d.text.reads _).run_bind,
    (d.int32.reads _).run_bind, (d.timeval.reads _).run_bind, packCores_eq_some hco hby,
    flatMap_packPstate hps, ← flatMap_append, map_run_bind_pure]
  rfl

/-- The values of the readable files are reported if as many are announced. -/
theorem reported_iff (hend : d.Ends) (hR : R.Kept d) :
    reported d buffer = .ok ((readings R metrics tracking pstates).map Reading.metric) ↔
      announced metrics tracking pstates = available metrics tracking pstates := by
  obtain ⟨e, he⟩ := hend
  rw [reported_collect hco hps h, ← @length_readings R _ _ _ hco hps,
    map_readN_flatMap_iff (fun r hr => reads_readMetric (kept_readings hR r hr))
    (readMetric_ends he) _
      fun l => l.filterMap id]
  have hso : ∀ l : List Reading,
      (l.map fun r => some r.metric).filterMap id = l.map Reading.metric := by
    intro l
    rw [filterMap_map]
    exact congrFun filterMap_eq_map l
  rw [hso]
  exact Lists.map_take_eq_iff

end

end Freq

/-- **A sample is decoded to the values of the readable and enabled files**: if as many are
announced as there are. -/
theorem samples_report_readable_iff {β : Type} {d : Dss β} (hend : d.Ends) {R : Rounding}
    (hR : R.Kept d) (metrics : RuntimeMetrics) (nodename : Text) (time : Int64 × Int64) :
    (∀ (tracking : List Coretemp.Tracker) (buffer : List β), (∀ t ∈ tracking, OneValue t.file) →
      (Coretemp.collect d R metrics nodename time tracking).1 = some buffer →
        (Coretemp.reported d buffer =
        .ok ((Coretemp.readings R metrics tracking).map Coretemp.metric) ↔
          Coretemp.announced metrics tracking = Coretemp.available metrics tracking)) ∧
    (∀ (tracking : List File) (pstates : List Freq.Pstate) (null buffer : List β),
    (∀ file ∈ tracking, OneValue file) →
      (∀ p ∈ pstates, OneValue p.file) →
      (Freq.collect d R metrics null nodename time tracking pstates).1 = some buffer →
        (Freq.reported d buffer =
        .ok ((Freq.readings R metrics tracking pstates).map Freq.Reading.metric) ↔
          Freq.announced metrics tracking pstates = Freq.available metrics tracking pstates)) :=
  ⟨fun _ _ hone h => Coretemp.reported_iff hend hR hone h,
    fun _ _ _ _ hco hps h => Freq.reported_iff hco hps h hend hR⟩

/-- Numbers as they are. -/
def unrounded : Rounding := ⟨fun n => BitVec.ofNat 32 n.toNat, fun n => BitVec.ofNat 32 n.toNat⟩

theorem unrounded_kept : unrounded.Kept tokens := by
  constructor <;> exact fun n => keeps_tokens _

/-- The labels of a node with two cores, as the inventory finds them. -/
def twoCores : RuntimeMetrics :=
  ((RuntimeMetrics.create true).trackSensorLabel "core0".toList).trackSensorLabel "core1".toList

def warm : List Coretemp.Tracker :=
  [⟨"core0".toList, some ["40000".toList]⟩, ⟨"core1".toList, some ["41000".toList]⟩]

theorem oneValue_line (line : Text) : OneValue (some [line]) := by
  rintro _ ⟨⟩
  rfl

def busy : List File := [some ["1800000".toList], some ["1900000".toList]]

theorem warm_busy_reported :
    (Coretemp.collect tokens unrounded twoCores "node1".toList (0, 0) warm).1.map
      (Coretemp.reported tokens) =
      some (.ok ((Coretemp.readings unrounded twoCores warm).map Coretemp.metric)) ∧
    (Freq.collect tokens unrounded twoCores [] "node1".toList (0, 0) busy []).1.map
    (Freq.reported tokens) =
      some (.ok ((Freq.readings unrounded twoCores busy []).map Freq.Reading.metric)) := by
  have hbo :=
    samples_report_readable_iff
    (d := tokens) tokens_ends unrounded_kept twoCores "node1".toList (0, 0)
  constructor
  · have hso : (Coretemp.collect tokens unrounded twoCores "node1".toList (0, 0) warm).1.isSome =
      true := by decide +kernel
    obtain ⟨buffer, hbu⟩ := Option.isSome_iff_exists.1 hso
    have hone : ∀ t ∈ warm, OneValue t.file := by simp [warm, oneValue_line]
    rw [hbu, Option.map_some, (hbo.1 warm buffer hone hbu).2 (by decide +kernel)]
  · have hso : (Freq.collect tokens unrounded twoCores [] "node1".toList (0, 0) busy []).1.isSome =
      true := by decide +kernel
    obtain ⟨buffer, hbu⟩ := Option.isSome_iff_exists.1 hso
    have hone : ∀ file ∈ busy, OneValue file := by simp [busy, oneValue_line]
    rw [hbu, Option.map_some, (hbo.2 busy [] [] buffer hone (by simp) hbu).2 (by decide +kernel)]

/-- One file cannot be opened, or is not there, and still two values are announced. -/
theorem unreadable_file_loses_sample :
    (Coretemp.collect tokens unrounded twoCores "node1".toList (0, 0)
      [⟨"core0".toList, some ["40000".toList]⟩, ⟨"core1".toList, none⟩]).1.map
      (Coretemp.reported tokens) =
      some (.error .invalidBuffer) ∧
    (Freq.collect tokens unrounded twoCores [] "node1".toList (0, 0) [some ["1800000".toList]]
    []).1.map (Freq.reported tokens) =
      some (.error .invalidBuffer) := by
  decide +kernel

end Sensys.Cores
