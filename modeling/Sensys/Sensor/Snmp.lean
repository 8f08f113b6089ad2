import Mathlib.Algebra.BigOperators.Group.List.Basic
import Sensys.Sensor.RuntimeMetrics
import Sensys.Util.Vardata
/-!
# Samples of SNMP devices (`orcm/mca/sensor/snmp/snmp.cpp`)

| here | there |
| --- | --- |
| `Device` | `snmpCollector`: its host name, and what `collectData` returns or that it throws |
| `collectAndPackDataSamples` | `:495-507` |
| `collectSample` | the buffer of `collect_sample` (`:430-483`) |
| `log` | `:179-237`, after the name of the plugin is unpacked |
| `Sent` | what is sent to the analytics |

Each device puts its host name and its values into the buffer, and the host name looks like a
value. `log` reads one host name and takes all that follows for values of this host, so it can be
used for one device only. What a string has behind a `NUL`, and a float behind its sixth decimal,
does not arrive.
-/
namespace Sensys.Snmp
open Orte SensorData List

structure Device where
  hostname : Text
  noNul    : NoNul hostname
  reply    : Option (List Vardata)

/-- The devices that gave a sample, with the values. -/
def samples (devices : List Device) : List (Device × List Vardata) :=
  devices.filterMap fun dev => dev.reply.map fun values => (dev, values)

def hostItem (dev : Device) : Vardata := ⟨"hostname".toList, .string dev.hostname⟩

structure Sent where
  key        : List Vardata
  nonCompute : List Vardata
  compute    : List Vardata
deriving DecidableEq

section
variable {β : Type} (d : Dss β) (debug : Bool)

/-- A device that throws is skipped. -/
def collectAndPackDataSamples (devices : List Device) : List β :=
  devices.flatMap fun dev =>
    match dev.reply with
    | none => []
    | some values => packTo d debug (hostItem dev) ++ packDataToBuffer d debug values

def collectSample (time : Int64 × Int64) (devices : List Device) : List β :=
  d.text.write "snmp".toList ++
    (packTo d debug ⟨"ctime".toList, .timeval time.1 time.2⟩ ++
    collectAndPackDataSamples d debug devices)

def log : Reader β Fault Sent := do
  let ctime ← fromOpalBuffer d debug
  let host ← fromOpalBuffer d debug
  let compute ← unpackDataFromBuffer d debug (← get).length
  pure ⟨[host, ⟨"data_group".toList, .string "snmp".toList⟩,
    ⟨"component".toList, .string "orcm.comp.mon".toList⟩,
    ⟨"sub_component".toList, .string "orcm.sub.mem".toList⟩], [ctime], compute⟩

def receive : Reader β Fault Sent := do
  let _ ← d.text.read
  log d debug

/-- The values that are sent, each under the host name that is sent with it; none if something was
thrown. -/
def logged (time : Int64 × Int64) (devices : List Device) : List (Option Vardata × Vardata) :=
  match (receive d debug).run (collectSample d debug time devices) with
  | .error _ => []
  | .ok (sent, _) => sent.compute.map fun v =>
    (sent.key.find? fun k => k.key = "hostname".toList, v)

end

/-- The values of the devices, each under the host name of its own device. -/
def expected (devices : List Device) : List (Option Vardata × Vardata) :=
  (samples devices).flatMap fun x => x.2.map fun v => (some (hostItem x.1), ⟨label v.key, v.data⟩)

variable {values : List Vardata}

/-! ## The buffer of all devices -/

section
variable {β : Type} {d : Dss β} {debug : Bool} {devices : List Device}

/-- All that follows the time are values one after the other. -/
theorem collectAndPack_eq (devices : List Device) :
    collectAndPackDataSamples d debug devices =
      packDataToBuffer d debug ((samples devices).flatMap fun x => hostItem x.1 :: x.2) := by
  induction devices with
  | nil => rfl
  | cons dev devices ih =>
    unfold collectAndPackDataSamples samples packDataToBuffer at *
    cases hre : dev.reply <;> simp [hre, ih]

theorem hostItem_packed (dev : Device) : (hostItem dev).packed d = hostItem dev := by
  have hkey : NoNul "hostname".toList := by decide
  have hpl : (hostItem dev).Plain := ⟨hkey, dev.noNul⟩
  rw [packed_of_plain d hpl trivial]
  rfl

variable (hpeek : debug = true → d.Describes)
include hpeek

theorem receive_run (time : Int64 × Int64) (devices : List Device) :
    (receive d debug).run (collectSample d debug time devices) = (do
      let host ← fromOpalBuffer d debug
      let compute ← unpackDataFromBuffer d debug (← get).length
      pure (⟨[host, ⟨"data_group".toList, .string "snmp".toList⟩,
      ⟨"component".toList, .string "orcm.comp.mon".toList⟩,
        ⟨"sub_component".toList, .string "orcm.sub.mem".toList⟩],
        [(⟨"ctime".toList, .timeval time.1 time.2⟩ : Vardata).packed d], compute⟩ : Sent)).run
      (collectAndPackDataSamples d debug devices) := by
  rw [receive, collectSample, (d.text.reads _).run_bind, log,
    (reads_fromOpalBuffer d debug hpeek _).run_bind]

theorem logged_of_no_sample (hend : d.Ends) (time : Int64 × Int64)
    (h : samples devices = []) : logged d debug time devices = [] := by
  obtain ⟨e, he⟩ := hend
  have hhost : (fromOpalBuffer d debug).run [] = .error e := by
    rw [fromOpalBuffer, StateT.run_bind, unpackKey, he]
    rfl
  have hrun : (receive d debug).run (collectSample d debug time devices) = .error e := by
    rw [receive_run hpeek, collectAndPack_eq, h, StateT.run_bind]
    change ((fromOpalBuffer d debug).run []).bind _ = _
    rw [hhost]
    rfl
  rw [logged, hrun]

/-- **All values of all devices** are sent under the first host name, and so are the other host
names. -/
theorem logged_of_samples (time : Int64 × Int64) {dev : Device}
    {rest : List (Device × List Vardata)} (h : samples devices = (dev, values) :: rest) :
    logged d debug time devices =
      (values ++ rest.flatMap fun x => hostItem x.1 :: x.2).map fun v =>
      (some (hostItem dev), v.packed d) := by
  have hall :=
    unpackDataFromBuffer_eq d debug hpeek
    (values ++ rest.flatMap fun x => hostItem x.1 :: x.2) (le_refl _)
  have hsp : collectAndPackDataSamples d debug devices = packTo d debug (hostItem dev) ++
      packDataToBuffer d debug (values ++ rest.flatMap fun x => hostItem x.1 :: x.2) := by
    rw [collectAndPack_eq, h]
    simp [packDataToBuffer]
  have hrun := receive_run hpeek time devices
  rw [hsp, (reads_fromOpalBuffer d debug hpeek _).run_bind, hostItem_packed, StateT.run_bind,
    StateT.run_get, pure_bind, StateT.run_bind, hall] at hrun
  rw [logged, hrun]
  change List.map _ (List.map _ _) = _
  rw [map_map]
  rfl

end

theorem noNul_of_cStr {s : Text} (h : cStr s = s) : NoNul s := by
  intro hmem
  have hne := takeWhile_eq_self_iff.1 h _ hmem
  simp at hne

theorem noNul_of_label {key : Text} (h : NoNul (label key)) : NoNul key := by
  unfold label at h
  split at h
  · rename_i hem
    rw [isEmpty_iff.1 hem]
    exact not_mem_nil
  · exact h

section
variable {β : Type} {d : Dss β}

/-- A value arrives as it is if no string is cut and no float rounded. -/
theorem packed_eq_iff {v : Vardata} :
    v.packed d = ⟨label v.key, v.data⟩ ↔ v.Plain ∧ d.Keeps v.data := by
  refine ⟨fun h => ?_, fun h => packed_of_plain d h.1 h.2⟩
  obtain ⟨key, x⟩ := v
  obtain ⟨hkey, hx⟩ := Vardata.mk.inj h
  have hkey := noNul_of_label (noNul_of_cStr hkey)
  cases x with
  | string s => exact ⟨⟨hkey, noNul_of_cStr (Data.string.inj hx)⟩, trivial⟩
  | float x => exact ⟨⟨hkey, trivial⟩, Data.float.inj hx⟩
  | double x => exact ⟨⟨hkey, trivial⟩, Data.double.inj hx⟩
  | _ => exact ⟨⟨hkey, trivial⟩, trivial⟩

/-- What is packed is not changed by packing it once more. -/
theorem data_packed_packed (x : Data) : (x.packed d).packed d = x.packed d := by
  cases x with
  | string s =>
    exact congrArg Data.string (cStr_of_noNul fun h => by simpa using mem_takeWhile_imp h)
  | float x => exact congrArg (fun t => Data.float (d.strtof t)) (d.float_again x)
  | double x => exact congrArg (fun t => Data.double (d.strtod t)) (d.double_again x)
  | _ => rfl

/-- A value as it is to be sent that is sent for another one is sent for itself. -/
theorem packed_eq_of_packed_eq {v w : Vardata} (h : w.packed d = ⟨label v.key, v.data⟩) :
    v.packed d = ⟨label v.key, v.data⟩ := by
  obtain ⟨hkey, hx⟩ := Vardata.mk.inj h
  rw [Vardata.packed, ← hkey, ← hx, data_packed_packed]
  rw [cStr_of_noNul fun hmem => by simpa using mem_takeWhile_imp hmem]

/-- The values of one device are sent as they are if each of them is. -/
theorem perm_packed_iff (host : Vardata) (values : List Vardata) :
    (values.map fun v => (some host, v.packed d)).Perm
        (values.map fun v => (some host, (⟨label v.key, v.data⟩ : Vardata))) ↔
      ∀ v ∈ values, v.Plain ∧ d.Keeps v.data := by
  constructor
  · intro hpe v hv
    have hmem := hpe.mem_iff.2 (mem_map_of_mem hv)
    obtain ⟨w, -, hw⟩ := mem_map.1 hmem
    exact packed_eq_iff.1 (packed_eq_of_packed_eq (Prod.mk.inj hw).2)
  · intro hpl
    rw [map_congr_left fun v hv => congrArg (Prod.mk (some host)) (packed_eq_iff.2 (hpl v hv))]

end

/-- **Every value under its own host, once**: if one device at most gives a sample, none of its
strings is cut and none of its floats rounded. -/
theorem values_under_own_host_iff {β : Type} {d : Dss β} {debug : Bool}
    (hpeek : debug = true → d.Describes) (hend : d.Ends) (time : Int64 × Int64)
    (devices : List Device) :
    (logged d debug time devices).Perm (expected devices) ↔
      (samples devices).length ≤ 1 ∧ ∀ x ∈ samples devices, ∀ v ∈ x.2, v.Plain ∧
      d.Keeps v.data := by
  unfold expected
  cases hsa : samples devices with
  | nil =>
    rw [logged_of_no_sample hpeek hend time hsa]
    simp
  | cons x rest =>
    obtain ⟨dev, values⟩ := x
    rw [logged_of_samples hpeek time hsa]
    cases rest with
    | nil => simpa using perm_packed_iff (hostItem dev) values
    | cons y rest =>
      -- the host names of the others are sent as values
      have hm : ¬ ((dev, values) :: y :: rest).length ≤ 1 := by simp
      constructor
      · intro hpe
        have hlen := hpe.length_eq
        simp [length_flatMap] at hlen
        omega
      · intro h
        exact absurd h.1 hm

/-- A power unit and its load. -/
def pdu1 : Device := ⟨"pdu1".toList, by decide, some [⟨"load".toList, .int32 7⟩]⟩

def pdu2 : Device := ⟨"pdu2".toList, by decide, some [⟨"load".toList, .int32 9⟩]⟩

/-- A unit that does not answer is not in the way. -/
def silent : Device := ⟨"pdu3".toList, by decide, none⟩

theorem pdu1_under_own_host :
    (logged tokens true (0, 0) [silent, pdu1]).Perm (expected [silent, pdu1]) := by
  have hpl : ∀ x ∈ samples [silent, pdu1], ∀ v ∈ x.2, v.Plain ∧ tokens.Keeps v.data := by
    intro x hx v hv
    obtain rfl : x = (pdu1, [⟨"load".toList, .int32 7⟩]) := by
      simpa [samples, silent, pdu1] using hx
    obtain rfl := mem_singleton.1 hv
    exact ⟨⟨by decide, trivial⟩, trivial⟩
  exact (values_under_own_host_iff (fun _ => tokens_describes) tokens_ends (0, 0) _).2
    ⟨by decide, hpl⟩

/-- The second unit is taken for a value of the first one, and so is its load. -/
theorem second_host_is_value_of_first :
    logged tokens true (0, 0) [pdu1, pdu2] =
      [(some (hostItem pdu1), ⟨"load".toList, .int32 7⟩), (some (hostItem pdu1), hostItem pdu2),
        (some (hostItem pdu1), ⟨"load".toList, .int32 9⟩)] ∧
    ¬ (logged tokens true (0, 0) [pdu1, pdu2]).Perm (expected [pdu1, pdu2]) := by
  decide +kernel

/-! ## What a device answers (`snmp_collector.cpp:165-225`) -/

/-- The supported types of a variable. -/
inductive Asn where
  | ipAddress (addr : UInt32)
  | octetStr (s : Text)
  | integer (n : Int64)
  | counter (n : UInt32)
  | gauge (n : UInt32)
  | timeticks (n : UInt32)
  | opaqueFloat (bits : BitVec 32)
  | opaqueDouble (bits : BitVec 64)
  | opaqueCounter64 (n : UInt64)

/-- `name` is what `snprint_objid` writes. -/
structure Variable where
  name : Text
  val  : Asn

section
variable (inetNtoa : UInt32 → Text)

/-- With `counter64` for what is taken of a counter of 64 bits. -/
def Asn.data (counter64 : UInt64 → UInt64) : Asn → Data
  | ipAddress addr => .string (inetNtoa addr)
  | octetStr s => .string s
  | integer n => .int64 n
  | counter n | gauge n | timeticks n => .uint32 n
  | opaqueFloat bits => .float bits
  | opaqueDouble bits => .double bits
  | opaqueCounter64 n => .uint64 (counter64 n)

/-- Without metrics all labels are collected. Of a counter of 64 bits the high half is taken. -/
def packCollectedData (metrics : Option RuntimeMetrics) : List Variable → List Vardata
  | [] => []
  | v :: vars =>
    let metrics := metrics.map (·.trackSensorLabel v.name)
    let entries := packCollectedData metrics vars
    if metrics.all (·.doCollectMetrics (some v.name)) then
      ⟨v.name, v.val.data inetNtoa (· >>> 32)⟩ :: entries else entries

end

/-- A label that is not tracked yet gets the initial state of the plugin. -/
def enabled (metrics : Option RuntimeMetrics) (v : Variable) : Bool :=
  metrics.all fun m => (m.sensorLabelMap.lookup v.name).getD m.initialPluginState

variable (metrics : Option RuntimeMetrics)

theorem enabled_track (new : Text) (v : Variable) :
    enabled (metrics.map (·.trackSensorLabel new)) v = enabled metrics v := by
  cases metrics with
  | none => rfl
  | some m =>
    have hin : (m.trackSensorLabel new).initialPluginState = m.initialPluginState := by
      rw [RuntimeMetrics.trackSensorLabel]
      split <;> rfl
    simp only [enabled, Option.map_some, Option.all_some, m.lookup_trackSensorLabel, hin]
    split
    · rename_i heq
      rw [heq, Option.getD_some]
    · rfl

theorem packCollectedData_eq (inetNtoa : UInt32 → Text) (vars : List Variable) :
    packCollectedData inetNtoa metrics vars = (vars.filter (enabled metrics)).map fun v =>
      ⟨v.name, v.val.data inetNtoa (· >>> 32)⟩ := by
  induction vars generalizing metrics with
  | nil => rfl
  | cons v vars ih =>
    have hco : (metrics.map (·.trackSensorLabel v.name)).all (·.doCollectMetrics (some v.name)) =
        enabled metrics v := by
      cases metrics <;> simp [enabled, RuntimeMetrics.doCollectMetrics,
        RuntimeMetrics.lookup_trackSensorLabel]
    rw [packCollectedData, ih, hco, funext (enabled_track metrics v.name), filter_cons]
    split <;> rfl

/-- **An entry for each variable that is enabled**, with its value, exactly if all counters of 64
bits among them are 0. -/
theorem packCollectedData_iff (inetNtoa : UInt32 → Text) (metrics : Option RuntimeMetrics)
    (vars : List Variable) :
    packCollectedData inetNtoa metrics vars =
      (vars.filter (enabled metrics)).map (fun v => ⟨v.name, v.val.data inetNtoa id⟩) ↔
      ∀ v ∈ vars, enabled metrics v = true → ∀ n, v.val = .opaqueCounter64 n → n = 0 := by
  have hh (n : UInt64) : n >>> 32 = n ↔ n = 0 := by
    refine ⟨fun h => ?_, fun h => by rw [h]; rfl⟩
    have hnat := congrArg UInt64.toNat h
    exact UInt64.toNat_inj.1 (by simp at hnat ⊢; omega)
  rw [packCollectedData_eq, map_inj_left]
  simp only [mem_filter, and_imp, Vardata.mk.injEq, true_and]
  refine forall₃_congr fun v _ _ => ?_
  cases v.val <;> simp [Asn.data, hh]

/-- The low half is lost. -/
theorem counter64_low_lost :
    packCollectedData (fun _ => []) none [⟨"1.3".toList, .opaqueCounter64 5⟩] =
      [⟨"1.3".toList, .uint64 0⟩] := by
  decide

end Sensys.Snmp
