import Sensys.Sensor.RuntimeMetrics
import Sensys.Util.Vardata
/-!
# Messages of the system log (`orcm/mca/sensor/syslog/sensor_syslog.c`)

| here | there |
| --- | --- |
| `regexec` | `regexec` with the pattern `<([0-9]+)>(.*)` (`:403-406`): the digits and the text of the first place that matches |
| `getSeverity`, `getFacility` | `:297-321` |
| `record` | what is packed for a message (`:408-434`); none if the loop is left with `goto cleanup` |
| `packQueue` | the loop over the queue (`:405-442`) |
| `collect` | `collect_syslog_sample` (`:323-455`) |
| `syslogLog` | `:457-559` |
| `Metric` | an `orcm_value_t`: key, value and units |

The number of messages is packed before the queue is gone through; a message that does not match
the pattern is left in the queue. Memory is taken as available.
-/
namespace Sensys.Syslog
open Orte Text SensorData List

/-- A match at the front; `.` matches a newline too. -/
def matchHere : Text → Option (Text × Text)
  | '<' :: s =>
    match s.takeWhile Char.isDigit, s.dropWhile Char.isDigit with
    | digit :: digits, '>' :: text => some (digit :: digits, text)
    | _, _ => none
  | _ => none

def regexec : Text → Option (Text × Text)
  | [] => none
  | c :: s => (matchHere (c :: s)).or (regexec s)

/-- `(int)strtol(prival_str, &tmp, 10)`. -/
def prival (digits : Text) : Int32 := Int32.ofNat (min (digitsValue digits) longMax)

def facilityMsg : List Text :=
  ["KERNEL MESSAGES".toList, "USER-LEVEL MESSAGES".toList, "MAIL SYSTEM".toList,
    "SYSTEM DAEMONS".toList, "SECURITY/AUTHORIZATION MESSAGES".toList,
    "MESSAGES GENERATED INTERNALLY BY SYSLOGD".toList, "LINE PRINTER SUBSYSTEM".toList,
    "NETWORK NEWS SUBSYSTEM".toList, "UUCP SUBSYSTEM".toList, "CLOCK DAEMON".toList,
    "SECURITY/AUTHORIZATION MESSAGES".toList, "FTP DAEMON".toList, "NTP SUBSYSTEM".toList,
    "LOG AUDIT".toList, "LOG ALERT".toList, "CLOCK DAEMON".toList, "LOCAL USE 0".toList,
    "LOCAL USE 1".toList, "LOCAL USE 2".toList, "LOCAL USE 3".toList, "LOCAL USE 4".toList,
    "LOCAL USE 5".toList, "LOCAL USE 6".toList, "LOCAL USE 7".toList]

def priorityNames : List Text :=
  ["emerg".toList, "alert".toList, "crit".toList, "error".toList, "warn".toList, "notice".toList,
    "info".toList, "debug".toList]

def getSeverity (prival : Int32) : Option Text :=
  if prival < 0 then none else priorityNames[(prival &&& 0x07).toNatClampNeg]?

def getFacility (prival : Int32) : Option Text :=
  if prival < 0 then none else facilityMsg[((prival &&& 0xF8) >>> 3).toNatClampNeg]?

structure Record where
  severity   : Text
  logMessage : Text
deriving DecidableEq

def record (digits text : Text) : Option Record := do
  let severity ← getSeverity (prival digits)
  let facility ← getFacility (prival digits)
  some ⟨severity, facility ++ (": ".toList ++ text)⟩

structure Loop where
  packed  : List Record
  left    : List Text
  /-- The loop was not left with `goto cleanup`. -/
  through : Bool
deriving DecidableEq

def packQueue : List Text → Loop
  | [] => ⟨[], [], true⟩
  | log :: queue =>
    match regexec log with
    | none => { packQueue queue with left := log :: (packQueue queue).left }
    | some (digits, text) =>
      match record digits text with
      | none => ⟨[], log :: queue, false⟩
      | some r => { packQueue queue with packed := r :: (packQueue queue).packed }

def useSeverity : UInt8 := 0x01

def useLog : UInt8 := 0x02

/-- The labels that are collected. -/
def flags (metrics : RuntimeMetrics) : UInt8 :=
  (if metrics.doCollectMetrics (some "severity".toList) then useSeverity else 0) |||
    (if metrics.doCollectMetrics (some "log_message".toList) then useLog else 0)

structure Metric where
  key   : Text
  value : Text
  units : Text
deriving DecidableEq

def severityMetric (s : Text) : Metric := ⟨"severity".toList, s, "sev".toList⟩

def logMetric (s : Text) : Metric := ⟨"log_message".toList, s, "log".toList⟩

section
variable {β : Type} (d : Dss β)

def writeRecord (r : Record) : List β := d.text.write r.severity ++ d.text.write r.logMessage

/-- What is transmitted, and the queue after it. -/
def collect (metrics : RuntimeMetrics) (nodename : Text) (time : Int64 × Int64)
    (queue : List Text) : Option (List β) × List Text :=
  if ¬ metrics.doCollectMetrics none then (none, queue)
  else if queue = [] then (none, queue)
  else
    let loop := packQueue queue
    if loop.through ∧ loop.packed ≠ [] then
      (some (d.text.write "syslog".toList ++
        (d.text.write nodename ++ (d.int32.write (Int32.ofNat queue.length) ++
        (d.timeval.write time ++
        (d.uint8.write (flags metrics) ++ loop.packed.flatMap (writeRecord d)))))), loop.left)
    else (none, loop.left)

/-- A field is read if its flag is set. -/
def readField (bits flag : UInt8) : Reader β Fault (Option Text) :=
  if bits &&& flag = flag then some <$> d.text.read else pure none

def readMessage (bits : UInt8) : Reader β Fault (List Metric) := do
  let severity ← readField d bits useSeverity
  let log ← readField d bits useLog
  pure (severity.toList.map severityMetric ++ log.toList.map logMetric)

/-- The fields that stand before the messages: how many there are, and the flags. -/
def readHeader : Reader β Fault (Int32 × UInt8) := do
  let _ ← d.text.read
  let nmsg ← d.int32.read
  let _ ← d.timeval.read
  let bits ← d.uint8.read
  pure (nmsg, bits)

/-- The samples that are sent to the analytics, and the error the decoding ended with. -/
def syslogLog (sample : List β) : List (List Metric) × Option Fault :=
  match (readHeader d).run sample with
  | .error e => ([], some e)
  | .ok ((nmsg, bits), rest) => readEach (readMessage d bits) nmsg.toNatClampNeg rest

/-- The name of the plugin is unpacked by the caller. -/
def receive (buffer : List β) : List (List Metric) × Option Fault :=
  match d.text.read.run buffer with
  | .error e => ([], some e)
  | .ok (_, sample) => syslogLog d sample

end

/-- The fields of a message that are collected. -/
def enabledFields (metrics : RuntimeMetrics) (r : Record) : List Metric :=
  (if metrics.doCollectMetrics (some "severity".toList) then [severityMetric r.severity] else []) ++
    (if metrics.doCollectMetrics (some "log_message".toList) then [logMetric r.logMessage] else [])

/-- As many messages as are announced. -/
def announced (queue : List Text) : Nat := (Int32.ofNat queue.length).toNatClampNeg

def matching (queue : List Text) : Nat := queue.countP fun log => (regexec log).isSome

theorem packed_length {queue : List Text} (h : (packQueue queue).through = true) :
    (packQueue queue).packed.length = matching queue := by
  fun_induction packQueue queue with
  | case1 => rfl
  | case2 _ _ hlog _ ih | case4 _ _ _ _ hlog _ _ _ ih => simpa [matching, hlog] using ih h
  | case3 => cases h

theorem record_fields {digits text : Text} {r : Record} (h : record digits text = some r) :
    ':' ∉ r.severity ∧ ':' ∈ r.logMessage := by
  obtain ⟨severity, hse, h⟩ := Option.bind_eq_some_iff.1 h
  obtain ⟨facility, _, h⟩ := Option.bind_eq_some_iff.1 h
  cases h
  have hmem : severity ∈ priorityNames := by
    unfold getSeverity at hse
    split at hse
    · cases hse
    · exact mem_of_getElem? hse
  have hna : ∀ s ∈ priorityNames, ':' ∉ s := by decide
  exact ⟨hna severity hmem, by simp⟩

theorem packed_fields {queue : List Text} {r : Record} (h : r ∈ (packQueue queue).packed) :
    ':' ∉ r.severity ∧ ':' ∈ r.logMessage := by
  fun_induction packQueue queue with
  | case1 | case3 => cases h
  | case2 _ _ _ _ ih => exact ih h
  | case4 _ _ _ _ _ _ hr _ ih =>
    rcases mem_cons.1 h with rfl | h
    · exact record_fields hr
    · exact ih h

/-! ## What is delivered -/

/-- The strings of the buffer, in order. -/
def strings (records : List Record) : List Text :=
  records.flatMap fun r => [r.severity, r.logMessage]

variable (records : List Record) {l m : List Text}

theorem length_strings : (strings records).length = 2 * records.length := by
  simp [strings, length_flatMap, Nat.mul_comm]

section
variable {β : Type} {d : Dss β} {metrics : RuntimeMetrics} {nodename : Text} {time : Int64 × Int64}
  {queue : List Text} {buffer : List β}
  {bits flag : UInt8}

section
variable (h : (collect d metrics nodename time queue).1 = some buffer)
include h

/-- A buffer is transmitted if the loop got through and packed something. -/
theorem collect_eq_some :
    (packQueue queue).through = true ∧ (packQueue queue).packed ≠ [] ∧
      buffer = d.text.write "syslog".toList ++
      (d.text.write nodename ++ (d.int32.write (Int32.ofNat queue.length) ++
        (d.timeval.write time ++
        (d.uint8.write (flags metrics) ++ (packQueue queue).packed.flatMap (writeRecord d))))) := by
  unfold collect at h
  split at h
  · cases h
  split at h
  · cases h
  dsimp only at h
  split at h
  · rename_i hpa
    exact ⟨hpa.1, hpa.2, (Option.some.inj h).symm⟩
  · cases h

theorem receive_collect :
    receive d buffer =
      readEach (readMessage d (flags metrics)) (announced queue)
      ((packQueue queue).packed.flatMap (writeRecord d)) := by
  obtain ⟨_, _, rfl⟩ := collect_eq_some h
  have hh :
    Reads (readHeader d) (d.text.write nodename ++ (d.int32.write (Int32.ofNat queue.length) ++
      (d.timeval.write time ++ d.uint8.write (flags metrics)))) (Int32.ofNat queue.length,
      flags metrics) :=
    (d.text.reads _).bind
      ((d.int32.reads _).bind ((d.timeval.reads _).bind (d.uint8.reads _).bind_pure))
  have hrun := hh ((packQueue queue).packed.flatMap (writeRecord d))
  simp only [append_assoc] at hrun
  rw [receive, d.text.reads]
  dsimp only
  rw [syslogLog, hrun]
  rfl

end

theorem flatMap_writeRecord :
    records.flatMap (writeRecord d) = (strings records).flatMap d.text.write := by
  induction records with
  | nil => rfl
  | cons r records ih =>
    simp [strings, ih, writeRecord]

theorem reads_field (hset : bits &&& flag = flag) (s : Text) :
    Reads (readField d bits flag) (d.text.write s) (some s) := by
  rw [readField, if_pos hset, map_eq_pure_bind]
  exact (d.text.reads s).bind_pure

theorem reads_noField (hset : bits &&& flag ≠ flag) : Reads (readField d bits flag) [] none := by
  rw [readField, if_neg hset]
  exact reads_pure none

theorem field_ends (hset : bits &&& flag = flag) {e : Fault}
    (hend : d.text.read.run [] = .error e) :
    (readField d bits flag).run [] = .error e := by
  rw [readField, if_pos hset, map_eq_pure_bind, StateT.run_bind, hend]
  rfl

/-! The four settings of the flags. -/

theorem reads_both (r : Record) :
    Reads (readMessage d (useSeverity ||| useLog)) (writeRecord d r) [severityMetric r.severity,
      logMetric r.logMessage] := by
  have hs : Reads (readField d (useSeverity ||| useLog) useSeverity) _ _ :=
    reads_field rfl r.severity
  have hl : Reads (readField d (useSeverity ||| useLog) useLog) _ _ := reads_field rfl r.logMessage
  exact hs.bind hl.bind_pure

theorem reads_severity (s : Text) :
    Reads (readMessage d useSeverity) (d.text.write s) [severityMetric s] := by
  have hs : Reads (readField d useSeverity useSeverity) _ _ := reads_field rfl s
  have hl : Reads (readField d useSeverity useLog) _ _ := reads_noField (by decide)
  rw [← append_nil (d.text.write s)]
  exact hs.bind hl.bind_pure

theorem reads_log (s : Text) : Reads (readMessage d useLog) (d.text.write s) [logMetric s] := by
  have hs : Reads (readField d useLog useSeverity) _ _ := reads_noField (by decide)
  have hl : Reads (readField d useLog useLog) _ _ := reads_field rfl s
  exact hs.bind hl.bind_pure

theorem reads_neither : Reads (readMessage d 0) [] [] := by
  have hs : Reads (readField d 0 useSeverity) _ _ := reads_noField (by decide)
  have hl : Reads (readField d 0 useLog) _ _ := reads_noField (by decide)
  exact hs.bind hl.bind_pure

theorem readMessage_ends {bits : UInt8}
    (hbi : bits &&& useSeverity = useSeverity ∨ bits &&& useLog = useLog) {e : Fault}
    (hend : d.text.read.run [] = .error e) : (readMessage d bits).run [] = .error e := by
  by_cases hset : bits &&& useSeverity = useSeverity
  · rw [readMessage, StateT.run_bind, field_ends hset hend]
    rfl
  · have hlog := hbi.resolve_left hset
    rw [readMessage, ← nil_append [], (reads_noField hset).run_bind, StateT.run_bind,
      field_ends hlog hend]
    rfl

theorem readEach_neither (n : Nat) (w : List β) :
    readEach (readMessage d 0) n w = (List.replicate n [], none) := by
  induction n with
  | zero => rfl
  | succ n ih =>
    have hre := @reads_neither β d w
    rw [nil_append] at hre
    simp [readEach, hre, ih, replicate_succ]

end

/-! ## Which strings are taken for which -/

section
variable {records : List Record} (hfields : ∀ r ∈ records, ':' ∉ r.severity ∧ ':' ∈ r.logMessage)
include hfields

theorem logMessage_ne_severity {r r' : Record} (hr : r ∈ records) (hr' : r' ∈ records) :
    r.logMessage ≠ r'.severity := by
  intro heq
  exact (hfields r' hr').1 (heq ▸ (hfields r hr).2)

/-- The severities are the first strings if there is one only. -/
theorem take_eq_severities_iff (hne : records ≠ []) {n : Nat} :
    (n ≤ (strings records).length ∧ (strings records).take n = records.map Record.severity) ↔
      n = records.length ∧ records.length = 1 := by
  rw [length_strings]
  constructor
  · rintro ⟨hn, heq⟩
    have hlen : n = records.length := by
      have h := congrArg List.length heq
      rw [length_take, length_map, length_strings] at h
      omega
    subst hlen
    refine ⟨rfl, ?_⟩
    match records with
    | [] => exact absurd rfl hne
    | [_] => rfl
    | r :: r' :: rest =>
      -- the second string is a text
      have hse : r.logMessage = r'.severity := by
        simp [strings] at heq
        exact heq.1
      exact absurd hse (logMessage_ne_severity hfields (by simp) (by simp))
  · rintro ⟨rfl, hone⟩
    obtain ⟨r, rfl⟩ := length_eq_one_iff.1 hone
    simp [strings]

/-- The first string is no text. -/
theorem take_ne_logMessages (hne : records ≠ []) {n : Nat} :
    (strings records).take n ≠ records.map Record.logMessage := by
  cases records with
  | nil => exact absurd rfl hne
  | cons r records =>
    cases n with
    | zero => simp
    | succ n =>
      intro heq
      simp [strings] at heq
      exact logMessage_ne_severity hfields mem_cons_self mem_cons_self heq.1.symm

end

theorem take_eq_all_iff {records : List Record} {n : Nat} :
    (n ≤ records.length ∧
      (records.take n).flatMap (fun r => [severityMetric r.severity, logMetric r.logMessage]) =
        records.flatMap fun r => [severityMetric r.severity, logMetric r.logMessage]) ↔
        n = records.length := by
  constructor
  · rintro ⟨hn, heq⟩
    have hlen := congrArg List.length heq
    simp [length_flatMap] at hlen
    omega
  · rintro rfl
    simp

theorem map_severityMetric_inj : l.map severityMetric = m.map severityMetric ↔ l = m := by
  have hinj : Function.Injective severityMetric := fun s t h => congrArg Metric.value h
  exact hinj.list_map.eq_iff

theorem map_logMetric_inj : l.map logMetric = m.map logMetric ↔ l = m := by
  have hinj : Function.Injective logMetric := fun s t h => congrArg Metric.value h
  exact hinj.list_map.eq_iff

/-! The four settings of the flags: when `n` samples are the enabled fields of the messages. -/

section
variable {β : Type} {d : Dss β} {records : List Record} {n : Nat}

theorem delivers_both_iff (hend : d.Ends) :
    ((readEach (readMessage d (useSeverity ||| useLog)) n (records.flatMap (writeRecord d))).2 =
      none ∧
        (readEach (readMessage d (useSeverity ||| useLog)) n
        (records.flatMap (writeRecord d))).1.flatten =
          records.flatMap fun r => [severityMetric r.severity, logMetric r.logMessage]) ↔
          n = records.length := by
  obtain ⟨e, he⟩ := hend
  rw [readEach_flatMap_iff (fun r _ => reads_both r) (readMessage_ends (.inl rfl) he) n fun l =>
    l.flatten = _, ← flatMap_def]
  exact take_eq_all_iff

section
variable (hend : d.Ends) (hne : records ≠ [])
  (hfields : ∀ r ∈ records, ':' ∉ r.severity ∧ ':' ∈ r.logMessage)
include hend hne hfields

theorem delivers_severity_iff :
    ((readEach (readMessage d useSeverity) n (records.flatMap (writeRecord d))).2 = none ∧
        (readEach (readMessage d useSeverity) n (records.flatMap (writeRecord d))).1.flatten =
          records.flatMap fun r => [severityMetric r.severity]) ↔
          n = records.length ∧ records.length = 1 := by
  obtain ⟨e, he⟩ := hend
  have hex : (records.flatMap fun r => [severityMetric r.severity]) =
      (records.map Record.severity).map severityMetric := by
    rw [map_map, map_eq_flatMap]
    rfl
  rw [flatMap_writeRecord,
    readEach_flatMap_iff (fun s _ => reads_severity s) (readMessage_ends (.inl rfl) he) n fun l =>
    l.flatten = _, ← flatMap_def, ← map_eq_flatMap, hex, map_severityMetric_inj]
  exact take_eq_severities_iff hfields hne

theorem not_delivers_log :
    ¬ ((readEach (readMessage d useLog) n (records.flatMap (writeRecord d))).2 = none ∧
        (readEach (readMessage d useLog) n (records.flatMap (writeRecord d))).1.flatten =
          records.flatMap fun r => [logMetric r.logMessage]) := by
  obtain ⟨e, he⟩ := hend
  have hex : (records.flatMap fun r => [logMetric r.logMessage]) =
      (records.map Record.logMessage).map logMetric := by
    rw [map_map, map_eq_flatMap]
    rfl
  rw [flatMap_writeRecord,
    readEach_flatMap_iff (fun s _ => reads_log s) (readMessage_ends (.inr rfl) he) n fun l =>
    l.flatten = _, ← flatMap_def, ← map_eq_flatMap, hex, map_logMetric_inj]
  rintro ⟨_, heq⟩
  exact take_ne_logMessages hfields hne heq

end

end

/-- **What is delivered is what was packed**: both labels are collected and every message is
packed, or the severity only and there is one message; or no label is collected. -/
theorem delivers_enabled_fields_iff {β : Type} {d : Dss β} (hend : d.Ends)
    {metrics : RuntimeMetrics} {nodename : Text} {time : Int64 × Int64} {queue : List Text}
    {buffer : List β} (h : (collect d metrics nodename time queue).1 = some buffer) :
    ((receive d buffer).2 = none ∧
      (receive d buffer).1.flatten = (packQueue queue).packed.flatMap (enabledFields metrics)) ↔
      (metrics.doCollectMetrics (some "severity".toList) = false ∧
      metrics.doCollectMetrics (some "log_message".toList) = false) ∨
      (announced queue = matching queue ∧ metrics.doCollectMetrics (some "severity".toList) = true ∧
        (metrics.doCollectMetrics (some "log_message".toList) = true ∨ matching queue = 1)) := by
  obtain ⟨hth, hne, _⟩ := collect_eq_some h
  have hfields : ∀ r ∈ (packQueue queue).packed, ':' ∉ r.severity ∧ ':' ∈ r.logMessage :=
    fun r hr => packed_fields hr
  rw [receive_collect h, ← packed_length hth]
  unfold enabledFields flags
  cases hsev : metrics.doCollectMetrics (some "severity".toList) with
  | false =>
    cases hlog : metrics.doCollectMetrics (some "log_message".toList) with
    | false => simp [readEach_neither]
    | true => simpa using not_delivers_log hend hne hfields
  | true =>
    cases hlog : metrics.doCollectMetrics (some "log_message".toList) with
    | false => simpa using delivers_severity_iff hend hne hfields
    | true => simpa using delivers_both_iff hend

/-- A plugin that was not told anything. -/
def defaults : RuntimeMetrics := .create true

/-- Two messages of a daemon. -/
def daemonQueue : List Text := ["<30>started".toList, "<27>no route".toList]

theorem daemonQueue_delivered :
    (collect tokens defaults "node1".toList (0, 0) daemonQueue).1.map
      (fun buffer => ((receive tokens buffer).2, (receive tokens buffer).1.flatten)) =
      some (none, (packQueue daemonQueue).packed.flatMap (enabledFields defaults)) := by
  have hso : (collect tokens defaults "node1".toList (0, 0) daemonQueue).1.isSome = true := by decide +kernel
  obtain ⟨buffer, hbu⟩ := Option.isSome_iff_exists.1 hso
  have hall : announced daemonQueue = matching daemonQueue := by decide +kernel
  obtain ⟨hf, hse⟩ := (delivers_enabled_fields_iff tokens_ends hbu).2 (.inr ⟨hall, rfl, .inl rfl⟩)
  rw [hbu, Option.map_some, hf, hse]

/-- A message without a priority is announced and is not packed. -/
theorem message_without_priority_is_missed :
    (collect tokens defaults "node1".toList (0, 0) ["<30>started".toList, "started".toList]).1.map
      (receive tokens) =
      some ([[severityMetric "info".toList, logMetric "SYSTEM DAEMONS: started".toList]],
      some .invalidBuffer) := by
  decide +kernel

/-! ## Messages over many rounds -/

/-- What a well-formed message is packed as. -/
def recordOf (log : Text) : Option Record := (regexec log).bind fun m => record m.1 m.2

def wellFormed (queue : List Text) : List Record := queue.filterMap recordOf

/-- The message has a priority, but a negative one or one of a facility that is not known. -/
def Refused (log : Text) : Prop :=
  ∃ digits text, regexec log = some (digits, text) ∧
    (prival digits < 0 ∨ facilityMsg.length ≤ ((prival digits &&& 0xF8) >>> 3).toNatClampNeg)

inductive Event where
  | arrives (log : Text)
  | round (metrics : RuntimeMetrics) (time : Int64 × Int64)

/-- A round in which collection is enabled. -/
def Event.collects : Event → Bool
  | arrives _ => false
  | round metrics _ => metrics.doCollectMetrics none

def arrived (events : List Event) : List Text :=
  events.filterMap fun | .arrives log => some log | .round _ _ => none

section
variable {β : Type} (d : Dss β) (nodename : Text)

/-- The queue, and all that was put into transmitted buffers. -/
def step (s : List Text × List Record) : Event → List Text × List Record
  | .arrives log => (s.1 ++ [log], s.2)
  | .round metrics time =>
    let (buffer, queue) := collect d metrics nodename time s.1
    (queue, if buffer.isSome then s.2 ++ (packQueue s.1).packed else s.2)

def after (events : List Event) : List Text × List Record := events.foldl (step d nodename) ([], [])

/-- Every well-formed message is in the queue or was transmitted, once, and a round that collects
leaves none in the queue. -/
def Kept (events : List Event) : Prop :=
  (wellFormed (arrived events)).Perm
    (wellFormed (after d nodename events).1 ++ (after d nodename events).2) ∧
    ∀ e, events.getLast? = some e → e.collects = true → wellFormed (after d nodename events).1 = []

end

section
variable {queue : List Text}

theorem left_sublist (queue : List Text) : (packQueue queue).left.Sublist queue := by
  fun_induction packQueue queue with
  | case1 => exact .slnil
  | case2 log _ _ _ ih => exact ih.cons_cons log
  | case3 => exact .refl _
  | case4 log _ _ _ _ _ _ _ ih => exact ih.cons log

theorem severity_lt (n : Int32) : (n &&& 0x07).toNatClampNeg < 8 := by
  have hle : (n &&& 0x07).toBitVec.toNat ≤ 7 := by
    rw [Int32.toBitVec_and, BitVec.toNat_and]
    exact Nat.and_le_right
  have hint : (n &&& 0x07).toInt = ((n &&& 0x07).toBitVec.toNat : Int) :=
    BitVec.toInt_eq_toNat_of_lt (by omega)
  rw [Int32.toNatClampNeg, hint]
  omega

/-- Every severity is known. -/
theorem record_eq_none_iff {digits text : Text} : record digits text = none ↔
    prival digits < 0 ∨ facilityMsg.length ≤ ((prival digits &&& 0xF8) >>> 3).toNatClampNeg := by
  by_cases hneg : prival digits < 0
  · simp [record, getSeverity, hneg]
  · have hsev : priorityNames[(prival digits &&& 0x07).toNatClampNeg]? ≠ none := by
      rw [Ne, getElem?_eq_none_iff, not_le]
      exact severity_lt _
    obtain ⟨sev, hsev⟩ := Option.ne_none_iff_exists'.1 hsev
    rw [← getElem?_eq_none_iff]
    cases hfac : facilityMsg[((prival digits &&& 0xF8) >>> 3).toNatClampNeg]? <;>
      simp [record, getSeverity, getFacility, hneg, hsev, hfac]

theorem through_iff (queue : List Text) :
    (packQueue queue).through = true ↔ ∀ log ∈ queue, ¬ Refused log := by
  fun_induction packQueue queue with
  | case1 => simp
  | case2 log _ hlog _ ih =>
    have hno : ¬ Refused log := by simp [Refused, hlog]
    rw [forall_mem_cons, and_iff_right hno]
    exact ih
  | case3 log _ digits text hlog hr =>
    have hre : Refused log := ⟨digits, text, hlog, record_eq_none_iff.1 hr⟩
    simp [hre]
  | case4 log _ digits text hlog r hr _ ih =>
    have hno : ¬ Refused log := by
      rintro ⟨digits', text', hlog', hre⟩
      cases hlog.symm.trans hlog'
      rw [record_eq_none_iff.2 hre] at hr
      cases hr
    rw [forall_mem_cons, and_iff_right hno]
    exact ih

theorem packed_of_through (h : (packQueue queue).through = true) :
    (packQueue queue).packed = wellFormed queue ∧ wellFormed (packQueue queue).left = [] := by
  fun_induction packQueue queue with
  | case1 => exact ⟨rfl, rfl⟩
  | case2 _ _ hlog _ ih => simpa [wellFormed, recordOf, hlog] using ih h
  | case3 => cases h
  | case4 _ _ _ _ hlog _ hr _ ih => simpa [wellFormed, recordOf, hlog, hr] using ih h

end

section
variable {β : Type} {d : Dss β} {nodename : Text}

theorem step_round (s : List Text × List Record) (metrics : RuntimeMetrics) (time : Int64 × Int64) :
    step d nodename s (.round metrics time) =
      if metrics.doCollectMetrics none then
        ((packQueue s.1).left,
          if (packQueue s.1).through then s.2 ++ (packQueue s.1).packed else s.2)
      else s := by
  rw [step, collect]
  cases metrics.doCollectMetrics none with
  | false => rfl
  | true =>
    by_cases hnil : s.1 = []
    · simp [hnil, packQueue]
    · by_cases hpa : (packQueue s.1).packed = []
      · simp [hnil, hpa]
      · by_cases hth : (packQueue s.1).through <;> simp [hnil, hpa, hth]

theorem kept_concat_iff {events : List Event} (h : Kept d nodename events) (e : Event) :
    Kept d nodename (events ++ [e]) ↔
      (e.collects = true → (packQueue (after d nodename events).1).through = true ∨
      wellFormed (after d nodename events).1 = []) := by
  obtain ⟨hpe, -⟩ := h
  rw [Kept, show after d nodename (events ++ [e]) =
    step d nodename (after d nodename events) e from foldl_concat ..,
    show arrived (events ++ [e]) = arrived events ++ arrived [e] from filterMap_append ..,
    getLast?_concat]
  simp only [Option.some_inj, forall_eq']
  generalize after d nodename events = s at hpe ⊢
  cases e with
  | arrives log =>
    refine iff_of_true ⟨?_, by simp [Event.collects]⟩ (by simp [Event.collects])
    have hm : (wellFormed s.1 ++ s.2 ++ wellFormed [log]).Perm
        (wellFormed s.1 ++ wellFormed [log] ++ s.2) := by
      rw [append_assoc, append_assoc]
      exact perm_append_comm.append_left _
    simpa [arrived, step, wellFormed] using (hpe.append_right _).trans hm
  | round metrics time =>
    rw [show arrived [.round metrics time] = [] from rfl, append_nil, step_round, Event.collects]
    cases metrics.doCollectMetrics none with
    | false => simpa using hpe
    | true =>
      cases hth : (packQueue s.1).through with
      | true =>
        obtain ⟨hpa, hleft⟩ := packed_of_through hth
        simpa [hpa, hleft] using hpe.trans perm_append_comm
      | false =>
        simp only [if_true, Bool.false_eq_true, if_false, false_or, true_imp_iff]
        constructor
        · rintro ⟨hpe', hleft⟩
          have hlen := (hpe.symm.trans hpe').length_eq
          simpa [hleft] using hlen
        · intro hno
          have hleft : wellFormed (packQueue s.1).left = [] :=
            sublist_nil.1 (hno ▸ (left_sublist s.1).filterMap recordOf)
          exact ⟨by simpa [hleft, hno] using hpe, hleft⟩

/-- **No well-formed message is lost or kept back**, at any time, exactly if no round that
collects meets a message with a negative priority or a facility that is not known while there is a
well-formed one. -/
theorem messages_kept_iff (d : Dss β) (nodename : Text) (events : List Event) :
    (∀ done, done <+: events → Kept d nodename done) ↔
      ∀ done e, done ++ [e] <+: events → e.collects = true →
      (∀ log ∈ (after d nodename done).1, ¬ Refused log) ∨
      wellFormed (after d nodename done).1 = [] := by
  refine Lists.forall_isPrefix_iff ⟨.nil, by simp⟩ fun done e _ h => ?_
  rw [kept_concat_iff h e, through_iff]

/-- The first message is lost, and the third one waits. -/
theorem unknown_facility_loses :
    after tokens [] [.arrives "<30>a".toList, .arrives "<200>b".toList, .arrives "<30>c".toList,
      .round defaults (0, 0)] =
    (["<200>b".toList, "<30>c".toList], []) := by
  decide +kernel

end

end Sensys.Syslog
