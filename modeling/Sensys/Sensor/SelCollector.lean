import Mathlib.Data.List.Nodup
import Mathlib.Data.UInt
import Sensys.Sensor.SelRecordId
/-!
# Collecting the system event log (`orcm/mca/sensor/ipmi/ipmi_sel_collector.cpp`)

| here | there |
| --- | --- |
| `Record` | the 16 bytes of a record, of which `id` are the first two |
| `getSelEntry` | `GET_SEL_ENTRY` of the controller; `none` is a completion code or a result other than 0 |
| `Collector` | `ipmi_sel_collector`, with the events it has sent |
| `getNextIpmiSelRecord` | `get_next_ipmi_sel_record` with `execute_ipmi_get_sel_entry` (`:139-178`) |
| `scan`, `scanNewRecords` | `scan_new_records` (`:90-109`) |
| `processNodeSelLogs` | `process_node_sel_logs` (`sensor_ipmi_sel.cpp:17-31`), given the id that was saved; the id that is saved after it |
| `collections` | one after the other, each with the id that the one before has saved |
| `processWithFile`, `collectionsWithFile` | the same with the file of record ids, which has the ids of other hosts too |

The controller returns the first record for id 0, and with each record the id of the next one or
the end marker. Ids of records are different from each other, from 0 and from the end marker.

`last_record_id_` is the id that was asked for, for the first record of a log 0.
-/
namespace Sensys.Ipmi
open Orte List

structure Record where
  id   : UInt16
  data : List UInt8
deriving DecidableEq, Repr

def endOfRecords : UInt16 := 0xffff

/-- The log of a controller. -/
structure SelLog where
  records : List Record
  nodup   : (records.map Record.id).Nodup
  proper  : ∀ r ∈ records, r.id ≠ 0 ∧ r.id ≠ endOfRecords

/-- The id that is returned with the record before. -/
def nextId (rest : List Record) : UInt16 := (rest.head?.map Record.id).getD endOfRecords

def getSelEntry (log : List Record) (id : UInt16) : Option (Record × UInt16) :=
  match if id = 0 then log else log.dropWhile fun r => r.id ≠ id with
  | [] => none
  | r :: rest => some (r, nextId rest)

structure Collector where
  lastRecordId    : UInt16
  nextRecordId    : UInt16
  readFirstRecord : Bool
  badInstance     : Bool
  events          : List Record
deriving DecidableEq, Repr

def getNextIpmiSelRecord (log : List Record) (id : UInt16) (c : Collector) : Bool × Collector :=
  if id = endOfRecords || c.badInstance then (false, c)
  else match getSelEntry log id with
    | none => (false, { c with badInstance := true, nextRecordId := 0 })
    | some (r, next) =>
      (true, { c with
        lastRecordId := id
        nextRecordId := next
        events := if c.readFirstRecord || id = 0 then c.events ++ [r] else c.events })

/-- The loop; `none` if it has not ended. -/
def scan (log : List Record) : Nat → Collector → Option (Bool × Collector)
  | 0, _ => none
  | fuel + 1, c =>
    if c.nextRecordId = endOfRecords ∧ c.readFirstRecord = true then some (true, c)
    else
      let (ok, c) :=
        getNextIpmiSelRecord log (if c.readFirstRecord then c.nextRecordId else c.lastRecordId) c
      if ok then scan log fuel { c with readFirstRecord := true } else some (false, c)

def scanNewRecords (log : List Record) (fuel : Nat) (c : Collector) : Option (Bool × Collector) :=
  if c.badInstance then some (false, c) else scan log fuel c

/-- What a collection returns, what it reports, and the id that is saved. -/
structure Collection where
  ok     : Bool
  events : List Record
  saved  : UInt16
deriving DecidableEq, Repr

/-- A changed id is saved, unless the scan has failed. -/
def processNodeSelLogs (log : List Record) (fuel : Nat) (saved : UInt16) : Option Collection :=
  (scanNewRecords log fuel ⟨saved, endOfRecords, false, false, []⟩).map fun r =>
    ⟨r.1, r.2.events, if r.1 && r.2.lastRecordId ≠ saved then r.2.lastRecordId else saved⟩

/-- What is reported by collections of the logs, if none of them fails. -/
def collections (fuel : Nat) : UInt16 → List SelLog → Option (List Record)
  | _, [] => some []
  | saved, log :: logs =>
    (processNodeSelLogs log.records fuel saved).bind fun r =>
      if r.ok then (collections fuel r.saved logs).map fun events => r.events ++ events else none

/-- The id of the last record, or `d`. -/
def lastId (records : List Record) (d : UInt16) : UInt16 := records.foldl (fun _ r => r.id) d

section
variable {log : SelLog} {before rest : List Record} {r : Record} {fuel : Nat} {c : Collector}

section
variable (h : log.records = before ++ r :: rest)
include h

theorem SelLog.proper_of_split : r.id ≠ 0 ∧ r.id ≠ endOfRecords :=
  log.proper r (by simp [h])

theorem SelLog.id_ne_of_mem {r' : Record} (hr' : r' ∈ before) : r'.id ≠ r.id := by
  have hno := log.nodup
  rw [h, map_append, nodup_append] at hno
  exact hno.2.2 _ (mem_map_of_mem hr') _ (by simp)

theorem getSelEntry_of_split : getSelEntry log.records r.id = some (r, nextId rest) := by
  have hpr := SelLog.proper_of_split h
  have hdr : (log.records.dropWhile fun r' => r'.id ≠ r.id) = r :: rest := by
    rw [h, dropWhile_append_of_pos]
    · simp
    · intro r' hr'
      simpa using SelLog.id_ne_of_mem h hr'
  rw [getSelEntry, if_neg hpr.1, hdr]

theorem getNext_of_split {c : Collector} (hf : c.readFirstRecord = true)
    (hbad : c.badInstance = false) :
    getNextIpmiSelRecord log.records r.id c =
      (true, { c with lastRecordId := r.id, nextRecordId := nextId rest, events := c.events ++ [r] }) := by
  have hpr := SelLog.proper_of_split h
  simp [getNextIpmiSelRecord, hpr.2, hbad, getSelEntry_of_split h, hf]

end

theorem scan_end (hf : c.readFirstRecord = true) (hnext : c.nextRecordId = endOfRecords)
    (fuel : Nat) :
    scan log.records (fuel + 1) c = some (true, c) :=
  if_pos ⟨hnext, hf⟩

/-- **The rest of the log** is reported once the first record is read. -/
theorem scan_rest (rest : List Record) {before : List Record} (h : log.records = before ++ rest)
    (hf : c.readFirstRecord = true) (hbad : c.badInstance = false)
    (hnext : c.nextRecordId = nextId rest)
    (hfu : rest.length < fuel) :
    scan log.records fuel c = some (true, { c with
      lastRecordId := lastId rest c.lastRecordId, nextRecordId := endOfRecords,
      events := c.events ++ rest }) := by
  obtain ⟨fuel, rfl⟩ : ∃ k, fuel = k + 1 := ⟨fuel - 1, by omega⟩
  induction rest generalizing before c fuel with
  | nil =>
    have hend : c.nextRecordId = endOfRecords := hnext
    rw [scan_end hf hend, ← hend, append_nil]
    rfl
  | cons r rest ih =>
    obtain ⟨fuel, rfl⟩ : ∃ k, fuel = k + 1 := ⟨fuel - 1, by simp at hfu; omega⟩
    have hid : c.nextRecordId = r.id := hnext
    have hne : ¬ (c.nextRecordId = endOfRecords ∧ c.readFirstRecord = true) := fun hand =>
      (SelLog.proper_of_split h).2 (hid ▸ hand.1)
    have hsp : log.records = (before ++ [r]) ++ rest := by simpa using h
    rw [scan, if_neg hne, if_pos hf, hid, getNext_of_split h hf hbad]
    have hre := ih hsp (c := { c with
      lastRecordId := r.id, nextRecordId := nextId rest, readFirstRecord := true, events := c.events ++ [r] })
      rfl hbad rfl fuel (by simp at hfu; omega)
    simpa [lastId, hf] using hre

/-- The first collection reports the log. The id that is saved is 0 if the log has one record. -/
theorem process_first (h : log.records = r :: rest) (hf : log.records.length < fuel) :
    processNodeSelLogs log.records fuel 0 = some ⟨true, log.records, lastId rest 0⟩ := by
  rw [h, length_cons] at hf
  obtain ⟨fuel, rfl⟩ : ∃ k, fuel = k + 1 := ⟨fuel - 1, by omega⟩
  have hnext : getNextIpmiSelRecord log.records 0 ⟨0, endOfRecords, false, false, []⟩ =
      (true, ⟨0, nextId rest, false, false, [r]⟩) := by
    simp [getNextIpmiSelRecord, getSelEntry, h, endOfRecords]
  have hsc : scan log.records (fuel + 1) ⟨0, endOfRecords, false, false, []⟩ =
      some (true, ⟨lastId rest 0, endOfRecords, true, false, r :: rest⟩) := by
    have hsp : log.records = [r] ++ rest := h
    rw [scan, if_neg (by simp), if_neg (by simp), hnext]
    exact scan_rest rest hsp rfl rfl rfl (by omega)
  rw [processNodeSelLogs, scanNewRecords, if_neg (by simp), hsc, h]
  by_cases hlast : lastId rest 0 = 0 <;> simp [hlast]

theorem process_resumed (h : log.records = before ++ r :: rest) (hf : log.records.length < fuel) :
    processNodeSelLogs log.records fuel r.id = some ⟨true, rest, lastId rest r.id⟩ := by
  rw [h, length_append, length_cons] at hf
  obtain ⟨fuel, rfl⟩ : ∃ k, fuel = k + 1 := ⟨fuel - 1, by omega⟩
  have hpr := SelLog.proper_of_split h
  have hnext : getNextIpmiSelRecord log.records r.id ⟨r.id, endOfRecords, false, false, []⟩ =
      (true, ⟨r.id, nextId rest, false, false, []⟩) := by
    simp [getNextIpmiSelRecord, getSelEntry_of_split h, hpr.1, hpr.2]
  have hsc : scan log.records (fuel + 1) ⟨r.id, endOfRecords, false, false, []⟩ =
      some (true, ⟨lastId rest r.id, endOfRecords, true, false, rest⟩) := by
    have hsp : log.records = (before ++ [r]) ++ rest := by simpa using h
    rw [scan, if_neg (by simp), if_neg (by simp), hnext]
    exact scan_rest rest hsp rfl rfl rfl (by omega)
  rw [processNodeSelLogs, scanNewRecords, if_neg (by simp), hsc]
  by_cases hlast : lastId rest r.id = r.id <;> simp [hlast]

end

/-! ## One collection after the other -/

/-- The log at the last collection. -/
def lastLog (logs : List SelLog) (d : List Record) : List Record :=
  logs.foldl (fun _ log => log.records) d

/-- **After two records** the collections go on where the one before has ended. -/
theorem collections_resumed {fuel : Nat} (logs : List SelLog) {old : List Record} {r : Record}
    (hold : ∀ log ∈ logs, old ++ [r] <+: log.records)
    (hg : logs.Pairwise fun a b => a.records <+: b.records)
    (hf : ∀ log ∈ logs, log.records.length < fuel) :
    ∃ reports, collections fuel r.id logs = some reports ∧
      old ++ [r] ++ reports = lastLog logs (old ++ [r]) := by
  induction logs generalizing old r with
  | nil => exact ⟨[], rfl, append_nil _⟩
  | cons log logs ih =>
    obtain ⟨new, hnew⟩ := hold log mem_cons_self
    have hsp : log.records = old ++ r :: new := by simpa using hnew.symm
    have hpr := process_resumed hsp (hf log mem_cons_self)
    obtain ⟨hnext, hg⟩ := pairwise_cons.1 hg
    -- the last record of the log is the one that the next collection starts from
    obtain ⟨old', r', hlog, hid⟩ : ∃ old' r', log.records = old' ++ [r'] ∧
        lastId new r.id = r'.id := by
      rcases eq_nil_or_concat new with rfl | ⟨new', r', rfl⟩
      · exact ⟨old, r, hsp, rfl⟩
      · exact ⟨old ++ r :: new', r', by simp [hsp], by simp [lastId]⟩
    obtain ⟨reports, hre, hlast⟩ := @ih old' r' (fun log' hmem => hlog ▸ hnext log' hmem) hg
      (forall_mem_cons.1 hf).2
    refine ⟨new ++ reports, by simp [collections, hpr, hid, hre], ?_⟩
    rw [lastLog, foldl_cons, ← append_assoc, hnew, hlog]
    exact hlast

/-- **From the start**: a log of one record is reported again at the next collection. -/
theorem collections_from_start {fuel : Nat} (log : SelLog) (logs : List SelLog)
    (hne : ∀ l ∈ log :: logs, l.records ≠ [])
    (hg : (log :: logs).Pairwise fun a b => a.records <+: b.records)
    (hf : ∀ l ∈ log :: logs, l.records.length < fuel) :
    ∃ reports, collections fuel 0 (log :: logs) = some reports ∧
      (lastLog logs log.records).length ≤ reports.length ∧
      (reports = lastLog logs log.records ↔ 2 ≤ log.records.length ∨ logs = []) := by
  induction logs generalizing log with
  | nil =>
    obtain ⟨r, rest, hlog⟩ := exists_cons_of_ne_nil (hne log mem_cons_self)
    have hpr := process_first hlog (hf log mem_cons_self)
    exact ⟨log.records, by simp [collections, hpr], le_refl _, by simp [lastLog]⟩
  | cons log' logs ih =>
    obtain ⟨r, rest, hlog⟩ := exists_cons_of_ne_nil (hne log mem_cons_self)
    have hpr := process_first hlog (hf log mem_cons_self)
    obtain ⟨hnext, hg⟩ := pairwise_cons.1 hg
    rcases eq_nil_or_concat rest with rfl | ⟨rest', r', rfl⟩
    · obtain ⟨reports, hre, hle, -⟩ := ih log' (forall_mem_cons.1 hne).2 hg
        (forall_mem_cons.1 hf).2
      have hlast : lastLog (log' :: logs) log.records = lastLog logs log'.records := rfl
      refine ⟨r :: reports, ?_, ?_, ?_⟩
      · rw [collections, hpr]
        simp [lastId, hre, hlog]
      · rw [hlast, length_cons]
        omega
      · have hlon : r :: reports ≠ lastLog logs log'.records := by
          intro heq
          have hleng := congrArg List.length heq
          rw [length_cons] at hleng
          omega
        rw [hlast]
        simp [hlon, hlog]
    · have hco : log.records = (r :: rest') ++ [r'] := by simpa using hlog
      obtain ⟨reports, hre, hlast⟩ := @collections_resumed fuel (log' :: logs) (r :: rest') r'
        (fun l hl => hco ▸ hnext l hl) hg (forall_mem_cons.1 hf).2
      rw [← hco] at hlast
      refine ⟨log.records ++ reports, ?_,
        by rw [hlast], iff_of_true hlast (Or.inl (by simp [hlog]))⟩
      rw [collections, hpr]
      simp [lastId, hre]

/-- **Each record once and in order**, if every collection but the last has found two records or
more. For a log without records the command fails. -/
theorem records_reported_once_iff {fuel : Nat} (logs : List SelLog)
    (hne : ∀ log ∈ logs, log.records ≠ [])
    (hgrow : logs.Pairwise fun a b => a.records <+: b.records)
    (hfuel : ∀ log ∈ logs, log.records.length < fuel) :
    ∃ reports, collections fuel 0 logs = some reports ∧
      (reports = lastLog logs [] ↔ ∀ log ∈ logs.dropLast, 2 ≤ log.records.length) := by
  cases logs with
  | nil => exact ⟨[], rfl, by simp [lastLog]⟩
  | cons log logs =>
    obtain ⟨reports, hre, -, hiff⟩ := collections_from_start log logs hne hgrow hfuel
    refine ⟨reports, hre, hiff.trans ?_⟩
    cases logs with
    | nil => simp
    | cons log' logs =>
      have hle : ∀ l ∈ log :: log' :: logs, log.records.length ≤ l.records.length :=
        forall_mem_cons.2 ⟨le_refl _, fun l hl => ((pairwise_cons.1 hgrow).1 l hl).length_le⟩
      constructor
      · rintro (htwo | hnil) l hl
        · exact htwo.trans (hle l (mem_of_mem_dropLast hl))
        · cases hnil
      · intro hall
        exact Or.inl (hall log (by simp [List.dropLast]))

/-- A log of two records, which then grows by one. -/
def twoRecords : SelLog := ⟨[⟨1, []⟩, ⟨2, []⟩], by decide, by decide⟩

def threeRecords : SelLog := ⟨[⟨1, []⟩, ⟨2, []⟩, ⟨3, []⟩], by decide, by decide⟩

theorem threeRecords_reported_once :
    ∃ reports, collections 4 0 [twoRecords, threeRecords] = some reports ∧
      (reports = lastLog [twoRecords, threeRecords] [] ↔
        ∀ log ∈ [twoRecords, threeRecords].dropLast, 2 ≤ log.records.length) :=
  records_reported_once_iff [twoRecords, threeRecords] (by decide) (by decide) (by decide)

def oneRecord : SelLog := ⟨[⟨1, []⟩], by decide, by decide⟩

/-- The log does not change, and its record is reported at each collection. -/
theorem oneRecord_reported_again :
    collections 2 0 [oneRecord, oneRecord] = some [⟨1, []⟩, ⟨1, []⟩] ∧
      lastLog [oneRecord, oneRecord] [] = [⟨1, []⟩] := by
  decide +kernel

/-! ## With the file of record ids -/

def processWithFile (log : List Record) (fuel : Nat) (host : Text) (file : Option Text) :
    Option (Bool × List Record × Option Text) := do
  let saved ← (loadLastRecordId fuel host file).toOption
  let r ← scanNewRecords log fuel ⟨saved, endOfRecords, false, false, []⟩
  if r.1 then
    let file' ← (saveRecordId fuel host r.2.lastRecordId file).toOption
    return (true, r.2.events, file')
  return (false, r.2.events, file)

def collectionsWithFile (fuel : Nat) (host : Text) :
    Option Text → List SelLog → Option (List Record)
  | _, [] => some []
  | file, log :: logs =>
    (processWithFile log.records fuel host file).bind fun r =>
      if r.1 then (collectionsWithFile fuel host r.2.2 logs).map fun events =>
        r.2.1 ++ events else none

/-- The line of a host with any id is short. -/
def ShortHost (host : Text) : Prop :=
  IsHost host ∧ ∀ id : UInt16, (host ++ '=' :: Nat.toDigits 10 id.toNat).length ≤ maxLineSize - 2

section
variable {host : Text} {file : Option Text} {entries : List Entry} {fuel : Nat}

/-- **A collection with the file** does what it does with the id of the host. -/
theorem processWithFile_simulates (hhost : ShortHost host) (hf : HoldsEntries file entries)
    (hfu : entries.length + 1 < fuel) (log : List Record) {c : Collection}
    (hc : processNodeSelLogs log fuel (idOf entries host) = some c) (hok : c.ok = true) :
    ∃ file' entries', processWithFile log fuel host file = some (true, c.events, file') ∧
      HoldsEntries file' entries' ∧
      entries'.length ≤ entries.length + 1 ∧ idOf entries' host = c.saved := by
  obtain ⟨r, hsc, rfl⟩ := Option.map_eq_some_iff.1 hc
  have hl := load_of_holds hf host hfu
  obtain ⟨file', entries', hsa, hh, hlen, hid, -⟩ :=
    save_of_holds hhost.1 (hhost.2 r.2.lastRecordId) hf hfu
  have htr : r.1 = true := hok
  refine ⟨file', entries', ?_, hh, hlen, ?_⟩
  · simp [processWithFile, hl, hsc, hsa, htr, Except.toOption]
  · rw [hid]
    by_cases hsam : r.2.lastRecordId = idOf entries host <;> simp [htr, hsam]

/-- **Runs with the file** report what runs with the id of the host report. -/
theorem collectionsWithFile_simulates (hhost : ShortHost host) (logs : List SelLog)
    (hf : HoldsEntries file entries) (hfu : entries.length + logs.length + 1 < fuel)
    {reports : List Record}
    (h : collections fuel (idOf entries host) logs = some reports) :
    collectionsWithFile fuel host file logs = some reports := by
  induction logs generalizing file entries reports with
  | nil => exact h
  | cons log logs ih =>
    obtain ⟨c, hc, h⟩ := Option.bind_eq_some_iff.1 h
    rw [length_cons] at hfu
    by_cases hok : c.ok = true
    · rw [if_pos hok] at h
      obtain ⟨events, hev, rfl⟩ := Option.map_eq_some_iff.1 h
      obtain ⟨file', entries', hpr, hh, hlen, hid⟩ :=
        processWithFile_simulates hhost hf (by omega) log.records hc hok
      have hre := ih hh (by omega) (by rw [hid]; exact hev)
      simp [collectionsWithFile, hpr, hre]
    · rw [if_neg hok] at h
      cases h

theorem threeRecords_with_file :
    collectionsWithFile 4 ['h'] none [twoRecords, threeRecords] = some threeRecords.records := by
  have hhost : ShortHost ['h'] := by
    refine ⟨by decide, fun id => ?_⟩
    have hdi :=
      (Nat.length_toDigits_le_iff (b := 10) (k := 5) (by omega) (by omega)).2
      (id.toNat_lt.trans (by decide))
    simp only [length_append, length_cons, length_nil, maxLineSize]
    omega
  exact collectionsWithFile_simulates hhost _ (show HoldsEntries none [] from rfl)
    (by decide) (by decide)

end

end Sensys.Ipmi
