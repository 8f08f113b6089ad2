import Mathlib.Data.List.Perm.Subperm
import Sensys.Db.Postgres
/-!
# Events for the database (`orcm/mca/dispatch/dfg/dispatch_dfg.c`)

| here | there |
| --- | --- |
| `RasEvent` | `orcm_ras_event_t` (`orcm/mca/dispatch/dispatch_types.h:84-138`), what is stored of it |
| `printType`, `printSeverity` | `orcm_dispatch_base_print_type`, `orcm_dispatch_base_print_severity` (`dispatch/base/dispatch_base_frame.c:106-150`) |
| `convertEventDataToList` | `:180-227`: the list, and the event after it |
| `generateDatabaseEvent`, `convertAndLogDataToDb`, `generateStorageEvents` | `:238-268`, `:414-469` |

What is done is recorded as a list of `Action`. A time is given by the text that the database
module makes of it. The member `data.uint` of a value that is not an `OPAL_UINT` is a parameter,
`member`.

The items of an event are moved into the list and not copied.
-/
namespace Sensys.Dispatch
open Orte Db List

structure RasEvent where
  reporter    : List OrcmValue
  type        : Int
  timestamp   : Int
  severity    : Int
  description : List OrcmValue
  data        : List OrcmValue
deriving DecidableEq, Repr

def RasEvent.items (ecd : RasEvent) : List OrcmValue := ecd.reporter ++ ecd.description ++ ecd.data

def eventSensor : Int := 0
def eventException : Int := 1
def eventCounter : Int := 2
def eventStateTransition : Int := 3
def eventChassisIdLed : Int := 4

def printType (t : Int) : Text :=
  if t = eventSensor then "SENSOR".toList
  else if t = eventException then "EXCEPTION".toList
  else if t = eventCounter then "COUNTER".toList
  else if t = eventStateTransition then "TRANSITION".toList
  else if t = eventChassisIdLed then "CHASSIS_ID_LED".toList
  else "UNKNOWN".toList

/-- From `ORCM_RAS_SEVERITY_EMERG` on. -/
def severityNames : List Text :=
  ["EMERGENCY".toList, "ALERT".toList, "CRITICAL".toList, "ERROR".toList, "WARNING".toList,
    "NOTICE".toList, "INFO".toList, "DEBUG".toList]

def printSeverity (s : Int) : Text :=
  if s < 0 then "UNKNOWN".toList else (severityNames[s.toNat]?).getD "UNKNOWN".toList

def stringItem (key : String) (s : Text) : OrcmValue := ⟨some key.toList, .string s, none⟩

/-- The items of the event itself, before and after the others. -/
def RasEvent.header (ecd : RasEvent) : List OrcmValue :=
  [stringItem "type" (printType ecd.type), stringItem "severity" (printSeverity ecd.severity)]

def RasEvent.ctime (stamp : Int → Option Text) (ecd : RasEvent) : OrcmValue :=
  ⟨some "ctime".toList, .timeval (stamp ecd.timestamp), none⟩

/-- The three lists are joined before the item of the time. -/
def convertEventDataToList (stamp : Int → Option Text) (ecd : RasEvent) :
    List OrcmValue × RasEvent :=
  (ecd.header ++ ecd.items ++ [ecd.ctime stamp],
    { ecd with reporter := [], description := [], data := [] })

/-! ## Storing -/

/-- Parameters of the process. -/
structure Params where
  sensorDbCommitRate : Int
  storeEventData     : Bool
deriving DecidableEq, Repr

structure Dfg where
  envDbhandle      : Int
  eventDbhandle    : Int
  envDbCommitCount : Int
deriving DecidableEq, Repr

inductive Action where
  | notifier (ecd : RasEvent)
  | storeNew (dbhandle : Int) (dataType : DataType) (input : List OrcmValue)
  | commit (dbhandle : Int)
deriving DecidableEq, Repr

/-- The list that an action hands to the database. -/
def Action.record : Action → Option (List OrcmValue)
  | .storeNew _ _ input => some input
  | _ => none

/-- While an event is handled. -/
structure Generating extends Dfg where
  ecd     : RasEvent
  actions : List Action
deriving DecidableEq, Repr

/-- What was handed to the database. -/
def Generating.records (s : Generating) : List (List OrcmValue) := s.actions.filterMap Action.record

def countCommit (p : Params) (s : Generating) : Generating :=
  if 1 < p.sensorDbCommitRate then
    if s.envDbCommitCount + 1 = p.sensorDbCommitRate then
      { s with actions := s.actions ++ [.commit s.envDbhandle], envDbCommitCount := 0 }
    else { s with envDbCommitCount := s.envDbCommitCount + 1 }
  else s

def generateDatabaseEvent (p : Params) (input : List OrcmValue) (dataType : Int) (s : Generating) :
    Generating :=
  if dataType = eventSensor then
    if 0 ≤ s.envDbhandle then countCommit p
      { s with actions := s.actions ++ [.storeNew s.envDbhandle .env input] }
    else s
  else if 0 ≤ s.eventDbhandle then
    { s with actions := s.actions ++ [.storeNew s.eventDbhandle .event input] }
  else s

def convertAndLogDataToDb (p : Params) (stamp : Int → Option Text) (s : Generating) : Generating :=
  let (input, ecd) := convertEventDataToList stamp s.ecd
  generateDatabaseEvent p input s.ecd.type { s with ecd }

/-- `data.uint` of a value. -/
def uint (member : Value → Nat) : Value → Nat
  | .integer (.fixed .uint) n => n.toNat
  | v => member v

def storageDatabase : Nat := 0
def storageNotification : Nat := 1

/-- The storage types that are asked for, up to a description without a key. -/
def storageTypes (member : Value → Nat) (ecd : RasEvent) : List Nat :=
  ((ecd.description.takeWhile OrcmValue.hasKey).filter fun mv => mv.key =
    some "storage_type".toList).map
    fun mv => uint member mv.value

def rawDb (member : Value → Nat) (ecd : RasEvent) : Bool :=
  (storageTypes member ecd).contains storageDatabase

def isValidEventType (type : Int) : Bool := type = eventException || type = eventChassisIdLed

/-- After the loop over the description. -/
def notified (member : Value → Nat) (d : Dfg) (ecd : RasEvent) : Generating :=
  { d with ecd, actions := (storageTypes member ecd).flatMap fun t =>
    if t = storageNotification then [.notifier ecd] else [] }

/-- The event is stored if that is wanted. -/
def storeIf (wanted : Bool) (p : Params) (stamp : Int → Option Text) (s : Generating) :
    Generating :=
  if wanted then convertAndLogDataToDb p stamp s else s

def generateStorageEvents (p : Params) (stamp : Int → Option Text) (member : Value → Nat) (d : Dfg)
    (ecd : RasEvent) : Generating :=
  storeIf (isValidEventType ecd.type && p.storeEventData) p stamp
    (storeIf (rawDb member ecd) p stamp (notified member d ecd))

/-! ## The records of an event -/

section
variable (p : Params) (stamp : Int → Option Text) (wanted : Bool) (member : Value → Nat)
  {member : Value → Nat} {ecd : RasEvent}

/-- The handle is open that an event of the type is stored with. -/
def Dfg.opened (d : Dfg) (type : Int) : Prop :=
  if type = eventSensor then 0 ≤ d.envDbhandle else 0 ≤ d.eventDbhandle
deriving Decidable

theorem countCommit_kept (s : Generating) :
    (countCommit p s).ecd = s.ecd ∧ (countCommit p s).eventDbhandle = s.eventDbhandle := by
  unfold countCommit
  split_ifs <;> exact ⟨rfl, rfl⟩

theorem countCommit_records (s : Generating) : (countCommit p s).records = s.records := by
  unfold countCommit
  split_ifs <;> simp [Generating.records, Action.record]

section
variable (input : List OrcmValue) (type : Int) (s : Generating)
include input type s

theorem generateDatabaseEvent_kept : (generateDatabaseEvent p input type s).ecd = s.ecd ∧
    (generateDatabaseEvent p input type s).eventDbhandle = s.eventDbhandle := by
  unfold generateDatabaseEvent
  split_ifs
  · exact countCommit_kept p _
  all_goals exact ⟨rfl, rfl⟩

theorem generateDatabaseEvent_records :
    (generateDatabaseEvent p input type s).records =
      s.records ++ if s.toDfg.opened type then [input] else [] := by
  unfold generateDatabaseEvent Dfg.opened
  split_ifs
  · rw [countCommit_records]
    simp [Generating.records, Action.record]
  all_goals simp [Generating.records, Action.record]

end

/-- **A record**: all items of the event, which has none afterwards. -/
theorem convertAndLogDataToDb_records (s : Generating) :
    (convertAndLogDataToDb p stamp s).records =
      s.records ++ if s.toDfg.opened s.ecd.type then [(convertEventDataToList stamp s.ecd).1]
      else [] :=
  generateDatabaseEvent_records p _ _ _

theorem notified_records (d : Dfg) (ecd : RasEvent) : (notified member d ecd).records = [] := by
  apply filterMap_eq_nil_iff.2
  intro a ha
  obtain ⟨t, -, hmem⟩ := mem_flatMap.1 ha
  split_ifs at hmem
  · obtain rfl := mem_singleton.1 hmem
    rfl
  · cases hmem

theorem storeIf_records (s : Generating) :
    (storeIf wanted p stamp s).records =
      s.records ++
        if wanted ∧ s.toDfg.opened s.ecd.type then [(convertEventDataToList stamp s.ecd).1]
        else [] := by
  cases wanted with
  | false => simp [storeIf]
  | true => simpa [storeIf] using convertAndLogDataToDb_records p stamp s

theorem storeIf_ecd (s : Generating) :
    (storeIf wanted p stamp s).ecd = if wanted then (convertEventDataToList stamp s.ecd).2
      else s.ecd := by
  cases wanted with
  | false => rfl
  | true => exact (generateDatabaseEvent_kept p _ _ _).1

theorem storeIf_eventDbhandle (s : Generating) :
    (storeIf wanted p stamp s).eventDbhandle = s.eventDbhandle := by
  cases wanted with
  | false => rfl
  | true => exact (generateDatabaseEvent_kept p _ _ _).2

theorem opened_of_isValidEventType {d : Dfg} {type : Int} (h : isValidEventType type = true) :
    d.opened type ↔ 0 ≤ d.eventDbhandle := by
  have hne : type ≠ eventSensor := by
    rintro rfl
    cases h
  rw [Dfg.opened, if_neg hne]

/-- The records for each of the two reasons to store. -/
theorem records_of_storageEvents (d : Dfg) (ecd : RasEvent) :
    (generateStorageEvents p stamp member d ecd).records =
      (if rawDb member ecd ∧ d.opened ecd.type then [(convertEventDataToList stamp ecd).1]
      else []) ++
        if isValidEventType ecd.type ∧ p.storeEventData ∧ 0 ≤ d.eventDbhandle then
          [(convertEventDataToList stamp
            (if rawDb member ecd then (convertEventDataToList stamp ecd).2 else ecd)).1]
        else [] := by
  set s := storeIf (rawDb member ecd) p stamp (notified member d ecd) with hs
  have hre : s.records = if rawDb member ecd ∧ d.opened ecd.type then
      [(convertEventDataToList stamp ecd).1] else [] := by
    rw [hs, storeIf_records, notified_records]
    rfl
  have hecd : s.ecd = if rawDb member ecd then (convertEventDataToList stamp ecd).2 else ecd :=
    storeIf_ecd p stamp _ _
  have htype : s.ecd.type = ecd.type := by
    rw [hecd]
    split <;> rfl
  have hwa : ((isValidEventType ecd.type && p.storeEventData) = true ∧ s.toDfg.opened ecd.type) ↔
      isValidEventType ecd.type = true ∧ p.storeEventData = true ∧ 0 ≤ d.eventDbhandle := by
    rw [Bool.and_eq_true, and_assoc]
    apply and_congr_right
    intro hv
    rw [opened_of_isValidEventType hv, hs, storeIf_eventDbhandle]
    rfl
  rw [generateStorageEvents, ← hs, storeIf_records, hre, htype, hecd]
  simp only [hwa]

theorem storageType_mem_items (h : rawDb member ecd = true) :
    ∃ mv ∈ ecd.items, mv.key = some "storage_type".toList := by
  obtain ⟨mv, hmv, -⟩ := mem_map.1 (contains_iff_mem.1 h)
  obtain ⟨hmem, hkey⟩ := mem_filter.1 hmv
  refine ⟨mv, ?_, of_decide_eq_true hkey⟩
  have hde : mv ∈ ecd.description := (takeWhile_sublist _).subset hmem
  simp [RasEvent.items, hde]

theorem items_subperm_record (ecd : RasEvent) :
    ecd.items.Subperm (convertEventDataToList stamp ecd).1 := by
  refine (List.Sublist.trans ?_ (sublist_append_left _ _)).subperm
  exact sublist_append_right _ _

/-- A record without items has no `storage_type`. -/
theorem not_subperm_emptied (h : rawDb member ecd = true) :
    ¬ ecd.items.Subperm (convertEventDataToList stamp (convertEventDataToList stamp ecd).2).1 := by
  intro hsub
  obtain ⟨mv, hmem, hkey⟩ := storageType_mem_items h
  have hin := hsub.subset hmem
  simp only [convertEventDataToList, RasEvent.header, RasEvent.items, RasEvent.ctime, stringItem,
    append_nil, mem_append, mem_cons, not_mem_nil, or_false] at hin
  rcases hin with (rfl | rfl) | rfl <;> simp at hkey

/-- **Records with all items**: unless an event is stored for both reasons. -/
theorem records_contain_items_iff (member : Value → Nat) (d : Dfg) (ecd : RasEvent) :
    (∀ record ∈ (generateStorageEvents p stamp member d ecd).records, ecd.items.Subperm record) ↔
      ¬ (0 ≤ d.eventDbhandle ∧ rawDb member ecd = true ∧ isValidEventType ecd.type = true ∧
      p.storeEventData = true) := by
  rw [records_of_storageEvents]
  constructor
  · rintro hall ⟨hh, hraw, hv, hst⟩
    refine not_subperm_emptied stamp hraw (hall _ ?_)
    simp [hraw, hv, hst, hh]
  · intro hnot record hmem
    rcases mem_append.1 hmem with hf | hse
    · split_ifs at hf with h
      · obtain rfl := mem_singleton.1 hf
        exact items_subperm_record stamp ecd
      · cases hf
    · split_ifs at hse with h hraw
      · obtain ⟨hv, hst, hh⟩ := h
        exact absurd ⟨hh, hraw, hv, hst⟩ hnot
      · obtain rfl := mem_singleton.1 hse
        exact items_subperm_record stamp ecd
      · cases hse

end

/-- An exception whose description asks for the database, with `store_event_data`. -/
theorem second_record_of_exception_is_empty :
    ¬ ∀ record ∈ (generateStorageEvents ⟨1, true⟩ (fun _ => some []) (fun _ => 3) ⟨0, 0, 0⟩
        ⟨[], eventException, 0, 0, [⟨some "storage_type".toList, .integer (.fixed .uint) 0, none⟩],
          [⟨some "temp".toList, .integer (.fixed .int) 90, none⟩]⟩).records,
      [(⟨some "storage_type".toList, .integer (.fixed .uint) 0, none⟩ : OrcmValue),
        ⟨some "temp".toList, .integer (.fixed .int) 90, none⟩].Subperm record := by
  decide +kernel

end Sensys.Dispatch
