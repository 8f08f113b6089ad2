import Sensys.Db.AllOrNothing
import Sensys.Dispatch.Dfg
/-!
# Events in the event table

The dispatcher puts the type, the severity and the time of an event into one list with its items,
and the database module takes them out of the list by their keys. An item with one of these keys
takes the place of what it was to accompany. `KeysApart` says that no item does this.
-/
namespace Sensys.Dispatch
open Std.Do Triples Orte Db List
set_option mvcgen.warning false

/-! ## What a store leaves -/

/-- `x` was done. -/
def Done (x : List Row) (s : Running) : Prop := s.session.done = x

variable {x : List Row} {r : Bool} {input : List OrcmValue} {stmt : Stmt} {replies : Nat → Reply}

theorem exec_row (hst : stmt.isRow = true) :
    ⦃fun s => ⌜Done x s⌝⦄ exec r stmt
    ⦃post⟨fun v s => ⌜Done (x ++ [⟨stmt, v⟩]) s⌝, fun _ _ => ⌜True⌝⟩⦄ := by
  apply exec_rule
  · intro s v hs _ hv
    change (answered stmt (s.replies 0) s.session).done = _
    rw [hv, answered_row hst, Session.done_execute, hs]
  · intros
    trivial

theorem exec_control (hst : ∀ v y, (answered stmt (.ok v) y).done = y.done) :
    Leads (Done x) (exec r stmt) (Done x) fun _ => True := by
  apply exec_rule
  · intro s v hs _ hv
    change (answered stmt (s.replies 0) s.session).done = _
    rw [hv, hst, hs]
  · intros
    trivial

theorem beginLocal_done : Leads (Done x) beginLocal (Done x) fun _ => True := by
  have hex := @exec_control x true .begin fun _ _ => Session.done_openBlock _
  mvcgen [beginLocal, hex]

theorem commitLocal_done {P : List Row → Prop} :
    Leads (fun s => ∃ y, P y ∧ Done y s) commitLocal (fun s => ∃ y, P y ∧ Done y s)
      fun _ => True := by
  apply exists_spec
  intro y
  have hex := @exec_control y true .commit fun _ _ => Session.done_commit _
  mvcgen [commitLocal, hex]
  · rename_i hs _
    exact hs.2
  · rename_i hs _ _ _ hdo
    exact ⟨y, hs.1, hdo⟩
  · rename_i hs _
    exact ⟨y, hs⟩

theorem prepare_done (p : Prepared) : Leads (Done x) (prepare r p) (Done x) fun _ => True := by
  have hex := @exec_control x r (.prepare p) fun _ _ => rfl
  mvcgen [prepare, hex]

/-- The row of an item of an event. -/
def dataRow (eventId : Int) (mv : OrcmValue) : Option Stmt :=
  itemRow .addEventData [some (showInt eventId)] (fun mv => [some (mv.units.getD [])]) mv

theorem adds_done : Adds (fun rows => Done (x ++ rows)) fun _ => True where
  error _ := trivial
  row {rows stmt} hst := by
    simp only [← append_assoc]
    exact exec_row hst
  prepares _ p := prepare_done p

theorem withRollback_done {P Q : Running → Prop} {body : Cmd Unit}
    (h : Leads P body Q fun _ => True) :
    Leads P (withRollback body) Q fun _ => True := by
  mvcgen [withRollback, h, send_spec, reconnectIfNeeded_spec]
  exact id

/-- **A stored event**: its rows are added to what was done before. -/
theorem storeEvent_done (input : List OrcmValue) :
    Leads (Done x) (storeEvent input)
      (fun s => ∃ y, (∃ rows, IsEvent input rows ∧ y = x ++ rows) ∧ Done y s) fun _ => True := by
  apply withRollback_done
  have hbe := @beginLocal_done (x ++ [])
  rw [append_nil] at hbe
  refine storeEvent_adds adds_done (by rwa [append_nil]) ?_
  have hco := @commitLocal_done fun y => ∃ rows, IsEvent input rows ∧ y = x ++ rows
  mvcgen [hco]
  rename_i hs
  obtain ⟨rows, hev, hdo⟩ := hs
  exact ⟨_, ⟨rows, hev, rfl⟩, hdo⟩

theorem run_storeEvent {h : Handle}
    (hok : ((Call.store (.data .event input)).run replies h).1 = .ok ()) :
    ∃ rows, IsEvent input rows ∧
      ((Call.store (.data .event input)).run replies h).2.session.done =
        h.session.done ++ rows := by
  obtain ⟨s, ⟨_, ⟨rows, hev, rfl⟩, hdo⟩, hrun⟩ | ⟨exit, s, -, hrun⟩ :=
    Call.run_cases (c := .store (.data .event input)) (storeEvent_done input)
      (show Done h.session.done { h with replies, localTranStarted := false } from rfl)
  · exact ⟨rows, hev, by rw [hrun]; exact hdo⟩
  · rw [hrun] at hok
    cases hok

/-! ## The items of an event -/

/-- The keys of what an event has itself. -/
def reservedKeys : List Text := ["ctime".toList, "severity".toList, "type".toList]

/-- The keys of the other columns. -/
def columnKeys : List Text := ["version".toList, "vendor".toList, "description".toList]

theorem isParam_eventKeys (mv : OrcmValue) :
    mv.isParam eventKeys = (mv.isParam reservedKeys || mv.isParam columnKeys) := by
  unfold OrcmValue.isParam
  cases mv.key with
  | none => rfl
  | some key =>
    change (reservedKeys ++ columnKeys).contains key = _
    exact contains_append

/-- The column is what each item with the key says. -/
def Fills (items : List OrcmValue) (key column : Text) : Prop :=
  ∀ mv ∈ items, mv.key = some key → mv.value = .string column

/-- **The rows of an event**: its own type, severity and time, the columns that items fill, and each
other item once, under the id that the server returned when the event was added. -/
def Carries (stamp : Int → Option Text) (ecd : RasEvent) (rows : List Row) : Prop :=
  ∃ eventId version vendor description dataRows,
    rows = ⟨.execPrepared .addEvent [stamp ecd.timestamp, some (printSeverity ecd.severity),
      some (printType ecd.type), some version, some vendor, some description],
      eventId⟩ :: dataRows ∧
    Fills ecd.items "version".toList version ∧ Fills ecd.items "vendor".toList vendor ∧
    Fills ecd.items "description".toList description ∧
    (dataRows.map fun row => some row.stmt).Perm
      ((ecd.items.filter fun mv => !mv.isParam columnKeys).map (dataRow eventId))

/-- No item has a key of the event itself, and for a column there is one string. -/
structure KeysApart (items : List OrcmValue) : Prop where
  reserved : ∀ mv ∈ items, mv.isParam reservedKeys = false
  columns  : ∀ key ∈ columnKeys, ∃ column, Fills items key column

section
variable {items : List OrcmValue} {key : Text}

theorem findItem_append_of_keyed {l l' : List OrcmValue}
    (hkeyed : ∀ mv ∈ l ++ l', mv.hasKey = true) :
    findItem (l ++ l') key = (findItem l' key).or (findItem l key) := by
  have hl : ∀ mv ∈ l, mv.hasKey = true := fun mv h => hkeyed mv (mem_append_left _ h)
  have hl' : ∀ mv ∈ l', mv.hasKey = true := fun mv h => hkeyed mv (mem_append_right _ h)
  unfold findItem
  rw [takeWhile_eq_self_iff.2 hkeyed, takeWhile_eq_self_iff.2 hl, takeWhile_eq_self_iff.2 hl',
    reverse_append, find?_append]
  cases l'.reverse.find? fun mv => decide (mv.key = some key) <;> rfl

theorem findItem_eq_none (h : ∀ mv ∈ items, mv.key ≠ some key) : findItem items key = none := by
  rw [findItem, Option.map_eq_none_iff, find?_eq_none]
  intro mv hmem
  have hmv := h mv ((takeWhile_sublist _).subset (mem_reverse.1 hmem))
  simpa using hmv

theorem value_of_findItem {v : Value} (h : findItem items key = some v) :
    ∃ mv ∈ items, mv.key = some key ∧ mv.value = v := by
  obtain ⟨mv, hmv, rfl⟩ := Option.map_eq_some_iff.1 h
  exact ⟨mv, (takeWhile_sublist _).subset (mem_reverse.1 (mem_of_find?_eq_some hmv)),
    by simpa using find?_some hmv, rfl⟩

theorem fills_iff (hkeyed : ∀ mv ∈ items, mv.hasKey = true) :
    Fills items key (optionalString (findItem items key)) ↔ ∃ column, Fills items key column := by
  refine ⟨fun h => ⟨_, h⟩, ?_⟩
  rintro ⟨column, hco⟩ mv hmem hkey
  cases hf : findItem items key with
  | none =>
    rw [findItem, Option.map_eq_none_iff, find?_eq_none, takeWhile_eq_self_iff.2 hkeyed] at hf
    exact absurd hkey (by simpa using hf mv (mem_reverse.2 hmem))
  | some v =>
    obtain ⟨mv', hmem', hkey', rfl⟩ := value_of_findItem hf
    rw [hco mv hmem hkey, hco mv' hmem' hkey']
    rfl

end

/-! ## Events that are stored as they are -/

section
variable {stamp : Int → Option Text} {ecd : RasEvent} {eventId : Int} {rows : List Row}
  {mv : OrcmValue} {keys : List Text}

theorem dataRow_of_no_key (h : mv.hasKey = false) : dataRow eventId mv = none := by
  have hkey : mv.key = none := by simpa [OrcmValue.hasKey] using h
  simp [dataRow, itemRow, featureKey, hkey, Except.toOption]

theorem keyed_of_rows
    (h : rows.map (fun row => some row.stmt) = (unprocessed keys input).map (dataRow eventId)) :
    ∀ mv ∈ input, mv.hasKey = true := by
  by_contra hnot
  have hne : input.dropWhile OrcmValue.hasKey ≠ [] := fun hnil => hnot (dropWhile_eq_nil_iff.1 hnil)
  have hmem : dataRow eventId ((input.dropWhile OrcmValue.hasKey).head hne) ∈
      rows.map fun row => some row.stmt := by
    rw [h]
    exact mem_map_of_mem (mem_append_right _ (head_mem hne))
  rw [dataRow_of_no_key (head_dropWhile_not OrcmValue.hasKey hne)] at hmem
  simp at hmem

theorem unprocessed_of_keyed (h : ∀ mv ∈ input, mv.hasKey = true) :
    unprocessed keys input = input.filter fun mv => !mv.isParam keys := by
  rw [unprocessed, takeWhile_eq_self_iff.2 h, dropWhile_eq_nil_iff.2 h, append_nil]

theorem filter_convertEventDataToList :
    ((convertEventDataToList stamp ecd).1.filter fun mv => !mv.isParam eventKeys) = ecd.items.filter
      fun mv => !mv.isParam eventKeys := by
  have hh : (ecd.header.filter fun mv => !mv.isParam eventKeys) = [] := rfl
  have hct : ([ecd.ctime stamp].filter fun mv => !mv.isParam eventKeys) = [] := rfl
  rw [convertEventDataToList, filter_append, filter_append, hh, hct, nil_append, append_nil]

theorem isParam_reserved_of_key {key : Text} (hkey : key ∈ reservedKeys) (h : mv.key = some key) :
    mv.isParam reservedKeys = true := by
  rw [OrcmValue.isParam, h]
  exact contains_iff_mem.2 hkey

section
-- All items have keys.
variable (hkeyed : ∀ mv ∈ (convertEventDataToList stamp ecd).1, mv.hasKey = true)
include hkeyed

theorem findItem_convert (key : Text) :
    findItem (convertEventDataToList stamp ecd).1 key =
      (findItem [ecd.ctime stamp] key).or
      ((findItem ecd.items key).or (findItem ecd.header key)) := by
  rw [convertEventDataToList, findItem_append_of_keyed hkeyed, findItem_append_of_keyed]
  exact fun mv hmem => hkeyed mv (mem_append_left _ hmem)

/-- What the event has itself is under other keys. -/
theorem findItem_column {key : Text} (hkey : key ∈ columnKeys) :
    findItem (convertEventDataToList stamp ecd).1 key = findItem ecd.items key := by
  have hown : findItem [ecd.ctime stamp] key = none ∧ findItem ecd.header key = none := by
    simp only [columnKeys, mem_cons, not_mem_nil, or_false] at hkey
    rcases hkey with rfl | rfl | rfl <;> exact ⟨rfl, rfl⟩
  rw [findItem_convert hkeyed, hown.1, hown.2, Option.none_or, Option.or_none]

theorem eventParams_of_keysApart (hre : ∀ mv ∈ ecd.items, mv.isParam reservedKeys = false)
    {timeStamp : Text} (hst : stamp ecd.timestamp = some timeStamp) :
    eventParams (convertEventDataToList stamp ecd).1 =
      .ok [some timeStamp, some (printSeverity ecd.severity), some (printType ecd.type),
      some (optionalString (findItem ecd.items "version".toList)),
      some (optionalString (findItem ecd.items "vendor".toList)),
      some (optionalString (findItem ecd.items "description".toList))] := by
  have hno : ∀ key ∈ reservedKeys, findItem ecd.items key = none := by
    intro key hkey
    apply findItem_eq_none
    intro mv hmem heq
    have htr := isParam_reserved_of_key hkey heq
    rw [hre mv hmem] at htr
    cases htr
  have hct : findItem (convertEventDataToList stamp ecd).1 "ctime".toList =
  some (.timeval (some timeStamp)) := by
    rw [findItem_convert hkeyed, ← hst]
    rfl
  have hse : findItem (convertEventDataToList stamp ecd).1 "severity".toList =
  some (.string (printSeverity ecd.severity)) := by
    rw [findItem_convert hkeyed, hno _ (by decide)]
    rfl
  have htype : findItem (convertEventDataToList stamp ecd).1 "type".toList =
  some (.string (printType ecd.type)) := by
    rw [findItem_convert hkeyed, hno _ (by decide)]
    rfl
  rw [eventParams, hct, hse, htype, findItem_column hkeyed (by decide),
  findItem_column hkeyed (by decide),
    findItem_column hkeyed (by decide)]
  rfl

theorem stamp_of_eventParams {params : List (Option Text)}
    (h : eventParams (convertEventDataToList stamp ecd).1 = .ok params) :
    ∃ timeStamp, stamp ecd.timestamp = some timeStamp := by
  have hct : findItem (convertEventDataToList stamp ecd).1 "ctime".toList =
      some (.timeval (stamp ecd.timestamp)) := by
    rw [findItem_convert hkeyed]
    rfl
  rw [eventParams, hct] at h
  cases hst : stamp ecd.timestamp with
  | some timeStamp => exact ⟨timeStamp, rfl⟩
  | none =>
    rw [hst] at h
    obtain ⟨_, hok, h⟩ := Results.exists_of_bind_ok h
    cases hok
    obtain ⟨_, -, h⟩ := Results.exists_of_bind_ok h
    obtain ⟨_, -, h⟩ := Results.exists_of_bind_ok h
    cases h

end

theorem filter_eventKeys (items : List OrcmValue) :
    (items.filter fun mv => !mv.isParam eventKeys) =
      (items.filter fun mv => !mv.isParam columnKeys).filter fun mv =>
      !mv.isParam reservedKeys := by
  rw [filter_filter]
  apply filter_congr
  intro mv _
  rw [isParam_eventKeys, Bool.not_or]

theorem isParam_reserved_of_column (h : mv.isParam columnKeys = true) :
    mv.isParam reservedKeys = false := by
  obtain ⟨key, hkey, hmem⟩ := Option.any_eq_true _ _ |>.1 h
  have hap : ∀ key ∈ columnKeys, reservedKeys.contains key = false := by decide
  rw [OrcmValue.isParam, hkey]
  exact hap key (contains_iff_mem.1 hmem)

/-- As many rows as items that are not for a column: none has a key of the event itself. -/
theorem reserved_of_length {items : List OrcmValue}
    (h : (items.filter fun mv => !mv.isParam eventKeys).length =
      (items.filter fun mv => !mv.isParam columnKeys).length) :
    ∀ mv ∈ items, mv.isParam reservedKeys = false := by
  intro mv hmem
  cases hco : mv.isParam columnKeys with
  | true => exact isParam_reserved_of_column hco
  | false =>
    rw [filter_eventKeys, length_filter_eq_length_iff] at h
    have hmv := h mv (mem_filter.2 ⟨hmem, by rw [hco]; rfl⟩)
    simpa using hmv

theorem isEvent_cases (h : IsEvent input rows) :
    ∃ eventId params dataRows, rows = ⟨.execPrepared .addEvent params, eventId⟩ :: dataRows ∧
      eventParams input = .ok params ∧
      dataRows.map (fun row => some row.stmt) =
        (unprocessed eventKeys input).map (dataRow eventId) := by
  obtain ⟨eventId, hid, h⟩ := h
  obtain ⟨params, hpa, h⟩ := Option.bind_eq_some_iff.1 h
  obtain ⟨stmts, hda, h⟩ := Option.bind_eq_some_iff.1 h
  obtain ⟨⟨_, _⟩, dataRows, rfl, rfl, rfl⟩ := map_eq_cons_iff.1 (Option.some.inj h).symm
  obtain rfl := Option.some.inj hid
  have hrows := Results.map_some_of_mapM hda
  rw [map_map] at hrows
  refine ⟨_, params, dataRows, rfl, ?_, hrows⟩
  cases hev : eventParams input with
  | error rc =>
    rw [hev] at hpa
    cases hpa
  | ok _ =>
    rw [hev] at hpa
    exact congrArg Except.ok (Option.some.inj hpa)

/-- The rows are those of the event exactly if the keys are apart. -/
theorem carries_iff (hev : IsEvent (convertEventDataToList stamp ecd).1 rows) :
    Carries stamp ecd rows ↔ KeysApart ecd.items := by
  obtain ⟨eventId, params, dataRows, rfl, hpa, hda⟩ := isEvent_cases hev
  have hkeyed := keyed_of_rows hda
  have hit : ∀ mv ∈ ecd.items, mv.hasKey = true := fun mv hmem =>
    hkeyed mv (mem_append_left _ (mem_append_right _ hmem))
  rw [unprocessed_of_keyed hkeyed, filter_convertEventDataToList] at hda
  constructor
  · rintro ⟨eventId', version, vendor, description, dataRows', heq, hv, hve, hde, hpe⟩
    obtain ⟨hstm, rfl⟩ := List.cons.inj heq
    constructor
    · have hlen := hpe.length_eq
      rw [hda, length_map, length_map] at hlen
      exact reserved_of_length hlen
    · intro key hkey
      simp only [columnKeys, mem_cons, not_mem_nil, or_false] at hkey
      rcases hkey with rfl | rfl | rfl
      · exact ⟨version, hv⟩
      · exact ⟨vendor, hve⟩
      · exact ⟨description, hde⟩
  · rintro ⟨hres, hco⟩
    obtain ⟨timeStamp, hst⟩ := stamp_of_eventParams hkeyed hpa
    rw [eventParams_of_keysApart hkeyed hres hst] at hpa
    obtain rfl := Except.ok.inj hpa
    refine ⟨eventId, _, _, _, dataRows, by rw [hst], (fills_iff hit).2 (hco _ (by decide)),
      (fills_iff hit).2 (hco _ (by decide)), (fills_iff hit).2 (hco _ (by decide)), ?_⟩
    have hsa : (ecd.items.filter fun mv => !mv.isParam eventKeys) = ecd.items.filter fun mv =>
        !mv.isParam columnKeys := by
      rw [filter_eventKeys, filter_eq_self]
      intro mv hmem
      rw [hres mv (mem_filter.1 hmem).1]
      rfl
    rw [hda, hsa]

/-- **An event in the event table** carries what it is, and all its items, exactly if the keys are
apart. -/
theorem event_stored_whole_iff {replies : Nat → Reply} {h : Handle}
    (hstored : ((Call.store (.data .event (convertEventDataToList stamp ecd).1)).run replies h).1 =
      .ok ()) :
    (∃ rows, ((Call.store (.data .event (convertEventDataToList stamp ecd).1)).run
        replies h).2.session.done = h.session.done ++ rows ∧ Carries stamp ecd rows) ↔
      KeysApart ecd.items := by
  obtain ⟨rows, hev, hdo⟩ := run_storeEvent hstored
  rw [← carries_iff hev]
  constructor
  · rintro ⟨rows', hdo', hca⟩
    rw [hdo, append_cancel_left_eq] at hdo'
    exact hdo' ▸ hca
  · exact fun hca => ⟨rows, hdo, hca⟩

end

/-- A handle on which every statement is prepared. -/
def preparedHandle : Handle := ⟨true, false, fun _ => true, true, ⟨[], none⟩⟩

/-- An exception with a reporter, a vendor and a reading. -/
def hotCore : RasEvent :=
  ⟨[stringItem "hostname" "node1".toList], eventException, 100, 0,
    [stringItem "vendor" "acme".toList],
    [⟨some "core0".toList, .integer (.fixed .int) 95, some "C".toList⟩]⟩

theorem hotCore_stored_whole :
    ((Call.store (.data .event (convertEventDataToList (fun t => some (showInt t)) hotCore).1)).run
        (fun _ => .ok 1) preparedHandle).1 = .ok () ∧
      ∃ rows, ((Call.store
      (.data .event (convertEventDataToList (fun t => some (showInt t)) hotCore).1)).run
          (fun _ => .ok 1) preparedHandle).2.session.done = preparedHandle.session.done ++ rows ∧
        Carries (fun t => some (showInt t)) hotCore rows := by
  refine ⟨?stored, (event_stored_whole_iff ?stored).2 ⟨by decide, ?_⟩⟩
  case stored => decide +kernel
  intro key hkey
  refine ⟨"acme".toList, ?_⟩
  unfold Fills
  revert key
  decide

/-- The same event with a reading that is called `severity`. -/
def ratedCore : RasEvent :=
  { hotCore with data := hotCore.data ++ [stringItem "severity" "INFO".toList] }

/-- The reading takes the place of the severity. -/
theorem severity_item_takes_place :
    ((Call.store (.data .event
      (convertEventDataToList (fun t => some (showInt t)) ratedCore).1)).run
        (fun _ => .ok 1) preparedHandle).1 = .ok () ∧
      ¬ ∃ rows, ((Call.store
      (.data .event (convertEventDataToList (fun t => some (showInt t)) ratedCore).1)).run
          (fun _ => .ok 1) preparedHandle).2.session.done = preparedHandle.session.done ++ rows ∧
        Carries (fun t => some (showInt t)) ratedCore rows := by
  refine (and_iff_left_of_imp fun hst => ?_).2 (by decide +kernel)
  rintro ⟨rows, hdo, hca⟩
  obtain ⟨rows', hev, hdo'⟩ := run_storeEvent hst
  rw [hdo', append_cancel_left_eq] at hdo
  have hap := (carries_iff hev).1 (hdo ▸ hca)
  have hmem : stringItem "severity" "INFO".toList ∈ ratedCore.items := by decide
  cases hap.reserved _ hmem

end Sensys.Dispatch
