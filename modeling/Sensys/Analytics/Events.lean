import Mathlib.Data.List.AList
import Sensys.Analytics.Base
import Sensys.Lib.RateLimit
import Sensys.Orte.Create
/-!
# Events of a step (`orcm/mca/analytics/base/analytics_base_event.c`)

| here | there |
| --- | --- |
| `Event` | `orcm_ras_event_t` (`orcm/mca/dispatch/dispatch_types.h:84-138`) |
| `createHashKey` | `orcm_util_create_hash_key` (`orcm/util/utils.c:502-516`) |
| `hashText`, `generateEventHashkey` | `generate_event_hashkey` (`:62-106`) |
| `isRepeatEvent` | `get_last_event_timestamp`, `is_repeat_event` (`:108-182`) |
| `filterTime`, `filterMaxRate` | `filter_max_rate` (`:131-160`) |
| `generateEvents` | `:195-217`: each event, and whether it is sent |
| `getSeverity`, `readFilter`, `filterEvents` | `:219-303` |

`none` is not a return value: the text of an event is written over the end of its buffer, or an
empty time is read. Strings of a reporter are strings; the table maps a key to the time of the
last event, and memory for it is available. `defaultTime` is the parameter
`orcm_analytics_base.suppress_repeat`.

Two events have the same identity if reporter, keys of the data, type and severity are the same.
They are told apart by a hash of these texts one after the other (`filterEvents_suppresses`,
`hashText_tells_iff`).
-/
namespace Sensys.Analytics.Events
open Orte List

/-- An item of a list, with its key and its string. -/
structure Item where
  key    : Option Text
  string : Option Text
deriving DecidableEq, Repr

/-- Of the data only the keys are looked at. -/
structure Event where
  reporter    : List Item
  type        : Int
  timestamp   : Int
  severity    : Int
  description : List Item
  data        : List (Option Text)
deriving DecidableEq, Repr

structure Identity where
  reporter : List Item
  data     : List (Option Text)
  type     : Int
  severity : Int
deriving DecidableEq, Repr

def Event.identity (ev : Event) : Identity := ⟨ev.reporter, ev.data, ev.type, ev.severity⟩

def bytes (t : Text) : List UInt8 := t.flatMap String.utf8EncodeChar

def createHashKey (key : List UInt8) : UInt64 := key.foldl (fun hash b => 31 * hash + b.toUInt64) 0

/-- `KEY_SIZE`. -/
def keySize : Nat := 1000

def hashText (ev : Event) : Text :=
  (ev.reporter.filterMap Item.string).flatten ++ (ev.data.filterMap id).flatten ++
    showInt ev.type ++ showInt ev.severity

/-- The hash of the text with its terminator. -/
def Event.hash (ev : Event) : UInt64 := createHashKey (bytes (hashText ev) ++ [0])

def generateEventHashkey (ev : Event) : Option UInt64 :=
  if (bytes (hashText ev)).length < keySize then some ev.hash else none

/-- `ORCM_RAS_SEVERITY_UNKNOWN`, the greatest. -/
def severityUnknown : Int := 8

structure Filter where
  severity : Int
  category : Option Text
  time     : UInt64
deriving DecidableEq, Repr

/-- A description whose key is a beginning of the word names a category, and the category of the
filter has to be a beginning of it. -/
def matchCategory (filter : Filter) (ev : Event) : Bool :=
  match filter.category with
  | none => true
  | some category => ev.description.all fun item =>
    match item.key, item.string with
    | some key, some string =>
      !key.isPrefixOf ['e', 'v', 'e', 'n', 't', '_', 'c', 'a', 't', 'e', 'g', 'o', 'r', 'y'] ||
        category.isPrefixOf string
    | _, _ => true

def matchSeverity (filter : Filter) (ev : Event) : Bool :=
  ev.severity = severityUnknown ∨ ev.severity ≤ filter.severity

/-- The interval for an event, in seconds. -/
def filterTime (defaultTime : UInt64) (filter : Option Filter) (ev : Event) : UInt64 :=
  match filter with
  | none => defaultTime
  | some filter =>
    if matchCategory filter ev && matchSeverity filter ev then filter.time else defaultTime

/-- It is returned as an `unsigned int`. -/
def filterMaxRate (defaultTime : UInt64) (filter : Option Filter) (ev : Event) : UInt32 :=
  (filterTime defaultTime filter ev).toUInt32

def getSeverity (text : Text) : Int :=
  if text = ['e', 'm', 'e', 'r', 'g'] then 0
  else if text = ['a', 'l', 'e', 'r', 't'] then 1
  else if text = ['c', 'r', 'i', 't'] then 2
  else if text = ['e', 'r', 'r', 'o', 'r'] then 3
  else if text = ['w', 'a', 'r', 'n'] then 4
  else if text = ['n', 'o', 't', 'i', 'c', 'e'] then 5
  else if text = ['i', 'n', 'f', 'o'] then 6
  else if text = ['d', 'e', 'b', 'u', 'g'] then 7
  else severityUnknown

def Filter.new (defaultTime : UInt64) : Filter := ⟨severityUnknown, none, defaultTime⟩

/-- A filter before `suppress_repeat` ends the loop. -/
def readFilter (defaultTime : UInt64) :
    List (Text × Text) → Bool → Option Filter → Option (Bool × Option Filter)
  | [], suppress, filter => some (suppress, filter)
  | (key, value) :: attributes, suppress, filter =>
    if key = ['s', 'u', 'p', 'p', 'r', 'e', 's', 's', '_', 'r', 'e', 'p', 'e', 'a', 't'] then
      readFilter defaultTime attributes (suppress || value = ['y', 'e', 's']) filter
    else
      let new := filter.getD (.new defaultTime)
      if key = ['c', 'a', 't', 'e', 'g', 'o', 'r', 'y'] then
        if suppress then readFilter defaultTime attributes suppress
          (some { new with category := some value })
        else some (suppress, filter)
      else if key = ['s', 'e', 'v', 'e', 'r', 'i', 't', 'y'] then
        if suppress then readFilter defaultTime attributes suppress
          (some { new with severity := getSeverity value })
        else some (suppress, filter)
      else if key = ['t', 'i', 'm', 'e'] then
        if suppress then
          match getTimeInSec value with
          | none => none
          | some time =>
            readFilter defaultTime attributes suppress
              (some { new with time := if time = 0 then defaultTime else time })
        else some (suppress, filter)
      else readFilter defaultTime attributes suppress filter

/-- The time of the last event that was sent, by its key. -/
abbrev Table := AList fun _ : UInt64 => Int

def getValue (table : Table) (key : UInt64) : Option Int := table.lookup key

/-- An event without a key is never a repeated one. -/
def isRepeatEvent (defaultTime : UInt64) (filter : Option Filter) (table : Table) (ev : Event) :
    Option (Bool × Table) :=
  match generateEventHashkey ev with
  | none => none
  | some key =>
    if key = 0 then some (false, table)
    else
      match getValue table key with
      | none => some (false, table.insert key ev.timestamp)
      | some last =>
        if ev.timestamp < last + (filterMaxRate defaultTime filter ev).toNat then some (true, table)
        else some (false, table.insert key ev.timestamp)

def generateEvents (defaultTime : UInt64) (filter : Option Filter) (suppress : Bool) :
    Table → List Event → Option (Table × List (Event × Bool))
  | table, [] => some (table, [])
  | table, ev :: events =>
    if suppress then
      match isRepeatEvent defaultTime filter table ev with
      | none => none
      | some (isRepeat, table) =>
        (generateEvents defaultTime filter suppress table events).map fun r =>
        (r.1, (ev, !isRepeat) :: r.2)
    else (generateEvents defaultTime filter suppress table events).map fun r =>
      (r.1, (ev, true) :: r.2)

def filterEvents (defaultTime : UInt64) (attributes : List (Text × Text)) (table : Table)
    (events : List Event) :
    Option (Table × List (Event × Bool)) :=
  match readFilter defaultTime attributes false none with
  | none => none
  | some (suppress, filter) => generateEvents defaultTime filter suppress table events

/-- The lists of events of a step, one after the other. -/
def filterAll (defaultTime : UInt64) (attributes : List (Text × Text)) :
    Table → List (List Event) → Option (Table × List (Event × Bool))
  | table, [] => some (table, [])
  | table, events :: batches =>
    match filterEvents defaultTime attributes table events with
    | none => none
    | some (table, log) => (filterAll defaultTime attributes table batches).map fun r =>
      (r.1, log ++ r.2)

/-! ## What is sent -/

section
variable {defaultTime : UInt64} {filter : Option Filter} {ev ev' : Event}

/-- The seconds that an event has to be behind the last one. -/
def wait (defaultTime : UInt64) (filter : Option Filter) (ev : Event) : Int :=
  (filterMaxRate defaultTime filter ev).toNat

theorem getValue_insert (table : Table) (key : UInt64) (time : Int) :
    getValue (table.insert key time) = Function.update (getValue table) key (some time) := by
  funext k
  by_cases hk : k = key
  · rw [hk, Function.update_self]
    exact AList.lookup_insert _
  · rw [Function.update_of_ne hk]
    exact AList.lookup_insert_ne hk

theorem isRepeatEvent_eq {table : Table} {ev : Event} (hf : (bytes (hashText ev)).length < keySize)
    (hkey : ev.hash ≠ 0) :
    ∃ table', isRepeatEvent defaultTime filter table ev =
        some (!RateLimit.passes Event.hash Event.timestamp (wait defaultTime filter)
        (getValue table) ev, table') ∧
      getValue table' = RateLimit.after Event.hash Event.timestamp (wait defaultTime filter)
      (getValue table) ev := by
  unfold isRepeatEvent RateLimit.after RateLimit.passes
  rw [generateEventHashkey, if_pos hf]
  dsimp only
  rw [if_neg hkey]
  cases hlast : getValue table ev.hash with
  | none => exact ⟨table.insert ev.hash ev.timestamp, by simp, by simp [getValue_insert]⟩
  | some last =>
    by_cases hlt : ev.timestamp < last + (filterMaxRate defaultTime filter ev).toNat
    · have hpa : ¬ last + wait defaultTime filter ev ≤ ev.timestamp := not_le.2 hlt
      exact ⟨table, by simp [hlt, hpa], by simp [hpa]⟩
    · have hpa : last + wait defaultTime filter ev ≤ ev.timestamp := not_lt.1 hlt
      exact ⟨table.insert ev.hash ev.timestamp, by simp [hlt, hpa], by simp [hpa, getValue_insert]⟩

theorem generateEvents_eq {table : Table} {events : List Event}
    (hf : ∀ ev ∈ events, (bytes (hashText ev)).length < keySize)
    (hkey : ∀ ev ∈ events, ev.hash ≠ 0) :
    ∃ table', generateEvents defaultTime filter true table events =
      some (table', RateLimit.log Event.hash Event.timestamp (wait defaultTime filter)
      (getValue table) events) := by
  induction events generalizing table with
  | nil => exact ⟨table, rfl⟩
  | cons ev events ih =>
    obtain ⟨table₁, hone, haf⟩ :=
      @isRepeatEvent_eq defaultTime filter table ev (hf ev (by simp)) (hkey ev (by simp))
    obtain ⟨table₂, hre⟩ :=
      @ih table₁ (fun e he => hf e (by simp [he])) (fun e he => hkey e (by simp [he]))
    refine ⟨table₂, ?_⟩
    unfold generateEvents
    rw [if_pos rfl, hone]
    dsimp only
    rw [hre, haf, Option.map_some, Bool.not_not]
    rfl

theorem generateEvents_append (suppress : Bool) (table : Table) (events events' : List Event) :
    generateEvents defaultTime filter suppress table (events ++ events') =
      (generateEvents defaultTime filter suppress table events).bind fun r =>
        (generateEvents defaultTime filter suppress r.1 events').map fun r' =>
          (r'.1, r.2 ++ r'.2) := by
  induction events generalizing table with
  | nil => simp [generateEvents]
  | cons ev events ih =>
    simp only [cons_append, generateEvents, ih]
    split
    · split
      · rfl
      · simp [Option.map_bind, Option.bind_map, Function.comp_def]
    · simp [Option.map_bind, Option.bind_map, Function.comp_def]

theorem filterAll_eq {attributes : List (Text × Text)} {suppress : Bool}
    (hf : readFilter defaultTime attributes false none = some (suppress, filter)) (table : Table)
    (batches : List (List Event)) :
    filterAll defaultTime attributes table batches =
      generateEvents defaultTime filter suppress table batches.flatten := by
  induction batches generalizing table with
  | nil => rfl
  | cons events batches ih =>
    rw [flatten_cons, generateEvents_append, filterAll, filterEvents, hf]
    dsimp only
    cases generateEvents defaultTime filter suppress table events with
    | none => rfl
    | some r => exact congrArg (Option.map _) (ih r.1)

/-- Events of an identity are kept apart, and only them. -/
structure Suppresses (T : Event → Int) (log : List (Event × Bool)) : Prop where
  apart : ∀ before ev rest, log = before ++ (ev, true) :: rest → ∀ p, (p, true) ∈ before →
    p.identity = ev.identity →
    p.timestamp + T ev ≤ ev.timestamp
  kept  : ∀ before ev sent rest, log = before ++ (ev, sent) :: rest →
    (∀ p ∈ RateLimit.lastPassed Event.identity ev.identity before,
    p.timestamp + T ev ≤ ev.timestamp) → sent = true

/-- The texts of the events fit, the hash tells the identities apart and is not 0, and the
intervals are less than `2 ^ 32` seconds. -/
structure ToldApart (defaultTime : UInt64) (filter : Option Filter)
    (events : List Event) : Prop where
  fits     : ∀ ev ∈ events, (bytes (hashText ev)).length < keySize
  nonzero  : ∀ ev ∈ events, ev.hash ≠ 0
  distinct : ∀ ev ∈ events, ∀ ev' ∈ events, ev.hash = ev'.hash → ev.identity = ev'.identity
  short    : ∀ ev ∈ events, (filterTime defaultTime filter ev).toNat < 2 ^ 32

theorem hash_congr (h : ev.identity = ev'.identity) : ev.hash = ev'.hash := by
  obtain ⟨h1, h2, h3, h4⟩ := Identity.mk.inj h
  rw [Event.hash, Event.hash, hashText, hashText, h1, h2, h3, h4]

theorem ToldApart.hash_iff {events : List Event} (h : ToldApart defaultTime filter events)
    (hev : ev ∈ events) (hev' : ev' ∈ events) : ev.hash = ev'.hash ↔ ev.identity = ev'.identity :=
      ⟨h.distinct ev hev ev' hev', hash_congr⟩

theorem ToldApart.wait_eq {events : List Event} (h : ToldApart defaultTime filter events)
    {ev : Event} (hev : ev ∈ events) :
    wait defaultTime filter ev = (filterTime defaultTime filter ev).toNat := by
  rw [wait, filterMaxRate, UInt64.toNat_toUInt32, Nat.mod_eq_of_lt (h.short ev hev)]

end

theorem mem_of_log {events : List Event} {log before rest : List (Event × Bool)} {ev : Event}
    {sent : Bool} (hfst : log.map Prod.fst = events) (hlog : log = before ++ (ev, sent) :: rest) :
    ev ∈ events ∧ ∀ p ∈ before, p.1 ∈ events := by
  rw [← hfst, hlog, map_append, map_cons]
  exact ⟨by simp, fun p hp => mem_append_left _ (mem_map_of_mem hp)⟩

/-- While the hash tells the events of a step apart, two that are sent with the same identity are
their interval apart, one that is its interval behind the last one of its identity is sent, and
each identity is treated as if there were no others. -/
theorem filterEvents_suppresses {defaultTime : UInt64} {attributes : List (Text × Text)}
    {filter : Option Filter}
    (hfilter : readFilter defaultTime attributes false none = some (true, filter))
    {batches : List (List Event)}
    (hmono : batches.flatten.Pairwise fun ev ev' => ev.timestamp ≤ ev'.timestamp)
    (hapart : ToldApart defaultTime filter batches.flatten) :
    ∃ table log, filterAll defaultTime attributes ∅ batches = some (table, log) ∧
      log.map Prod.fst = batches.flatten ∧
      Suppresses (fun ev => (filterTime defaultTime filter ev).toNat) log ∧
      ∀ identity : Identity, ∃ table',
      filterAll defaultTime attributes ∅
      (batches.map fun events => events.filter (·.identity = identity)) =
        some (table', log.filter fun x => x.1.identity = identity) := by
  have hem : getValue ∅ = fun _ => none := rfl
  simp only [filterAll_eq hfilter]
  obtain ⟨table, hall⟩ := @generateEvents_eq defaultTime filter ∅ _ hapart.fits hapart.nonzero
  rw [hem] at hall
  have hfst :=
    @RateLimit.map_fst_log _ _ _ Event.hash Event.timestamp (wait defaultTime filter)
    (fun _ => none) batches.flatten
  refine ⟨table, _, hall, hfst, ⟨?_, ?_⟩, ?_⟩
  · intro before ev rest hlog p hp hid
    obtain ⟨hev, hbe⟩ := mem_of_log hfst hlog
    rw [← hapart.wait_eq hev]
    exact RateLimit.apart hmono hlog hp ((hapart.hash_iff (hbe _ hp) hev).2 hid)
  · intro before ev sent rest hlog hlast
    obtain ⟨hev, hbe⟩ := mem_of_log hfst hlog
    rw [RateLimit.passed_iff hlog,
      RateLimit.lastPassed_congr fun p hp => hapart.hash_iff (hbe p hp) hev, hapart.wait_eq hev]
    exact hlast
  · intro identity
    have hf : (batches.map fun events => events.filter (·.identity = identity)).flatten =
        batches.flatten.filter (·.identity = identity) :=
      filter_flatten.symm
    obtain ⟨table', hso⟩ :=
      @generateEvents_eq defaultTime filter ∅ (batches.flatten.filter (·.identity = identity))
      (fun ev hev => hapart.fits ev (mem_of_mem_filter hev))
        (fun ev hev => hapart.nonzero ev (mem_of_mem_filter hev))
    rw [hem] at hso
    have hp : ∀ ev ∈ batches.flatten, ∀ ev' ∈ batches.flatten, ev.hash = ev'.hash →
        decide (ev.identity = identity) = decide (ev'.identity = identity) := by
      intro ev hev ev' hev' hh
      rw [(hapart.hash_iff hev hev').1 hh]
    exact ⟨table', by rw [hf, hso, RateLimit.filter_log hp fun _ _ _ => rfl]⟩

def eventOf (node dataKey : Text) (time : Int) : Event :=
  ⟨[⟨some ['h', 'o', 's', 't', 'n', 'a', 'm', 'e'], some node⟩], 1, time, 4, [], [some dataKey]⟩

/-- Repeated events are suppressed for a minute. -/
def minute : List (Text × Text) :=
  [(['s', 'u', 'p', 'p', 'r', 'e', 's', 's', '_', 'r', 'e', 'p', 'e', 'a', 't'], ['y', 'e', 's']),
    (['t', 'i', 'm', 'e'], ['6', '0', 's'])]

def minuteFilter : Option Filter := some ⟨severityUnknown, none, 60⟩

def temperatures : List (List Event) :=
  [[eventOf ['n', '1'] ['t'] 100, eventOf ['n', '2'] ['t'] 110],
    [eventOf ['n', '1'] ['t'] 130, eventOf ['n', '1'] ['t'] 160]]

theorem temperatures_suppressed :
    (filterAll 3600 minute ∅ temperatures).map (fun r => r.2.map Prod.snd) =
      some [true, true, false, true] ∧
      ∃ table log, filterAll 3600 minute ∅ temperatures = some (table, log) ∧
      log.map Prod.fst = temperatures.flatten ∧
        Suppresses (fun ev => (filterTime 3600 minuteFilter ev).toNat) log ∧
        ∀ identity : Identity, ∃ table',
        filterAll 3600 minute ∅
        (temperatures.map fun events => events.filter (·.identity = identity)) =
          some (table', log.filter fun x => x.1.identity = identity) :=
  ⟨by decide +kernel, filterEvents_suppresses (by decide +kernel) (by decide +kernel)
    ⟨by decide +kernel, by decide +kernel, by decide +kernel, by decide +kernel⟩⟩

/-- The event of the node `n1` with the key `1t` has the text of the one of `n11` with the key
`t`, which is suppressed. -/
theorem otherNode_suppressed :
    (filterAll 3600 minute ∅
      [[eventOf ['n', '1'] ['1', 't'] 100, eventOf ['n', '1', '1'] ['t'] 100]]).map Prod.snd =
        some [(eventOf ['n', '1'] ['1', 't'] 100, true),
        (eventOf ['n', '1', '1'] ['t'] 100, false)] ∧
      ¬ Suppresses (fun ev => (filterTime 3600 minuteFilter ev).toNat)
        [(eventOf ['n', '1'] ['1', 't'] 100, true),
          (eventOf ['n', '1', '1'] ['t'] 100, false)] := by
  refine ⟨by decide +kernel, fun h => ?_⟩
  have hse :=
    h.kept [(eventOf ['n', '1'] ['1', 't'] 100, true)] (eventOf ['n', '1', '1'] ['t'] 100) false
    [] rfl (by decide +kernel)
  cases hse

/-! ## Texts of events -/

theorem showInt_injective : Function.Injective showInt := by
  have hdi : ∀ m n : Nat, Nat.toDigits 10 m = Nat.toDigits 10 n → m = n := by
    intro m n h
    rw [← Text.digitsValue_toDigits m, h, Text.digitsValue_toDigits]
  have hm : ∀ (t : Text) (n : Nat), '-' :: t ≠ Nat.toDigits 10 n := by
    intro t n h
    have hdig :=
      Nat.isDigit_of_mem_toDigits (b := 10) (n := n) (c := '-') (by omega) (by omega)
      (h ▸ mem_cons_self)
    cases hdig
  intro i j h
  unfold showInt at h
  split at h <;> split at h
  · have := hdi _ _ (List.cons.inj h).2
    omega
  · exact absurd h (hm _ _)
  · exact absurd h.symm (hm _ _)
  · have := hdi _ _ h
    omega

/-- What an event is told by. -/
def Event.parts (ev : Event) : List Text × List Text × Int × Int :=
  (ev.reporter.filterMap Item.string, ev.data.filterMap id, ev.type, ev.severity)

/-- Where a text is cut into them: their lengths. -/
structure Cuts where
  reporter : List Nat
  data     : List Nat
  type     : Nat
  severity : Nat
deriving DecidableEq, Repr

def Event.cuts (ev : Event) : Cuts :=
  ⟨(ev.reporter.filterMap Item.string).map List.length, (ev.data.filterMap id).map List.length,
    (showInt ev.type).length, (showInt ev.severity).length⟩

def Cuts.total (c : Cuts) : Nat := c.reporter.sum + c.data.sum + c.type + c.severity

theorem length_hashText (ev : Event) : (hashText ev).length = ev.cuts.total := by
  simp only [hashText, length_append, length_flatten, Event.cuts, Cuts.total]

theorem cuts_of_parts {ev ev' : Event} (h : ev.parts = ev'.parts) : ev.cuts = ev'.cuts := by
  simp only [Event.parts, Prod.mk.injEq] at h
  rw [Event.cuts, Event.cuts, h.1, h.2.1, h.2.2.1, h.2.2.2]

theorem parts_of_cuts {ev ev' : Event} (hte : hashText ev = hashText ev')
    (hcu : ev.cuts = ev'.cuts) : ev.parts = ev'.parts := by
  simp only [Event.cuts, Cuts.mk.injEq] at hcu
  obtain ⟨hst, hke, htype, -⟩ := hcu
  have hlen : ∀ {l m : List Text}, l.map List.length = m.map List.length →
      l.flatten.length = m.flatten.length := fun h => by
    rw [length_flatten, length_flatten, h]
  obtain ⟨hte, hsev⟩ := append_inj hte (by simp only [length_append, hlen hst, hlen hke, htype])
  obtain ⟨hte, htype'⟩ := append_inj hte (by simp only [length_append, hlen hst, hlen hke])
  obtain ⟨hs, hk⟩ := append_inj hte (hlen hst)
  rw [Event.parts, Event.parts, eq_iff_flatten_eq.2 ⟨hs, hst⟩, eq_iff_flatten_eq.2 ⟨hk, hke⟩,
    showInt_injective htype', showInt_injective hsev]

/-- The number that is written with so many ones. -/
def ones : Nat → Nat
  | 0 => 0
  | n + 1 => 10 * ones n + 1

theorem toDigits_ones (n : Nat) : Nat.toDigits 10 (ones (n + 1)) = replicate (n + 1) '1' := by
  induction n with
  | zero => rfl
  | succ n ih =>
    have hpos : 0 < ones (n + 1) := by
      rw [ones]
      omega
    rw [ones, ← Nat.toDigits_append_toDigits (by decide) hpos (by decide), ih]
    exact replicate_succ'.symm

/-- A number of ones as long as another number. -/
theorem showInt_ones (i : Int) :
    showInt (ones (showInt i).length) = replicate (showInt i).length '1' := by
  have hne : showInt i ≠ [] := by
    rw [showInt]
    split
    · exact cons_ne_nil _ _
    · exact Nat.toDigits_ne_nil
  obtain ⟨n, hn⟩ := Nat.exists_eq_succ_of_ne_zero (mt length_eq_zero_iff.1 hne)
  rw [hn]
  exact toDigits_ones n

/-- An event of ones with the cuts. -/
def Cuts.event (c : Cuts) : Event where
  reporter    := c.reporter.map fun n => ⟨none, some (replicate n '1')⟩
  type        := ones c.type
  timestamp   := 0
  severity    := ones c.severity
  description := []
  data        := c.data.map fun n => some (replicate n '1')

theorem cuts_event (e : Event) : e.cuts.event.cuts = e.cuts := by
  simp [Cuts.event, Event.cuts, filterMap_map, Function.comp_def, showInt_ones]

theorem hashText_event (e : Event) : hashText e.cuts.event = replicate e.cuts.total '1' := by
  rw [eq_replicate_iff, length_hashText, cuts_event]
  refine ⟨rfl, fun c hc => ?_⟩
  simp only [hashText, Cuts.event, Event.cuts, showInt_ones, mem_append, mem_flatten,
    mem_filterMap, mem_map] at hc
  grind

section
variable {defaultTime : UInt64} {attributes attributes' : List (Text × Text)} {table : Table}
  {batches : List (List Event)}
  {filter : Option Filter}

/-- `suppress_repeat = yes`. -/
def suppressYes : Text × Text :=
  (['s', 'u', 'p', 'p', 'r', 'e', 's', 's', '_', 'r', 'e', 'p', 'e', 'a', 't'], ['y', 'e', 's'])

/-- The attributes of a filter. -/
def isFilterKey (key : Text) : Bool :=
  key = ['c', 'a', 't', 'e', 'g', 'o', 'r', 'y'] ∨ key = ['s', 'e', 'v', 'e', 'r', 'i', 't', 'y'] ∨
    key = ['t', 'i', 'm', 'e']

/-- What becomes of the events of a step, from its start. -/
def logOf (defaultTime : UInt64) (attributes : List (Text × Text)) (batches : List (List Event)) :
    Option (List (Event × Bool)) :=
  (filterAll defaultTime attributes ∅ batches).map Prod.snd

theorem readFilter_of_no_yes (h : suppressYes ∉ attributes) :
    readFilter defaultTime attributes false none = some (false, none) := by
  induction attributes with
  | nil => rfl
  | cons a attributes ih =>
    rw [mem_cons, not_or] at h
    obtain ⟨hne, hre⟩ := h
    have ih := ih hre
    obtain ⟨key, value⟩ := a
    simp only [readFilter, Bool.false_eq_true, if_false, Bool.false_or]
    split_ifs with hkey
    · have hv : value ≠ ['y', 'e', 's'] := by
        rintro rfl
        exact hne (by rw [hkey]; rfl)
      rw [decide_eq_false hv, ih]
    all_goals first | rfl | exact ih

theorem readFilter_of_no_filter (h : ∀ a ∈ attributes, isFilterKey a.1 = false) (suppress : Bool) :
    readFilter defaultTime attributes suppress none =
      some (suppress || decide (suppressYes ∈ attributes), none) := by
  induction attributes generalizing suppress with
  | nil => simp [readFilter]
  | cons a attributes ih =>
    obtain ⟨key, value⟩ := a
    obtain ⟨hkey, hre⟩ := forall_mem_cons.1 h
    simp only [isFilterKey, decide_eq_false_iff_not, not_or] at hkey
    simp only [readFilter, hkey, if_false, ih hre]
    split_ifs with hyes
    · by_cases hv : value = ['y', 'e', 's']
      · simp [hyes, hv, suppressYes]
      · have hne : suppressYes ≠ (key, value) := fun h => hv (Prod.mk.inj h).2.symm
        simp [hv, hne]
    · have hne : suppressYes ≠ (key, value) := fun h => hyes (Prod.mk.inj h).1.symm
      simp [hne]

theorem readFilter_filter_cons {a : Text × Text} (h : isFilterKey a.1 = true) :
    readFilter defaultTime (a :: attributes) false none = some (false, none) := by
  obtain ⟨key, value⟩ := a
  simp only [isFilterKey, decide_eq_true_eq] at h
  obtain rfl | rfl | rfl := h <;> rfl

theorem generateEvents_unsuppressed (events : List Event) :
    generateEvents defaultTime filter false table events =
      some (table, events.map fun ev => (ev, true)) := by
  induction events with
  | nil => rfl
  | cons ev events ih => simp [generateEvents, ih]

theorem logOf_unsuppressed (h : readFilter defaultTime attributes false none = some (false, none)) :
    logOf defaultTime attributes batches = some (batches.flatten.map fun ev => (ev, true)) := by
  rw [logOf, filterAll_eq h, generateEvents_unsuppressed]
  rfl

theorem readFilter_suppressing (filter : Option Filter) :
    ∀ r ∈ readFilter defaultTime attributes true filter, r.1 = true := by
  induction attributes generalizing filter with
  | nil =>
    rintro r ⟨⟩
    rfl
  | cons a attributes ih =>
    simp only [readFilter, Bool.true_or, if_true]
    split_ifs
    case pos => exact ih _
    case pos => exact ih _
    case pos => exact ih _
    case pos =>
      split
      · exact fun r hr => by cases hr
      · exact ih _
    case neg => exact ih _

/-- An event whose text is longer than the buffer. -/
def longEvent : Event := ⟨[⟨none, some (replicate keySize 'a')⟩], 0, 0, 0, [], []⟩

theorem length_le_bytes (t : Text) : t.length ≤ (bytes t).length := by
  induction t with
  | nil => exact Nat.le_refl _
  | cons c t ih =>
    have hpos := length_pos_iff.2 (String.utf8EncodeChar_ne_nil (c := c))
    rw [bytes, flatMap_cons, length_append, length_cons, ← bytes]
    omega

theorem generateEventHashkey_longEvent : generateEventHashkey longEvent = none := by
  have hlen := length_le_bytes (hashText longEvent)
  have hkey : keySize ≤ (hashText longEvent).length := by
    simp [hashText, longEvent]
  exact if_neg (by omega)

theorem logOf_longEvent (h : ∀ r ∈ readFilter defaultTime attributes false none, r.1 = true) :
    logOf defaultTime attributes [[longEvent]] = none := by
  cases hr : readFilter defaultTime attributes false none with
  | none => simp [logOf, filterAll, filterEvents, hr]
  | some r =>
    obtain ⟨suppress, filter⟩ := r
    obtain rfl : suppress = true := h _ hr
    rw [logOf, filterAll_eq hr]
    simp [generateEvents, isRepeatEvent, generateEventHashkey_longEvent]

variable (defaultTime attributes) in
/-- The same becomes of the events under any two orders of the attributes. -/
def OrderFree : Prop :=
  ∀ l l', attributes.Perm l → attributes.Perm l' →
    ∀ batches, logOf defaultTime l batches = logOf defaultTime l' batches

variable (defaultTime attributes) in
/-- **The order of the attributes matters** exactly if the suppression is turned on and there is a
filter: a filter in front ends the loop. -/
theorem orderFree_iff : OrderFree defaultTime attributes ↔
    suppressYes ∉ attributes ∨ ∀ a ∈ attributes, isFilterKey a.1 = false := by
  constructor
  · intro h
    by_contra hnot
    push Not at hnot
    obtain ⟨hyes, a, ha, hkey⟩ := hnot
    -- with the suppression in front the long event is looked at, with the filter it is sent
    have hon := h _ _ (perm_cons_erase hyes) (perm_cons_erase ha) [[longEvent]]
    rw [logOf_longEvent (readFilter_suppressing _),
      logOf_unsuppressed (readFilter_filter_cons (by simpa using hkey))] at hon
    cases hon
  · rintro (hyes | hf) l l' hl hl' batches
    · rw [logOf_unsuppressed (readFilter_of_no_yes fun hmem => hyes (hl.mem_iff.2 hmem)),
        logOf_unsuppressed (readFilter_of_no_yes fun hmem => hyes (hl'.mem_iff.2 hmem))]
    · rw [logOf, logOf, filterAll_eq
        (readFilter_of_no_filter (fun a ha => hf a (hl.mem_iff.2 ha)) _),
        filterAll_eq (readFilter_of_no_filter (fun a ha => hf a (hl'.mem_iff.2 ha)) _),
        decide_eq_decide.2 (hl.symm.trans hl').mem_iff]

end

/-- With the interval in front the second event is sent. -/
theorem minute_not_orderFree :
    logOf 3600 minute temperatures ≠ logOf 3600 minute.reverse temperatures ∧
      ¬ OrderFree 3600 minute := by
  have hne : logOf 3600 minute temperatures ≠ logOf 3600 minute.reverse temperatures := by
    decide +kernel
  exact ⟨hne, fun h => hne (h _ _ (List.Perm.refl _) (reverse_perm _).symm _)⟩

end Sensys.Analytics.Events
