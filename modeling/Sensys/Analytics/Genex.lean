import Sensys.Orte.Extract
/-!
# Messages that match a pattern (`orcm/mca/analytics/genex/analytics_genex.c:152-228`)

| here | there |
| --- | --- |
| `Item`, `Seen` | an `orcm_value_t` of the sample, `genex_value` |
| `visits` | the items, each with what was seen up to it |
| `monitorGenex` | the loop of `monitor_genex`: the events that are raised at each item |

What was seen is tested at every item. The pattern compiles, a notifier is set and is not `none`,
and raising an event succeeds.
-/
namespace Sensys.Analytics.Genex
open Orte List

structure Item where
  key  : Text
  data : Text

/-- `strstr`. -/
def Item.isMessage (x : Item) : Bool := x.key.tails.any ("message".toList.isPrefixOf ·)

structure Seen where
  message  : Option Text
  severity : Option Text

def Seen.item (s : Seen) (x : Item) : Seen where
  message := if x.isMessage then some x.data else s.message
  severity := if x.key = "severity".toList then some x.data else s.severity

def visits : Seen → List Item → List (Item × Seen)
  | _, [] => []
  | s, x :: items => (x, s.item x) :: visits (s.item x) items

section
variable (msgRegex : Text → Bool) (severity : Text)

def Seen.events (s : Seen) : List Text :=
  match s.message, s.severity with
  | some m, some own => if msgRegex m && own = severity then [m] else []
  | _, _ => []

def monitorGenex (items : List Item) : List (List Text) :=
  (visits ⟨none, none⟩ items).map fun v => v.2.events msgRegex severity

/-- One event at a message that matches, if the last severity before it is the one that is asked
for. -/
def expected (v : Item × Seen) : List Text :=
  if v.1.isMessage && msgRegex v.1.data && v.2.severity = some severity then [v.1.data] else []

end

theorem events_eq_nil_iff {msgRegex : Text → Bool} {severity : Text} {s : Seen} :
    s.events msgRegex severity = [] ↔
      ∀ m, s.message = some m → s.severity = some severity → msgRegex m = false := by
  obtain ⟨_ | m, _ | own⟩ := s
  · simp [Seen.events]
  · simp [Seen.events]
  · simp [Seen.events]
  · by_cases how : own = severity <;> simp [Seen.events, how]

theorem message_of_mem_visits {s : Seen} {items : List Item} {v : Item × Seen}
    (h : v ∈ visits s items) (hv : v.1.isMessage = true) : v.2.message = some v.1.data := by
  induction items generalizing s with
  | nil => cases h
  | cons x items ih =>
    rcases mem_cons.1 h with rfl | h
    · exact if_pos hv
    · exact ih h

/-- **One event for each message**, and no other, exactly if the message that was seen last does
not match, or has another severity, at each item that is not a message. -/
theorem monitorGenex_iff (msgRegex : Text → Bool) (severity : Text) (items : List Item) :
    monitorGenex msgRegex severity items =
      (visits ⟨none, none⟩ items).map (expected msgRegex severity) ↔
      ∀ v ∈ visits ⟨none, none⟩ items, v.1.isMessage = false →
        ∀ m, v.2.message = some m → v.2.severity = some severity → msgRegex m = false := by
  rw [monitorGenex, map_inj_left]
  refine forall₂_congr fun v hv => ?_
  cases hmsg : v.1.isMessage with
  | false => simp [expected, hmsg, events_eq_nil_iff]
  | true =>
    rw [Seen.events, expected, message_of_mem_visits hv hmsg, hmsg]
    cases v.2.severity <;> simp

/-- The item behind the message raises its event again. -/
theorem event_raised_again :
    monitorGenex (fun _ => true) "crit".toList [⟨"severity".toList, "crit".toList⟩,
      ⟨"log_message".toList, "disk".toList⟩, ⟨"pid".toList, ['1']⟩] =
      [[], ["disk".toList], ["disk".toList]] := by
  decide

end Sensys.Analytics.Genex
