import Sensys.Orte.Extract
/-!
# Which labels are collected (`orcm/mca/sensor/base/sensor_runtime_metrics.cpp`)

| here | there |
| --- | --- |
| `RuntimeMetrics` | the members of the class, without its data group and the lock |
| `create` | the constructor (`:20-27`), which ends with a reset to `initalPluginState_` |
| `doCollectMetrics` | `:31-38`; no label is `NULL` |
| `trackSensorLabel`, `countOfCollectedLabels` | `:70-75`, `:100-109` |
| `isInventoryAvailable` | `sensor_runtime_metrics.h:63` |

A label is in the table from the first inventory on. A label that is not in the table goes with
the whole plugin.
-/
namespace Sensys
open Orte List

structure RuntimeMetrics where
  initialPluginState : Bool
  currentPluginState : Bool
  sensorLabelMap     : List (Text × Bool)
  distinct           : (sensorLabelMap.map Prod.fst).Nodup

namespace RuntimeMetrics

def create (pluginCollectMetrics : Bool) : RuntimeMetrics :=
  ⟨pluginCollectMetrics, pluginCollectMetrics, [], List.nodup_nil⟩

def doCollectMetrics (m : RuntimeMetrics) : Option Text → Bool
  | none => m.currentPluginState
  | some label => (m.sensorLabelMap.lookup label).getD m.currentPluginState

def trackSensorLabel (m : RuntimeMetrics) (label : Text) : RuntimeMetrics :=
  if h : label ∈ m.sensorLabelMap.map Prod.fst then m
  else
    { m with
      sensorLabelMap := m.sensorLabelMap ++ [(label, m.initialPluginState)]
      distinct := by
        rw [List.map_append, List.nodup_append]
        refine ⟨m.distinct, List.pairwise_singleton _ _, ?_⟩
        intro a ha b hb heq
        rw [heq, List.mem_singleton.1 hb] at ha
        exact h ha }

theorem lookup_trackSensorLabel (m : RuntimeMetrics) (new label : Text) :
    (m.trackSensorLabel new).sensorLabelMap.lookup label =
      if label = new then some ((m.sensorLabelMap.lookup new).getD m.initialPluginState)
      else m.sensorLabelMap.lookup label := by
  have hmem : new ∈ m.sensorLabelMap.map Prod.fst ↔ (m.sensorLabelMap.lookup new).isSome := by
    simp
  rw [trackSensorLabel]
  split
  · rename_i hnew
    obtain ⟨b, hb⟩ := Option.isSome_iff_exists.1 (hmem.1 hnew)
    by_cases heq : label = new <;> simp [heq, hb]
  · by_cases heq : label = new
    · simp_all [lookup_append]
    · simp [heq, lookup_append, lookup_cons, beq_false_of_ne heq]

def countOfCollectedLabels (m : RuntimeMetrics) : Nat := m.sensorLabelMap.countP Prod.snd

def isInventoryAvailable (m : RuntimeMetrics) : Bool := !m.sensorLabelMap.isEmpty

end RuntimeMetrics

end Sensys
