import Sensys.Lib.Codec
import Sensys.Sensor.RuntimeMetrics
/-!
# Inventory of the error counters (`orcm/mca/sensor/errcounts/errcounts.cpp`)

| here | there |
| --- | --- |
| `Unpack` | `unpack_string`, `unpack_int32` (`:590-620`) |
| `Samples`, `set` | the map `inv_log_samples_` and its `operator[]`, without the order |
| `unpackInvSample` | `:642-655`, with what it puts into the map |
| `inventoryLog` | `:258-303`, with the record that is stored, without its time |

`unpack_inv_sample` clears `inv_samples_`, which is for sending; what was unpacked before stays in
`inv_log_samples_`.
-/
namespace Sensys.Errcounts
open Orte

structure Unpack (β ε : Type) where
  string : Reader β ε Text
  int32  : Reader β ε Int32

abbrev Samples := List (Text × Text)

def set (samples : Samples) (kv : Text × Text) : Samples := samples.filter (·.1 ≠ kv.1) ++ [kv]

structure Record where
  hostname : Text
  samples  : Samples
deriving DecidableEq

section
variable {β ε : Type} (d : Unpack β ε)

def unpackPair : Reader β ε (Text × Text) := do
  let label ← d.string
  let name ← d.string
  pure (label, name)

def unpackInvSample (buf : List β) : List (Text × Text) × Option ε :=
  match d.int32.run buf with
  | .error e => ([], some e)
  | .ok (count, rest) => readEach (unpackPair d) count.toInt.toNat rest

def inventoryLog (edacMissing : Bool) (samples : Samples) (buf : List β) :
    Option Record × Samples :=
  if edacMissing then (none, samples)
  else
    match d.string.run buf with
    | .error _ => (none, samples)
    | .ok (hostname, rest) =>
      let (pairs, e) := unpackInvSample d rest
      let samples := pairs.foldl set samples
      (if e.isNone then some ⟨hostname, samples⟩ else none, samples)

/-- What is in the map after some messages. -/
def samplesAfter (edacMissing : Bool) (messages : List (List β)) : Samples :=
  messages.foldl (fun samples buf => (inventoryLog d edacMissing samples buf).2) []

/-- The pairs of a message, as far as they can be unpacked. -/
def pairsOf (buf : List β) : List (Text × Text) :=
  match d.string.run buf with
  | .error _ => []
  | .ok (_, rest) => (unpackInvSample d rest).1

/-- What is stored for a message after others are its own pairs. -/
def Exact (edacMissing : Bool) (earlier : List (List β)) (buf : List β) : Prop :=
  ∀ r, (inventoryLog d edacMissing (samplesAfter d edacMissing earlier) buf).1 = some r →
    ∀ kv, kv ∈ r.samples ↔ kv ∈ pairsOf d buf

end

def labels (l : List (Text × Text)) : List Text := l.map Prod.fst

/-- Each label is there with one name. -/
def OneName (l : List (Text × Text)) : Prop := ∀ k v v', (k, v) ∈ l → (k, v') ∈ l → v = v'

variable {s : Samples} {kv : Text × Text} {pairs : List (Text × Text)} {x : Text × Text}

theorem mem_labels {k : Text} : k ∈ labels pairs ↔ ∃ v, (k, v) ∈ pairs := by simp [labels]

theorem mem_set : x ∈ set s kv ↔ x ∈ s ∧ x.1 ≠ kv.1 ∨ x = kv := by simp [set]

theorem mem_of_mem_foldl (h : x ∈ pairs.foldl set s) : x ∈ pairs ∨ x ∈ s ∧ x.1 ∉ labels pairs := by
  induction pairs generalizing s with
  | nil => exact Or.inr ⟨h, by simp [labels]⟩
  | cons kv pairs ih =>
    have := ih h
    simp only [mem_set, labels, List.map_cons, List.mem_cons] at this ⊢
    tauto

theorem labels_foldl {k : Text} :
    k ∈ labels (pairs.foldl set s) ↔ k ∈ labels pairs ∨ k ∈ labels s := by
  induction pairs generalizing s with
  | nil => simp [labels]
  | cons kv pairs ih =>
    have hset : k ∈ labels (set s kv) ↔ k = kv.1 ∨ k ∈ labels s := by
      simp only [mem_labels, mem_set]
      grind
    rw [List.foldl_cons, ih, hset]
    simp only [labels, List.map_cons, List.mem_cons]
    tauto

theorem OneName.foldl (h : OneName s) (pairs : List (Text × Text)) :
    OneName (pairs.foldl set s) := by
  induction pairs generalizing s with
  | nil => exact h
  | cons kv pairs ih =>
    apply ih
    intro k v v' hv hv'
    rw [mem_set] at hv hv'
    have := h k v v'
    grind

/-- Nothing else is in the map if the pairs name all its labels. -/
theorem foldl_exact_iff (h : OneName s) :
    (∀ x, x ∈ pairs.foldl set s ↔ x ∈ pairs) ↔
      (∀ k ∈ labels s, k ∈ labels pairs) ∧ OneName pairs := by
  constructor
  · intro hex
    refine ⟨fun k hk => ?_,
      fun k v v' hv hv' => h.foldl pairs k v v' ((hex _).2 hv) ((hex _).2 hv')⟩
    obtain ⟨v, hv⟩ := mem_labels.1 (labels_foldl.2 (Or.inr hk : k ∈ labels pairs ∨ _))
    exact mem_labels.2 ⟨v, (hex _).1 hv⟩
  · rintro ⟨hla, hone⟩ ⟨k, v⟩
    have hmem : ∀ {v}, (k, v) ∈ pairs.foldl set s → (k, v) ∈ pairs := by
      intro v hv
      refine (mem_of_mem_foldl hv).resolve_right fun hold =>
        hold.2 (hla k (mem_labels.2 ⟨v, hold.1⟩))
    refine ⟨hmem, fun hv => ?_⟩
    obtain ⟨v', hv'⟩ :=
      mem_labels.1 (labels_foldl.2 (Or.inl (mem_labels.2 ⟨v, hv⟩) : _ ∨ k ∈ labels s))
    rwa [hone k v v' hv (hmem hv')]

section
variable {β ε : Type} (d : Unpack β ε) (earlier : List (List β)) (s : Samples) (buf : List β)

theorem inventoryLog_samples : (inventoryLog d false s buf).2 = (pairsOf d buf).foldl set s := by
  simp only [inventoryLog, pairsOf]
  cases d.string.run buf <;> rfl

theorem inventoryLog_record :
    (inventoryLog d false s buf).1 = (inventoryLog d false [] buf).1.map fun r =>
      ⟨r.hostname, (pairsOf d buf).foldl set s⟩ := by
  simp only [inventoryLog, pairsOf]
  cases d.string.run buf with
  | error e => rfl
  | ok p => cases h : (unpackInvSample d p.2).2 <;> simp [h]

theorem samplesAfter_concat :
    samplesAfter d false (earlier ++ [buf]) =
      (pairsOf d buf).foldl set (samplesAfter d false earlier) := by
  rw [samplesAfter, List.foldl_concat, inventoryLog_samples, samplesAfter]

theorem labels_samplesAfter :
    OneName (samplesAfter d false earlier) ∧
      ∀ k, k ∈ labels (samplesAfter d false earlier) ↔
      ∃ buf ∈ earlier, k ∈ labels (pairsOf d buf) := by
  induction earlier using List.reverseRecOn with
  | nil => simp [samplesAfter, labels, OneName]
  | append_singleton earlier buf ih =>
    rw [samplesAfter_concat]
    refine ⟨ih.1.foldl _, fun k => ?_⟩
    rw [labels_foldl, ih.2]
    grind

/-- **A record has the pairs of its message**, whatever was logged before, if all labels that were
seen before are in the message again, and none of them twice with different names; and only then. -/
theorem record_exact_iff (edacMissing : Bool) (earlier : List (List β)) (buf : List β) :
    Exact d edacMissing earlier buf ↔ ((inventoryLog d edacMissing [] buf).1.isSome = true →
      (∀ m ∈ earlier, ∀ k ∈ labels (pairsOf d m), k ∈ labels (pairsOf d buf)) ∧
      OneName (pairsOf d buf)) := by
  cases edacMissing with
  | true => simp [Exact, inventoryLog]
  | false =>
    obtain ⟨hone, hla⟩ := labels_samplesAfter d earlier
    rw [Exact, inventoryLog_record]
    cases (inventoryLog d false [] buf).1 with
    | none => simp
    | some r =>
      simp only [Option.map_some, Option.some_inj, forall_eq', Option.isSome_some, forall_const]
      rw [foldl_exact_iff hone]
      grind

end

/-- Messages of texts and numbers. -/
def tokens : Unpack (Text ⊕ Int32) Unit where
  string := fun
    | .inl t :: rest => .ok (t, rest)
    | _ => .error ()
  int32 := fun
    | .inr n :: rest => .ok (n, rest)
    | _ => .error ()

def message (host label name : String) : List (Text ⊕ Int32) :=
  [.inl host.toList, .inr 1, .inl label.toList, .inl name.toList]

/-- The module of the first host is stored for the second one too. -/
theorem second_host_not_exact :
    ¬ Exact tokens false [message "n1" "csrow0" "DIMM_A"] (message "n2" "csrow1" "DIMM_B") := by
  intro h
  have hmem :=
    (h ⟨"n2".toList, [("csrow0".toList, "DIMM_A".toList), ("csrow1".toList, "DIMM_B".toList)]⟩
    (by decide +kernel)
    ("csrow0".toList, "DIMM_A".toList)).1 (by decide +kernel)
  revert hmem
  decide +kernel

/-! ## What is sent (`edac_collector.cpp:42-75,180-191`, `errcounts.cpp:399-409,443-469`)

Only a count that differs from the one before is given to the callback, which sends it if the
label is collected. A count that cannot be read is -1. -/

open List

structure Csrow where
  ce       : Int
  ue       : Int
  channels : List (Text × Int)

/-- A label with its count, and whether the label is collected. -/
structure Reading where
  label   : Text
  count   : Int
  enabled : Bool

/-- `collect_sample`: the counts that are logged, for the rows of each memory controller. -/
def readings (metrics : RuntimeMetrics) (mcs : List (List Csrow)) : List Reading :=
  let reading (label : Text) (count : Int) : Reading :=
    ⟨label, count, metrics.doCollectMetrics (some label)⟩
  if metrics.countOfCollectedLabels = 0 ∧ !metrics.doCollectMetrics none then []
  else mcs.zipIdx.flatMap fun (rows, mc) => rows.zipIdx.flatMap fun (row, csrow) =>
    if row.ce = -1 ∨ row.ue = -1 then []
    else
      let dimm :=
        "CPU_SrcID#".toList ++ Nat.toDigits 10 mc ++ "_Sum_DIMM#".toList ++ Nat.toDigits 10 csrow
      reading (dimm ++ "_CE".toList) row.ce :: reading (dimm ++ "_UE".toList) row.ue ::
        (row.channels.filter (·.2 ≠ -1)).map fun c => reading (c.1 ++ "_CE".toList) c.2

/-- `previous_sample_`, with -1 for a label that is not in it, and the last value sent for a
label. -/
structure Counters where
  previous : Text → Int
  sent     : Text → Option Int

def Counters.logData (s : Counters) (r : Reading) : Counters :=
  if r.count ≠ s.previous r.label ∨ s.previous r.label = -1 then
    ⟨fun l => if l = r.label then r.count else s.previous l, fun l => if l = r.label ∧
      r.enabled then some r.count else s.sent l⟩
  else s

def after (rs : List Reading) : Counters := rs.foldl Counters.logData ⟨fun _ => -1, fun _ => none⟩

/-- The last count that was read for the label. -/
def lastCount (rs : List Reading) (label : Text) : Option Int :=
  (rs.reverse.find? (·.label = label)).map Reading.count

theorem lastCount_concat (rs : List Reading) (r : Reading) (label : Text) :
    lastCount (rs ++ [r]) label = if r.label = label then some r.count else lastCount rs label := by
  by_cases h : r.label = label <;> simp [lastCount, h]

theorem after_concat (rs : List Reading) (r : Reading) : after (rs ++ [r]) = (after rs).logData r :=
  foldl_concat ..

theorem previous_after (rs : List Reading) (label : Text) :
    (after rs).previous label = (lastCount rs label).getD (-1) := by
  induction rs using List.reverseRecOn with
  | nil => rfl
  | append_singleton rs r ih =>
    rw [after_concat, lastCount_concat, Counters.logData]
    by_cases hl : r.label = label
    · subst hl
      split
      · simp
      · rename_i hold
        push Not at hold
        simp [hold.1]
    · rw [if_neg hl, ← ih]
      split
      · exact if_neg (Ne.symm hl)
      · rfl

theorem count_ne_of_mem_readings {metrics : RuntimeMetrics} {mcs : List (List Csrow)} {r : Reading}
    (h : r ∈ readings metrics mcs) :
    r.count ≠ -1 := by
  rw [readings] at h
  split at h
  · cases h
  · simp only [mem_flatMap] at h
    obtain ⟨⟨rows, mc⟩, -, ⟨row, csrow⟩, -, h⟩ := h
    split at h
    · cases h
    · rename_i hre
      push Not at hre
      simp only [mem_cons, mem_map, mem_filter, decide_eq_true_eq] at h
      obtain rfl | rfl | ⟨c, hc, rfl⟩ := h
      · exact hre.1
      · exact hre.2
      · exact hc.2

theorem sent_concat {rs : List Reading} {r : Reading} (hco : r.count ≠ -1) (label : Text) :
    (after (rs ++ [r])).sent label =
    if r.label = label ∧ r.enabled = true ∧ lastCount rs r.label ≠ some r.count then some r.count
    else (after rs).sent label := by
  rw [after_concat, Counters.logData, previous_after]
  cases lastCount rs r.label <;> grind

/-- **The last value sent is the one that was read last while the label was enabled**, after each
reading, exactly if a count that is read then and was read before is also the last one that was
read while the label was enabled. -/
theorem sent_current_iff (rounds : List (RuntimeMetrics × List (List Csrow))) :
    (∀ rs, rs <+: rounds.flatMap (fun r => readings r.1 r.2) →
      ∀ label, (after rs).sent label = lastCount (rs.filter Reading.enabled) label) ↔
      ∀ rs r, rs ++ [r] <+: rounds.flatMap (fun r => readings r.1 r.2) → r.enabled = true →
        lastCount rs r.label = some r.count →
        lastCount (rs.filter Reading.enabled) r.label = some r.count := by
  refine Lists.forall_isPrefix_iff (fun _ => rfl) fun rs r hr hrs => ?_
  obtain ⟨round, -, hmem⟩ := mem_flatMap.1 (hr.subset (mem_append_right rs mem_cons_self))
  simp only [sent_concat (count_ne_of_mem_readings hmem), hrs]
  cases hen : r.enabled with
  | false => simp [hen]
  | true =>
    rw [filter_append, filter_cons_of_pos hen, filter_nil]
    simp only [lastCount_concat]
    refine ⟨fun h _ hold => by simpa [hold] using h r.label, fun h label => ?_⟩
    by_cases hl : r.label = label
    · subst hl
      simpa using h trivial
    · simp [hl]

/-- The label is disabled while the count goes from 1 to 2. -/
theorem change_not_sent :
    let label := "CPU_SrcID#0_Sum_DIMM#0_CE".toList
    let round (enabled : Bool) (ce : Int) :=
      readings ⟨true, true, [(label, enabled)], by simp⟩ [[⟨ce, 0, []⟩]]
    (after (round true 1 ++ round false 2 ++ round true 2)).sent label = some 1 := by
  decide +kernel

end Sensys.Errcounts
