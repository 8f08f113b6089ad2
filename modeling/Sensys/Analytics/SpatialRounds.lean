import Sensys.Analytics.Spatial
import Sensys.Util.LogicalGroup
/-!
# Rounds of the spatial step

While no result is lost on its way, each is computed of the latest sample of every node that has
reported since the one before (`rounds`). A result that is lost leaves its sum in the statistics,
and the next one is wrong (`lostResult_counted`).
-/
namespace Sensys.Analytics.Spatial
open Orte List

/-- A node and its values. -/
abbrev Report := Text × List Reading

def latest (reports : List Report) (node : Text) : Option (List Reading) :=
  reports.reverse.lookup node

theorem latest_concat (reports : List Report) (node : Text) (data : List Reading) (node' : Text) :
    latest (reports ++ [(node, data)]) node' = if node' = node then some data
      else latest reports node' := by
  rw [latest, reverse_append, reverse_singleton, singleton_append, lookup_cons]
  by_cases h : node' = node
  · simp [h]
  · simp [h, beq_false_of_ne h, latest]

variable {node : Text} {reports : List Report} {data : List Reading} {nodes : List Text}

theorem exists_of_latest (h : latest reports node = some data) :
    (node, data) ∈ reports := by
  obtain ⟨l₁, l₂, happ, -⟩ := lookup_eq_some_iff.1 h
  rw [← mem_reverse, happ]
  simp

/-- The sample that is put into a bucket. It depends on the time of the last result, and not on
what is in the buckets. -/
def taken (s : Statistics) (x : Sample) : Option Report :=
  if x.complete ∧ intervalOver s x.now then
    match findNode (x.key.getD []) s.nodelist with
    | .ok node => some (node, x.computeData)
    | .error _ => none
  else none

section
variable (sqrt : ℚ → ℚ) (parse : Text → Except Rc (List Text)) (attributes : List (Text × Text))

def reported (s : Statistics) : Input → List Report
  | .timeout .. => []
  | .sample x =>
    match ready parse attributes s with
    | (s, .ok ()) => (taken s x).toList
    | (_, .error _) => []

/-- The statistics, all samples that were taken, those since the last result, and each result with
the samples since the one before. -/
structure History where
  state   : Statistics
  reports : List Report
  pending : List Report
  results : List (List Report × Summary)

def History.step (r : History) (input : Input) : History :=
  let o := analyze sqrt parse attributes r.state input
  let new := reported parse attributes r.state input
  match o.emitted with
  | some m => ⟨o.state, r.reports ++ new, [], r.results ++ [(r.pending ++ new, m)]⟩
  | none => ⟨o.state, r.reports ++ new, r.pending ++ new, r.results⟩

def History.run (inputs : List Input) : History :=
  inputs.foldl (History.step sqrt parse attributes) ⟨.new, [], [], []⟩

/-- The result for the latest sample of each node. -/
def summary (type : ComputeType) (nodes : List Text) (reports : List Report) : Summary :=
  let parts := nodes.filterMap (latest reports)
  ⟨aggregate sqrt (parts.flatten.map getNumber) type, parts.length, parts.flatten.length⟩

/-- Each result is computed of one sample, the latest, of each node that has reported since the
result before. -/
structure Rounds (r : History) : Prop where
  nodup  : r.state.nodelist.Nodup
  each   : ∀ round ∈ r.results, ∃ type, r.state.computeType = some type ∧
    round.2 = summary sqrt type r.state.nodelist round.1
  once   : r.reports = r.results.flatMap Prod.fst ++ r.pending
  listed : ∀ report ∈ r.reports, report.1 ∈ r.state.nodelist

/-! ## What one call does -/

/-- After the attributes were accepted. -/
structure Sound (type : ComputeType) (r : History) : Prop extends Rounds sqrt r where
  size         : r.state.size = r.state.nodelist.length
  size_ne      : r.state.size ≠ 0
  computeType  : r.state.computeType = some type
  numDataPoint : r.state.numDataPoint = 0
  result       : r.state.result = initial (some type)
  buckets      : ∀ node, r.state.buckets.lookup node = latest r.pending node
  data_ne      : ∀ report ∈ r.pending, report.2 ≠ []

variable {sqrt parse attributes}

variable {type : ComputeType} {r : History} {input : Input} {s : Statistics} {rc : Except Rc Unit}
  {new : List Report} {report : Report}

section
variable (h : Sound sqrt type r)
include h

theorem Sound.numbers :
    r.state.numbers = (r.state.nodelist.filterMap (latest r.pending)).flatten.map getNumber := by
  rw [Statistics.numbers, numbersOf, funext h.buckets]

theorem Sound.mem_pending (hr : report ∈ r.pending) :
    report.1 ∈ r.state.nodelist := h.listed report (by rw [h.once]; exact mem_append_right _ hr)

theorem Sound.length_keys :
    r.state.buckets.keys.length = (r.state.nodelist.filterMap (latest r.pending)).length := by
  rw [length_filterMap_eq_countP, countP_eq_length_filter]
  refine ((perm_ext_iff_of_nodup r.state.buckets.keys_nodup (h.nodup.filter _)).2 fun node => ?_).length_eq
  rw [← AList.mem_keys, ← AList.lookup_isSome, h.buckets, mem_filter]
  refine ⟨fun hso => ⟨?_, hso⟩, And.right⟩
  obtain ⟨data, hda⟩ := Option.isSome_iff_exists.1 hso
  exact h.mem_pending (exists_of_latest hda)

end

theorem latest_isSome (h : report ∈ reports) : (latest reports report.1).isSome := by
  induction reports using List.reverseRecOn with
  | nil => cases h
  | append_singleton reports last ih =>
    rw [latest_concat]
    split
    · rfl
    · rename_i hne
      obtain h | h := mem_append.1 h
      · exact ih h
      · exact absurd (congrArg Prod.fst (mem_singleton.1 h)) hne

section
variable (h : Sound sqrt type r)
include h

theorem Sound.numbers_ne (hne : r.pending ≠ []) : r.state.numbers ≠ [] := by
  obtain ⟨report, hr⟩ := exists_mem_of_ne_nil _ hne
  obtain ⟨data, hda⟩ := Option.isSome_iff_exists.1 (latest_isSome hr)
  obtain ⟨x, hx⟩ := exists_mem_of_ne_nil _ (h.data_ne _ (exists_of_latest hda))
  rw [h.numbers, Ne, map_eq_nil_iff]
  refine ne_nil_of_mem (mem_flatten.2 ⟨data, ?_, hx⟩)
  exact mem_filterMap.2 ⟨report.1, h.mem_pending hr, hda⟩

theorem Sound.takes (hno : node ∈ r.state.nodelist) (hda : data ≠ []) (event : Bool) :
    Sound sqrt type ⟨{ r.state with buckets := r.state.buckets.insert node data, timeoutEvent := event },
      r.reports ++ [(node, data)], r.pending ++ [(node, data)], r.results⟩ where
  nodup := h.nodup
  each := h.each
  once := by rw [h.once, append_assoc]
  listed report hr := by
    obtain hr | hr := mem_append.1 hr
    · exact h.listed report hr
    · rw [mem_singleton.1 hr]
      exact hno
  size := h.size
  size_ne := h.size_ne
  computeType := h.computeType
  numDataPoint := h.numDataPoint
  result := h.result
  buckets node' := by
    rw [latest_concat]
    split
    · rename_i heq
      rw [heq]
      exact AList.lookup_insert _
    · rename_i hne
      exact (AList.lookup_insert_ne hne).trans (h.buckets node')
  data_ne report hr := by
    obtain hr | hr := mem_append.1 hr
    · exact h.data_ne report hr
    · rw [mem_singleton.1 hr]
      exact hda

theorem Sound.closes (now : Timeval) :
    Sound sqrt type ⟨resetStatistics r.state (some now), r.reports, [],
      r.results ++ [(r.pending, summary sqrt type r.state.nodelist r.pending)]⟩ where
  nodup := h.nodup
  each round hro := by
    obtain hro | hro := mem_append.1 hro
    · exact h.each round hro
    · rw [mem_singleton.1 hro]
      exact ⟨type, h.computeType, rfl⟩
  once := by
    rw [h.once, flatMap_append]
    simp
  listed := h.listed
  size := h.size
  size_ne := h.size_ne
  computeType := h.computeType
  numDataPoint := rfl
  result := congrArg initial h.computeType
  buckets node := AList.lookup_empty node
  data_ne report hr := by cases hr

theorem Sound.closeRound (hne : r.pending ≠ []) (now : Timeval) :
    closeRound now (handleFullBucket sqrt r.state .sent) =
      ⟨resetStatistics r.state (some now), .ok (),
      some (summary sqrt type r.state.nodelist r.pending)⟩ := by
  rw [handleFullBucket_fresh sqrt h.computeType h.numDataPoint h.result (h.numbers_ne hne),
    h.numbers, h.length_keys, length_map]
  rfl

end

theorem findNode_mem {key : List KeyItem} (h : findNode key nodes = .ok node) : node ∈ nodes := by
  induction nodes with
  | nil => cases h
  | cons n nodes ih =>
    unfold findNode at h
    split at h
    · cases h
    · split at h
      · obtain rfl : n = node := Except.ok.inj h
        exact mem_cons_self
      · exact mem_cons_of_mem _ (ih h)

theorem step_of_none (h : analyze sqrt parse attributes r.state input = ⟨s, rc, none⟩)
    (hnew : reported parse attributes r.state input = new) :
    r.step sqrt parse attributes input = ⟨s, r.reports ++ new, r.pending ++ new, r.results⟩ := by
  simp only [History.step, h, hnew]

theorem step_of_some {m : Summary}
    (h : analyze sqrt parse attributes r.state input = ⟨s, rc, some m⟩)
    (hnew : reported parse attributes r.state input = new) :
    r.step sqrt parse attributes input =
      ⟨s, r.reports ++ new, [], r.results ++ [(r.pending ++ new, m)]⟩ := by
  simp only [History.step, h, hnew]

theorem step_idle (h : analyze sqrt parse attributes r.state input = ⟨r.state, rc, none⟩)
    (hnew : reported parse attributes r.state input = []) :
    r.step sqrt parse attributes input = r := by
  rw [step_of_none h hnew, append_nil, append_nil]

section
variable (h : Sound sqrt type r)
include h

theorem Sound.timeout (now : Timeval) :
    Sound sqrt type (r.step sqrt parse attributes (.timeout now .sent)) := by
  have hre : ready parse attributes r.state = (r.state, .ok ()) := if_neg h.size_ne
  have han : analyze sqrt parse attributes r.state (.timeout now .sent) =
      Spatial.closeRound now (handleFullBucket sqrt r.state .sent) := by
    rw [analyze, hre]
  by_cases hne : r.pending = []
  · have hem : r.state.numbers = [] := by
      rw [h.numbers, hne]
      simp [latest]
    have hbad : handleFullBucket sqrt r.state .sent = (r.state, .error .badParam) := by
      rw [handleFullBucket, doCompute_empty sqrt h.numDataPoint hem]
    rw [hbad] at han
    rw [step_idle han rfl]
    exact h
  · have hnew : reported parse attributes r.state (.timeout now .sent) = [] := rfl
    rw [h.closeRound hne] at han
    rw [step_of_some han hnew, append_nil, append_nil]
    exact h.closes now

theorem Sound.sample {x : Sample} (hse : x.emission = .sent) :
    Sound sqrt type (r.step sqrt parse attributes (.sample x)) := by
  have hre : ready parse attributes r.state = (r.state, .ok ()) := if_neg h.size_ne
  have han : analyze sqrt parse attributes r.state (.sample x) = collectSample sqrt r.state x := by
    rw [analyze, hre]
  have hnew : reported parse attributes r.state (.sample x) = (taken r.state x).toList := by
    rw [reported, hre]
  by_cases hco : x.complete
  swap
  · rw [collectSample, if_pos hco] at han
    rw [taken, if_neg fun hbo => hco hbo.1] at hnew
    rw [step_idle han hnew]
    exact h
  by_cases ho : intervalOver r.state x.now
  swap
  · rw [collectSample, if_neg (not_not.2 hco), if_neg ho] at han
    rw [taken, if_neg fun hbo => ho hbo.2] at hnew
    rw [step_idle han hnew]
    exact h
  rw [collectSample, if_neg (not_not.2 hco), if_pos ho] at han
  rw [taken, if_pos ⟨hco, ho⟩] at hnew
  cases hno : findNode (x.key.getD []) r.state.nodelist with
  | error rc =>
    rw [fillBucket, hno] at han
    rw [hno] at hnew
    rw [step_idle han hnew]
    exact h
  | ok node =>
    rw [hno] at hnew
    have hta := h.takes (findNode_mem hno) hco.2.2
    -- full, the first sample, or another one
    simp only [fillBucket, hno] at han
    split at han
    · rw [hse] at han
      have hso := hta r.state.timeoutEvent
      have hcl := hso.closeRound (by simp) x.now
      rw [step_of_some (han.trans hcl) hnew]
      exact hso.closes x.now
    · split at han
      · split at han
        · rw [step_of_none han hnew]
          exact hta true
        · rw [step_of_none han hnew]
          exact hta r.state.timeoutEvent
      · rw [step_of_none han hnew]
        exact hta r.state.timeoutEvent

theorem Sound.step (hse : input.emission = .sent) :
    Sound sqrt type (r.step sqrt parse attributes input) := by
  cases input with
  | timeout now emission =>
    obtain rfl : emission = .sent := hse
    exact h.timeout now
  | sample x => exact h.sample hse

end

/-! ## Attributes -/

/-- Before the attributes are accepted. -/
structure Waiting (r : History) : Prop where
  size    : r.state.size = 0
  nodup   : r.state.nodelist.Nodup
  reports : r.reports = []
  pending : r.pending = []
  results : r.results = []

variable (sqrt) in
theorem fillSpatialStatistics_spec (hs : s.nodelist.Nodup) :
    (fillSpatialStatistics s).1.nodelist.Nodup ∧
      ((fillSpatialStatistics s).2 = .ok () →
      ∃ type, Sound sqrt type ⟨(fillSpatialStatistics s).1, [], [], []⟩) := by
  unfold fillSpatialStatistics
  split
  · exact ⟨hs, fun hok => by cases hok⟩
  · rename_i htype
    obtain ⟨type, htype⟩ := Option.ne_none_iff_exists'.1 htype
    dsimp only
    split
    · exact ⟨hs, fun hok => by cases hok⟩
    · rename_i hz
      refine ⟨hs, fun _ => ⟨type, ?_⟩⟩
      exact ⟨⟨hs, by simp, rfl, by simp⟩, rfl, fun h => hz (Or.inl h), htype, rfl,
        congrArg initial htype, fun node => AList.lookup_empty node, by simp⟩

section
variable (hparse : ∀ text nodes, parse text = .ok nodes → nodes.Nodup)
include hparse

variable (sqrt) in
theorem initSpatialStatistics_spec (attributes : List (Text × Text)) (hs : s.nodelist.Nodup) :
    (initSpatialStatistics parse attributes s).1.nodelist.Nodup ∧
      ((initSpatialStatistics parse attributes s).2 = .ok () →
      ∃ type, Sound sqrt type ⟨(initSpatialStatistics parse attributes s).1, [], [], []⟩) := by
  induction attributes generalizing s with
  | nil => exact fillSpatialStatistics_spec sqrt hs
  | cons attr attributes ih =>
    unfold initSpatialStatistics
    split_ifs
    · split
      · rename_i nodes hno
        exact ih (hparse _ nodes hno)
      · exact ⟨hs, fun hok => by cases hok⟩
    · exact ih hs
    · exact ih hs
    · split
      · exact ih hs
      · exact ⟨hs, fun hok => by cases hok⟩
    · split
      · exact ih hs
      · exact ⟨hs, fun hok => by cases hok⟩
    · exact ih hs

/-- Before the first sample, or after the attributes were accepted. -/
def Reached (sqrt : ℚ → ℚ) (r : History) : Prop := Waiting r ∨ ∃ type, Sound sqrt type r

theorem Waiting.step (h : Waiting r) (hse : input.emission = .sent) :
    Reached sqrt (r.step sqrt parse attributes input) := by
  obtain ⟨hno, hok⟩ := initSpatialStatistics_spec sqrt hparse attributes h.nodup
  have hre : ready parse attributes r.state = initSpatialStatistics parse attributes r.state :=
    if_pos h.size
  cases hrc : (initSpatialStatistics parse attributes r.state).2 with
  | error rc =>
    have hre' : ready parse attributes r.state =
        ((initSpatialStatistics parse attributes r.state).1, .error rc) :=
      hre.trans (Prod.ext rfl hrc)
    have han : analyze sqrt parse attributes r.state input =
        ⟨{ (initSpatialStatistics parse attributes r.state).1 with size := 0 }, .error rc, none⟩ :=
        by rw [analyze, hre']
    have hnew : reported parse attributes r.state input = [] := by
      cases input with
      | timeout now emission => rfl
      | sample x => rw [reported, hre']
    left
    rw [step_of_none han hnew]
    exact ⟨rfl, hno, by rw [h.reports]; rfl, by rw [h.pending]; rfl, h.results⟩
  | ok u =>
    obtain ⟨type, hso⟩ := hok hrc
    -- the same call, on the statistics that were read
    have hag : ready parse attributes r.state =
        ready parse attributes (initSpatialStatistics parse attributes r.state).1 := by
      rw [hre, ready, if_neg hso.size_ne]
      exact Prod.ext rfl hrc
    have hst : r.step sqrt parse attributes input =
        History.step sqrt parse attributes ⟨(initSpatialStatistics parse attributes r.state).1, [],
        [], []⟩ input := by
      have han : analyze sqrt parse attributes r.state input =
          analyze sqrt parse attributes (initSpatialStatistics parse attributes r.state).1 input :=
          by rw [analyze, analyze, hag]
      have hnew : reported parse attributes r.state input =
          reported parse attributes (initSpatialStatistics parse attributes r.state).1 input := by
        cases input with
        | timeout now emission => rfl
        | sample x => rw [reported, reported, hag]
      simp only [History.step, han, hnew, h.reports, h.pending, h.results]
    rw [hst]
    exact Or.inr ⟨type, hso.step hse⟩

theorem reached_run {inputs : List Input}
    (hse : ∀ input ∈ inputs, input.emission = .sent) :
    Reached sqrt (History.run sqrt parse attributes inputs) := by
  induction inputs using List.reverseRecOn with
  | nil => exact Or.inl ⟨rfl, nodup_nil, rfl, rfl, rfl⟩
  | append_singleton inputs input ih =>
    rw [History.run, foldl_append]
    obtain h | ⟨type, h⟩ := ih fun i hi => hse i (by simp [hi])
    · exact h.step hparse (hse input (by simp))
    · exact Or.inr ⟨type, h.step (hse input (by simp))⟩

end

end

/-! ## Calls that return -/

/-- Expanding the list of nodes returns, and the times are no empty texts. -/
structure Readable (parse : Text → Except Rc (List Text))
    (attributes : List (Text × Text)) : Prop where
  nodes : ∀ a ∈ attributes, a.1 = nodelistWord → parse a.2 ≠ .error .undefined
  times : Timed [intervalWord, timeoutWord] attributes

section
variable {sqrt : ℚ → ℚ} {parse : Text → Except Rc (List Text)} {attributes : List (Text × Text)}
  {s : Statistics}

theorem hostname_defined (key : List KeyItem) : hostname key ≠ .error .undefined := by
  induction key with
  | nil => rintro ⟨⟩
  | cons item key ih =>
    unfold hostname
    grind

theorem findNode_defined (key : List KeyItem) (nodes : List Text) :
    findNode key nodes ≠ .error .undefined := by
  have hhost := hostname_defined key
  induction nodes with
  | nil => rintro ⟨⟩
  | cons node nodes ih =>
    unfold findNode
    grind

theorem handleFullBucket_defined (s : Statistics) (emission : Emission) :
    (handleFullBucket sqrt s emission).2 ≠ .error .undefined := by
  have hcompute : (doCompute sqrt s).2 ≠ .error .undefined := by
    unfold doCompute
    grind
  unfold handleFullBucket
  grind

theorem fillBucket_defined (s : Statistics) (x : Sample) :
    (fillBucket sqrt s x).2 ≠ .error .undefined := by
  have hnode := findNode_defined (x.key.getD []) s.nodelist
  unfold fillBucket
  grind [handleFullBucket_defined]

theorem closeRound_defined {now : Timeval} {result : Statistics × Except Rc (Option Summary)}
    (h : result.2 ≠ .error .undefined) : (closeRound now result).rc ≠ .error .undefined := by
  unfold closeRound
  grind

theorem initSpatialStatistics_defined (h : Readable parse attributes) :
    (initSpatialStatistics parse attributes s).2 ≠ .error .undefined := by
  induction attributes generalizing s with
  | nil =>
    simp only [initSpatialStatistics, fillSpatialStatistics]
    grind
  | cons attr attributes ih =>
    obtain ⟨hnodes, hnodes'⟩ := forall_mem_cons.1 h.nodes
    obtain ⟨htime, htimes⟩ := forall_mem_cons.1 h.times
    have ih := fun {s} => @ih s ⟨hnodes', htimes⟩
    obtain ⟨key, value⟩ := attr
    simp only [initSpatialStatistics]
    split_ifs with h1 h2 h3 h4 h5
    · split
      · exact ih
      · rename_i rc hrc
        intro hun
        obtain rfl : rc = .undefined := Except.error.inj hun
        exact hnodes h1 hrc
    · exact ih
    · exact ih
    · obtain ⟨seconds, hse⟩ := exists_getTimeInSec (htime (by simp [h4]))
      rw [hse]
      exact ih
    · obtain ⟨seconds, hse⟩ := exists_getTimeInSec (htime (by simp [h5]))
      rw [hse]
      exact ih
    · exact ih

theorem analyze_defined (h : Readable parse attributes) (s : Statistics) (input : Input) :
    (analyze sqrt parse attributes s input).rc ≠ .error .undefined := by
  have hready : (ready parse attributes s).2 ≠ .error .undefined := by
    unfold ready
    split_ifs
    · exact initSpatialStatistics_defined h
    · rintro ⟨⟩
  unfold analyze
  split
  · rename_i rc hrc
    rwa [hrc] at hready
  · cases input with
    | timeout now emission => exact closeRound_defined (handleFullBucket_defined _ _)
    | sample x =>
      simp only [collectSample]
      split_ifs
      · exact closeRound_defined (fillBucket_defined _ _)
      · rintro ⟨⟩
      · rintro ⟨⟩

end

/-- `orcm_logical_group_parse_array_string`, which does not return for groups that contain each
other. -/
def parseNodes (extract : String → Option (List String)) (groups : LogicalGroup.Groups) (fuel : Nat)
    (text : Text) :
    Except Rc (List Text) :=
  match LogicalGroup.parseArrayString extract groups fuel (some (String.ofList text)) [] with
  | some (.success names) => .ok (names.map String.toList)
  | some .error => .error .badParam
  | some .crash | none => .error .undefined

theorem nodup_parseNodes {extract : String → Option (List String)} {groups : LogicalGroup.Groups}
    {fuel : Nat} {text : Text} (h : parseNodes extract groups fuel text = .ok nodes) :
    nodes.Nodup := by
  unfold parseNodes at h
  split at h
  · rename_i names hna
    obtain rfl : names.map String.toList = nodes := Except.ok.inj h
    exact (LogicalGroup.nodup_parseArrayString hna).map fun _ _ heq => String.toList_inj.1 heq
  all_goals cases h

/-- While no result is lost, each is computed of one sample, the latest, of each listed node that
has reported since the one before, and of no other. -/
theorem rounds (sqrt : ℚ → ℚ) (extract : String → Option (List String))
    (groups : LogicalGroup.Groups) (fuel : Nat) {attributes : List (Text × Text)}
    (hread : Readable (parseNodes extract groups fuel) attributes) {inputs : List Input}
    (hsent : ∀ input ∈ inputs, input.emission = .sent) :
    Rounds sqrt (History.run sqrt (parseNodes extract groups fuel) attributes inputs) ∧
      ∀ input, (analyze sqrt (parseNodes extract groups fuel) attributes
        (History.run sqrt (parseNodes extract groups fuel) attributes inputs).state input).rc ≠
        .error .undefined := by
  refine ⟨?_, analyze_defined hread _⟩
  obtain h | ⟨type, h⟩ := reached_run (fun _ _ => nodup_parseNodes) hsent
  · exact ⟨h.nodup, by simp [h.results], by simp [h.reports, h.results, h.pending], by simp [h.reports]⟩
  · exact h.toRounds

def node1 : Text := ['n', '1']
def node2 : Text := ['n', '2']

/-- The average over two nodes; the list has no groups. -/
def averageOf (nodes : Text) : List (Text × Text) :=
  [(['n', 'o', 'd', 'e', 'l', 'i', 's', 't'], nodes),
    (['c', 'o', 'm', 'p', 'u', 't', 'e'], ['a', 'v', 'e', 'r', 'a', 'g', 'e'])]

def sampleOf (node : Text) (n : Int) (emission : Emission) : Input :=
  .sample ⟨some [⟨some ['h', 'o', 's', 't', 'n', 'a', 'm', 'e'], some node⟩], true,
    [.integer .int n], ⟨100, 0⟩, emission, true⟩

/-- The second sample of a node takes the place of the first. -/
theorem average_rounds :
    (History.run id (parseNodes (fun _ => some ["n1", "n2"]) [] 1)
      (averageOf ['n', '[', '1', '-', '2', ']'])
        [sampleOf node1 10 .sent, sampleOf node1 30 .sent, sampleOf node2 20 .sent]).results =
      [([(node1, [.integer .int 10]), (node1, [.integer .int 30]), (node2, [.integer .int 20])],
      ⟨25, 2, 2⟩)] ∧
    Rounds id (History.run id (parseNodes (fun _ => some ["n1", "n2"]) [] 1)
    (averageOf ['n', '[', '1', '-', '2', ']'])
      [sampleOf node1 10 .sent, sampleOf node1 30 .sent, sampleOf node2 20 .sent]) :=
  ⟨by decide +kernel, (rounds id _ _ _ ⟨by decide +kernel, by decide⟩ (by decide)).1⟩

/-- The result for the value 10 cannot be sent; the next one, for the value 20, is 15. -/
theorem lostResult_counted :
    (History.run id (parseNodes (fun _ => some ["n1"]) [] 1) (averageOf node1)
      [sampleOf node1 10 .failed, sampleOf node1 20 .sent]).results =
      [([(node1, [.integer .int 10]), (node1, [.integer .int 20])], ⟨15, 1, 2⟩)] ∧
    ¬ Rounds id (History.run id (parseNodes (fun _ => some ["n1"]) [] 1) (averageOf node1)
    [sampleOf node1 10 .failed, sampleOf node1 20 .sent]) := by
  have hno : (History.run id (parseNodes (fun _ => some ["n1"]) [] 1) (averageOf node1)
      [sampleOf node1 10 .failed, sampleOf node1 20 .sent]).state.nodelist = [node1] := by
      decide +kernel
  refine (and_iff_left_of_imp fun hrun h => ?_).2 (by decide +kernel)
  obtain ⟨type, htype, hsum⟩ := h.each _ (by rw [hrun]; exact mem_singleton_self _)
  have hav : type = .ave := Option.some.inj (htype.symm.trans (by decide +kernel))
  rw [hno, hav] at hsum
  exact absurd (congrArg Summary.result hsum) (by decide +kernel)

end Sensys.Analytics.Spatial
