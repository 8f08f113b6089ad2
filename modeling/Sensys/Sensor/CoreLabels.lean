import Mathlib.Data.Int.Order.Basic
import Sensys.Lib.Blocks
import Sensys.Lib.StableSort
import Sensys.Sensor.CoreSamples
/-!
# The labels of the cores

| here | there |
| --- | --- |
| `CpuDir` | a directory `/sys/devices/system/cpu/cpuN` with the files in its `cpufreq` |
| `Freq.init` | the first loop of `init` (`freq/sensor_freq.c:212-299`) |
| `CoretempDir`, `Entry` | a directory `/sys/bus/platform/devices/coretemp.N`, and one of its entries with the files that belong to it |
| `Coretemp.track` | the body of the inner loop of `init` (`coretemp/sensor_coretemp.c:234-365`) |
| `Coretemp.foobar` | the list of the cores of a directory (`:233`, `:367-380`) |
| `Coretemp.init` | both loops (`:214-398`) |

Directories are read in the order in which the system lists them. The frequency of a core is
reported under `coreN` for its place among the tracked directories (`:544-546` of
`sensor_freq.c`), the temperature under `coreN` for its place among all cores; only inside a
directory are the cores sorted. A directory that cannot be opened has no entries. The text of a
label is taken as long enough for the new label that is written over it.
-/
namespace Sensys.Cores
open Orte Text List

/-- The first line. -/
def File.getline (file : File) : Option Text := file.bind List.head?

structure CpuDir where
  name    : Text
  maxFreq : File
  minFreq : File
  curFreq : File
deriving DecidableEq

/-- An entry of a directory, with the files whose names start in the same way. -/
structure Entry where
  name  : Text
  label : File
  crit  : File
  max   : File
deriving DecidableEq

structure CoretempDir where
  name    : Text
  entries : List Entry
deriving DecidableEq

/-- What the system lists, in its order. -/
structure Listing where
  cpus      : List CpuDir
  coretemps : List CoretempDir
  distinct  : (coretemps.map CoretempDir.name).Nodup

/-- The same directories with the same entries. -/
def SameMachine (L L' : Listing) : Prop :=
  L.cpus.Perm L'.cpus ∧
    ∃ dirs, L.coretemps.Perm dirs ∧
    List.Forall₂ (fun d d' => d.name = d'.name ∧ d.entries.Perm d'.entries) dirs L'.coretemps

namespace Freq

def isCpuDir (name : Text) : Bool := "cpu".toList.isPrefixOf name && name.getLast?.any Char.isDigit

/-- The directories that are tracked. -/
def init (cpus : List CpuDir) : List CpuDir :=
  cpus.filter fun dir => isCpuDir dir.name &&
    (dir.maxFreq.getline.isSome && dir.minFreq.getline.isSome)

/-- The label under which the frequency of a directory is reported. -/
def labels (cpus : List CpuDir) : List (Text × Text) :=
  (init cpus).zipIdx.map fun x => (coreLabel x.2, x.1.name)

/-- What is reported as `coreN` is read from `cpuN`. -/
def CoreIsCpu (cpus : List CpuDir) : Prop :=
  ∀ n name, (coreLabel n, name) ∈ labels cpus → name = "cpu".toList ++ Nat.toDigits 10 n

/-- The tracked directories are listed as `cpu0`, `cpu1` and so on. -/
def InOrder (cpus : List CpuDir) : Prop :=
  (init cpus).map CpuDir.name = (List.range (init cpus).length).map fun n =>
    "cpu".toList ++ Nat.toDigits 10 n

theorem coreLabel_injective : Function.Injective coreLabel := by
  intro m n h
  have hdi := congrArg digitsValue (append_cancel_left h)
  rwa [digitsValue_toDigits, digitsValue_toDigits] at hdi

theorem labels_eq (cpus : List CpuDir) :
    labels cpus = Blocks.labelled coreLabel ((init cpus).map CpuDir.name) := by
  rw [labels, Blocks.labelled, zipIdx_map, map_map]
  rfl

theorem coreIsCpu_iff (cpus : List CpuDir) : CoreIsCpu cpus ↔ InOrder cpus := by
  unfold CoreIsCpu InOrder
  simp only [labels_eq, Blocks.mem_labelled_iff coreLabel_injective]
  constructor
  · intro h
    apply ext_getElem?
    intro n
    by_cases hn : n < (init cpus).length
    · have hname := h n (init cpus)[n].name (by simp [hn])
      simp [hn, hname]
    · simp [hn]
  · intro h n name hname
    rw [h, List.getElem?_map] at hname
    obtain ⟨m, hm, rfl⟩ := Option.map_eq_some_iff.1 hname
    obtain ⟨_, rfl⟩ := List.getElem?_eq_some_iff.1 hm
    rw [getElem_range]

theorem length_init {cpus cpus' : List CpuDir} (h : cpus.Perm cpus') :
    (init cpus).length = (init cpus').length :=
  (h.filter _).length_eq

end Freq

namespace Coretemp

structure Tracked where
  /-- The file is that of this entry. -/
  entry  : Entry
  label  : Text
  core   : Int
  /-- The label says that it is a core. -/
  isCore : Bool
deriving DecidableEq

/-- `NULL != strcasestr(s, sub)`. -/
def strcasestr (s sub : Text) : Bool :=
  s.tails.any fun t => (sub.map Char.toLower).isPrefixOf (t.map Char.toLower)

/-- `(int)strtol(s, NULL, 10)`. -/
def number (s : Text) : Int := (Int32.ofInt (max (-2 ^ 63) (min (strtol 10 s) longMax))).toInt

/-- What a label is of. The number is taken behind the first characters of the label, wherever it
says "core". -/
def recognise (enablePackagetemp : Bool) (e : Entry) (label : Text) : Option Tracked :=
  if strcasestr label "core".toList then some ⟨e, label, number (label.drop 5), true⟩
  else if strcasestr label "Physical id ".toList &&
    enablePackagetemp then some ⟨e, label, number (label.drop 12), false⟩
  else none

def track (enablePackagetemp : Bool) (e : Entry) : Option Tracked :=
  if "temp".toList.isPrefixOf e.name && "_input".toList.isSuffixOf e.name then do
    let label ← e.label.getline
    let t ← recognise enablePackagetemp e label
    let _ ← e.crit.getline
    let _ ← e.max.getline
    some t
  else none

/-- A core is put before the first entry with a larger number, also before that of a package. -/
def add (l : List Tracked) (t : Tracked) : List Tracked :=
  if t.isCore then StableSort.insertByKey Tracked.core t l else l ++ [t]

def foobar (enablePackagetemp : Bool) (entries : List Entry) : List Tracked :=
  (entries.filterMap (track enablePackagetemp)).foldl add []

/-- The cores get their labels; `corecount` goes on from one directory to the next one. `sprintf`
(`:393`) writes a label over the one that was read, which is assumed to have the room for it. -/
def relabel (corecount : Nat) : List (Text × Tracked) → List (Text × Tracked)
  | [] => []
  | (dir, t) :: l =>
    if t.isCore then (dir, { t with core := corecount, label := Freq.coreLabel corecount }) ::
      relabel (corecount + 1) l
    else (dir, t) :: relabel corecount l

/-- What is tracked, with the directories. -/
def init (enablePackagetemp : Bool) (dirs : List CoretempDir) : List (Text × Tracked) :=
  relabel 0 ((dirs.filter fun dir => "coretemp".toList.isPrefixOf dir.name).flatMap fun dir =>
    (foobar enablePackagetemp dir.entries).map fun t => (dir.name, t))

/-- The label under which the temperature of a core is reported; a core is given by its directory
and its entry. -/
def labels (enablePackagetemp : Bool) (dirs : List CoretempDir) : List (Text × Text × Entry) :=
  ((init enablePackagetemp dirs).filter fun x => x.2.isCore).map fun x =>
    (x.2.label, x.1, x.2.entry)

variable {enablePackagetemp : Bool} {l acc : List Tracked}

/-- The tracked cores with the number `k`, in the order in which they are listed. -/
def numbered (enablePackagetemp : Bool) (dir : CoretempDir) (k : Int) : List Tracked :=
  (dir.entries.filterMap (track enablePackagetemp)).filter fun t => t.isCore && decide (t.core = k)

/-- The directories with tracked cores, in the order in which they are listed. -/
def withCores (enablePackagetemp : Bool) (dirs : List CoretempDir) : List Text :=
  (dirs.filter fun dir => "coretemp".toList.isPrefixOf dir.name &&
    (dir.entries.filterMap (track enablePackagetemp)).any Tracked.isCore).map CoretempDir.name

/-! ### One directory -/

theorem foldl_add (hacc : StableSort.Ordered Tracked.core Tracked.isCore acc) :
    StableSort.Ordered Tracked.core Tracked.isCore (l.foldl add acc) ∧
      ∀ k, (l.foldl add acc).filter (fun t => t.isCore && decide (t.core = k)) =
        acc.filter (fun t => t.isCore && decide (t.core = k)) ++ l.filter fun t =>
        t.isCore && decide (t.core = k) := by
  induction l generalizing acc with
  | nil => exact ⟨hacc, fun k => by simp⟩
  | cons t l ih =>
    have hadd : StableSort.Ordered Tracked.core Tracked.isCore (add acc t) ∧
        ∀ k, (add acc t).filter (fun t => t.isCore && decide (t.core = k)) =
          acc.filter (fun t => t.isCore && decide (t.core = k)) ++ [t].filter fun t =>
          t.isCore && decide (t.core = k) := by
      unfold add
      split
      · exact ⟨hacc.insertByKey, fun k => hacc.filter_insertByKey k⟩
      · rename_i hco
        exact ⟨hacc.concat (by simpa using hco), fun k => filter_append ..⟩
    obtain ⟨ho, hf⟩ := ih hadd.1
    refine ⟨ho, fun k => ?_⟩
    rw [foldl_cons, hf, hadd.2, append_assoc, ← filter_append]
    rfl

/-- The cores of a directory, sorted. -/
def cores (enablePackagetemp : Bool) (dir : CoretempDir) : List Tracked :=
  (foobar enablePackagetemp dir.entries).filter Tracked.isCore

theorem cores_sorted (dir : CoretempDir) :
    (cores enablePackagetemp dir).Pairwise fun a b => a.core ≤ b.core := by
  have ho :=
    (@foldl_add (dir.entries.filterMap (track enablePackagetemp)) [] StableSort.ordered_nil).1
  exact pairwise_filter.2 (ho.imp fun h _ hb => h hb)

theorem filter_cores (dir : CoretempDir) (k : Int) :
    (cores enablePackagetemp dir).filter (fun t => decide (t.core = k)) =
      numbered enablePackagetemp dir k := by
  have hf :=
    (@foldl_add (dir.entries.filterMap (track enablePackagetemp)) [] StableSort.ordered_nil).2 k
  rw [cores, filter_filter, foobar, numbered]
  simpa [Bool.and_comm] using hf

variable {dir : CoretempDir} {t : Tracked} {dir' : CoretempDir} (dirs : List CoretempDir)

/-- **The order of the cores of a directory** depends only on the order of those with the same
number. -/
theorem cores_eq_iff :
    cores enablePackagetemp dir = cores enablePackagetemp dir' ↔
      ∀ k, numbered enablePackagetemp dir k = numbered enablePackagetemp dir' k := by
  constructor
  · intro h k
    rw [← filter_cores, ← filter_cores, h]
  · intro h
    apply StableSort.eq_of_filter_eq (cores_sorted dir) (cores_sorted dir')
    intro k
    rw [filter_cores, filter_cores, h]

/-- The order inside a directory does not matter if the cores have numbers of their own. -/
theorem numbered_of_perm (h : dir.entries.Perm dir'.entries)
    (hdi :
      (((dir.entries.filterMap (track enablePackagetemp)).filter Tracked.isCore).map
      Tracked.core).Nodup) (k : Int) :
    numbered enablePackagetemp dir k = numbered enablePackagetemp dir' k := by
  have hpe : (numbered enablePackagetemp dir k).Perm (numbered enablePackagetemp dir' k) :=
    (h.filterMap _).filter _
  have hno : ((numbered enablePackagetemp dir k).map Tracked.core).Nodup := by
    refine hdi.sublist (List.Sublist.map _ ?_)
    exact monotone_filter_right _ fun t ht => (Bool.and_eq_true_iff.1 ht).1
  have hnu : ∀ t ∈ numbered enablePackagetemp dir k, t.core = k := by
    intro t ht
    exact of_decide_eq_true (Bool.and_eq_true_iff.1 (mem_filter.1 ht).2).2
  match hl : numbered enablePackagetemp dir k with
  | [] => exact (nil_perm.1 (hl ▸ hpe)).symm
  | [t] => exact singleton_perm.1 (hl ▸ hpe)
  | t :: u :: _ =>
    rw [hl] at hnu hno
    have htu : t.core = u.core := (hnu t (by simp)).trans (hnu u (by simp)).symm
    simp [htu] at hno

/-! ### All directories -/

theorem recognise_entry {e : Entry} {label : Text}
    (h : recognise enablePackagetemp e label = some t) : t.entry = e := by
  unfold recognise at h
  split at h
  · cases h
    rfl
  · split at h
    · cases h
      rfl
    · cases h

theorem track_entry {e : Entry} (h : track enablePackagetemp e = some t) : t.entry = e := by
  unfold track at h
  split at h
  · simp only [Option.bind_eq_bind, Option.bind_eq_some_iff] at h
    obtain ⟨label, _, t', ht, _, _, _, _, h⟩ := h
    cases h
    exact recognise_entry ht
  · cases h

theorem mem_foldl_add : t ∈ l.foldl add acc ↔ t ∈ acc ∨ t ∈ l := by
  induction l generalizing acc with
  | nil => simp
  | cons u l ih =>
    have hadd : t ∈ add acc u ↔ t ∈ acc ∨ t = u := by
      unfold add
      split
      · rw [StableSort.mem_insertByKey, or_comm]
      · simp
    rw [foldl_cons, ih, hadd, mem_cons, or_assoc]

theorem mem_cores :
    t ∈ cores enablePackagetemp dir ↔
      t ∈ dir.entries.filterMap (track enablePackagetemp) ∧ t.isCore = true := by
  rw [cores, mem_filter, foobar, mem_foldl_add]
  simp

/-- What is tracked is known from its entry. -/
theorem filterMap_track_cores (dir : CoretempDir) :
    ((cores enablePackagetemp dir).map Tracked.entry).filterMap (track enablePackagetemp) =
      cores enablePackagetemp dir := by
  have hen : ∀ t ∈ cores enablePackagetemp dir, track enablePackagetemp t.entry = some t := by
    intro t ht
    obtain ⟨e, _, he⟩ := mem_filterMap.1 (mem_cores.1 ht).1
    rw [track_entry he, he]
  rw [filterMap_map]
  exact (filterMap_congr hen).trans filterMap_some

theorem map_entry_cores_iff :
    (cores enablePackagetemp dir).map Tracked.entry =
      (cores enablePackagetemp dir').map Tracked.entry ↔
      cores enablePackagetemp dir = cores enablePackagetemp dir' := by
  constructor
  · intro h
    rw [← filterMap_track_cores dir, h, filterMap_track_cores]
  · intro h
    rw [h]

/-- The directories that are read. -/
def coretempDirs (dirs : List CoretempDir) : List CoretempDir :=
  dirs.filter fun dir => "coretemp".toList.isPrefixOf dir.name

theorem labels_relabel (corecount : Nat) (l : List (Text × Tracked)) :
    ((relabel corecount l).filter fun x => x.2.isCore).map (fun x => (x.2.label, x.1, x.2.entry)) =
      (((l.filter fun x => x.2.isCore).map fun x => (x.1, x.2.entry)).zipIdx corecount).map fun x =>
      (Freq.coreLabel x.2, x.1) := by
  induction l generalizing corecount with
  | nil => rfl
  | cons x l ih =>
    obtain ⟨dir, t⟩ := x
    by_cases hco : t.isCore = true <;> simp [relabel, hco, ih]

/-- A label is the place of a core among the cores of all directories. -/
theorem labels_eq :
    labels enablePackagetemp dirs = Blocks.labelled Freq.coreLabel
      (Blocks.tagged CoretempDir.name (fun dir => (cores enablePackagetemp dir).map Tracked.entry)
        (coretempDirs dirs)) := by
  rw [labels, init, labels_relabel, Blocks.labelled, Blocks.tagged]
  congr 2
  rw [filter_flatMap, map_flatMap, coretempDirs]
  congr 1
  funext dir
  rw [filter_map, map_map, cores, map_map]
  rfl

theorem full_cores :
    (Blocks.full (fun dir => (cores enablePackagetemp dir).map Tracked.entry)
      (coretempDirs dirs)).map CoretempDir.name =
      withCores enablePackagetemp dirs := by
  rw [Blocks.full, coretempDirs, withCores, filter_filter]
  congr 2
  funext dir
  rw [Bool.and_comm]
  congr 1
  rw [isEmpty_map, Bool.eq_iff_iff, Bool.not_eq_true', isEmpty_eq_false_iff_exists_mem, any_eq_true]
  simp only [mem_cores]

/-- **The labels of the temperatures** are the same in two orders if the directories with cores
are listed in the same order, and so are the cores of a directory with the same number. -/
theorem labels_same_iff {dirs dirs' : List CoretempDir} (hno : (dirs.map CoretempDir.name).Nodup)
    (hno' : (dirs'.map CoretempDir.name).Nodup) :
    (∀ p, p ∈ labels enablePackagetemp dirs ↔ p ∈ labels enablePackagetemp dirs') ↔
      withCores enablePackagetemp dirs = withCores enablePackagetemp dirs' ∧
        ∀ dir ∈ coretempDirs dirs, ∀ dir' ∈ coretempDirs dirs', dir.name = dir'.name →
          ∀ k, numbered enablePackagetemp dir k = numbered enablePackagetemp dir' k := by
  have hsub : ((coretempDirs dirs).map CoretempDir.name).Nodup := hno.sublist (filter_sublist.map _)
  have hsub' : ((coretempDirs dirs').map CoretempDir.name).Nodup :=
    hno'.sublist (filter_sublist.map _)
  rw [labels_eq, labels_eq, Blocks.labelled_eq_iff Freq.coreLabel_injective,
    Blocks.tagged_eq_iff hsub hsub', full_cores, full_cores]
  simp only [map_entry_cores_iff, cores_eq_iff]

end Coretemp

/-- **Each core has its label, whatever the order**: the cpu directories are listed by their
numbers, and the `coretemp` directories with cores are listed in the same order. -/
theorem same_labels_iff {L L' : Listing} (h : SameMachine L L') (enablePackagetemp : Bool) :
    ((∀ p, p ∈ Freq.labels L.cpus ↔ p ∈ Freq.labels L'.cpus) ∧
      (∀ p, p ∈ Coretemp.labels enablePackagetemp L.coretemps ↔
      p ∈ Coretemp.labels enablePackagetemp L'.coretemps) ∧
      Freq.CoreIsCpu L.cpus ∧ Freq.CoreIsCpu L'.cpus) ↔
    (Freq.InOrder L.cpus ∧ Freq.InOrder L'.cpus) ∧
      Coretemp.withCores enablePackagetemp L.coretemps =
      Coretemp.withCores enablePackagetemp L'.coretemps ∧
        ∀ dir ∈ Coretemp.coretempDirs L.coretemps, ∀ dir' ∈ Coretemp.coretempDirs L'.coretemps,
        dir.name = dir'.name →
          ∀ k, Coretemp.numbered enablePackagetemp dir k =
          Coretemp.numbered enablePackagetemp dir' k := by
  rw [Coretemp.labels_same_iff L.distinct L'.distinct, Freq.coreIsCpu_iff, Freq.coreIsCpu_iff]
  constructor
  · rintro ⟨_, hte, hcpu, hcpu'⟩
    exact ⟨⟨hcpu, hcpu'⟩, hte⟩
  · rintro ⟨⟨hcpu, hcpu'⟩, hte⟩
    have hna : (Freq.init L.cpus).map CpuDir.name = (Freq.init L'.cpus).map CpuDir.name := by
      rw [hcpu, hcpu', Freq.length_init h.1]
    refine ⟨?_, hte, hcpu, hcpu'⟩
    intro p
    rw [Freq.labels_eq, Freq.labels_eq, hna]

def cpuDir (name : Text) : CpuDir :=
  ⟨name, some ["3000000".toList], some ["800000".toList], some ["1200000".toList]⟩

def coreEntry (name label : Text) : Entry :=
  ⟨name, some [label], some ["100000".toList], some ["90000".toList]⟩

def entry0 : Entry := coreEntry "temp2_input".toList "Core 0".toList

def entry1 : Entry := coreEntry "temp3_input".toList "Core 1".toList

/-- A node with one socket. -/
def oneSocket : Listing :=
  ⟨[cpuDir "cpu0".toList, cpuDir "cpu1".toList], [⟨"coretemp.0".toList, [entry0, entry1]⟩], by simp⟩

/-- The cores of the socket are listed the other way round. -/
def oneSocket' : Listing :=
  ⟨[cpuDir "cpu0".toList, cpuDir "cpu1".toList], [⟨"coretemp.0".toList, [entry1, entry0]⟩], by simp⟩

theorem oneSocket_sameMachine : SameMachine oneSocket oneSocket' :=
  ⟨.refl _, _, .refl _, .cons ⟨rfl, .swap _ _ _⟩ .nil⟩

theorem oneSocket_same_labels :
    (∀ p, p ∈ Freq.labels oneSocket.cpus ↔ p ∈ Freq.labels oneSocket'.cpus) ∧
      (∀ p, p ∈ Coretemp.labels true oneSocket.coretemps ↔
      p ∈ Coretemp.labels true oneSocket'.coretemps) ∧
      Freq.CoreIsCpu oneSocket.cpus ∧ Freq.CoreIsCpu oneSocket'.cpus := by
  have ho : Freq.InOrder oneSocket.cpus := by
    unfold Freq.InOrder
    decide +kernel
  have hnu : ∀ dir ∈ Coretemp.coretempDirs oneSocket.coretemps,
    ∀ dir' ∈ Coretemp.coretempDirs oneSocket'.coretemps,
      dir.name = dir'.name → ∀ k, Coretemp.numbered true dir k = Coretemp.numbered true dir' k := by
    intro dir hdir dir' hdir' _
    obtain rfl := mem_singleton.1 (mem_filter.1 hdir).1
    obtain rfl := mem_singleton.1 (mem_filter.1 hdir').1
    exact Coretemp.numbered_of_perm (.swap _ _ _) (by decide +kernel)
  exact (same_labels_iff oneSocket_sameMachine true).2 ⟨⟨ho, ho⟩, by decide +kernel, hnu⟩

/-- A node with two sockets of one core each, and the same node listed the other way round. -/
def twoSockets : Listing :=
  ⟨[cpuDir "cpu0".toList, cpuDir "cpu1".toList],
    [⟨"coretemp.0".toList, [entry0]⟩, ⟨"coretemp.1".toList, [entry0]⟩], by decide⟩

def twoSockets' : Listing :=
  ⟨[cpuDir "cpu1".toList, cpuDir "cpu0".toList],
    [⟨"coretemp.1".toList, [entry0]⟩, ⟨"coretemp.0".toList, [entry0]⟩], by decide⟩

/-- The frequency of `cpu1` is that of `core0`, and the temperatures change their labels. -/
theorem twoSockets_labels_swapped :
    SameMachine twoSockets twoSockets' ∧
      Freq.labels twoSockets'.cpus =
      [("core0".toList, "cpu1".toList), ("core1".toList, "cpu0".toList)] ∧
      Coretemp.labels true twoSockets.coretemps =
      [("core0".toList, "coretemp.0".toList, entry0),
      ("core1".toList, "coretemp.1".toList, entry0)] ∧
      Coretemp.labels true twoSockets'.coretemps =
      [("core0".toList, "coretemp.1".toList, entry0),
      ("core1".toList, "coretemp.0".toList, entry0)] := by
  have hsa : SameMachine twoSockets twoSockets' :=
    ⟨.swap _ _ _, _, .swap _ _ _, .cons ⟨rfl, .refl _⟩ (.cons ⟨rfl, .refl _⟩ .nil)⟩
  exact ⟨hsa, by decide +kernel, by decide +kernel, by decide +kernel⟩

end Sensys.Cores
