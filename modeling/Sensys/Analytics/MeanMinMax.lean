import Mathlib.Algebra.Order.BigOperators.Group.List
import Mathlib.Tactic.FieldSimp
import Mathlib.Tactic.Linarith
import Mathlib.Tactic.LinearCombination
import Mathlib.Tactic.Ring
import Sensys.Analytics.Aggregate
import Sensys.Analytics.Spatial
import Sensys.Analytics.TimeWindows
/-!
# Mean, minimum and maximum in three steps

The window, the spatial and the aggregate step compute the mean, the minimum and the maximum of
the values they are given, each with a loop of its own. `exact_iff` says for which values all
three are right, however the values are split into samples.
-/
namespace Sensys.Analytics
open Orte Opal List

inductive Statistic where
  | average
  | min
  | max
deriving DecidableEq, Repr

namespace Statistic

def word : Statistic → Text
  | .average => Window.averageWord
  | .min => Window.minWord
  | .max => Window.maxWord

def type : Statistic → Spatial.ComputeType
  | .average => .ave
  | .min => .min
  | .max => .max

/-- The number `v` is this of the values. -/
def Of : Statistic → List ℚ → ℚ → Prop
  | .average, values, v => v = values.sum / values.length
  | .min, values, v => values.min? = some v
  | .max, values, v => values.max? = some v

end Statistic

/-! ## The window step -/

variable {parts : List (List Reading)} {r : Reading} {values : List ℚ}

section
open Window

/-- What `accumulate` does to the number. -/
def combine (computeType : Option Text) (acc num : ℚ) : ℚ :=
  if starts averageWord computeType then acc + num
  else if starts minWord computeType then if num < acc then num else acc
  else if starts maxWord computeType then if num > acc then num else acc
  else acc + num

theorem accumulate_sumMinMax (w : WinStatistics) (num : ℚ) :
    (accumulate w num).sumMinMax = combine w.computeType w.sumMinMax num ∧
      (accumulate w num).computeType = w.computeType := by
  unfold accumulate combine
  split_ifs <;> exact ⟨rfl, rfl⟩

theorem foldl_accumulate_sumMinMax (numbers : List ℚ) (w : WinStatistics) :
    (numbers.foldl accumulate w).sumMinMax = numbers.foldl (combine w.computeType) w.sumMinMax := by
  induction numbers generalizing w with
  | nil => rfl
  | cons num numbers ih =>
    obtain ⟨hsum, htype⟩ := accumulate_sumMinMax w num
    rw [foldl_cons, ih, hsum, htype, foldl_cons]

theorem foldl_accumulateData (parts : List (List Reading)) (w : WinStatistics) :
    (parts.foldl accumulateData w).sumMinMax =
      (parts.flatten.map getNumber).foldl (combine w.computeType) w.sumMinMax ∧
      (parts.foldl accumulateData w).computeType = w.computeType ∧
      (parts.foldl accumulateData w).numSampleRecv = w.numSampleRecv + parts.length ∧
      (parts.foldl accumulateData w).numDataPoint = w.numDataPoint + parts.flatten.length := by
  induction parts generalizing w with
  | nil => exact ⟨rfl, rfl, rfl, rfl⟩
  | cons data parts ih =>
    obtain ⟨hset, hre, hpo⟩ := accumulateData_settings w data
    have hsum : (accumulateData w data).sumMinMax =
        (data.map getNumber).foldl (combine w.computeType) w.sumMinMax :=
      foldl_accumulate_sumMinMax _ _
    obtain ⟨h1, h2, h3, h4⟩ := ih (accumulateData w data)
    rw [foldl_cons]
    refine ⟨?_, h2.trans hset.computeType, ?_, ?_⟩
    · rw [h1, hsum, hset.computeType, flatten_cons, map_append, foldl_append]
    · rw [h3, hre, length_cons]
      omega
    · rw [h4, hpo, flatten_cons, length_append]
      omega

theorem combine_average : combine (some averageWord) = (· + ·) := rfl

theorem combine_min : combine (some minWord) = min := by
  funext acc num
  exact (min_def_lt' acc num).symm

theorem combine_max : combine (some maxWord) = max := by
  funext acc num
  exact (max_def_lt acc num).symm

variable (sqrt : ℚ → ℚ)

theorem handleFullWindow_parts (k : Statistic) (hne : parts ≠ []) {w : WinStatistics}
    (hw : w.computeType = some k.word) (left incre : UInt64) :
    handleFullWindow sqrt (parts.foldl accumulateData (resetWindow w left incre)) .sent =
      .ok (some ⟨Spatial.aggregate sqrt (parts.flatten.map getNumber) k.type, parts.length,
      parts.flatten.length⟩) := by
  obtain ⟨hsum, htype, hre, hpo⟩ := foldl_accumulateData parts (resetWindow w left incre)
  generalize parts.foldl accumulateData (resetWindow w left incre) = v at *
  have hre' : v.numSampleRecv = parts.length := hre.trans (Nat.zero_add _)
  have hpo' : v.numDataPoint = parts.flatten.length := hpo.trans (Nat.zero_add _)
  have htype' : v.computeType = some k.word := htype.trans hw
  have hpos : v.numSampleRecv ≠ 0 := by
    rw [hre']
    exact mt length_eq_zero_iff.1 hne
  have hco : computing sqrt v = Spatial.aggregate sqrt (parts.flatten.map getNumber) k.type := by
    have hsum' : v.sumMinMax = (parts.flatten.map getNumber).foldl (combine (some k.word))
        (initial (some k.word)) := by
      rw [hsum, ← hw]
      rfl
    rw [computing, htype', hsum']
    cases k with
    | average =>
      rw [hpo', Statistic.word, combine_average, Statistic.type, Spatial.aggregate,
        sum_eq_foldl, length_map]
      rfl
    | min =>
      rw [Statistic.word, combine_min]
      rfl
    | max =>
      rw [Statistic.word, combine_max]
      rfl
  rw [handleFullWindow, if_neg hpos, hco, hre', hpo']

end

/-! ## The aggregate step -/

section
open Aggregating

/-- The attribute for a statistic. -/
def attributesFor (k : Statistic) : List (Text × Text) :=
  [(['c', 'o', 'm', 'p', 'u', 't', 'e'], k.word)]

theorem analyzeAll_concat (attributes : List (Text × Text)) (parts : List (List Reading))
    (data : List Reading) :
    analyzeAll attributes (parts ++ [data]) =
      Aggregating.analyze attributes (analyzeAll attributes parts).state data .sent := by
  rw [analyzeAll, foldl_append]
  rfl

variable (a : Aggregate) {data : List Reading} {numbers more : List ℚ} {numbers : List ℚ}

theorem analyze_average (hne : data ≠ []) :
    Aggregating.analyze (attributesFor .average) a data .sent =
      ⟨(computeAverage a data).1, .ok (), some (computeAverage a data).1.average⟩ := by
  rw [Aggregating.analyze, if_neg hne]
  rfl

theorem analyze_min (hne : data ≠ []) :
    Aggregating.analyze (attributesFor .min) a data .sent =
      ⟨(computeMin a data).1, .ok (), some (computeMin a data).1.min⟩ := by
  rw [Aggregating.analyze, if_neg hne]
  rfl

theorem analyze_max (hne : data ≠ []) :
    Aggregating.analyze (attributesFor .max) a data .sent =
      ⟨(computeMax a data).1, .ok (), some (computeMax a data).1.max⟩ := by
  rw [Aggregating.analyze, if_neg hne]
  rfl

theorem computeMin_min (data : List Reading) :
    (computeMin a data).1.min = (data.map getNumber).foldl min a.min := by
  unfold computeMin
  induction data generalizing a with
  | nil => rfl
  | cons x data ih =>
    rw [foldl_cons, map_cons, foldl_cons, ih, apply_ite Aggregate.min, ← min_def_lt']

theorem computeMax_max (data : List Reading) :
    (computeMax a data).1.max = (data.map getNumber).foldl max a.max := by
  unfold computeMax
  induction data generalizing a with
  | nil => rfl
  | cons x data ih =>
    rw [foldl_cons, map_cons, foldl_cons, ih, apply_ite Aggregate.max, ← max_def_lt]

/-- A statistic that is kept in one member, with an operation for each number. -/
theorem analyzeAll_foldl {k : Statistic} {f : Aggregate → List Reading → Aggregate}
    {member : Aggregate → ℚ} {op : ℚ → ℚ → ℚ}
    (hst : ∀ a {data}, data ≠ [] →
    Aggregating.analyze (attributesFor k) a data .sent =
    ⟨f a data, .ok (), some (member (f a data))⟩)
    (hf : ∀ a data, member (f a data) = (data.map getNumber).foldl op (member a))
    (hpa : ∀ data ∈ parts, data ≠ []) :
    member (analyzeAll (attributesFor k) parts).state =
      (parts.flatten.map getNumber).foldl op (member .new) ∧
      (parts ≠ [] → (analyzeAll (attributesFor k) parts).emitted =
      some ((parts.flatten.map getNumber).foldl op (member .new))) := by
  induction parts using List.reverseRecOn with
  | nil => exact ⟨rfl, fun h => absurd rfl h⟩
  | append_singleton parts data ih =>
    obtain ⟨hold, -⟩ := ih fun d hd => hpa d (by simp [hd])
    have hnew : member (f (analyzeAll (attributesFor k) parts).state data) =
        ((parts ++ [data]).flatten.map getNumber).foldl op (member .new) := by
      rw [hf, hold, flatten_append, map_append, foldl_append]
      simp
    rw [analyzeAll_concat, hst _ (hpa data (by simp))]
    exact ⟨hnew, fun _ => congrArg some hnew⟩

/-! The average is kept as a quotient, with a number of samples of 32 bits. -/

/-- The number of samples wraps at this many. -/
def counts : Nat := 2 ^ 32

/-- What comes behind the first `counts` numbers is their mean. -/
def MeanBehind (numbers : List ℚ) : Prop :=
  ∀ x ∈ numbers.drop counts, x = (numbers.take counts).sum / counts

theorem computeAverage_average (data : List Reading) :
    (computeAverage a data).1.average = (a.average * a.numSample.toNat + (data.map getNumber).sum) /
      (a.numSample.toNat + data.length) := by
  unfold computeAverage
  rw [sum_eq_foldl, foldl_map]

theorem analyzeAll_numSample (hpa : ∀ data ∈ parts, data ≠ []) :
    (analyzeAll (attributesFor .average) parts).state.numSample.toNat =
      parts.flatten.length % counts := by
  induction parts using List.reverseRecOn with
  | nil => rfl
  | append_singleton parts data ih =>
    have hold := ih fun d hd => hpa d (by simp [hd])
    rw [analyzeAll_concat, analyze_average _ (hpa data (by simp))]
    simp only [computeAverage, UInt32.toNat_add, UInt32.toNat_ofNat', hold, flatten_append,
      length_append, counts]
    simp

theorem MeanBehind.sum_eq (h : MeanBehind numbers) (hl : counts ≤ numbers.length) :
    numbers.sum = (numbers.take counts).sum / counts * numbers.length := by
  have hdr : (numbers.drop counts).sum = (numbers.length - counts : Nat) *
      ((numbers.take counts).sum / counts) := by
    rw [sum_eq_card_nsmul _ _ h, length_drop, nsmul_eq_mul]
  have hpos : (counts : ℚ) ≠ 0 := by norm_num [counts]
  calc numbers.sum = (numbers.take counts).sum + (numbers.drop counts).sum := by rw [← sum_append, take_append_drop]
    _ = _ := by
      rw [hdr, Nat.cast_sub hl]
      field_simp
      ring

theorem meanBehind_of_le (h : numbers.length ≤ counts) : MeanBehind numbers := by
  intro x hx
  rw [drop_of_length_le h] at hx
  cases hx

theorem MeanBehind.left (h : MeanBehind (numbers ++ more)) : MeanBehind numbers := by
  obtain hshort | hl := Nat.le_total numbers.length counts
  · exact meanBehind_of_le hshort
  intro x hx
  rw [h x (by rw [drop_append_of_le_length hl]; exact mem_append_left _ hx),
    take_append_of_le_length hl]

theorem MeanBehind.sum_right (h : MeanBehind (numbers ++ more)) (hl : counts ≤ numbers.length) :
    more.sum = more.length * ((numbers.take counts).sum / counts) := by
  rw [sum_eq_card_nsmul more _ ?_, nsmul_eq_mul]
  intro x hx
  rw [h x (by rw [drop_append_of_le_length hl]; exact mem_append_right _ hx),
    take_append_of_le_length hl]

/-- The running average is right while it has the numbers for it. -/
theorem analyzeAll_average (hpa : ∀ data ∈ parts, data ≠ [])
    (hm : MeanBehind (parts.flatten.map getNumber)) :
    (analyzeAll (attributesFor .average) parts).state.average * parts.flatten.length =
      (parts.flatten.map getNumber).sum ∧
      (parts ≠ [] → (analyzeAll (attributesFor .average) parts).emitted =
        some ((parts.flatten.map getNumber).sum / parts.flatten.length)) := by
  induction parts using List.reverseRecOn with
  | nil => exact ⟨by simp, fun h => absurd rfl h⟩
  | append_singleton parts data ih =>
    have hpa' : ∀ d ∈ parts, d ≠ [] := fun d hd => hpa d (by simp [hd])
    have hf : (parts ++ [data]).flatten = parts.flatten ++ data := by simp
    rw [hf, map_append] at hm ⊢
    obtain ⟨hold, -⟩ := ih hpa' hm.left
    have hnum := analyzeAll_numSample hpa'
    have hda : data ≠ [] := hpa data (by simp)
    have hlen : (data.length : ℚ) ≠ 0 := by simpa using hda
    rw [analyzeAll_concat, analyze_average _ hda]
    have hnew : (computeAverage (analyzeAll (attributesFor .average) parts).state data).1.average =
        (parts.flatten.map getNumber ++ data.map getNumber).sum /
        (parts.flatten ++ data).length := by
      rw [computeAverage_average, hnum, sum_append, length_append]
      generalize (analyzeAll (attributesFor .average) parts).state.average = average at *
      by_cases hshort : parts.flatten.length < counts
      · rw [Nat.mod_eq_of_lt hshort, hold]
        push_cast
        rfl
      · -- what comes is the mean of what there is, so the count has no part in it
        have hl : counts ≤ (parts.flatten.map getNumber).length := by
          rw [length_map]
          omega
        have hsum := hm.left.sum_eq hl
        have hmo := hm.sum_right hl
        generalize ((parts.flatten.map getNumber).take counts).sum / counts = mean at *
        rw [length_map] at hsum hmo
        have hpos : (0 : ℚ) < parts.flatten.length := by
          have : 0 < counts := by norm_num [counts]
          exact_mod_cast (by omega : 0 < parts.flatten.length)
        have hav : average = mean := mul_right_cancel₀ hpos.ne' (hold.trans hsum)
        rw [hsum, hmo, hav]
        push_cast
        rw [div_eq_div_iff (by positivity) (by positivity)]
        ring
    refine ⟨?_, fun _ => congrArg some hnew⟩
    rw [hnew, div_mul_cancel₀]
    rw [length_append]
    push_cast
    positivity

theorem analyzeAll_pair {data data' : List Reading} (hne : data ≠ []) (hne' : data' ≠ []) :
    (analyzeAll (attributesFor .average) [data, data']).emitted =
      some (((data.map getNumber).sum / data.length * (data.length % counts : Nat) +
      (data'.map getNumber).sum) /
        ((data.length % counts : Nat) + data'.length)) := by
  have hnum : (analyzeAll (attributesFor .average) [data]).state.numSample.toNat =
      data.length % counts := by
    rw [analyzeAll_numSample (by simpa using hne), flatten_singleton]
  have hf : (analyzeAll (attributesFor .average) [data]).state.average =
      (data.map getNumber).sum / data.length := by
    rw [← nil_append [data], analyzeAll_concat, analyze_average _ hne, computeAverage_average]
    simp [analyzeAll, Aggregate.new]
  rw [show [data, data'] = [data] ++ [data'] from rfl, analyzeAll_concat, analyze_average _ hne',
    computeAverage_average, hnum, hf]

end

/-- The values, in samples that are not empty. -/
structure Splits (readings : List Reading) (parts : List (List Reading)) : Prop where
  flatten  : parts.flatten = readings
  nonempty : ∀ data ∈ parts, data ≠ []

section
variable (sqrt : ℚ → ℚ) (k : Statistic)

/-- The samples `parts` are counted in a window, which is then closed. -/
def windowEmits (k : Statistic) (parts : List (List Reading)) (v : ℚ) : Prop :=
  ∀ (w : Window.WinStatistics) (left incre : UInt64), w.computeType = some k.word →
    ∃ m, Window.handleFullWindow sqrt
    (parts.foldl Window.accumulateData (Window.resetWindow w left incre)) .sent = .ok (some m) ∧
    m.result = v

/-- The lists `parts` are in the buckets. -/
def spatialEmits (k : Statistic) (parts : List (List Reading)) (v : ℚ) : Prop :=
  ∀ s : Spatial.Statistics, s.computeType = some k.type → s.numDataPoint = 0 →
    s.result = Spatial.initial (some k.type) → s.held = parts →
    ∃ m, (Spatial.handleFullBucket sqrt s .sent).2 = .ok (some m) ∧ m.result = v

/-- The last result after the samples `parts`. -/
def aggregateEmits (k : Statistic) (parts : List (List Reading)) (v : ℚ) : Prop :=
  (Aggregating.analyzeAll (attributesFor k) parts).emitted = some v

/-- The three steps send the statistic of the values, however they are split. -/
def Exact (readings : List Reading) : Prop :=
  ∀ (k : Statistic) (parts : List (List Reading)), Splits readings parts →
    ∃ v, k.Of (readings.map Reading.value) v ∧ windowEmits sqrt k parts v ∧
    spatialEmits sqrt k parts v ∧ aggregateEmits k parts v

theorem Splits.ne_nil {readings : List Reading} (h : Splits readings parts) (hne : readings ≠ []) :
    parts ≠ [] := by
  rintro rfl
  exact hne h.flatten.symm

theorem windowEmits_aggregate (hne : parts ≠ []) :
    windowEmits sqrt k parts (Spatial.aggregate sqrt (parts.flatten.map getNumber) k.type) :=
  fun _ left incre hw => ⟨_, handleFullWindow_parts sqrt k hne hw left incre, rfl⟩

theorem spatialEmits_aggregate (hne : parts.flatten ≠ []) :
    spatialEmits sqrt k parts (Spatial.aggregate sqrt (parts.flatten.map getNumber) k.type) := by
  rintro s htype hnum hre rfl
  have hnu : s.numbers ≠ [] := mt map_eq_nil_iff.1 hne
  exact ⟨_, congrArg Prod.snd (Spatial.handleFullBucket_fresh sqrt htype hnum hre hnu), rfl⟩

theorem eq_of_windowEmits {k : Statistic} (hne : parts ≠ []) {v : ℚ}
    (h : windowEmits sqrt k parts v) :
    v = Spatial.aggregate sqrt (parts.flatten.map getNumber) k.type := by
  obtain ⟨m, hm, rfl⟩ := h { Window.WinStatistics.new with computeType := some k.word } 0 0 rfl
  rw [handleFullWindow_parts sqrt k hne rfl] at hm
  rw [← Option.some.inj (Except.ok.inj hm)]

end

/-! ## Numbers and values -/

variable {type type' : IntType} {n m : Int}

/-- The integer that is converted: a large unsigned one is read as a negative one. -/
theorem getNumber_integer (h : Reading.Valid (.integer type n)) :
    getNumber (.integer type n) =
      (if type = .uint64 ∧ 2 ^ 63 ≤ n then n - 2 ^ 64 else n : Int) := by
  cases type with
  | uint64 =>
    have hmod : n % (2 ^ 64 : Nat) = n := Int.emod_eq_of_lt h.1 (Int.lt_of_le_sub_one h.2)
    rw [getNumber, Int.bmod_def, hmod]
    split_ifs <;> grind
  | _ => simp [getNumber]

theorem getNumber_eq (h : r.Valid) (hbig : ∀ n, r = .integer .uint64 n → n < 2 ^ 63) :
    getNumber r = r.value := by
  cases r with
  | real | other => rfl
  | integer type n =>
    rw [getNumber_integer h, if_neg, Reading.value]
    rintro ⟨rfl, hn⟩
    exact hn.not_gt (hbig n rfl)

theorem getNumber_lt (h : Reading.Valid (.integer .uint64 n)) (hbig : 2 ^ 63 ≤ n) :
    getNumber (.integer .uint64 n) < Reading.value (.integer .uint64 n) := by
  rw [getNumber_integer h, if_pos ⟨rfl, hbig⟩, Reading.value, Int.cast_lt]
  omega

theorem getNumber_le (h : r.Valid) : getNumber r ≤ r.value := by
  by_cases hbig : ∀ n, r = .integer .uint64 n → n < 2 ^ 63
  · exact (getNumber_eq h hbig).le
  · push Not at hbig
    obtain ⟨n, rfl, hn⟩ := hbig
    exact (getNumber_lt h hn).le

/-- Whatever a conversion to doubles rounds to, the order is kept, unless the greater one is a
large unsigned integer and the other one is not large and not below what that is read as. -/
theorem getNumber_mono_iff (hn : Reading.Valid (.integer type n))
    (hm : Reading.Valid (.integer type' m)) (hle : n ≤ m) :
    (∀ toDouble : ℚ → ℚ, Monotone toDouble →
      toDouble (getNumber (.integer type n)) ≤ toDouble (getNumber (.integer type' m))) ↔
      (type' = .uint64 → 2 ^ 63 ≤ m → type = .uint64 ∧ 2 ^ 63 ≤ n ∨ n ≤ m - 2 ^ 64) := by
  have hint : getNumber (.integer type n) ≤ getNumber (.integer type' m) ↔
      (type' = .uint64 → 2 ^ 63 ≤ m → type = .uint64 ∧ 2 ^ 63 ≤ n ∨ n ≤ m - 2 ^ 64) := by
    rw [getNumber_integer hn, getNumber_integer hm, Int.cast_le]
    split_ifs <;> grind
  rw [← hint]
  exact ⟨fun h => h id monotone_id, fun h toDouble hmo => hmo h⟩

theorem getNumber_mono_small : getNumber (.integer .int8 (-1)) ≤ getNumber (.integer .uint64 7) :=
  (getNumber_mono_iff ⟨by decide, by decide⟩ ⟨by decide, by decide⟩ (by decide)).mpr
    (fun _ h => absurd h (by decide)) id monotone_id

theorem large_below_zero :
    Reading.Valid (.integer .int 0) ∧ Reading.Valid (.integer .uint64 (2 ^ 63)) ∧
    getNumber (.integer .uint64 (2 ^ 63)) < getNumber (.integer .int 0) :=
  ⟨⟨by decide, by decide⟩, ⟨by decide, by decide⟩, by decide +kernel⟩

theorem dblMax_ge : (2 : ℚ) ^ 64 ≤ dblMax := by
  calc (2 : ℚ) ^ 64 ≤ 2 ^ 971 := pow_le_pow_right₀ (by norm_num) (by norm_num)
    _ = 1 * 2 ^ 971 := (one_mul _).symm
    _ ≤ (2 ^ 53 - 1) * 2 ^ 971 := mul_le_mul_of_nonneg_right (by norm_num) (by positivity)

theorem Reading.Valid.bounds (h : r.Valid) : -dblMax ≤ r.value ∧ r.value ≤ dblMax := by
  cases r with
  | real x => exact h
  | other => exact h.elim
  | integer type n =>
    have hmax := dblMax_ge
    have hlow : (-2 ^ 64 : ℚ) ≤ n := by exact_mod_cast (type.bounds_le.1.trans h.1)
    have hh : (n : ℚ) ≤ 2 ^ 64 := by exact_mod_cast (h.2.trans type.bounds_le.2)
    constructor
    · change -dblMax ≤ (n : ℚ)
      linarith
    · exact hh.trans hmax

/-! ## When all three are right -/

/-- A minimum that starts from a number above one of the values. -/
theorem min?_eq_foldl {b : ℚ} (h : ∃ x ∈ values, x ≤ b) :
    values.min? = some (values.foldl min b) := by
  obtain ⟨x, hx, hle⟩ := h
  obtain ⟨m, hm⟩ := Option.isSome_iff_exists.1 (isSome_min?_of_mem hx)
  have hmle : m ≤ x := (min?_eq_some_iff.1 hm).2 x hx
  rw [foldl_min, hm, Option.getD_some, min_eq_right (hmle.trans hle)]

theorem max?_eq_foldl {b : ℚ} (h : ∃ x ∈ values, b ≤ x) :
    values.max? = some (values.foldl max b) := by
  obtain ⟨x, hx, hle⟩ := h
  obtain ⟨m, hm⟩ := Option.isSome_iff_exists.1 (isSome_max?_of_mem hx)
  have hlem : x ≤ m := (max?_eq_some_iff.1 hm).2 x hx
  rw [foldl_max, hm, Option.getD_some, max_eq_right (hle.trans hlem)]

theorem splits_singleton {readings : List Reading} (hne : readings ≠ []) :
    Splits readings [readings] := ⟨by simp, by simpa using hne⟩

/-- A mean that is computed with a count that is too small. -/
theorem eq_mul_of_mean {first rest count m total : ℚ} (hpos : 0 < m) (hco : 0 ≤ count)
    (hlt : count < m) (hm : m < total)
    (h : (first / m * count + rest) / (count + (total - m)) = (first + rest) / total) :
    first = (first + rest) / total * m := by
  have hto : 0 < total := hpos.trans hm
  have hf : first = first / m * m := (div_mul_cancel₀ first hpos.ne').symm
  have hall : first + rest = (first + rest) / total * total := (div_mul_cancel₀ _ hto.ne').symm
  rw [div_eq_iff (by linarith)] at h
  generalize (first + rest) / total = mean at *
  generalize first / m = mean' at *
  have heq : (mean' - mean) * (count - m) = 0 := by linear_combination h - hall + hf
  obtain heq | heq := mul_eq_zero.1 heq
  · rw [hf, sub_eq_zero.1 heq]
  · linarith

section
variable {sqrt : ℚ → ℚ} {readings : List Reading}

theorem map_getNumber_eq (hvalid : ∀ r ∈ readings, r.Valid)
    (hbig : ∀ n, Reading.integer .uint64 n ∈ readings → n < 2 ^ 63) :
    readings.map getNumber = readings.map Reading.value := by
  refine map_congr_left fun r hr => getNumber_eq (hvalid r hr) fun n hn => hbig n ?_
  rw [← hn]
  exact hr

theorem exact_of (hne : readings ≠ []) (hvalid : ∀ r ∈ readings, r.Valid)
    (hbig : ∀ n, Reading.integer .uint64 n ∈ readings → n < 2 ^ 63)
    (hmax : ∃ r ∈ readings, dblMin ≤ r.value)
    (hm : MeanBehind (readings.map Reading.value)) : Exact sqrt readings := by
  intro k parts hsp
  have hpa := hsp.ne_nil hne
  have hf : parts.flatten ≠ [] := by rwa [hsp.flatten]
  have hnu : parts.flatten.map getNumber = readings.map Reading.value := by
    rw [hsp.flatten, map_getNumber_eq hvalid hbig]
  obtain ⟨r, hr, hle⟩ := hmax
  have hwi := windowEmits_aggregate sqrt k hpa
  have hspa := spatialEmits_aggregate sqrt k hf
  rw [hnu] at hwi hspa
  refine ⟨_, ?_, hwi, hspa, ?_⟩
  · cases k with
    | average => exact rfl
    | min => exact min?_eq_foldl ⟨_, mem_map_of_mem hr, (hvalid r hr).bounds.2⟩
    | max => exact max?_eq_foldl ⟨_, mem_map_of_mem hr, hle⟩
  · cases k with
    | average =>
      obtain ⟨-, h⟩ := analyzeAll_average hsp.nonempty (by rwa [hnu])
      rw [aggregateEmits, h hpa, hnu, hsp.flatten, Statistic.type, Spatial.aggregate, length_map]
    | min =>
      obtain ⟨-, h⟩ := analyzeAll_foldl (k := .min) analyze_min computeMin_min hsp.nonempty
      rw [aggregateEmits, h hpa, hnu]
      rfl
    | max =>
      obtain ⟨-, h⟩ := analyzeAll_foldl (k := .max) analyze_max computeMax_max hsp.nonempty
      have hsa := (max?_eq_foldl ⟨_, mem_map_of_mem hr, (hvalid r hr).bounds.1⟩).symm.trans
        (max?_eq_foldl ⟨_, mem_map_of_mem hr, hle⟩)
      rw [aggregateEmits, h hpa, hnu]
      exact hsa

section
variable (h : Exact sqrt readings) (hne : readings ≠ [])
include h hne

theorem Exact.dblMin_le : ∃ r ∈ readings, dblMin ≤ r.value := by
  obtain ⟨v, hv, hwi, -, -⟩ := h .max [readings] (splits_singleton hne)
  have hse := eq_of_windowEmits sqrt (by simp) hwi
  obtain ⟨r, hr, rfl⟩ := mem_map.1 (max?_eq_some_iff.1 hv).1
  refine ⟨r, hr, ?_⟩
  rw [hse, Statistic.type, Spatial.aggregate, foldl_max]
  exact le_max_left _ _

variable (hvalid : ∀ r ∈ readings, r.Valid)
include hvalid

theorem Exact.uint64_lt : ∀ n, Reading.integer .uint64 n ∈ readings → n < 2 ^ 63 := by
  intro n hn
  by_contra hbig
  obtain ⟨v, hv, hwi, -, -⟩ := h .average [readings] (splits_singleton hne)
  have hse := eq_of_windowEmits sqrt (by simp) hwi
  have hlt : (readings.map getNumber).sum < (readings.map Reading.value).sum :=
    sum_lt_sum _ _ (fun r hr => getNumber_le (hvalid r hr))
      ⟨_, hn, getNumber_lt (hvalid _ hn) (not_lt.1 hbig)⟩
  have hlen : (0 : ℚ) < readings.length := by
    have := length_pos_iff.2 hne
    exact_mod_cast this
  have heq : (readings.map getNumber).sum / readings.length =
      (readings.map Reading.value).sum / readings.length := by
    simpa [Statistic.Of, Statistic.type, Spatial.aggregate] using hse.symm.trans hv
  rw [div_left_inj' hlen.ne'] at heq
  exact hlt.ne heq

/-- Behind `counts` numbers, the mean of all of them is the mean of the first ones. -/
theorem Exact.sum_take {m : Nat} (hl : counts ≤ m) (hm : m < readings.length) :
    ((readings.map Reading.value).take m).sum =
      (readings.map Reading.value).sum / readings.length * m := by
  have hco : m % counts < m := (Nat.mod_lt m (by norm_num [counts])).trans_le hl
  have hleft : readings.take m ≠ [] := by
    rw [Ne, take_eq_nil_iff]
    exact not_or.2 ⟨by omega, hne⟩
  have hri : readings.drop m ≠ [] := by
    rw [Ne, drop_eq_nil_iff]
    omega
  have hsp : Splits readings [readings.take m, readings.drop m] :=
    ⟨by simp, by rintro data (_ | ⟨_, _ | ⟨_, ⟨⟩⟩⟩) <;> assumption⟩
  obtain ⟨v, hv, -, -, hse⟩ := h .average _ hsp
  have hnu : ∀ r ∈ readings, getNumber r = r.value :=
    fun r hr => getNumber_eq (hvalid r hr) fun n hn =>
    h.uint64_lt hne hvalid n (by rw [← hn]; exact hr)
  rw [aggregateEmits, analyzeAll_pair hleft hri,
    map_congr_left fun r hr => hnu r (mem_of_mem_take hr),
    map_congr_left fun r hr => hnu r (mem_of_mem_drop hr)] at hse
  have hlen : (readings.take m).length = m := length_take_of_le hm.le
  have hsum : (readings.map Reading.value).sum = ((readings.map Reading.value).take m).sum +
      ((readings.map Reading.value).drop m).sum := by
    rw [← sum_append, take_append_drop]
  have hme := (Option.some.inj hse).trans hv
  rw [hlen, length_drop, length_map, Nat.cast_sub hm.le, map_take, map_drop, hsum] at hme
  rw [hsum]
  have hpos : (0 : ℚ) < m := by exact_mod_cast (Nat.zero_le _).trans_lt hco
  exact eq_mul_of_mean hpos (Nat.cast_nonneg _) (by exact_mod_cast hco) (by exact_mod_cast hm) hme

/-- After `counts` values the average forgets how many there were. -/
theorem Exact.meanBehind : MeanBehind (readings.map Reading.value) := by
  intro x hx
  obtain ⟨i, hi, rfl⟩ := mem_iff_getElem.1 hx
  rw [length_drop, length_map] at hi
  have hta : ∀ m, counts ≤ m → m ≤ readings.length →
      ((readings.map Reading.value).take m).sum =
      (readings.map Reading.value).sum / readings.length * m := by
    intro m hl hm
    obtain hlt | rfl := Nat.lt_or_eq_of_le hm
    · exact h.sum_take hne hvalid hl hlt
    · have hpos : (readings.length : ℚ) ≠ 0 := by simpa using hne
      rw [div_mul_cancel₀ _ hpos, take_of_length_le (by rw [length_map])]
  have hnext := hta (counts + i + 1) (by omega) (by omega)
  rw [sum_take_succ _ _ (by rw [length_map]; omega),
    hta (counts + i) (by omega) (by omega)] at hnext
  have hpos : (counts : ℚ) ≠ 0 := by norm_num [counts]
  rw [getElem_drop, hta counts (Nat.le_refl _) (by omega), mul_div_cancel_right₀ _ hpos]
  push_cast at hnext
  linarith

end

/-- All three steps send the mean, the minimum and the maximum of the values if and only if no
value is an unsigned integer of `2 ^ 63` or more, one of them is at least the least positive
double, and those behind the first `2 ^ 32` are equal to the mean of these. -/
theorem exact_iff (hne : readings ≠ []) (hvalid : ∀ r ∈ readings, r.Valid) :
    Exact sqrt readings ↔
      (∀ n, Reading.integer .uint64 n ∈ readings → n < 2 ^ 63) ∧
      (∃ r ∈ readings, dblMin ≤ r.value) ∧
      MeanBehind (readings.map Reading.value) :=
  ⟨fun h => ⟨h.uint64_lt hne hvalid, h.dblMin_le hne, h.meanBehind hne hvalid⟩,
    fun ⟨hbig, hmax, hm⟩ =>
    exact_of hne hvalid hbig hmax hm⟩

end

theorem dblMin_pos : 0 < dblMin := div_pos one_pos (pow_pos two_pos 1022)

theorem dblMin_le_one : dblMin ≤ 1 := div_le_one_of_le₀ (one_le_pow₀ (by norm_num)) (by positivity)

/-- Below and above zero. -/
def mixedReadings : List Reading := [.integer .int (-3), .integer .uint64 8, .integer .int16 1]

theorem mixedReadings_exact : (∀ r ∈ mixedReadings, r.Valid) ∧ Exact id mixedReadings := by
  have hvalid : ∀ r ∈ mixedReadings, r.Valid := by
    intro r hr
    simp only [mixedReadings, mem_cons, not_mem_nil, or_false] at hr
    obtain rfl | rfl | rfl := hr <;> constructor <;> decide
  refine ⟨hvalid, (exact_iff (by simp [mixedReadings]) hvalid).2
    ⟨?_, ?_, meanBehind_of_le (by decide)⟩⟩
  · intro n hn
    simp only [mixedReadings, mem_cons, Reading.integer.injEq, not_mem_nil, or_false] at hn
    obtain ⟨h, -⟩ | ⟨-, rfl⟩ | ⟨h, -⟩ := hn
    · cases h
    · decide
    · cases h
  · refine ⟨.integer .int16 1, by simp [mixedReadings], ?_⟩
    simpa [Reading.value] using dblMin_le_one

/-- A single value below zero: the maximum of a window is the least positive double. -/
theorem negative_max :
    windowEmits id .max [[.integer .int (-5)]] dblMin ∧ ¬ Exact id [.integer .int (-5)] := by
  constructor
  · have hmax : Spatial.aggregate id [((-5 : ℤ) : ℚ)] .max = dblMin :=
      max_eq_left (le_trans (by norm_num) dblMin_pos.le)
    rw [← hmax]
    exact windowEmits_aggregate id .max (cons_ne_nil [Reading.integer .int (-5)] [])
  · intro h
    obtain ⟨r, hr, hle⟩ := h.dblMin_le (by simp)
    obtain rfl := mem_singleton.1 hr
    have := dblMin_pos
    simp [Reading.value] at hle
    linarith

end Sensys.Analytics
