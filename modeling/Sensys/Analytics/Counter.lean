import Mathlib
import Sensys.Lib.Slice
import Sensys.Orte.Extract
/-!
# Counts over a time window (`orcm/mca/analytics/cott/`)

| here | there |
| --- | --- |
| `AnalyzeCounter` | `analyze_counter` (`analyze_counter.h:42-58`) |
| `duration`, `setWindowSize` | `analyze_counter::set_window_size` (`analyze_counter.cpp:32-53`) |
| `setThreshold` | `:55-60` |
| `addValue` | `:62-104`, with the arguments of the callback if it is called |
| `HostCounters`, `HostCounters.addValue` | `host_analyze_counters` (`host_analyze_counters.cpp:85-114`) |

Times are integers: a difference of two of them fits into a `time_t`.
-/
namespace Sensys.Cott
open Lists Orte

/-- A value of the counter and its time. -/
abbrev Sample := UInt32 × Int

structure AnalyzeCounter where
  windowSize : Int
  threshold  : UInt32
  pastData   : List Sample
  windowSize_pos : 1 ≤ windowSize
  threshold_ne   : threshold ≠ 0

structure Event where
  errorCount : UInt32
  elapsed    : Int
  data       : List UInt32
deriving DecidableEq, Repr

namespace AnalyzeCounter

/-- The constructor. -/
def new : AnalyzeCounter := ⟨1, 1, [], by decide, by decide⟩

def isSpace (c : Char) : Bool := c ∈ [' ', '\t', '\n', '\r', '\x0c']

def factor : Char → Option Nat
  | 's' => some 1
  | 'm' => some 60
  | 'h' => some 3600
  | 'd' => some 86400
  | _ => none

/-- `strtoull` keeps to 64 bits, and the product is one of 64 bits with a sign. -/
def seconds (digits : Text) (factor : Nat) : Int :=
  (((min (Text.digitsValue digits) (2 ^ 64 - 1) : Nat) : Int).bmod (2 ^ 64) * factor).bmod (2 ^ 64)

def duration (durStr : Text) : Option Int :=
  let str := ((durStr.dropWhile isSpace).reverse.dropWhile isSpace).reverse
  let (str, factor) := match str.getLast?.bind factor with
    | some f => (str.dropLast, f)
    | none => (str, 1)
  if !str.isEmpty && str.all Char.isDigit then some (seconds str factor) else none

def setWindowSize (c : AnalyzeCounter) (durStr : Text) : AnalyzeCounter :=
  match duration durStr with
  | some val => if h : 1 ≤ val then { c with windowSize := val, windowSize_pos := h } else c
  | none => c

def setThreshold (c : AnalyzeCounter) (limit : UInt32) : AnalyzeCounter :=
  if h : limit ≠ 0 then { c with threshold := limit, threshold_ne := h } else c

def removeExpired (c : AnalyzeCounter) (tval : Int) : List Sample :=
  c.pastData.dropWhile fun p => tval - p.2 > c.windowSize

def addValue (c : AnalyzeCounter) (val : UInt32) (tval : Int) : AnalyzeCounter × Option Event :=
  let past := c.removeExpired tval
  if past.head?.any (val < ·.1) ||
    past.getLast?.any (val < ·.1) then ({ c with pastData := [(val, tval)] }, none)
  else
    match past.head? with
    | some front =>
      let errorCount := val - front.1
      if c.threshold ≤ errorCount then
        ({ c with pastData := [(val, tval)] },
          some ⟨errorCount, tval - front.2, past.map Prod.fst ++ [val]⟩)
      else ({ c with pastData := past ++ [(val, tval)] }, none)
    -- the count is 0, and the threshold is not
    | none => ({ c with pastData := past ++ [(val, tval)] }, none)

end AnalyzeCounter

/-! ## Counters of hosts -/

structure HostCounters where
  windowSize : Text
  threshold  : UInt32
  dataDb     : Text → Text → Option AnalyzeCounter

structure Call where
  host  : Text
  label : Text
  val   : UInt32
  tval  : Int
deriving DecidableEq, Repr

namespace HostCounters

def newCounter (h : HostCounters) : AnalyzeCounter :=
  (AnalyzeCounter.new.setWindowSize h.windowSize).setThreshold h.threshold

def counter (h : HostCounters) (host label : Text) : AnalyzeCounter :=
  (h.dataDb host label).getD h.newCounter

def addValue (h : HostCounters) (c : Call) : HostCounters × Option Event :=
  if c.host.isEmpty || c.label.isEmpty then (h, none)
  else
    let r := (h.counter c.host c.label).addValue c.val c.tval
    ({ h with dataDb := fun host label => if host = c.host ∧ label = c.label then some r.1
      else h.dataDb host label }, r.2)

variable {host label : Text} (hhost : host ≠ []) (hlabel : label ≠ [])
include hhost hlabel

theorem counter_addValue (h : HostCounters) (c : Call) :
    (h.addValue c).1.counter host label =
      if c.host = host ∧ c.label = label then ((h.counter host label).addValue c.val c.tval).1
      else h.counter host label := by
  unfold addValue
  by_cases hem : (c.host.isEmpty || c.label.isEmpty) = true
  · have hne : ¬ (c.host = host ∧ c.label = label) := by
      rintro ⟨rfl, rfl⟩
      simp [hhost, hlabel] at hem
    rw [if_pos hem, if_neg hne]
  · rw [if_neg hem]
    by_cases heq : c.host = host ∧ c.label = label
    · obtain ⟨rfl, rfl⟩ := heq
      simp [counter]
    · have hne : ¬ (host = c.host ∧ label = c.label) := fun h => heq ⟨h.1.symm, h.2.symm⟩
      simp [counter, newCounter, heq, hne]

/-- A counter sees the samples of its host and label, and no others. -/
theorem counter_foldl (h : HostCounters) (calls : List Call) :
    (calls.foldl (fun h c => (h.addValue c).1) h).counter host label =
      (calls.filter fun c => c.host = host ∧ c.label = label).foldl
      (fun a c => (a.addValue c.val c.tval).1) (h.counter host label) := by
  induction calls generalizing h with
  | nil => rfl
  | cons c calls ih =>
    rw [List.foldl_cons, ih, counter_addValue hhost hlabel]
    by_cases heq : c.host = host ∧ c.label = label
    · rw [if_pos heq, List.filter_cons_of_pos (by simpa using heq), List.foldl_cons]
    · rw [if_neg heq, List.filter_cons_of_neg (by simpa using heq)]

omit hhost hlabel in
/-- **Hosts and labels do not mix**: whatever else has been counted in between, a sample raises
the event that it raises behind the samples of its own host and label. -/
theorem event_after (h : HostCounters) (calls : List Call) (c : Call) :
    ((calls.foldl (fun h c => (h.addValue c).1) h).addValue c).2 =
      if c.host = [] ∨ c.label = [] then none
      else
        (((calls.filter fun d => d.host = c.host ∧ d.label = c.label).foldl
          (fun a d => (a.addValue d.val d.tval).1)
          (h.counter c.host c.label)).addValue c.val c.tval).2 := by
  by_cases hem : c.host = [] ∨ c.label = []
  · simp [addValue, hem]
  · obtain ⟨hhost, hlabel⟩ := not_or.1 hem
    rw [if_neg hem, ← counter_foldl hhost hlabel]
    simp [addValue, hhost, hlabel]

end HostCounters

namespace AnalyzeCounter

variable {c : AnalyzeCounter} {val : UInt32} {tval : Int} {front back : Sample}

theorem addValue_expired (h : c.removeExpired tval = []) :
    c.addValue val tval = ({ c with pastData := [(val, tval)] }, none) := by
  simp [addValue, h]

theorem addValue_reset {back : Sample} (hback : (c.removeExpired tval).getLast? = some back)
    (h : val < back.1) :
    c.addValue val tval = ({ c with pastData := [(val, tval)] }, none) := by
  simp [addValue, hback, h]

section
variable (hfront : (c.removeExpired tval).head? = some front)
  (hback : (c.removeExpired tval).getLast? = some back) (h : front.1 ≤ val)
  (h' : back.1 ≤ val)
include hfront hback h h'

theorem addValue_fires (hco : c.threshold ≤ val - front.1) :
    c.addValue val tval = ({ c with pastData := [(val, tval)] },
      some ⟨val - front.1, tval - front.2, (c.removeExpired tval).map Prod.fst ++ [val]⟩) := by
  simp [addValue, hfront, hback, UInt32.not_lt.2 h, UInt32.not_lt.2 h', hco]

theorem addValue_stores (hco : ¬ c.threshold ≤ val - front.1) :
    c.addValue val tval = ({ c with pastData := c.removeExpired tval ++ [(val, tval)] }, none) := by
  simp [addValue, hfront, hback, UInt32.not_lt.2 h, UInt32.not_lt.2 h', hco]

end

theorem addValue_settings (c : AnalyzeCounter) (val : UInt32) (tval : Int) :
    (c.addValue val tval).1.windowSize = c.windowSize ∧
      (c.addValue val tval).1.threshold = c.threshold := by
  unfold addValue
  dsimp only
  split
  · exact ⟨rfl, rfl⟩
  · split
    · split <;> exact ⟨rfl, rfl⟩
    · exact ⟨rfl, rfl⟩

end AnalyzeCounter

/-! ## A sequence of samples -/

section
variable (c : AnalyzeCounter) (s : Nat → Sample)

/-- The counter before the sample `n`. -/
def before : Nat → AnalyzeCounter
  | 0 => c
  | n + 1 => ((before n).addValue (s n).1 (s n).2).1

/-- What the callback is called with at the sample `n`, if it is. -/
def eventAt (n : Nat) : Option Event := ((before c s n).addValue (s n).1 (s n).2).2

/-- From the sample `j` on, before `n`, the callback was not called and the counter did not go
backwards. -/
structure Since (j n : Nat) : Prop where
  le       : j ≤ n
  no_event : ∀ i, j < i → i < n → eventAt c s i = none
  no_reset : ∀ i, j ≤ i → i < n → (s i).1 ≤ (s (i + 1)).1

def InWindow (j n : Nat) : Prop := (s n).2 - (s j).2 ≤ c.windowSize

variable {c s} (n : Nat)

theorem before_settings :
    (before c s n).windowSize = c.windowSize ∧ (before c s n).threshold = c.threshold := by
  induction n with
  | zero => exact ⟨rfl, rfl⟩
  | succ n ih =>
    obtain ⟨hw, ht⟩ := AnalyzeCounter.addValue_settings (before c s n) (s n).1 (s n).2
    exact ⟨hw.trans ih.1, ht.trans ih.2⟩

theorem Since.value_le {j n : Nat} (h : Since c s j n) {i : Nat} (hj : j ≤ i) (hn : i ≤ n) :
    (s j).1 ≤ (s i).1 := by
  induction i, hj using Nat.le_induction with
  | base => exact UInt32.le_refl _
  | succ i hji ih => exact UInt32.le_trans (ih (by omega)) (h.no_reset i hji (by omega))

theorem Since.refl : Since c s n n := ⟨Nat.le_refl n, fun i _ _ => by omega, fun i _ _ => by omega⟩

theorem InWindow.refl : InWindow c s n n := by
  have := c.windowSize_pos
  unfold InWindow
  omega

/-- The sample `j` is still stored before the sample `n`. -/
structure Kept (c : AnalyzeCounter) (s : Nat → Sample) (j n : Nat) : Prop where
  no_event : ∀ i, j < i → i < n → eventAt c s i = none
  no_reset : ∀ i, j ≤ i → i + 1 < n → (s i).1 ≤ (s (i + 1)).1
  window   : ∀ i, i < n → InWindow c s j i

/-- The samples from `k` on are the stored ones. -/
structure HoldsFrom (c : AnalyzeCounter) (s : Nat → Sample) (k n : Nat) : Prop where
  le   : k ≤ n
  past : (before c s n).pastData = slice s k n
  kept : ∀ j, j < n → (k ≤ j ↔ Kept c s j n)

variable (hmono : Monotone fun n => (s n).2) {k n : Nat} {j i n : Nat}
include hmono

theorem InWindow.mono_right (h : InWindow c s j n) (hi : i ≤ n) : InWindow c s j i := by
  have hle : (s i).2 ≤ (s n).2 := hmono hi
  unfold InWindow at h ⊢
  omega

theorem InWindow.mono_left (h : InWindow c s j n) (hi : j ≤ i) : InWindow c s i n := by
  have hle : (s j).2 ≤ (s i).2 := hmono hi
  unfold InWindow at h ⊢
  omega

theorem kept_succ_iff {j n : Nat} (hj : j ≤ n) :
    Kept c s j (n + 1) ↔ (Since c s j n ∧ InWindow c s j n) ∧ (j < n → eventAt c s n = none) := by
  constructor
  · intro h
    refine ⟨⟨⟨hj, fun i hji hin => h.no_event i hji (by omega),
      fun i hji hin => h.no_reset i hji (by omega)⟩, h.window n (by omega)⟩, ?_⟩
    exact fun hlt => h.no_event n hlt (by omega)
  · rintro ⟨⟨hsi, hwi⟩, hev⟩
    refine ⟨fun i hji hin => ?_, fun i hji hin => hsi.no_reset i hji (by omega),
      fun i hin => hwi.mono_right hmono (by omega)⟩
    obtain hlt | rfl := Nat.lt_or_eq_of_le (Nat.le_of_lt_succ hin)
    · exact hsi.no_event i hji hlt
    · exact hev hji

/-- The samples that are left after the expired ones were removed. -/
theorem HoldsFrom.exists_unexpired (h : HoldsFrom c s k n) :
    ∃ b, b ≤ n ∧ (before c s n).removeExpired (s n).2 = slice s b n ∧ ∀ j, j < n →
      (b ≤ j ↔ Kept c s j n ∧ InWindow c s j n) := by
  obtain ⟨b, hkb, hbn, hdr, hex, hb⟩ :=
    exists_dropWhile_slice s (fun p => (s n).2 - p.2 > (before c s n).windowSize) h.le
  rw [(before_settings n).1] at hdr hex hb
  refine ⟨b, hbn, by rw [AnalyzeCounter.removeExpired, h.past, (before_settings n).1, hdr], fun j hj => ?_⟩
  constructor
  · intro hbj
    have hwi : InWindow c s b n := by
      have := hb (by omega)
      simpa [InWindow] using this
    exact ⟨(h.kept j hj).1 (by omega), hwi.mono_left hmono hbj⟩
  · rintro ⟨hk, hwi⟩
    by_contra hlt
    have := hex j ((h.kept j hj).2 hk) (by omega)
    unfold InWindow at hwi
    simp only [gt_iff_lt, decide_eq_true_eq] at this
    omega

/-- What a sample does, by the earliest sample that counts. -/
structure Outcome (c : AnalyzeCounter) (s : Nat → Sample) (n j : Nat) : Prop where
  least   : IsLeast {i | Since c s i n ∧ InWindow c s i n} j
  event   : (eventAt c s n).isSome = true ↔ c.threshold ≤ (s n).1 - (s j).1
  count   : ∀ e ∈ eventAt c s n, e.errorCount = (s n).1 - (s j).1
  past    : (before c s (n + 1)).pastData = if (eventAt c s n).isSome then [s n]
    else slice s j (n + 1)

omit hmono in
theorem Outcome.of_restart {n : Nat}
    (hst : (before c s n).addValue (s n).1 (s n).2 =
      ({ before c s n with pastData := [s n] }, none))
    (hno : ∀ j, j < n → ¬ (Since c s j n ∧ InWindow c s j n)) : Outcome c s n n := by
  have hev : eventAt c s n = none := congrArg Prod.snd hst
  have hpa : (before c s (n + 1)).pastData = [s n] := congrArg (fun r => r.1.pastData) hst
  refine ⟨⟨⟨.refl n, .refl n⟩, fun j hj => ?_⟩, ?_, ?_, ?_⟩
  · by_contra hlt
    exact hno j (by omega) hj
  · have hne := c.threshold_ne
    simp [hev, UInt32.le_zero_iff, hne]
  · simp [hev]
  · rw [hev, hpa, slice_succ s (Nat.le_refl n), slice_of_le s (Nat.le_refl n)]
    rfl

theorem HoldsFrom.exists_outcome (h : HoldsFrom c s k n) : ∃ j, Outcome c s n j := by
  obtain ⟨b, hbn, hex, hb⟩ := h.exists_unexpired hmono
  have hk : ∀ j, j < n → Since c s j n → InWindow c s j n → b ≤ j := fun j hj hsi hwi =>
    (hb j hj).2 ⟨⟨fun i hji hin => hsi.no_event i hji hin,
      fun i hji hin => hsi.no_reset i hji (by omega), fun i hin => hwi.mono_right hmono (by omega)⟩,
      hwi⟩
  obtain rfl | hlt := Nat.eq_or_lt_of_le hbn
  · -- everything has expired
    rw [slice_of_le s (Nat.le_refl b)] at hex
    exact ⟨b, .of_restart (AnalyzeCounter.addValue_expired hex) fun j hj hco => by
      have := hk j hj hco.1 hco.2
      omega⟩
  · obtain ⟨m, rfl⟩ : ∃ m, n = m + 1 := ⟨n - 1, by omega⟩
    have hfront := head?_slice s hlt
    have hback := getLast?_slice s (Nat.le_of_lt_succ hlt)
    rw [← hex] at hfront hback
    by_cases hre : (s (m + 1)).1 < (s m).1
    · refine ⟨m + 1, .of_restart (AnalyzeCounter.addValue_reset hback hre) fun j hj hco => ?_⟩
      exact UInt32.not_le.2 hre (hco.1.no_reset m (by omega) (by omega))
    · -- the earliest sample that is left counts
      obtain ⟨hbk, hbw⟩ := (hb b hlt).1 (Nat.le_refl b)
      have hsi : Since c s b (m + 1) := by
        refine ⟨hbn, hbk.no_event, fun i hbi him => ?_⟩
        obtain rfl | hne := Nat.eq_or_lt_of_le (Nat.le_of_lt_succ him)
        · exact UInt32.not_lt.1 hre
        · exact hbk.no_reset i hbi (by omega)
      have hf := hsi.value_le hbn (Nat.le_refl _)
      have hle : IsLeast {i | Since c s i (m + 1) ∧ InWindow c s i (m + 1)} b := by
        refine ⟨⟨hsi, hbw⟩, fun j hco => ?_⟩
        obtain hj | hj := Nat.lt_or_ge j (m + 1)
        · exact hk j hj hco.1 hco.2
        · omega
      have hth := (before_settings (c := c) (s := s) (m + 1)).2
      refine ⟨b, ?_⟩
      by_cases hcou : c.threshold ≤ (s (m + 1)).1 - (s b).1
      · have hst := AnalyzeCounter.addValue_fires hfront hback hf (UInt32.not_lt.1 hre) (hth ▸ hcou)
        have hev := congrArg Prod.snd hst
        have hpa : (before c s (m + 2)).pastData = [s (m + 1)] :=
          congrArg (fun r => r.1.pastData) hst
        rw [← eventAt] at hev
        exact ⟨hle, by simp [hev, hcou], by simp [hev], by rw [hpa, hev]; rfl⟩
      · have hst :=
          AnalyzeCounter.addValue_stores hfront hback hf (UInt32.not_lt.1 hre) (hth ▸ hcou)
        have hev := congrArg Prod.snd hst
        have hpa : (before c s (m + 2)).pastData = slice s b (m + 1) ++ [s (m + 1)] := by
          rw [← hex]
          exact congrArg (fun r => r.1.pastData) hst
        rw [← eventAt] at hev
        exact ⟨hle, by simp [hev, hcou], by simp [hev], by rw [hpa, hev, slice_succ s hbn]; rfl⟩

theorem Outcome.holdsFrom {n j : Nat} (h : Outcome c s n j) : ∃ k, HoldsFrom c s k (n + 1) := by
  have hjn : j ≤ n := h.least.1.1.le
  -- the samples that count are the ones from `j` on
  have hco : ∀ i, i ≤ n → ((Since c s i n ∧ InWindow c s i n) ↔ j ≤ i) := by
    intro i hi
    refine ⟨fun hi => h.least.2 hi, fun hji => ⟨⟨hi, ?_, ?_⟩, h.least.1.2.mono_left hmono hji⟩⟩
    · exact fun l hil hln => h.least.1.1.no_event l (by omega) hln
    · exact fun l hil hln => h.least.1.1.no_reset l (by omega) hln
  cases hev : eventAt c s n with
  | none =>
    refine ⟨j, by omega, by rw [h.past, hev]; rfl, fun i hi => ?_⟩
    rw [kept_succ_iff hmono (Nat.le_of_lt_succ hi), hco i (Nat.le_of_lt_succ hi)]
    exact ⟨fun hji => ⟨hji, fun _ => hev⟩, And.left⟩
  | some e =>
    refine ⟨n, by omega, ?_, fun i hi => ?_⟩
    · rw [h.past, hev, slice_succ s (Nat.le_refl n), slice_of_le s (Nat.le_refl n)]
      rfl
    · rw [kept_succ_iff hmono (Nat.le_of_lt_succ hi), hco i (Nat.le_of_lt_succ hi), hev]
      refine ⟨fun hni => ⟨by omega, fun hlt => by omega⟩, fun ⟨_, hlt⟩ => ?_⟩
      by_contra hni
      cases hlt (by omega)

theorem exists_holdsFrom (hc : c.pastData = []) (n : Nat) : ∃ k, HoldsFrom c s k n := by
  induction n with
  | zero => exact ⟨0, Nat.le_refl 0, hc, fun j hj => by omega⟩
  | succ n ih =>
    obtain ⟨k, hk⟩ := ih
    obtain ⟨j, hj⟩ := hk.exists_outcome hmono
    exact hj.holdsFrom hmono

omit hmono in
theorem HoldsFrom.pairwise (h : HoldsFrom c s k n) :
    ((before c s n).pastData.map Prod.fst).Pairwise (· ≤ ·) := by
  rw [h.past, List.pairwise_map]
  refine pairwise_slice fun i j hki hij hjn => ?_
  have hk := (h.kept i (by omega)).1 hki
  have hsi : Since c s i j :=
    ⟨by omega, fun l hl hlj => hk.no_event l hl (by omega),
    fun l hl hlj => hk.no_reset l hl (by omega)⟩
  exact hsi.value_le (by omega) (Nat.le_refl j)

omit hmono in
theorem threshold_le_sub_iff {a b t : UInt32} (h : a ≤ b) :
    t ≤ b - a ↔ a.toNat + t.toNat ≤ b.toNat := by
  rw [UInt32.le_iff_toNat_le, UInt32.toNat_sub_of_le _ _ h]
  have := UInt32.le_iff_toNat_le.1 h
  omega

/-- The callback is called at a sample if and only if its value is by the threshold above the one
of the earliest sample that is in the window and not before the last call or reset; the count is
the difference, and the stored values do not decrease. -/
theorem eventAt_iff (hc : c.pastData = []) (n : Nat) :
    (∃ j, IsLeast {i | Since c s i n ∧ InWindow c s i n} j ∧ (s j).1 ≤ (s n).1 ∧
        ((eventAt c s n).isSome = true ↔ (s j).1.toNat + c.threshold.toNat ≤ (s n).1.toNat) ∧
        ∀ e ∈ eventAt c s n, (s j).1.toNat + e.errorCount.toNat = (s n).1.toNat) ∧
      ((before c s n).pastData.map Prod.fst).Pairwise (· ≤ ·) := by
  obtain ⟨k, hk⟩ := exists_holdsFrom hmono hc n
  obtain ⟨j, hj⟩ := hk.exists_outcome hmono
  have hle : (s j).1 ≤ (s n).1 := hj.least.1.1.value_le hj.least.1.1.le (Nat.le_refl n)
  refine ⟨⟨j, hj.least, hle, hj.event.trans (threshold_le_sub_iff hle), fun e he => ?_⟩,
    hk.pairwise⟩
  have hnat := UInt32.le_iff_toNat_le.1 hle
  rw [hj.count e he, UInt32.toNat_sub_of_le _ _ hle]
  omega

end

def tenInFive : AnalyzeCounter := (AnalyzeCounter.new.setWindowSize ['5', 's']).setThreshold 10

def steady (n : Nat) : Sample := (UInt32.ofNat (10 * n), n)

theorem steady_monotone : Monotone fun n => (steady n).2 := fun _ _ h => Int.ofNat_le.2 h

theorem steady_counts :
    (eventAt tenInFive steady 1).isSome = true ∧
      (∃ j, IsLeast {i | Since tenInFive steady i 1 ∧ InWindow tenInFive steady i 1} j ∧
      (steady j).1 ≤ (steady 1).1 ∧
        ((eventAt tenInFive steady 1).isSome = true ↔
        (steady j).1.toNat + tenInFive.threshold.toNat ≤ (steady 1).1.toNat) ∧
        ∀ e ∈ eventAt tenInFive steady 1,
        (steady j).1.toNat + e.errorCount.toNat = (steady 1).1.toNat) ∧
      ((before tenInFive steady 1).pastData.map Prod.fst).Pairwise (· ≤ ·) :=
  ⟨by decide +kernel, eventAt_iff steady_monotone (by decide +kernel) 1⟩

end Sensys.Cott
