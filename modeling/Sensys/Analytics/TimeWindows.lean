import Sensys.Analytics.Window
/-!
# Time windows

While sums of times and window sizes stay below `2 ^ 64`, every sample is counted in the window
that its time is in, and what is sent when a window is closed is computed of the samples that were
counted in it (`timeWindows`).
-/
namespace Sensys.Analytics.Window
open Orte List

/-- A sample that was accepted, with the window it was counted in. -/
structure Entry where
  left   : UInt64
  right  : UInt64
  time   : UInt64
  values : List Reading
deriving DecidableEq

def Input.time (x : Input) : Option UInt64 := x.nonCompute.bind getSampleTime

/-- The statistics, the samples that were accepted and the results that were sent, with the bounds
of the window that was closed. -/
structure History where
  state    : WinStatistics
  accepted : List Entry
  emitted  : List (UInt64 × UInt64 × Summary)

section
variable (sqrt : ℚ → ℚ) (attributes : List (Text × Text))

def History.step (r : History) (x : Input) : History :=
  let o := analyze sqrt attributes r.state x
  { state := o.state
    accepted := match o.rc with
      | .ok () =>
        r.accepted ++ [⟨o.state.winLeft, o.state.winRight, x.time.getD 0, x.computeData.getD []⟩]
      | .error _ => r.accepted
    emitted := match o.emitted with
      | some s => r.emitted ++ [(r.state.winLeft, r.state.winRight, s)]
      | none => r.emitted }

def History.run (inputs : List Input) : History :=
  inputs.foldl (History.step sqrt attributes) ⟨.new, [], []⟩

/-- What the attributes say. -/
def configured : WinStatistics :=
  match attributes.foldlM fillAttribute .new with
  | .ok w => w
  | .error _ => .new

/-- A window without samples. -/
def base : WinStatistics :=
  ⟨(configured attributes).winSize, 0, 0, 0, 0, initial (configured attributes).computeType, 0,
    (configured attributes).computeType, some ((configured attributes).winType.getD timeWord)⟩

/-- Before the first sample is accepted. -/
structure Fresh (w : WinStatistics) : Prop where
  winLeft       : w.winLeft = 0
  numSampleRecv : w.numSampleRecv = 0
  winSize       : w.winSize = 0 ∨ w.winSize = (configured attributes).winSize
  computeType   : w.computeType = none ∨ w.computeType = (configured attributes).computeType
  winType       : w.winType = none ∨ w.winType = (configured attributes).winType ∨
    w.winType = some ((configured attributes).winType.getD timeWord)

variable {attributes}

/-- A size replaces another one, but not the type of the computation or of the window. -/
def filled (size : Option UInt64) (compute type : Option Text) (w : WinStatistics) :
    WinStatistics :=
  { w with winSize := size.getD w.winSize, computeType := w.computeType.or compute, winType := w.winType.or type }

theorem filled_filled (size size' : Option UInt64) (compute compute' type type' : Option Text)
    (w : WinStatistics) :
    filled size compute type (filled size' compute' type' w) =
      filled (size.or size') (compute'.or compute) (type'.or type) w := by
  cases size <;> simp [filled, Option.or_assoc]

theorem exists_fillAttribute {attr : Text × Text} (h : attr.1 ∈ [winSizeWord] → attr.2 ≠ []) :
    ∃ size compute type, ∀ w, fillAttribute w attr = .ok (filled size compute type w) := by
  by_cases hsi : attr.1 = winSizeWord
  · obtain ⟨seconds, hse⟩ := exists_getTimeInSec (h (mem_singleton.2 hsi))
    exact ⟨some seconds, none, none, fun w => by simp [fillAttribute, filled, hsi, hse]⟩
  · by_cases hco : attr.1 = ['c', 'o', 'm', 'p', 'u', 't', 'e']
    · exact ⟨none, some attr.2, none, fun w => by simp [fillAttribute, filled, hco, winSizeWord]⟩
    · by_cases htype : attr.1 = ['t', 'y', 'p', 'e']
      · exact ⟨none, none, some attr.2, fun w => by simp [fillAttribute, filled, htype, winSizeWord]⟩
      · exact ⟨none, none, none, fun w => by simp [fillAttribute, filled, hsi, hco, htype]⟩

theorem exists_foldlM_fillAttribute (h : Timed [winSizeWord] attributes) :
    ∃ size compute type, ∀ w,
      attributes.foldlM fillAttribute w = .ok (filled size compute type w) := by
  induction attributes with
  | nil => exact ⟨none, none, none, fun w => by simp [filled, pure, Except.pure]⟩
  | cons attr attributes ih =>
    obtain ⟨hattr, hrest⟩ := forall_mem_cons.1 h
    obtain ⟨size, compute, type, ih⟩ := ih hrest
    obtain ⟨size', compute', type', hone⟩ := exists_fillAttribute hattr
    refine ⟨size.or size', compute'.or compute, type'.or type, fun w => ?_⟩
    rw [foldlM_cons, hone]
    exact (ih _).trans (congrArg Except.ok (filled_filled ..))

variable {w : WinStatistics} {old cur : List Entry} {r : History} {x : Input}

/-- The attributes are filled in again for each sample until one is accepted. -/
theorem Fresh.foldlM (hsize : Timed [winSizeWord] attributes) (h : Fresh attributes w) :
    ∃ v, attributes.foldlM fillAttribute w = .ok v ∧ Fresh attributes v ∧
      v.winSize = (configured attributes).winSize ∧
      v.computeType = (configured attributes).computeType ∧
      v.winType.getD timeWord = (configured attributes).winType.getD timeWord := by
  obtain ⟨size, compute, type, hf⟩ := exists_foldlM_fillAttribute hsize
  obtain ⟨hleft, hnum, hsi, hco, htype⟩ := h
  have hcon : configured attributes = filled size compute type .new := by
    rw [configured, hf]
  refine ⟨_, hf w, ?_⟩
  have hsi' : (filled size compute type w).winSize = (filled size compute type .new).winSize := by
    obtain hsi | hsi := hsi <;> cases size <;> simp_all [WinStatistics.new, filled]
  have hco' : (filled size compute type w).computeType =
      (filled size compute type .new).computeType := by
    obtain hco | hco := hco <;> cases compute <;> simp_all [WinStatistics.new, filled]
  have htype' : (filled size compute type w).winType = (filled size compute type .new).winType ∨
      (filled size compute type w).winType =
      some ((filled size compute type .new).winType.getD timeWord) := by
    obtain htype | htype | htype := htype <;> cases type <;> simp_all [WinStatistics.new, filled]
  rw [hcon]
  refine ⟨⟨hleft, hnum, Or.inr (hcon ▸ hsi'), Or.inr (hcon ▸ hco'), Or.inr (hcon ▸ htype')⟩,
    hsi', hco', ?_⟩
  obtain htype' | htype' := htype' <;> rw [htype']
  rfl

theorem Fresh.fillAttributes (hsize : Timed [winSizeWord] attributes) (h : Fresh attributes w)
    (htime : starts timeWord (base attributes).winType = true) :
    Fresh attributes (fillAttributes w attributes).1 ∧ ((fillAttributes w attributes).2 = .ok () →
      (base attributes).winSize ≠ 0 ∧ (fillAttributes w attributes).1 = base attributes) := by
  obtain ⟨v, hfill, hv, hsi, hco, htype⟩ := h.foldlM hsize
  rw [Window.fillAttributes, hfill]
  dsimp only [fillWinStatistics]
  have hf : Fresh attributes { v with winType := some (v.winType.getD timeWord) } :=
    ⟨hv.winLeft, hv.numSampleRecv, hv.winSize, hv.computeType, Or.inr (Or.inr (by rw [htype]))⟩
  have htime' : starts timeWord (some (v.winType.getD timeWord)) = true := by
    rw [htype]
    exact htime
  by_cases hz : v.winSize = 0
  · rw [if_pos hz]
    exact ⟨hv, fun hok => by cases hok⟩
  · rw [if_neg hz]
    simp only [htime', Bool.not_true, Bool.false_and, Bool.false_eq_true, if_false]
    split
    · exact ⟨hf, fun hok => by cases hok⟩
    · have hba : resetWindow { v with winType := some (v.winType.getD timeWord) } 0 0 =
          base attributes := by
        rw [resetWindow, base, ← hsi, ← hco, ← htype]
        rfl
      refine ⟨?_, fun _ => ⟨?_, hba⟩⟩
      · exact ⟨rfl, rfl, hv.winSize, hv.computeType, hf.winType⟩
      · rw [base, ← hsi]
        exact hz

/-! ## Statistics of the samples of a window -/

def WinStatistics.withBounds (w : WinStatistics) (left right : UInt64) : WinStatistics :=
  { w with winLeft := left, winRight := right }

theorem accumulate_withBounds (w : WinStatistics) (left right : UInt64) (num : ℚ) :
    accumulate (w.withBounds left right) num = (accumulate w num).withBounds left right := by
  unfold accumulate WinStatistics.withBounds
  split_ifs <;> rfl

theorem accumulateData_withBounds (w : WinStatistics) (left right : UInt64) (data : List Reading) :
    accumulateData (w.withBounds left right) data = (accumulateData w data).withBounds left right :=
  @foldl_hom _ _ _ (WinStatistics.withBounds · left right) _ _ _
    { w with numSampleRecv := w.numSampleRecv + 1, numDataPoint := w.numDataPoint + data.length }
    fun w => accumulate_withBounds w left right

/-- What is not changed by data. -/
structure SameSettings (w v : WinStatistics) : Prop where
  winSize     : w.winSize = v.winSize
  winLeft     : w.winLeft = v.winLeft
  winRight    : w.winRight = v.winRight
  computeType : w.computeType = v.computeType
  winType     : w.winType = v.winType

theorem SameSettings.trans {w v u : WinStatistics} (h : SameSettings w v) (h' : SameSettings v u) :
    SameSettings w u :=
  ⟨h.1.trans h'.1, h.2.trans h'.2, h.3.trans h'.3, h.4.trans h'.4, h.5.trans h'.5⟩

theorem accumulateData_settings (w : WinStatistics) (data : List Reading) :
    SameSettings (accumulateData w data) w ∧
      (accumulateData w data).numSampleRecv = w.numSampleRecv + 1 ∧
      (accumulateData w data).numDataPoint = w.numDataPoint + data.length := by
  refine foldlRecOn (motive := fun v => SameSettings v w ∧ v.numSampleRecv = w.numSampleRecv + 1 ∧
    v.numDataPoint = w.numDataPoint + data.length) _ _ ⟨⟨rfl, rfl, rfl, rfl, rfl⟩, rfl, rfl⟩
    fun v ⟨h, hco⟩ num _ => ?_
  unfold accumulate
  split_ifs <;> exact ⟨⟨h.winSize, h.winLeft, h.winRight, h.computeType, h.winType⟩, hco⟩

variable (attributes) in
/-- The statistics of the samples, one after the other. -/
def gather (l : List Entry) : WinStatistics :=
  l.foldl (fun w e => accumulateData w e.values) (base attributes)

theorem gather_concat (l : List Entry) (e : Entry) :
    gather attributes (l ++ [e]) = accumulateData (gather attributes l) e.values := by
  rw [gather, foldl_append]
  rfl

variable (attributes) in
theorem gather_settings (l : List Entry) :
    SameSettings (gather attributes l) (base attributes) ∧
      (gather attributes l).numSampleRecv = l.length ∧
      (gather attributes l).numDataPoint = (l.map fun e => e.values.length).sum := by
  induction l using List.reverseRecOn with
  | nil => exact ⟨⟨rfl, rfl, rfl, rfl, rfl⟩, rfl, rfl⟩
  | append_singleton l e ih =>
    obtain ⟨h, hnum, hpo⟩ := accumulateData_settings (gather attributes l) e.values
    rw [gather_concat]
    refine ⟨h.trans ih.1, ?_, ?_⟩
    · rw [hnum, ih.2.1, length_append]
      rfl
    · rw [hpo, ih.2.2, map_append, sum_append]
      simp

variable (attributes) in
/-- The result for the samples of a window. -/
def summarise (l : List Entry) : Summary :=
  ⟨computing sqrt (gather attributes l), l.length, (l.map fun e => e.values.length).sum⟩

/-! ## Windows that follow each other -/

def inWindow (left right : UInt64) (e : Entry) : Bool := e.left = left ∧ e.right = right

variable (attributes) in
/-- The windows up to the time `bound`: what is said of a run, of the part before the current
window. -/
structure Before (bound : Nat) (accepted : List Entry)
    (emitted : List (UInt64 × UInt64 × Summary)) : Prop where
  inside   : ∀ e ∈ accepted, e.left ≤ e.time ∧ e.time < e.right
  order    : accepted.Pairwise fun e e' => (e'.left = e.left ∧ e'.right = e.right) ∨
    e.right ≤ e'.left
  right_le : ∀ e ∈ accepted, e.right.toNat ≤ bound
  summary  : ∀ m ∈ emitted, m.1 < m.2.1 ∧ m.2.1.toNat ≤ bound ∧
    m.2.2 = summarise sqrt attributes (accepted.filter (inWindow m.1 m.2.1))
  once     : emitted.Pairwise fun m m' => m.2.1 ≤ m'.1

variable (attributes) in
/-- The samples `old` are in windows that were closed, and `cur` in the current one. -/
structure Sound (r : History) (old cur : List Entry) : Prop where
  accepted : r.accepted = old ++ cur
  before   : Before sqrt attributes r.state.winLeft.toNat old r.emitted
  cur_ne   : cur ≠ []
  cur_in   : ∀ e ∈ cur, (e.left = r.state.winLeft ∧ e.right = r.state.winRight) ∧ e.left ≤ e.time ∧
    e.time < e.right
  right    : r.state.winRight.toNat = r.state.winLeft.toNat + (base attributes).winSize.toNat
  room     : r.state.winRight.toNat + (base attributes).winSize.toNat < 2 ^ 64
  state    : r.state = (gather attributes cur).withBounds r.state.winLeft r.state.winRight

variable {sqrt} {emitted : List (UInt64 × UInt64 × Summary)} {accepted : List Entry}

theorem Before.mono {b b' : Nat}
    (h : Before sqrt attributes b accepted emitted) (hle : b ≤ b') :
    Before sqrt attributes b' accepted emitted :=
  ⟨h.inside, h.order, fun e he => Nat.le_trans (h.right_le e he) hle,
    fun m hm => ⟨(h.summary m hm).1, Nat.le_trans (h.summary m hm).2.1 hle, (h.summary m hm).2.2⟩,
    h.once⟩

theorem Before.filter_append {b : Nat}
    (h : Before sqrt attributes b old emitted) (hcur : ∀ e ∈ cur, b ≤ e.left.toNat)
    {m : UInt64 × UInt64 × Summary} (hm : m ∈ emitted) :
    (old ++ cur).filter (inWindow m.1 m.2.1) = old.filter (inWindow m.1 m.2.1) := by
  obtain ⟨hlt, hle, -⟩ := h.summary m hm
  have hno : cur.filter (inWindow m.1 m.2.1) = [] := by
    rw [filter_eq_nil_iff]
    intro e he hin
    have hleft : e.left = m.1 := (of_decide_eq_true hin).1
    have := hcur e he
    rw [UInt64.lt_iff_toNat_lt] at hlt
    rw [hleft] at this
    omega
  rw [List.filter_append, hno, List.append_nil]

section
variable (h : Sound sqrt attributes r old cur)
include h

theorem Sound.left_le : ∀ e ∈ cur, r.state.winLeft.toNat ≤ e.left.toNat :=
  fun e he => by rw [(h.cur_in e he).1.1]

theorem Sound.lt : r.state.winLeft < r.state.winRight := by
  obtain ⟨e, he⟩ := exists_mem_of_ne_nil cur h.cur_ne
  obtain ⟨⟨hl, hr⟩, hle, hlt⟩ := h.cur_in e he
  rw [← hl, ← hr]
  exact UInt64.lt_of_le_of_lt hle hlt

theorem Sound.upTo : Before sqrt attributes r.state.winRight.toNat r.accepted r.emitted := by
  have hbo := h.right
  rw [h.accepted]
  refine ⟨forall_mem_append.2 ⟨h.before.inside, fun e he => (h.cur_in e he).2⟩, ?_,
    forall_mem_append.2 ⟨fun e he => ?_, fun e he => by rw [(h.cur_in e he).1.2]⟩, fun m hm => ?_,
    h.before.once⟩
  · rw [pairwise_append]
    refine ⟨h.before.order, ?_, fun e he e' he' => Or.inr ?_⟩
    · refine pairwise_of_forall_mem_list fun e he e' he' => ?_
      exact Or.inl ⟨((h.cur_in e' he').1.1).trans (h.cur_in e he).1.1.symm,
        ((h.cur_in e' he').1.2).trans (h.cur_in e he).1.2.symm⟩
    · rw [(h.cur_in e' he').1.1, UInt64.le_iff_toNat_le]
      exact h.before.right_le e he
  · have := h.before.right_le e he
    omega
  · obtain ⟨hlt, hle, hsum⟩ := h.before.summary m hm
    exact ⟨hlt, by omega, by rw [h.before.filter_append h.left_le hm, hsum]⟩

theorem Sound.filter_current :
    r.accepted.filter (inWindow r.state.winLeft r.state.winRight) = cur := by
  -- samples of earlier windows have another left end
  have hold : old.filter (inWindow r.state.winLeft r.state.winRight) = [] := by
    rw [filter_eq_nil_iff]
    intro e he hin
    have hleft : e.left = r.state.winLeft := (of_decide_eq_true hin).1
    have hri := h.before.right_le e he
    have hins := h.before.inside e he
    have := UInt64.lt_iff_toNat_lt.1 (UInt64.lt_of_le_of_lt hins.1 hins.2)
    rw [hleft] at this
    omega
  have hcur : cur.filter (inWindow r.state.winLeft r.state.winRight) = cur :=
    filter_eq_self.2 fun e he => decide_eq_true (h.cur_in e he).1
  rw [h.accepted, filter_append, hold, hcur]
  rfl

theorem Sound.closed : Before sqrt attributes r.state.winRight.toNat r.accepted
    (r.emitted ++ [(r.state.winLeft, r.state.winRight, summarise sqrt attributes cur)]) := by
  have hup := h.upTo
  refine ⟨hup.inside, hup.order, hup.right_le, ?_, ?_⟩
  · exact forall_mem_append.2
      ⟨hup.summary, forall_mem_singleton.2 ⟨h.lt, Nat.le_refl _, by rw [h.filter_current]⟩⟩
  · rw [pairwise_append]
    refine ⟨h.before.once, pairwise_singleton _ _, fun m hm m' hm' => ?_⟩
    obtain rfl := mem_singleton.1 hm'
    exact UInt64.le_iff_toNat_le.2 (h.before.summary m hm).2.1

end

theorem Before.opens {bound : Nat}
    (h : Before sqrt attributes bound accepted emitted) {e : Entry} (hbo : bound ≤ e.left.toNat)
    (hin : e.left ≤ e.time ∧ e.time < e.right)
    (hri : e.right.toNat = e.left.toNat + (base attributes).winSize.toNat)
    (hroom : e.right.toNat + (base attributes).winSize.toNat < 2 ^ 64) :
    Sound sqrt attributes ⟨(accumulateData (base attributes) e.values).withBounds e.left e.right,
      accepted ++ [e], emitted⟩ accepted [e] where
  accepted := rfl
  before := h.mono hbo
  cur_ne := by simp
  cur_in := forall_mem_singleton.2 ⟨⟨rfl, rfl⟩, hin⟩
  right := hri
  room := hroom
  state := rfl

theorem Sound.adds (h : Sound sqrt attributes r old cur) {e : Entry}
    (hin : e.left = r.state.winLeft ∧ e.right = r.state.winRight)
    (hins : e.left ≤ e.time ∧ e.time < e.right) :
    Sound sqrt attributes ⟨accumulateData r.state e.values, r.accepted ++ [e], r.emitted⟩ old
      (cur ++ [e]) := by
  obtain ⟨hset, -, -⟩ := accumulateData_settings r.state e.values
  refine ⟨?_, ?_, by simp, ?_, ?_, ?_, ?_⟩
  · rw [h.accepted, append_assoc]
  · rw [hset.winLeft]
    exact h.before
  · rw [hset.winLeft, hset.winRight]
    exact forall_mem_append.2 ⟨h.cur_in, forall_mem_singleton.2 ⟨hin, hins⟩⟩
  · rw [hset.winLeft, hset.winRight]
    exact h.right
  · rw [hset.winRight]
    exact h.room
  · rw [hset.winLeft, hset.winRight, gather_concat, ← accumulateData_withBounds, ← h.state]

/-- The left end of the window that a sample opens. -/
def nextLeft (w : WinStatistics) (sampleTime : UInt64) : UInt64 :=
  if sampleTime ≥ w.winRight + w.winSize then sampleTime - sampleTime % w.winSize else w.winRight

theorem toNat_add_of_lt {a b : UInt64} (h : a.toNat + b.toNat < 2 ^ 64) :
    (a + b).toNat = a.toNat + b.toNat := by
  exact Nat.mod_eq_of_lt h

theorem nextLeft_spec {t : UInt64} (hle : w.winRight ≤ t) (hsi : w.winSize ≠ 0)
    (hroom : w.winRight.toNat + w.winSize.toNat < 2 ^ 64)
    (hfit : t.toNat + 2 * w.winSize.toNat < 2 ^ 64) :
    w.winRight.toNat ≤ (nextLeft w t).toNat ∧ nextLeft w t ≤ t ∧ t < nextLeft w t + w.winSize ∧
      (nextLeft w t + w.winSize).toNat = (nextLeft w t).toNat + w.winSize.toNat ∧
      (nextLeft w t + w.winSize).toNat + w.winSize.toNat < 2 ^ 64 := by
  have hpos : 0 < w.winSize.toNat := Nat.pos_of_ne_zero fun h => hsi (UInt64.toNat_inj.1 h)
  obtain ⟨hri, hl, ht⟩ : w.winRight.toNat ≤ (nextLeft w t).toNat ∧ (nextLeft w t).toNat ≤ t.toNat ∧
      t.toNat < (nextLeft w t).toNat + w.winSize.toNat := by
    unfold nextLeft
    rw [UInt64.le_iff_toNat_le] at hle
    have hsum := toNat_add_of_lt hroom
    have hmod := Nat.mod_lt t.toNat hpos
    split
    · rename_i hfar
      have hm : t % w.winSize ≤ t := UInt64.le_iff_toNat_le.2 (Nat.mod_le _ _)
      rw [ge_iff_le, UInt64.le_iff_toNat_le] at hfar
      rw [UInt64.toNat_sub_of_le _ _ hm, UInt64.toNat_mod]
      omega
    · rename_i hnea
      rw [ge_iff_le, UInt64.le_iff_toNat_le] at hnea
      omega
  have hadd : (nextLeft w t + w.winSize).toNat = (nextLeft w t).toNat + w.winSize.toNat :=
    toNat_add_of_lt (by omega)
  exact ⟨hri, UInt64.le_iff_toNat_le.2 hl, UInt64.lt_iff_toNat_lt.2 (by omega), hadd, by omega⟩

variable (sqrt) in
theorem doComputeTimeWindow_cases (hopen : w.winLeft ≠ w.winRight) (nonCompute : List TimeItem)
    (data : List Reading) (emission : Emission) :
    (∃ rc, doComputeTimeWindow sqrt w nonCompute data emission = ⟨w, .error rc, none⟩) ∨
    (∃ t, getSampleTime nonCompute = some t ∧ w.winLeft ≤ t ∧ t < w.winRight ∧
      doComputeTimeWindow sqrt w nonCompute data emission = ⟨accumulateData w data, .ok (), none⟩) ∨
    (∃ t emitted, getSampleTime nonCompute = some t ∧ w.winRight ≤ t ∧
      (emitted = none ∨ emitted = some ⟨computing sqrt w, w.numSampleRecv, w.numDataPoint⟩) ∧
      doComputeTimeWindow sqrt w nonCompute data emission =
        ⟨accumulateData (resetWindow w (nextLeft w t) w.winSize) data, .ok (), emitted⟩) := by
  unfold doComputeTimeWindow
  cases htime : getSampleTime nonCompute with
  | none => exact Or.inl ⟨.badParam, rfl⟩
  | some t =>
    dsimp only
    by_cases hl : t < w.winLeft
    · exact Or.inl ⟨.recvMoreThanPosted, by rw [if_pos hl]⟩
    rw [if_neg hl, if_neg hopen]
    by_cases hin : t ≥ w.winRight
    · rw [if_pos hin]
      have hre : (if t ≥ w.winRight + w.winSize then resetWindow w (t - t % w.winSize) w.winSize
          else resetWindow w w.winRight w.winSize) = resetWindow w (nextLeft w t) w.winSize := by
        unfold nextLeft
        split <;> rfl
      rw [hre]
      cases hf : handleFullWindow sqrt w emission with
      | error rc => exact Or.inl ⟨rc, rfl⟩
      | ok emitted =>
        refine Or.inr (Or.inr ⟨t, emitted, rfl, hin, ?_, rfl⟩)
        unfold handleFullWindow at hf
        split at hf
        · exact Or.inl (Except.ok.inj hf).symm
        · split at hf
          · exact Or.inr (Except.ok.inj hf).symm
          · cases hf
          · exact Or.inl (Except.ok.inj hf).symm
    · rw [if_neg hin]
      exact Or.inr (Or.inl ⟨t, rfl, UInt64.not_lt.1 hl, UInt64.not_le.1 hin, rfl⟩)

variable (sqrt) in
theorem doCompute_cases (htime : starts timeWord w.winType = true) (x : Input) :
    doCompute sqrt w x = ⟨w, .error .badParam, none⟩ ∨
      ∃ nonCompute data, x.time = getSampleTime nonCompute ∧ x.computeData = some data ∧
        doCompute sqrt w x = doComputeTimeWindow sqrt w nonCompute data x.emission := by
  unfold doCompute
  split
  · rename_i nonCompute value values _ hnon hda
    exact Or.inr ⟨nonCompute, value :: values,
      by rw [Input.time, hnon, Option.bind_some], hda, by rw [if_pos htime]⟩
  · exact Or.inl rfl

/-- Before the first sample is accepted, or in a window. -/
inductive Reached (sqrt : ℚ → ℚ) (attributes : List (Text × Text)) : History → Prop
  | fresh {r : History} (h : Fresh attributes r.state) (ha : r.accepted = [])
      (he : r.emitted = []) : Reached sqrt attributes r
  | sound {r : History} {old cur : List Entry}
      (h : Sound sqrt attributes r old cur) : Reached sqrt attributes r

/-- Sums with the size of the window stay below `2 ^ 64`. -/
def Fits (attributes : List (Text × Text)) (x : Input) : Prop :=
  ∀ t ∈ x.time, t.toNat + 2 * (base attributes).winSize.toNat < 2 ^ 64

theorem step_rejected {rc : Rc}
    (h : analyze sqrt attributes r.state x = ⟨r.state, .error rc, none⟩) :
    r.step sqrt attributes x = r := by
  simp only [History.step, h]

theorem step_accepted {emitted : Option Summary}
    (h : analyze sqrt attributes r.state x = ⟨w, .ok (), emitted⟩) :
    r.step sqrt attributes x =
      ⟨w, r.accepted ++ [⟨w.winLeft, w.winRight, x.time.getD 0, x.computeData.getD []⟩],
      r.emitted ++ (emitted.map fun s => (r.state.winLeft, r.state.winRight, s)).toList⟩ := by
  simp only [History.step, h]
  cases emitted <;> simp

theorem step_fresh (hsize : Timed [winSizeWord] attributes)
    (htime : starts timeWord (base attributes).winType = true) (h : Fresh attributes r.state)
    (ha : r.accepted = []) (he : r.emitted = []) (hfit : Fits attributes x) :
    Reached sqrt attributes (r.step sqrt attributes x) := by
  obtain ⟨hf, hba⟩ := h.fillAttributes hsize htime
  have hfr : ∀ {w : WinStatistics} {rc : Rc}, Fresh attributes w →
    analyze sqrt attributes r.state x = ⟨w, .error rc, none⟩ →
      Reached sqrt attributes (r.step sqrt attributes x) := by
    intro w rc hw han
    refine .fresh ?_ ?_ ?_ <;> simp only [History.step, han]
    · exact hw
    · exact ha
    · exact he
  cases hres : (fillAttributes r.state attributes).2 with
  | error rc =>
    refine @hfr _ rc hf ?_
    rw [analyze, if_pos h.numSampleRecv,
      show fillAttributes r.state attributes = (_, .error rc) from Prod.ext rfl hres]
  | ok u =>
    obtain ⟨hsi, hw⟩ := hba hres
    have han : analyze sqrt attributes r.state x = doCompute sqrt (base attributes) x := by
      rw [analyze, if_pos h.numSampleRecv,
        show fillAttributes r.state attributes = (base attributes, .ok ()) from Prod.ext hw hres]
    rw [hw] at hf
    obtain hbad | ⟨nonCompute, data, hsa, hda, hdo⟩ := doCompute_cases sqrt htime x
    · exact hfr hf (han.trans hbad)
    · cases hsam : getSampleTime nonCompute with
      | none =>
        have hbad : doComputeTimeWindow sqrt (base attributes) nonCompute data x.emission =
            ⟨base attributes, .error .badParam, none⟩ := by
          simp only [doComputeTimeWindow, hsam]
        exact hfr hf (han.trans (hdo.trans hbad))
      | some t =>
        have hxt : x.time = some t := hsa.trans hsam
        have hopen : doComputeTimeWindow sqrt (base attributes) nonCompute data x.emission =
            ⟨(accumulateData (base attributes) data).withBounds t (t + (base attributes).winSize),
            .ok (), none⟩ := by
          rw [← accumulateData_withBounds]
          simp [doComputeTimeWindow, hsam, base, WinStatistics.withBounds]
        have hroom := hfit t hxt
        have hpos : (base attributes).winSize.toNat ≠ 0 := fun h => hsi (UInt64.toNat_inj.1 h)
        have hri := @toNat_add_of_lt t (base attributes).winSize (by omega)
        rw [step_accepted (han.trans (hdo.trans hopen)), hxt, hda, ha, he]
        have hbe : Before sqrt attributes 0 [] [] := ⟨by simp, .nil, by simp, by simp, .nil⟩
        have hin : t < t + (base attributes).winSize := UInt64.lt_iff_toNat_lt.2 (by omega)
        have hend : (t + (base attributes).winSize).toNat + (base attributes).winSize.toNat <
          2 ^ 64 := by omega
        exact .sound (hbe.opens (e := ⟨t, t + (base attributes).winSize, t, data⟩) (Nat.zero_le _)
          ⟨UInt64.le_refl t, hin⟩ hri hend)

section
variable (h : Sound sqrt attributes r old cur)
include h

theorem Sound.settings :
    r.state.winSize = (base attributes).winSize ∧
      r.state.computeType = (base attributes).computeType ∧
      r.state.winType = (base attributes).winType ∧ r.state.numSampleRecv = cur.length ∧
      r.state.numDataPoint = (cur.map fun e => e.values.length).sum := by
  obtain ⟨hset, hnum, hpo⟩ := gather_settings attributes cur
  rw [h.state]
  exact ⟨hset.winSize, hset.computeType, hset.winType, hnum, hpo⟩

theorem Sound.reset (left : UInt64) :
    resetWindow r.state left r.state.winSize =
      (base attributes).withBounds left (left + r.state.winSize) := by
  obtain ⟨hsi, hco, htype, -, -⟩ := h.settings
  unfold resetWindow WinStatistics.withBounds
  rw [hco, htype, hsi]
  rfl

theorem Sound.summary :
    (⟨computing sqrt r.state, r.state.numSampleRecv, r.state.numDataPoint⟩ : Summary) =
      summarise sqrt attributes cur := by
  obtain ⟨-, -, -, hnum, hpo⟩ := h.settings
  rw [hnum, hpo, h.state]
  rfl

theorem Sound.analyze_eq (x : Input) :
    analyze sqrt attributes r.state x = doCompute sqrt r.state x := by
  obtain ⟨-, -, -, hnum, -⟩ := h.settings
  refine if_neg ?_
  rw [hnum]
  exact mt length_eq_zero_iff.1 h.cur_ne

variable (htime : starts timeWord (base attributes).winType = true)
include htime

/-- A sample in a run that has accepted others: it is left out, counted in the current window, or
it closes that and opens another. -/
theorem Sound.step (hfit : Fits attributes x) :
    Reached sqrt attributes (r.step sqrt attributes x) := by
  obtain ⟨hsi, -, htype, -, -⟩ := h.settings
  have hbo := UInt64.lt_iff_toNat_lt.1 h.lt
  have han := h.analyze_eq x
  have hre : ∀ {rc : Rc}, analyze sqrt attributes r.state x = ⟨r.state, .error rc, none⟩ →
      Reached sqrt attributes (r.step sqrt attributes x) := fun hbad => by
    rw [step_rejected hbad]
    exact .sound h
  obtain hbad | ⟨nonCompute, data, hsa, hda, hdo⟩ :=
    doCompute_cases sqrt (by rw [htype]; exact htime) x
  · exact hre (han.trans hbad)
  obtain ⟨rc, hbad⟩ | ⟨t, hsam, hleft, hri, hin⟩ | ⟨t, emitted, hsam, hri, hse, hnext⟩ :=
    doComputeTimeWindow_cases sqrt (UInt64.ne_of_lt h.lt) nonCompute data x.emission
  · exact hre (han.trans (hdo.trans hbad))
  · have hxt : x.time = some t := hsa.trans hsam
    obtain ⟨hset, -, -⟩ := accumulateData_settings r.state data
    rw [step_accepted (han.trans (hdo.trans hin)), hxt, hda, hset.winLeft, hset.winRight]
    rw [Option.map_none, Option.toList_none, append_nil]
    exact .sound (h.adds (e := ⟨r.state.winLeft, r.state.winRight, t, data⟩)
      ⟨rfl, rfl⟩ ⟨hleft, hri⟩)
  · have hxt : x.time = some t := hsa.trans hsam
    have hpos : r.state.winSize ≠ 0 := fun hz => by
      have := h.right
      rw [← hsi, hz] at this
      simp at this
      omega
    obtain ⟨hle, hst, hend, hri', hroom⟩ :=
      nextLeft_spec hri hpos (by rw [hsi]; exact h.room) (by rw [hsi]; exact hfit t hxt)
    rw [hsi] at hend hri' hroom
    rw [h.reset, accumulateData_withBounds, hsi] at hnext
    rw [step_accepted (han.trans (hdo.trans hnext)), hxt, hda]
    -- nothing is sent where the value for the next step could not be created
    have hbe : Before sqrt attributes r.state.winRight.toNat r.accepted
        (r.emitted ++ (emitted.map fun s => (r.state.winLeft, r.state.winRight, s)).toList) := by
      obtain rfl | rfl := hse
      · rw [Option.map_none, Option.toList_none, append_nil]
        exact h.upTo
      · rw [h.summary]
        exact h.closed
    exact .sound (hbe.opens
      (e := ⟨nextLeft r.state t, nextLeft r.state t + (base attributes).winSize, t, data⟩) hle
      ⟨hst, hend⟩
      hri' hroom)

theorem Sound.late {t : UInt64} (hxt : x.time = some t) (hlt : t < r.state.winLeft) :
    ∃ rc, analyze sqrt attributes r.state x = ⟨r.state, .error rc, none⟩ := by
  obtain ⟨-, -, htype, -, -⟩ := h.settings
  have han := h.analyze_eq x
  obtain hbad | ⟨nonCompute, data, hsa, -, hdo⟩ :=
    doCompute_cases sqrt (by rw [htype]; exact htime) x
  · exact ⟨_, han.trans hbad⟩
  · refine ⟨.recvMoreThanPosted, han.trans (hdo.trans ?_)⟩
    rw [hsa] at hxt
    simp only [doComputeTimeWindow, hxt, if_pos hlt]

end

variable (sqrt) in
theorem reached_run (hsize : Timed [winSizeWord] attributes)
    (htime : starts timeWord (base attributes).winType = true) (inputs : List Input)
    (hfit : ∀ x ∈ inputs, Fits attributes x) :
    Reached sqrt attributes (History.run sqrt attributes inputs) := by
  induction inputs using List.reverseRecOn with
  | nil => exact .fresh ⟨rfl, rfl, Or.inl rfl, Or.inl rfl, Or.inl rfl⟩ rfl rfl
  | append_singleton inputs x ih =>
    have hx := hfit x (by simp)
    rw [History.run, foldl_append]
    obtain ⟨h, ha, he⟩ | h := ih fun y hy => hfit y (by simp [hy])
    · exact step_fresh hsize htime h ha he hx
    · exact h.step htime hx

variable (sqrt attributes) in
/-- Windows that follow each other without overlap, each with its own samples. -/
structure Tumbling (r : History) : Prop where
  inside  : ∀ e ∈ r.accepted, e.left ≤ e.time ∧ e.time < e.right
  forward : r.accepted.Pairwise fun e e' => (e'.left = e.left ∧ e'.right = e.right) ∨
    e.right ≤ e'.left
  current : r.accepted ≠ [] →
    r.state = (gather attributes
    (r.accepted.filter (inWindow r.state.winLeft r.state.winRight))).withBounds
    r.state.winLeft r.state.winRight
  summary : ∀ m ∈ r.emitted,
    m.2.2 = summarise sqrt attributes (r.accepted.filter (inWindow m.1 m.2.1))
  once    : r.emitted.Pairwise fun m m' => m.2.1 ≤ m'.1
  late    : ∀ x t, x.time = some t → t < r.state.winLeft →
    ∃ rc, analyze sqrt attributes r.state x = ⟨r.state, .error rc, none⟩
  defined : ∀ x, (analyze sqrt attributes r.state x).rc ≠ .error .undefined

variable (sqrt) in
theorem doCompute_defined (w : WinStatistics) (x : Input) :
    (doCompute sqrt w x).rc ≠ .error .undefined := by
  have hfull : ∀ w emission, handleFullWindow sqrt w emission ≠ .error .undefined := by
    intro w emission
    unfold handleFullWindow
    grind
  unfold doCompute doComputeTimeWindow doComputeCounterWindow
  grind

theorem analyze_defined (hsize : Timed [winSizeWord] attributes) (w : WinStatistics) (x : Input) :
    (analyze sqrt attributes w x).rc ≠ .error .undefined := by
  obtain ⟨size, compute, type, hf⟩ := exists_foldlM_fillAttribute hsize
  unfold analyze fillAttributes fillWinStatistics
  rw [hf]
  grind [doCompute_defined]

/-- While the size of the window is no empty text and no sum with it passes `2 ^ 64`, a step with
time windows keeps to its windows. -/
theorem timeWindows (hsize : Timed [winSizeWord] attributes)
    (htime : starts timeWord (base attributes).winType = true) (inputs : List Input)
    (hfit : ∀ x ∈ inputs, Fits attributes x) :
    Tumbling sqrt attributes (History.run sqrt attributes inputs) := by
  obtain ⟨h, ha, he⟩ | h := reached_run sqrt hsize htime inputs hfit
  · refine ⟨by simp [ha],
      by simp [ha], fun hne => absurd ha hne, by simp [he], by simp [he], fun x t _ hlt => ?_, analyze_defined hsize _⟩
    rw [h.winLeft] at hlt
    exact absurd hlt (UInt64.not_lt.2 UInt64.zero_le)
  · have hup := h.upTo
    refine ⟨hup.inside, hup.order, fun _ => ?_, fun m hm => (hup.summary m hm).2.2, hup.once,
      fun x t => h.late htime, analyze_defined hsize _⟩
    rw [h.filter_current]
    exact h.state

end

/-- A sample at a time in seconds, with one value. -/
def sampleAt (seconds : ℤ) (n : ℤ) : Input :=
  ⟨some [['n', 'o', 'd', 'e', '1']], some [⟨some timeWord, ⟨seconds, 0⟩⟩],
    some [.integer .int n], .sent⟩

/-- Averages over a minute. -/
def minuteAverage : List (Text × Text) :=
  [(['w', 'i', 'n', '_', 's', 'i', 'z', 'e'], ['6', '0', 's']),
    (['c', 'o', 'm', 'p', 'u', 't', 'e'], averageWord)]

/-- Samples after 10, 50, 75 and 20 seconds: the third closes a window, and the last is too late. -/
theorem minuteAverage_tumbling :
    (History.run id minuteAverage [sampleAt 10 2, sampleAt 50 4, sampleAt 75 9,
      sampleAt 20 1]).emitted = [(10, 70, ⟨3, 2, 2⟩)] ∧
      (History.run id minuteAverage [sampleAt 10 2, sampleAt 50 4, sampleAt 75 9,
      sampleAt 20 1]).accepted.map Entry.time = [10, 50, 75] ∧
      Tumbling id minuteAverage
      (History.run id minuteAverage [sampleAt 10 2, sampleAt 50 4, sampleAt 75 9, sampleAt 20 1]) :=
  ⟨by decide +kernel, by decide +kernel, timeWindows (by decide) (by decide +kernel) _ fun x hx => by
    simp only [mem_cons, not_mem_nil, or_false] at hx
    obtain rfl | rfl | rfl | rfl := hx <;> intro t ht <;> obtain rfl := Option.some.inj ht <;>
    decide +kernel⟩

/-- The second before the epoch: the right end of its window is less than its time. -/
theorem minuteAverage_wraps :
    (History.run id minuteAverage [sampleAt (-1) 5]).accepted =
      [⟨2 ^ 64 - 1, 59, 2 ^ 64 - 1, [.integer .int 5]⟩] ∧
      ¬ Tumbling id minuteAverage (History.run id minuteAverage [sampleAt (-1) 5]) := by
  refine (and_iff_left_of_imp fun hrun h => ?_).2 (by decide +kernel)
  obtain ⟨-, hlt⟩ := h.inside _ (by rw [hrun]; exact mem_singleton_self _)
  exact absurd hlt (by decide +kernel)

end Sensys.Analytics.Window
