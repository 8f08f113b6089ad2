import Mathlib.Data.List.Perm.Subperm
import Sensys.Scd.Exclusive
/-!
# A launch is over when every node of it has reported

The resource manager keeps one counter for each launch, keyed by the allocation id, and raises
TERMINATED when it reaches `min_nodes` (`scd_base_rm_recv.c:302-316`). The counter is removed with
the event,
so there is at most one TERMINATED for each launch. But it counts messages and not nodes: one node
that reports twice stands for another that still runs (`repeated_report_frees_node`). `CountedOnce`
is what the counter takes for granted.
-/
namespace Sensys.Scd
open Run Lists List

/-- The first tracker of the message's allocation counts the message; at `min_nodes` it is removed
and TERMINATED raised. -/
theorem recvStepdComplete_cases (sender : String) (a : Alloc) (ts : List Tracker) :
    ((∀ t ∈ ts, t.allocId ≠ a.id) ∧ recvStepdComplete sender a ts = (ts, [])) ∨
    ∃ l t r, ts = l ++ t :: r ∧ (∀ u ∈ l, u.allocId ≠ a.id) ∧ t.allocId = a.id ∧
      recvStepdComplete sender a ts =
        if ((t.countCheckedIn + 1 : Nat) : Int) = a.minNodes then (l ++ r, [.terminated a])
        else (l ++ { t with countCheckedIn := t.countCheckedIn + 1
                            checkedIn := t.checkedIn ++ [sender] } :: r, []) := by
  induction ts with
  | nil => exact Or.inl ⟨by simp, rfl⟩
  | cons t ts ih =>
    by_cases ht : t.allocId = a.id
    · refine Or.inr ⟨[], t, ts, rfl, by simp, ht, ?_⟩
      simp only [recvStepdComplete, if_pos ht, nil_append]
    · rcases ih with ⟨hno, heq⟩ | ⟨l, u, r, rfl, hl, hu, heq⟩
      · refine Or.inl ⟨by simpa [ht] using hno, ?_⟩
        simp only [recvStepdComplete, if_neg ht, heq]
      · refine Or.inr ⟨t :: l, u, r, rfl, by simpa [ht] using hl, hu, ?_⟩
        simp only [recvStepdComplete, if_neg ht, heq, cons_append]
        split <;> rfl

variable {t : Tracker} {R : Regex} {st st' : State} {acts : List Act} {n n' : Node} {act : Act}
  {i : Nat} {sender : String}
  {id : SessionId} {st0 : State}

theorem find_first {l r : List Tracker} (hl : ∀ u ∈ l, u.allocId ≠ id)
    (ht : t.allocId = id) : (l ++ t :: r).find? (fun u => u.allocId = id) = some t := by
  rw [find?_append, find?_eq_none.2 (by simpa using hl)]
  simp [ht]

/-- The id of the TERMINATED event that a step raises. -/
def raises (st : State) : Act → List SessionId
  | .stepdComplete sender a =>
    if (recvStepdComplete sender a st.tracking).2 = [] then [] else [a.id]
  | _ => []

/-- The id of the launch that a step makes. -/
def launches (R : Regex) (st : State) : Act → List SessionId
  | .rm (.active s) f _ => if (R.names f (st.alloc s).nodes).getD [] = [] then [] else [s]
  | _ => []

/-- Trackers are made by launches and removed by TERMINATED events. -/
theorem trackers_step (h : Effect R st act st') (i : SessionId) :
    (raises st act).count i + st'.tracking.countP (·.allocId = i) =
      (launches R st act).count i + st.tracking.countP (·.allocId = i) := by
  cases h with
  | stepdComplete sender a =>
    simp only [raises, launches]
    rcases recvStepdComplete_cases sender a st.tracking with ⟨_, heq⟩ | ⟨l, t, r, hts, hl, ht, heq⟩
    · simp [heq]
    · rw [heq, hts]
      split
      · -- the tracker is gone and its event is raised
        by_cases hi : a.id = i
        · simp [countP_append, ht, hi]; omega
        · simp [countP_append, ht, hi]
      · simp [countP_append, countP_cons]
  | activeNone s f k hp hx =>
    rcases hx with hx | hx <;> simp [raises, launches, hx]
  | activeSend s f k A names hp hA hx hne =>
    have hl : launches R st (.rm (.active s) f k) = [s] := by simp [launches, hx, hne]
    rw [hl]
    by_cases hi : s = i
    · simp [raises, countP_append, hi]; omega
    · simp [raises, countP_append, hi]
  | sessionReq | sessionCancel | byproc | byname | initHold | initQueue |
      scheduleEmpty | scheduleTake
  | scheduleWait | allocdAccept | allocdReject | terminatedFail | terminated | cancel |
      reqNone | reqShort
  | reqGrant | kill => rfl

theorem trackers_of_run (hf : Fresh st0) (hrun : run (step R) st0 acts = some st) (i : SessionId) :
    (emitted (step R) raises st0 acts).count i + st.tracking.countP (·.allocId = i) =
      (emitted (step R) (launches R) st0 acts).count i := by
  have h := run_induction (C := fun _ _ => True) (I := fun tr s => run (step R) st0 tr = some s ∧
      (emitted (step R) raises st0 tr).count i + s.tracking.countP (·.allocId = i) =
        (emitted (step R) (launches R) st0 tr).count i)
    (fun tr s a s' hI _ hs => ?_) (p := []) ⟨rfl, by simp [emitted, hf.tracking]⟩ hrun
    (along_of_forall (by simp) st0)
  · exact h.2
  · obtain ⟨htr, hI⟩ := hI
    refine ⟨run_snoc htr hs, ?_⟩
    rw [emitted_snoc htr, emitted_snoc htr, count_append, count_append]
    have := trackers_step (step_effect hs) i
    omega

/-! ## Who has reported -/

/-- A completion message from the node for the allocation. -/
def Act.reports (id : SessionId) (nm : String) : Act → Bool
  | .stepdComplete sender a => sender == nm && a.id == id
  | _ => false

def Reported (acts : List Act) (id : SessionId) (nm : String) : Prop :=
  ∃ act ∈ acts, act.reports id nm = true
deriving Decidable

theorem Reported.append {nm : String} (h : Reported acts id nm)
    (acts' : List Act) : Reported (acts ++ acts') id nm := by
  obtain ⟨act, hm, hr⟩ := h
  exact ⟨act, mem_append_left _ hm, hr⟩

/-- A launch is on at most `min_nodes` names, a counted message is the first one from a node of the
launch it is counted for, and a rejected allocation leaves the queues whole. -/
def CountedOnce (R : Regex) (st : State) : Act → Prop
  | .rm (.active s) _ _ => ((listed R (st.alloc s)).length : Int) ≤ (st.alloc s).minNodes
  | .stepdComplete sender a =>
    ∀ t ∈ st.tracking.find? (·.allocId = a.id), a.nodes = t.launched.nodes ∧
      a.minNodes = t.launched.minNodes ∧ sender ∈ listed R t.launched ∧ sender ∉ t.checkedIn
  | act => RejectsAlone R st act

instance (R : Regex) (st : State) (act : Act) : Decidable (CountedOnce R st act) := by
  delta CountedOnce
  split <;> infer_instance

/-- A tracker counts distinct nodes of its launch, each of which has reported. -/
structure Tracker.Sound (R : Regex) (acts : List Act) (t : Tracker) : Prop where
  count    : t.countCheckedIn = t.checkedIn.length
  nodup    : t.checkedIn.Nodup
  named    : ∀ nm ∈ t.checkedIn, nm ∈ listed R t.launched
  reported : ∀ nm ∈ t.checkedIn, Reported acts t.allocId nm
  size     : ((listed R t.launched).length : Int) ≤ t.launched.minNodes

theorem Tracker.Sound.append (h : t.Sound R acts) (acts' : List Act) : t.Sound R (acts ++ acts') :=
  { h with reported := fun nm hm => (h.reported nm hm).append acts' }

/-- One more message, from a node of the launch not counted before. -/
theorem Tracker.Sound.checkIn (h : t.Sound R acts) {a : Alloc} (hid : t.allocId = a.id)
    (hin : sender ∈ listed R t.launched) (hnew : sender ∉ t.checkedIn) :
    Tracker.Sound R (acts ++ [.stepdComplete sender a])
      { t with countCheckedIn := t.countCheckedIn + 1, checkedIn := t.checkedIn ++ [sender] } where
  count := by simp [h.count]
  nodup := by
    rw [nodup_append]
    refine ⟨h.nodup, nodup_singleton _, fun x hx y hy => ?_⟩
    rw [mem_singleton.1 hy]
    rintro rfl
    exact hnew hx
  named nm hm := by
    rcases mem_append.1 hm with hm | hm
    · exact h.named nm hm
    · rw [mem_singleton.1 hm]; exact hin
  reported nm hm := by
    rcases mem_append.1 hm with hm | hm
    · exact (h.reported nm hm).append _
    · refine ⟨.stepdComplete sender a, by simp, ?_⟩
      simp [Act.reports, hid, mem_singleton.1 hm]
  size := h.size

/-- `min_nodes` distinct nodes of a list of at most that length are all of it. -/
theorem Tracker.Sound.all_of_full (h : t.Sound R acts)
    (hf : (t.countCheckedIn : Int) = t.launched.minNodes) (nm : String) :
    nm ∈ t.checkedIn ↔ nm ∈ listed R t.launched := by
  refine ⟨h.named nm, fun hm => ?_⟩
  have hsub : t.checkedIn.Subperm (listed R t.launched) := h.nodup.subperm h.named
  have hlen : (listed R t.launched).length ≤ t.checkedIn.length := by
    have := h.size
    have := h.count
    omega
  exact (hsub.perm_of_length_le hlen).mem_iff.2 hm

/-- What holds between the steps. -/
structure Counted (R : Regex) (acts : List Act) (st : State) : Prop where
  trackers   : ∀ t ∈ st.tracking, t.Sound R acts
  terminated : ∀ a, .terminated a ∈ st.scd → ∀ nm ∈ listed R a, Reported acts a.id nm

theorem Counted.frame (h : Counted R acts st) (act : Act) (ht : st'.tracking = st.tracking)
    (hs : ∀ a, .terminated a ∈ st'.scd → .terminated a ∈ st.scd) :
    Counted R (acts ++ [act]) st' where
  trackers t hm := (h.trackers t (ht ▸ hm)).append _
  terminated a hm nm hn := (h.terminated a (hs a hm) nm hn).append _

/-- The message that raises TERMINATED is the last one of its launch. -/
theorem Counted.complete (h : Counted R acts st) {a : Alloc}
    (hC : CountedOnce R st (.stepdComplete sender a))
    (hr : raises st (.stepdComplete sender a) ≠ []) :
    ∃ t ∈ st.tracking, t.allocId = a.id ∧ t.launched.nodes = a.nodes ∧
      (t.checkedIn ++ [sender]).Nodup ∧ ((t.checkedIn ++ [sender]).length : Int) = a.minNodes ∧
      ∀ nm, nm ∈ t.checkedIn ++ [sender] ↔ nm ∈ listed R a := by
  rcases recvStepdComplete_cases sender a st.tracking with ⟨_, heq⟩ | ⟨l, t, r, hts, hl, ht, heq⟩
  · simp [raises, heq] at hr
  · have hmem : t ∈ st.tracking := by rw [hts]; simp
    obtain ⟨hno, hmin, hin, hnew⟩ := hC t (by rw [hts]; exact find_first hl ht)
    have hso := (h.trackers t hmem).checkIn ht hin hnew
    split at heq
    · rename_i hf
      refine ⟨t, hmem, ht, hno.symm, hso.nodup, ?_, fun nm => ?_⟩
      · have := hso.count
        dsimp only at this
        omega
      · rw [listed_congr hno]
        exact hso.all_of_full (hf.trans hmin) nm
    · simp [raises, heq] at hr

theorem Counted.step (hc : Counted R acts st) (hC : CountedOnce R st act)
    (h : Effect R st act st') :
    Counted R (acts ++ [act]) st' := by
  cases h with
  | stepdComplete sender a =>
    have hnew : ∀ b, .terminated b ∈ st.scd ++ (recvStepdComplete sender a st.tracking).2 →
        ∀ nm ∈ listed R b, Reported (acts ++ [.stepdComplete sender a]) b.id nm := by
      intro b hb nm hnm
      rcases mem_append.1 hb with hb | hb
      · exact (hc.terminated b hb nm hnm).append _
      · rcases recvStepdComplete_events sender a st.tracking with he | he
        · simp [he] at hb
        · rw [he, mem_singleton, ScdEvent.terminated.injEq] at hb
          subst hb
          obtain ⟨t, hmem, hid, _, _, _, hall⟩ := hc.complete hC (by simp [raises, he])
          rcases mem_append.1 ((hall nm).2 hnm) with h1 | h1
          · exact hid ▸ ((hc.trackers t hmem).reported nm h1).append _
          · exact ⟨.stepdComplete sender b, by simp, by simp [Act.reports, mem_singleton.1 h1]⟩
    refine ⟨fun u hu => ?_, hnew⟩
    rcases recvStepdComplete_cases sender a st.tracking with ⟨_, heq⟩ | ⟨l, t, r, hts, hl, ht, heq⟩
    · simp only [heq] at hu
      exact (hc.trackers u hu).append _
    · have ho : ∀ u ∈ l ++ r, u.Sound R (acts ++ [.stepdComplete sender a]) := by
        intro u hm
        refine (hc.trackers u ?_).append _
        rw [hts]
        rcases mem_append.1 hm with hm | hm <;> simp [hm]
      obtain ⟨_, _, hin, hf⟩ := hC t (by rw [hts]; exact find_first hl ht)
      simp only [heq] at hu
      split at hu
      · exact ho u hu
      · rcases mem_append.1 hu with hm | hm
        · exact ho u (mem_append_left _ hm)
        · rcases mem_cons.1 hm with rfl | hm
          · exact (hc.trackers t (by rw [hts]; simp)).checkIn ht hin hf
          · exact ho u (mem_append_right _ hm)
  | activeSend s f k A names hp hA hx hne =>
    refine ⟨fun t ht => ?_, fun a ha nm hn => (hc.terminated a ha nm hn).append _⟩
    rcases mem_append.1 ht with ht | ht
    · exact (hc.trackers t ht).append _
    · rw [mem_singleton.1 ht]
      refine ⟨rfl, nodup_nil, by simp, by simp, ?_⟩
      rw [listed_congr (hA s).2.2, (hA s).2.1]
      exact hC
  | cancel id f hp =>
    refine hc.frame _ rfl fun a hm => ?_
    rw [append_assoc] at hm
    exact mem_of_mem_erase_append hm (by simp)
  | initHold | initQueue | allocdReject | terminated =>
    exact hc.frame _ rfl fun a hm => mem_of_mem_erase_append hm (by simp)
  | scheduleEmpty | scheduleTake | scheduleWait | allocdAccept | terminatedFail =>
    exact hc.frame _ rfl fun a hm => mem_of_mem_erase hm
  | sessionReq | sessionCancel | reqShort | reqGrant =>
    exact hc.frame _ rfl fun a hm => by simpa using hm
  | byproc | byname | reqNone | activeNone | kill => exact hc.frame _ rfl fun a hm => hm

/-! ## Nodes that are given back -/

theorem NodesKept.at {ns ns' : List Node} (h : NodesKept ns ns')
    (hn : ns[i]? = some n) (hn' : ns'[i]? = some n') (hs : n.scdState = .alloc) :
    n'.scdState = .alloc := by
  obtain ⟨hi, rfl⟩ := List.getElem?_eq_some_iff.1 hn
  obtain ⟨hi', rfl⟩ := List.getElem?_eq_some_iff.1 hn'
  rcases (h.get hi hi').2 with h1 | ⟨h1, _⟩
  · exact h1.trans hs
  · simp_all

theorem markNodes_at {x : ScdNodeState} {names : List String} {ns : List Node}
    (hn : ns[i]? = some n) (hn' : (markNodes x names ns)[i]? = some n') :
    n' = if n.name ∈ names then { n with scdState := x } else n := by
  rw [markNodes_eq_map, getElem?_map, hn] at hn'
  exact (Option.some.inj hn').symm

/-- Only TERMINATED takes a node back from `ALLOC` to `UNALLOC`, and only a node it names. -/
theorem freed_by_terminated (h : Effect R st act st') (hn : st.nodes[i]? = some n)
    (hn' : st'.nodes[i]? = some n') (hs : n.scdState = .alloc) (hs' : n'.scdState = .unalloc) :
    ∃ a f, act = .scd (.terminated a) f ∧ .terminated a ∈ st.scd ∧ n.name ∈ listed R a := by
  have kept : ∀ ns, NodesKept st.nodes ns → ns[i]? = some n' → False := by
    intro ns hk hi
    have := hk.at hn hi hs
    rw [hs'] at this
    cases this
  by_cases hact : act.movesNodes = false
  · exact (kept _ (h.quiet hact).nodes hn').elim
  cases h with
  | allocdAccept s f A nl names =>
    have := markNodes_at hn hn'
    subst this
    split at hs'
    · cases hs'
    · rw [hs] at hs'; cases hs'
  | terminated a f names hp hx =>
    have := markNodes_at hn hn'
    subst this
    split at hs'
    · rename_i hm
      exact ⟨a, f, rfl, hp, by rw [listed_of_names hx]; exact hm⟩
    · rw [hs] at hs'; cases hs'
  | allocdReject | terminatedFail | reqNone | reqShort | reqGrant =>
    exact (kept _ (NodesKept.refl _) hn').elim
  | _ => exact absurd rfl hact

theorem counted_of_run (hf : Fresh st0)
    (hrun : run (step R) st0 acts = some st) (hC : Along (step R) (CountedOnce R) st0 acts) :
    Counted R acts st := by
  have h := run_induction (I := fun tr s => Counted R tr s)
    (fun tr s a s' hI hc hs => hI.step hc (step_effect hs)) (p := [])
    ⟨fun t ht => by simp [hf.tracking] at ht, fun a ha => by simp [hf.scd] at ha⟩ hrun hC
  simpa using h

/-- Every node that the next step sets back from `ALLOC` to `UNALLOC` is a node of the allocation
whose TERMINATED is handled there, and has reported for this allocation. -/
def FreesReported (R : Regex) (acts : List Act) (st : State) : Prop :=
  ∀ (act : Act) (st' : State) (i : Nat) (n n' : Node), step R st act = some st' →
    st.nodes[i]? = some n → st'.nodes[i]? = some n' →
    n.scdState = .alloc → n'.scdState = .unalloc →
    ∃ a f, act = .scd (.terminated a) f ∧ n.name ∈ listed R a ∧ Reported acts a.id n.name

/-- **Completion.** No id has more TERMINATED events than launches. In a run whose steps all meet
`CountedOnce` the message that raises TERMINATED is the last of `min_nodes` distinct nodes, which
are all the nodes of the launch, and a node goes back to `UNALLOC` only after it has reported for
the launch that is over. -/
theorem completion_of_run {R : Regex} {st0 st : State} {acts : List Act} (hf : Fresh st0)
    (hrun : run (step R) st0 acts = some st) (hC : Along (step R) (CountedOnce R) st0 acts) :
    (∀ id, (emitted (step R) raises st0 acts).count id ≤
      (emitted (step R) (launches R) st0 acts).count id) ∧
    (∀ sender a, CountedOnce R st (.stepdComplete sender a) →
    raises st (.stepdComplete sender a) ≠ [] →
      ∃ t ∈ st.tracking, t.allocId = a.id ∧ t.launched.nodes = a.nodes ∧
        (∀ nm ∈ t.checkedIn, Reported acts a.id nm) ∧
        (t.checkedIn ++ [sender]).Nodup ∧ ((t.checkedIn ++ [sender]).length : Int) = a.minNodes ∧
        ∀ nm, nm ∈ t.checkedIn ++ [sender] ↔ nm ∈ listed R a) ∧
    FreesReported R acts st := by
  have hc := counted_of_run hf hrun hC
  refine ⟨fun id => ?_, fun sender a hco hr => ?_, ?_⟩
  · have := trackers_of_run hf hrun id
    omega
  · obtain ⟨t, hmem, hid, hno, hre⟩ := hc.complete hco hr
    exact ⟨t, hmem, hid, hno, fun nm hm => hid ▸ (hc.trackers t hmem).reported nm hm, hre⟩
  · intro act st' i n n' hs hn hn' ha hu
    obtain ⟨a, f, hact, hp, hm⟩ := freed_by_terminated (step_effect hs) hn hn' ha hu
    exact ⟨a, f, hact, hm, hc.terminated a hp n.name hm⟩

/-- The allocation of a session on both nodes, as the completion messages carry it. -/
def bothNodes : Alloc := { id := 1, minNodes := 2, nodes := some "n[1:0-1]" }

/-- Both nodes of session 1 have reported. -/
def bothReportRun : List Act :=
  admission 2 1 false ++ [launch 1, .stepdComplete "n0" bothNodes, .stepdComplete "n1" bothNodes]

theorem completion_of_run_both :
    ∃ st, run (step sampleRegex) sampleState bothReportRun = some st ∧
      st.scd = [.terminated bothNodes] ∧ FreesReported sampleRegex bothReportRun st := by
  obtain ⟨st, hst, hq⟩ : ∃ st, run (step sampleRegex) sampleState bothReportRun = some st ∧
      st.scd = [.terminated bothNodes] := by decide
  have h := completion_of_run sampleState_fresh hst (by decide)
  exact ⟨st, hst, hq, h.2.2⟩

/-- Node `n0` reports twice, `n1` not at all. -/
def repeatedReportRun : List Act :=
  admission 2 1 false ++ [launch 1, .stepdComplete "n0" bothNodes, .stepdComplete "n0" bothNodes]

/-- TERMINATED is raised, and handling it sets `n1` back to `UNALLOC`. -/
theorem repeated_report_frees_node :
    ¬ Reported repeatedReportRun 1 "n1" ∧
    ∃ st st', run (step sampleRegex) sampleState repeatedReportRun = some st ∧
      step sampleRegex st (.scd (.terminated bothNodes) false) = some st' ∧
      st.nodes.map (fun n => (n.name, n.scdState)) = [("n0", .alloc), ("n1", .alloc)] ∧
      st'.nodes.map (fun n => (n.name, n.scdState)) = [("n0", .unalloc), ("n1", .unalloc)] := by
  simp only [exists_and_left]
  decide

end Sensys.Scd
