import Sensys.Scd.Exclusive
/-!
# A runnable session at the head of the queue is not forgotten

`pmf_schedule` starts at most one session for each SCHEDULE event, and an accepted ALLOCD raises
none. One termination can free the nodes of several waiting sessions and raises one SCHEDULE, so
the second of them stays on `default` with nothing left to wake it: `head_left_waiting`.
`WakesNext` says which accepted allocations are harmless. The set of nodes that are up is fixed
here.
-/
namespace Sensys.Scd
open Run Lists List

def Act.isNodestate : Act → Bool
  | .nodestateByproc _ _ | .nodestateByname _ _ _ => true
  | _ => false

/-- The free nodes that a list does not name. -/
def freeOutside (ns : List Node) (names : List String) : List Node :=
  (freeNodes ns).filter fun n => n.name ∉ names

theorem length_free_markNodes (names : List String) (ns : List Node) :
    (freeNodes (markNodes .alloc names ns)).length = (freeOutside ns names).length := by
  unfold freeOutside freeNodes
  rw [markNodes_eq_map, filter_filter, ← countP_eq_length_filter, ← countP_eq_length_filter,
    countP_map]
  apply countP_congr
  intro n _
  by_cases hm : n.name ∈ names
  · simp [hm, Node.free]
  · simp [hm]

/-- The next session of `default`, if there is one, needs more than the nodes `ns`. -/
def HeadExceeds (st : State) (ns : List Node) : Prop :=
  ∀ s ∈ st.default.head?, (ns.length : Int) < (st.alloc s).minNodes

/-- An accepted allocation leaves something that looks at the queue again, or nothing to look for.
-/
def WakesNext (R : Regex) (st : State) : Act → Prop
  | .scd (.allocd s) f =>
    if accepts R f st s then
      .schedule ∈ st.scd ∨ (∃ t ∈ inFlight st, t ≠ s) ∨
        HeadExceeds st (freeOutside st.nodes (listed R (st.alloc s)))
    else st.running = []
  | _ => True

instance (R : Regex) (st : State) : ∀ act, Decidable (WakesNext R st act)
  | .scd (.allocd s) f => inferInstanceAs (Decidable (if accepts R f st s then
      .schedule ∈ st.scd ∨ (∃ t ∈ inFlight st, t ≠ s) ∨
        ∀ u ∈ st.default.head?,
        ((freeOutside st.nodes (listed R (st.alloc s))).length : Int) < (st.alloc u).minNodes
      else st.running = []))
  | .scd (.init _) _ | .scd .schedule _ | .scd (.terminated _) _ | .scd (.cancel _) _ =>
    isTrue trivial
  | .rm _ _ _ | .sessionReq _ | .sessionCancel _ | .stepdComplete _ _ | .nodestateByproc _ _ |
      .nodestateByname _ _ _ => isTrue trivial

theorem WakesNext.rejectsAlone {R : Regex} {st : State} {act : Act} (h : WakesNext R st act) :
    RejectsAlone R st act := by
  unfold RejectsAlone
  split
  · intro hacc
    simpa only [WakesNext, hacc, Bool.false_eq_true, if_false] using h
  · trivial

/-- A SCHEDULE is pending, a session is in flight, or the head of the queue does not fit. -/
def Awake (st : State) : Prop :=
  .schedule ∈ st.scd ∨ (∃ t, t ∈ inFlight st) ∨ HeadExceeds st (freeNodes st.nodes)

theorem Awake.frame {st st' : State} (h : Awake st) (hs : .schedule ∈ st.scd → .schedule ∈ st'.scd)
    (hfl : ∀ t, t ∈ inFlight st → t ∈ inFlight st') (hd : st'.default = st.default)
    (hn : st'.nodes = st.nodes)
    (hmin : ∀ t ∈ st.default, (st'.alloc t).minNodes = (st.alloc t).minNodes) : Awake st' := by
  rcases h with h | ⟨t, h⟩ | h
  · exact Or.inl (hs h)
  · exact Or.inr (Or.inl ⟨t, hfl t h⟩)
  · refine Or.inr (Or.inr fun t ht => ?_)
    rw [hd] at ht
    rw [hn, hmin t (mem_of_mem_head? ht)]
    exact h t ht

theorem Awake.step {R : Regex} {acts : List Act} {st st' : State} {act : Act} (hpl : Places acts st)
    (hw : Awake st) (hC : WakesNext R st act) (hup : act.isNodestate = false)
    (h : Effect R st act st') :
    Awake st' := by
  cases h with
  | sessionReq a =>
    refine hw.frame (mem_append_left _)
      (inFlight_mono (fun _ h => h) fun t => mem_append_left _) rfl rfl fun t ht => ?_
    have hle := (hpl.known_of_held (held_pos (.inr (.inl ht)))).1
    simp [Function.update_of_ne (Nat.ne_of_lt (Nat.lt_succ_of_le hle))]
  | sessionCancel | stepdComplete =>
    exact hw.frame (mem_append_left _)
      (inFlight_mono (fun _ h => h) fun t => mem_append_left _) rfl rfl fun _ _ => rfl
  | byproc x ps | byname x r f => cases hup
  | initHold | initQueue | allocdReject | terminated => exact Or.inl (by simp)
  | scheduleEmpty f hp hd => exact Or.inr (Or.inr fun t ht => by simp [hd] at ht)
  | scheduleTake f s rest hp hd hfit =>
    exact Or.inr (Or.inl ⟨s, by rw [mem_inFlight]; exact Or.inl (by simp)⟩)
  | scheduleWait f s rest hp hd hfit =>
    refine Or.inr (Or.inr fun t ht => ?_)
    simp only [hd, List.head?_cons, Option.mem_some_iff] at ht
    exact ht ▸ hfit
  | allocdAccept s f A nl names hp hA hn hne hx hlen =>
    have hacc : accepts R f st s = true := accepts_iff.2 ⟨nl, names, hn, hne, hx, hlen⟩
    have hna : listed R (st.alloc s) = names := listed_of_names (hn ▸ hx)
    simp only [WakesNext, hacc, if_true] at hC
    rcases hC with hs | ⟨t, ht, hts⟩ | hex
    · exact Or.inl ((mem_erase_of_ne (by simp)).2 hs)
    · refine Or.inr (Or.inl ⟨t, ?_⟩)
      rw [mem_inFlight] at ht ⊢
      rcases ht with ht | ht
      · exact Or.inl (by simp [ht])
      · exact Or.inr ((mem_erase_of_ne (by simpa using hts)).2 ht)
    · -- what is left free is what the accepted list does not name
      refine Or.inr (Or.inr fun t ht => ?_)
      rw [length_free_markNodes, ← hna, (hA t).2.1]
      exact hex t ht
  | terminatedFail a f hp hx =>
    exact hw.frame (mem_erase_of_ne (by simp)).2
      (inFlight_mono (fun _ h => h) fun t => (mem_erase_of_ne (by simp)).2) rfl rfl
      fun _ _ => rfl
  | cancel id f hp =>
    by_cases hh : id ∈ st.hold
    · exact Or.inl (by simp [hh])
    · by_cases hd : id ∈ st.default
      · exact Or.inl (by simp [hd])
      · have hscd : ∀ e, e ≠ .cancel id → e ∈ st.scd →
          e ∈ st.scd.erase (.cancel id) ++ (if id ∈ st.hold then [.schedule] else []) ++
            if id ∈ st.default then [.schedule] else [] :=
          fun e hne h => mem_append_left _ (mem_append_left _ ((mem_erase_of_ne hne).2 h))
        exact hw.frame (hscd _ (by simp))
          (inFlight_mono (fun t => mem_append_left _) fun t => hscd _ (by simp))
          (erase_of_not_mem hd) rfl
          fun _ _ => rfl
  | reqNone s f k hp hmin =>
    have := (hpl.known_of_held (held_pos (.inr (.inr (.inl hp))))).2
    omega
  | reqShort s | reqGrant s =>
    exact Or.inr (Or.inl ⟨s, by rw [mem_inFlight]; exact Or.inr (by simp)⟩)
  | activeNone s f k hp | kill s f k out hp =>
    exact hw.frame (fun h => h)
      (inFlight_mono (fun t => (mem_erase_of_ne (by simp)).2) fun _ h => h) rfl rfl fun _ _ => rfl
  | activeSend s f k A names hp hA =>
    exact hw.frame (fun h => h)
      (inFlight_mono (fun t => (mem_erase_of_ne (by simp)).2) fun _ h => h) rfl rfl fun t _ =>
      (hA t).2.1

/-- **With nothing pending, the head of `default` needs more nodes than are free**, in every state
of a run without node-state changes whose steps all meet `WakesNext`. -/
theorem head_exceeds_of_run {R : Regex} {st0 st : State} {acts : List Act} (hf : Fresh st0)
    (hpos : ∀ act ∈ acts, PosRequest act ∧ act.isNodestate = false)
    (hrun : run (step R) st0 acts = some st) (hC : Along (step R) (WakesNext R) st0 acts)
    (hidle : st.scd = [] ∧ st.rm = []) : HeadExceeds st (freeNodes st.nodes) := by
  have h := run_induction (I := fun tr s => Places tr s ∧ Awake s)
    (fun tr s a s' hI hc hs => ⟨hI.1.step hc.1.1 hc.2.rejectsAlone (step_effect hs),
      Awake.step hI.1 hI.2 hc.2 hc.1.2 (step_effect hs)⟩)
    ⟨Places.of_fresh hf, Or.inr (Or.inr fun s hs => by simp [hf.default] at hs)⟩ hrun
    ((along_of_forall hpos st0).and hC)
  rcases h.2 with hs | ⟨t, ht⟩ | hw
  · simp [hidle.1] at hs
  · rw [mem_inFlight] at ht
    simp [hidle.1, hidle.2] at ht
  · exact hw

/-- Session 1 takes one of two nodes; session 2 needs both and waits with one node free. -/
theorem head_exceeds_of_run_waiting :
    ∃ st, run (step sampleRegex) sampleState
        (admission 1 1 false ++ [launch 1, request 2, .scd (.init 2) false, .scd .schedule false]) =
          some st ∧
      st.default = [2] ∧ HeadExceeds st (freeNodes st.nodes) := by
  obtain ⟨st, hst, hqu, hid⟩ : ∃ st, run (step sampleRegex) sampleState
      (admission 1 1 false ++ [launch 1, request 2, .scd (.init 2) false, .scd .schedule false]) =
        some st ∧
      st.default = [2] ∧ st.scd = [] ∧ st.rm = [] := by decide
  exact ⟨st, hst, hqu, head_exceeds_of_run sampleState_fresh (by decide) hst (by decide) hid⟩

/-- Session 1 ends on both nodes while sessions 2 and 3, of one node each, wait. -/
def oneWakeupRun : List Act :=
  admission 2 1 false ++ [launch 1, request 1, .scd (.init 2) false, .scd .schedule false,
    request 1, .scd (.init 3) false, .scd .schedule false,
    .stepdComplete "n0" { id := 1, minNodes := 2, nodes := some "n[1:0-1]" },
    .stepdComplete "n1" { id := 1, minNodes := 2, nodes := some "n[1:0-1]" },
    .scd (.terminated { id := 1, minNodes := 2, nodes := some "n[1:0-1]" }) false,
    .scd .schedule false, .rm (.req 2) false 0, .scd (.allocd 2) false, launch 2]

/-- Session 2 starts, no event is pending, and session 3 is left waiting for one node with one
free. -/
theorem head_left_waiting :
    ∃ st, run (step sampleRegex) sampleState oneWakeupRun = some st ∧ st.scd = [] ∧ st.rm = [] ∧
      st.default = [3] ∧ (st.alloc 3).minNodes = 1 ∧ (freeNodes st.nodes).length = 1 := by
  decide

end Sensys.Scd
