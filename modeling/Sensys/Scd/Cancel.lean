import Sensys.Scd.Places
/-!
# A cancelled session does not run

`pmf_cancel` looks for the session on the queues only (`scd_pmf.c:417-430`). While its REQ or
ALLOCD is pending the session is on no queue: the cancel finds nothing, raises nothing, and the
session goes on to run (`cancel_in_flight_runs`). `CancelSettled` asks that a cancel is handled
while no event of the session is on its way; then the session is killed, or gone for good.
-/
namespace Sensys.Scd
open Run Lists List

/-- A CANCEL is handled only while no INIT, REQ or ALLOCD of that session is pending. -/
def CancelSettled (R : Regex) (st : State) : Act → Prop
  | .scd (.cancel id) _ => .init id ∉ st.scd ∧ .req id ∉ st.rm ∧ .allocd id ∉ st.scd
  | act => RejectsAlone R st act

instance (R : Regex) (st : State) (act : Act) : Decidable (CancelSettled R st act) := by
  delta CancelSettled
  split <;> infer_instance

variable {R : Regex} {st st' : State} {s : SessionId}

theorem CancelSettled.rejectsAlone {st : State} {act : Act} (h : CancelSettled R st act) :
    RejectsAlone R st act := by
  unfold CancelSettled at h
  split at h
  · trivial
  · exact h

/-- A settled CANCEL of a session that does not run takes it off every queue. -/
theorem held_cancel {acts : List Act} {f : Bool}
    (hpl : Places acts st) (hreq : .req s ∉ st.rm) (hall : .allocd s ∉ st.scd)
    (hrun : s ∉ st.running)
    (h : Effect R st (.scd (.cancel s) f) st') : held st' s = 0 := by
  cases h with
  | cancel _ _ hp =>
    have h1 : st.rm.count (.req s) = 0 := count_eq_zero.2 hreq
    have h2 : st.scd.count (.allocd s) = 0 := count_eq_zero.2 hall
    have h3 : st.running.count s = 0 := count_eq_zero.2 hrun
    have hone := hpl.held_le_one s
    -- it is on `hold` or on `default` at most once
    unfold held at hone ⊢
    simp [count_append, count_erase_self, count_ite_singleton, hrun, h1, h2, h3]
    omega

/-- An INIT already handled is not handled again, so a session in no place stays in none. -/
theorem held_zero_of_run {acts acts' : List Act}
    (hpl : Places acts st) (hin : .init s ∈ handled acts) (hz : held st s = 0)
    (hpos : ∀ act ∈ acts', PosRequest act) (hrun : run (step R) st acts' = some st')
    (hrej : Along (step R) (RejectsAlone R) st acts') : held st' s = 0 := by
  have h := run_induction (I := fun tr u => Places tr u ∧ .init s ∈ handled tr ∧ held u s = 0)
    (fun tr u a u' hI hC hu => ?_) ⟨hpl, hin, hz⟩ hrun ((along_of_forall hpos st).and hrej)
  · exact h.2.2
  · obtain ⟨hP, hm, h0⟩ := hI
    have hP' := hP.step hC.1 hC.2 (step_effect hu)
    refine ⟨hP', by rw [handled_append]; exact mem_append_left _ hm, ?_⟩
    have hle := (held_step s (step_effect hu) hC.2).1
    have hco := count_pos_iff.2 hm
    have ho := hP'.once s
    unfold inits at ho
    rw [handled_append, count_append] at ho
    omega

/-- **A handled CANCEL is final**: in a run whose steps all meet `CancelSettled`, a session
cancelled after it was accepted is on `running` with a KILL raised for it, or it is on no queue
and is on `running` in no later state. -/
theorem cancel_final_of_run {R : Regex} {st0 mid st1 st : State} {pre post : List Act} {s : Nat}
    {f : Bool} (hf : Fresh st0) (hpos : ∀ act ∈ pre ++ .scd (.cancel s) f :: post, PosRequest act)
    (hpre : run (step R) st0 pre = some mid) (hacc : 0 < s ∧ s ≤ mid.lastSessionId)
    (hcancel : step R mid (.scd (.cancel s) f) = some st1) (hpost : run (step R) st1 post = some st)
    (hC : Along (step R) (CancelSettled R) st0 (pre ++ .scd (.cancel s) f :: post)) :
    (s ∈ st1.running ∧ .kill s ∈ st1.rm) ∨
      (s ∉ st1.running ∧ s ∉ st1.hold ∧ s ∉ st1.default) ∧ s ∉ st.running := by
  obtain ⟨hCpr, hCm⟩ := along_append hC hpre
  obtain ⟨hset, hCp⟩ := along_cons hCm hcancel
  have rejects : ∀ {u : State} {as : List Act}, Along (step R) (CancelSettled R) u as →
      Along (step R) (RejectsAlone R) u as := fun h => h.mono fun _ _ => CancelSettled.rejectsAlone
  have hpl : Places pre mid :=
    places_of_run hf (fun a ha => hpos a (by simp [ha])) hpre (rejects hCpr)
  obtain ⟨hni, hnr, hna⟩ := hset
  have heff := step_effect hcancel
  by_cases hrun : s ∈ mid.running
  · left
    cases heff with
    | cancel _ _ hp => exact ⟨hrun, by simp [hrun]⟩
  · right
    have hz := held_cancel hpl hnr hna hrun heff
    -- the session was accepted and its INIT is not pending, so it was handled
    have hin : .init s ∈ handled pre := by
      have h1 := hpl.inits_eq s
      rw [if_pos hacc] at h1
      unfold inits at h1
      rw [count_eq_zero.2 hni] at h1
      exact count_pos_iff.1 (by omega)
    have hpl1 : Places (pre ++ [.scd (.cancel s) f]) st1 :=
      hpl.step trivial trivial heff
    have hlast := held_zero_of_run hpl1 (by simp [hin]) hz (fun a ha => hpos a (by simp [ha])) hpost
      (rejects hCp)
    refine ⟨⟨fun hm => ?_, fun hm => ?_, fun hm => ?_⟩, fun hm => ?_⟩
    · have := held_pos (.inl hm); omega
    · have := count_pos_iff.2 hm
      unfold held at hz
      omega
    · have := held_pos (.inr (.inl hm)); omega
    · have := held_pos (.inl hm); omega

/-- Session 2 waits behind session 1 and is cancelled; another request arrives later. -/
theorem cancel_final_of_run_waiting :
    ∃ mid st1 st, run (step sampleRegex) sampleState
        (admission 2 1 false ++ [launch 1, request 1, .scd (.init 2) false, .sessionCancel 2]) =
          some mid ∧
      step sampleRegex mid (.scd (.cancel 2) false) = some st1 ∧
      run (step sampleRegex) st1 [.scd .schedule false, request 1, .scd (.init 3) false] = some st ∧
      ((2 ∈ st1.running ∧ .kill 2 ∈ st1.rm) ∨
        (2 ∉ st1.running ∧ 2 ∉ st1.hold ∧ 2 ∉ st1.default) ∧ 2 ∉ st.running) := by
  obtain ⟨mid, hmid, st1, hst1, st, hst, hlast⟩ : ∃ mid, run (step sampleRegex) sampleState
        (admission 2 1 false ++ [launch 1, request 1, .scd (.init 2) false, .sessionCancel 2]) =
          some mid ∧
      ∃ st1, step sampleRegex mid (.scd (.cancel 2) false) = some st1 ∧
      ∃ st, run (step sampleRegex) st1 [.scd .schedule false, request 1, .scd (.init 3) false] =
      some st ∧
        mid.lastSessionId = 2 := by decide
  exact ⟨mid, st1, st, hmid, hst1, hst, cancel_final_of_run sampleState_fresh (by decide) hmid
    (by rw [hlast]; decide) hst1 hst (by decide)⟩

/-- The CANCEL of session 1 is handled between SCHEDULE and REQ: session 1 then runs, and no KILL is
pending for it. -/
theorem cancel_in_flight_runs :
    ∃ mid st1 st, run (step sampleRegex) sampleState
        [request 1, .scd (.init 1) false, .scd .schedule false, .sessionCancel 1] = some mid ∧
      1 ≤ mid.lastSessionId ∧ step sampleRegex mid (.scd (.cancel 1) false) = some st1 ∧
      ¬ (1 ∈ st1.running ∧ .kill 1 ∈ st1.rm) ∧
      run (step sampleRegex) st1 [.rm (.req 1) false 0, .scd (.allocd 1) false] = some st ∧
      1 ∈ st.running ∧ .kill 1 ∉ st.rm := by
  simp only [exists_and_left]
  decide

end Sensys.Scd
