import Sensys.Scd.Exclusive
/-!
# A launch command goes out only for a running session

`pmf_allocated` raises ACTIVE before it looks at the node list (`scd_pmf.c:275`), and no later
branch takes the event back. A list that can be extracted but has the wrong number of names is
rejected, the session goes back to `default`, and the ACTIVE handler then launches it on the
rejected list: `rejected_session_launched`. `LaunchSafe` is what the handlers need from a run.
-/
namespace Sensys.Scd
open Run Lists List

/-- The sessions whose ACTIVE event is pending. -/
def activePending (st : State) : List SessionId :=
  st.rm.filterMap fun
    | .active s => some s
    | _ => none

variable {st st' : State} {s : SessionId} {R : Regex} {acts : List Act} {act : Act}

theorem mem_activePending : s ∈ activePending st ↔ .active s ∈ st.rm := by
  unfold activePending
  rw [mem_filterMap_inv (g := RmEvent.active)]
  intro e t
  cases e <;> simp

def LaunchSafe (R : Regex) (st : State) : Act → Prop
  | .scd (.allocd s) f => accepts R f st s = false →
      st.running = [] ∧ ((st.alloc s).nodes = some "ERROR" ∨ listed R (st.alloc s) = [])
  | .scd (.terminated a) _ =>
      ∀ s ∈ activePending st, s ≠ a.id ∧ ∀ nm ∈ listed R a, nm ∉ listed R (st.alloc s)
  | .rm (.req s) _ _ => s ∉ activePending st
  | _ => True

instance (R : Regex) (st : State) : ∀ act, Decidable (LaunchSafe R st act)
  | .scd (.allocd _) _ => inferInstanceAs (Decidable (_ → _))
  | .scd (.terminated _) _ => inferInstanceAs (Decidable (∀ _ ∈ _, _))
  | .rm (.req _) _ _ => inferInstanceAs (Decidable (_ ∉ _))
  | .scd (.init _) _ | .scd .schedule _ | .scd (.cancel _) _ | .rm (.active _) _ _ |
      .rm (.kill _) _ _ => isTrue trivial
  | .sessionReq _ | .sessionCancel _ | .stepdComplete _ _ | .nodestateByproc _ _ |
      .nodestateByname _ _ _ => isTrue trivial

theorem LaunchSafe.rejectsAlone (h : LaunchSafe R st act) : RejectsAlone R st act := by
  unfold RejectsAlone
  split
  · exact fun hacc => (h hacc).1
  · trivial

/-- Handling ACTIVE of `s` now sends nothing, or finds `s` running on its own nodes. -/
def LaunchReady (R : Regex) (st : State) (s : SessionId) : Prop :=
  listed R (st.alloc s) = [] ∨ s ∈ st.running ∧ AllIn .alloc st.nodes (listed R (st.alloc s))

theorem LaunchReady.frame (h : LaunchReady R st s)
    (hl : (st'.alloc s).nodes = (st.alloc s).nodes) (hrun : s ∈ st.running → s ∈ st'.running)
    (hno : AllIn .alloc st.nodes (listed R (st.alloc s)) →
      AllIn .alloc st'.nodes (listed R (st.alloc s))) : LaunchReady R st' s := by
  unfold LaunchReady
  rw [listed_congr hl]
  rcases h with h | ⟨h1, h2⟩
  · exact Or.inl h
  · exact Or.inr ⟨hrun h1, hno h2⟩

/-- Every pending ACTIVE is for a known session and may be handled now. -/
def ActiveReady (R : Regex) (st : State) : Prop :=
  ∀ s : Nat, .active s ∈ st.rm → s ≤ st.lastSessionId ∧ LaunchReady R st s

theorem ActiveReady.step (hpl : Places acts st) (ha : ActiveReady R st) (hC : LaunchSafe R st act)
    (h : Effect R st act st') :
    ActiveReady R st' := by
  have kept : ∀ names : List String, AllIn .alloc st.nodes names → AllIn .alloc st.nodes names :=
    fun _ h => h
  by_cases hact : act.movesNodes = false
  · intro s hs
    have hq := h.quiet hact
    obtain ⟨hle, hr⟩ := ha s (hq.active s hs)
    refine ⟨Nat.le_trans hle hq.lastId, hr.frame (hq.lists s hle) (fun hm => ?_) fun hin => ?_⟩
    · rw [hq.running]; exact hm
    · exact hin.kept (Or.inl rfl) hq.nodes
  cases h with
  | allocdAccept s f A nl names hp hA hn hne hx hlen =>
    intro t ht
    simp only [mem_append, mem_singleton, RmEvent.active.injEq] at ht
    rcases ht with ht | rfl
    · obtain ⟨hle, hr⟩ := ha t ht
      exact ⟨hle, hr.frame (hA t).2.2 (fun hm => mem_append_left _ hm) AllIn.mark_same⟩
    · refine ⟨(hpl.known_of_held (held_pos (.inr (.inr (.inr hp))))).1, Or.inr ⟨by simp, ?_⟩⟩
      have hna : listed R (A t) = names := by
        rw [listed_congr (hA t).2.2]; exact listed_of_names (hn ▸ hx)
      rw [hna]
      exact allIn_markNodes .alloc st.nodes names
  | allocdReject s f A nl hp hA hn hacc =>
    obtain ⟨hrun, hl⟩ := hC hacc
    intro t ht
    rw [mem_append] at ht
    rcases ht with ht | ht
    · obtain ⟨hle, hr⟩ := ha t ht
      exact ⟨hle, hr.frame (hA t).2.2 (fun hm => by simp [hrun] at hm) (kept _)⟩
    · -- the new ACTIVE is for a list without names
      by_cases he : nl = "ERROR"
      · simp [he] at ht
      · rw [if_neg he, mem_singleton] at ht
        cases ht
        refine ⟨(hpl.known_of_held (held_pos (.inr (.inr (.inr hp))))).1, Or.inl ?_⟩
        rw [listed_congr (hA s).2.2]
        rcases hl with h1 | h1
        · rw [hn] at h1; exact absurd (Option.some.inj h1) he
        · exact h1
  | terminatedFail a f hp hx => exact ha
  | terminated a f names hp hx =>
    intro t ht
    obtain ⟨hle, hr⟩ := ha t ht
    obtain ⟨hne, hdi⟩ := hC t (mem_activePending.2 ht)
    refine ⟨hle, hr.frame rfl (fun hm => mem_filter.2 ⟨hm, by simpa using hne⟩) fun hin => ?_⟩
    exact hin.mark_disjoint fun nm hnm => hdi nm (by rw [listed_of_names hx]; exact hnm)
  | reqNone s f k hp hmin => exact fun t ht => ha t (mem_of_mem_erase ht)
  | reqShort s f k hp hmin hleft =>
    intro t ht
    obtain ⟨hle, hr⟩ := ha t (mem_of_mem_erase ht)
    exact ⟨hle, hr.frame rfl (fun hm => hm) (kept _)⟩
  | reqGrant s f k r hp hmin hleft hr =>
    intro t ht
    obtain ⟨hle, hrd⟩ := ha t (mem_of_mem_erase ht)
    have hts : t ≠ s := by
      rintro rfl
      exact hC (mem_activePending.2 (mem_of_mem_erase ht))
    refine ⟨hle, hrd.frame ?_ (fun hm => hm) (kept _)⟩
    simp [Function.update_of_ne hts]
  | _ => exact absurd rfl hact

/-- Only its own ALLOCD puts a session on `running`. -/
theorem mem_running_step (h : Effect R st act st')
    (hs : s ∈ st'.running) : s ∈ st.running ∨ .allocd s ∈ handled [act] := by
  by_cases hact : act.movesNodes = false
  · rw [(h.quiet hact).running] at hs; exact Or.inl hs
  cases h with
  | allocdAccept t => simpa [eq_comm] using hs
  | allocdReject t => simpa [eq_comm] using mem_of_mem_tail hs
  | terminated a => exact Or.inl (mem_of_mem_filter hs)
  | terminatedFail | reqNone | reqShort | reqGrant => exact Or.inl hs
  | _ => exact absurd rfl hact

theorem not_mem_running_of_run (hrun : run (step R) st acts = some st') (hs : s ∉ st.running)
    (hno : .allocd s ∉ handled acts) :
    s ∉ st'.running := by
  have h :=
    run_induction (C := fun _ _ => True) (I := fun tr u => .allocd s ∉ handled tr → s ∉ u.running)
    (fun tr u a u' hI _ hu hno' hm => ?_) (p := []) (fun _ => hs) hrun
      (along_of_forall (by simp) st)
  · exact h (by simpa using hno)
  · rw [handled_append, mem_append, not_or] at hno'
    rcases mem_running_step (step_effect hu) hm with h1 | h1
    · exact hI hno'.1 h1
    · exact hno'.2 h1

theorem activeReady_of_run {st0 : State} (hf : Fresh st0)
    (hpos : ∀ act ∈ acts, PosRequest act) (hrun : run (step R) st0 acts = some st)
    (hC : Along (step R) (LaunchSafe R) st0 acts) : ActiveReady R st := by
  have h := run_induction (I := fun tr s => Places tr s ∧ ActiveReady R s)
    (fun tr s a s' hI hc hs => ⟨hI.1.step hc.1 hc.2.rejectsAlone (step_effect hs),
      ActiveReady.step hI.1 hI.2 hc.2 (step_effect hs)⟩)
    ⟨Places.of_fresh hf, fun s hs => by simp [hf.rm] at hs⟩ hrun ((along_of_forall hpos st0).and hC)
  exact h.2

/-- An ACTIVE step that sends something sends it for a running session on `ALLOC` nodes. -/
theorem launched_of_activeReady (ha : ActiveReady R st) {f : Bool}
    {k : Nat} (hs : step R st (.rm (.active s) f k) = some st') (hse : st'.sent ≠ st.sent) :
    s ∈ st.running ∧ AllIn .alloc st.nodes (listed R (st.alloc s)) := by
  cases step_effect hs with
  | activeNone _ _ _ hp hx => exact absurd rfl hse
  | activeSend _ _ _ A names hp hA hx hne =>
    rcases (ha s hp).2 with h | h
    · rw [listed_of_names hx] at h; exact absurd h hne
    · exact h

/-- **A launch command is sent only for a session on `running` whose nodes are all `ALLOC`**, in
every state of a run whose steps all meet `LaunchSafe`; and a rejected session is not launched
until its ALLOCD is handled again. -/
theorem launch_only_running_of_run {R : Regex} {st0 st : State} {acts : List Act} (hf : Fresh st0)
    (hpos : ∀ act ∈ acts, PosRequest act) (hrun : run (step R) st0 acts = some st)
    (hC : Along (step R) (LaunchSafe R) st0 acts) :
    (∀ s f k st', step R st (.rm (.active s) f k) = some st' → st'.sent ≠ st.sent →
      s ∈ st.running ∧ AllIn .alloc st.nodes (listed R (st.alloc s))) ∧
    ∀ pre s f post mid, acts = pre ++ .scd (.allocd s) f :: post → run (step R) st0 pre = some mid →
      accepts R f mid s = false → .allocd s ∉ handled post →
      ∀ f' k st', step R st (.rm (.active s) f' k) = some st' → st'.sent = st.sent := by
  have hre := activeReady_of_run hf hpos hrun hC
  refine ⟨fun s f k st' hs hse => launched_of_activeReady hre hs hse, ?_⟩
  rintro pre s f post mid rfl hpre hacc hno f' k st' hs
  -- the rejection left `running` empty, and nothing has put the session there since
  rw [run_append, hpre] at hrun
  obtain ⟨mid', hmid, hpo⟩ := run_cons hrun
  have hsa : LaunchSafe R mid (.scd (.allocd s) f) := (along_append hC hpre).2.1
  have hout : s ∉ mid'.running := by
    simp [((step_effect hmid).rejected hacc).1, (hsa hacc).1]
  have hnot := not_mem_running_of_run hpo hout hno
  by_contra hse
  exact hnot (launched_of_activeReady hre hs hse).1

/-- Session 1 is launched on `n0` once it runs there. -/
theorem launch_only_running_of_run_one :
    ∃ st st', run (step sampleRegex) sampleState (admission 1 1 false) = some st ∧
      step sampleRegex st (launch 1) = some st' ∧ st'.sent ≠ st.sent ∧
      1 ∈ st.running ∧ AllIn .alloc st.nodes (listed sampleRegex (st.alloc 1)) := by
  obtain ⟨st, hst, st', hst', hse⟩ : ∃ st,
    run (step sampleRegex) sampleState (admission 1 1 false) = some st ∧
      ∃ st', step sampleRegex st (launch 1) = some st' ∧ st'.sent ≠ st.sent := by decide
  have h := launch_only_running_of_run sampleState_fresh (by decide) hst (by decide)
  exact ⟨st, st', hst, hst', hse, h.1 1 false 9 st' hst' hse⟩

/-- The client names `n0,n1` but asks for one node; both nodes go down before REQ is handled, so the
client's list stays and ALLOCD rejects it. -/
def rejectedRun : List Act :=
  [.sessionReq { id := 0, minNodes := 1, nodes := some "n0,n1" }, .scd (.init 1) false,
    .scd .schedule false, .nodestateByproc .down [⟨0, 1⟩, ⟨0, 2⟩], .rm (.req 1) false 0,
    .scd (.allocd 1) false]

/-- The ACTIVE event then launches session 1 on `n0`, with the session on `default` and the node
free. -/
theorem rejected_session_launched :
    ∃ st st', run (step sampleRegex) sampleState rejectedRun = some st ∧
      step sampleRegex st (launch 1) = some st' ∧
      st.running = [] ∧ st.default = [1] ∧
      ¬ AllIn .alloc st.nodes (listed sampleRegex (st.alloc 1)) ∧
      st.sent = [] ∧ st'.sent.map (fun x => (x.cmd, x.node)) = [(.launch, "n0")] := by
  simp only [exists_and_left]
  decide

end Sensys.Scd
