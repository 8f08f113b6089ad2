import Sensys.Scd.Places
/-!
# First come, first served

Sessions leave `default` from the front and a failed one goes back to the front, so several
sessions in flight keep their order only if the last of them fails first. Two failures in the
order of arrival turn the queue round: `failures_reverse_queue`. `InOrder` is the condition: an
accepted allocation is the earliest in flight, a rejected one the latest.
-/
namespace Sensys.Scd
open Run Lists List

/-- The sessions in the order in which their INIT events are handled. -/
def initOrder (acts : List Act) : List SessionId :=
  (handled acts).filterMap fun
    | .init s => some s
    | _ => none

variable {s : SessionId} {R : Regex} {act : Act} {acts : List Act} {st st' : State}

theorem mem_initOrder : s ∈ initOrder acts ↔ .init s ∈ handled acts := by
  unfold initOrder
  rw [mem_filterMap_inv (g := ScdEvent.init)]
  intro e t
  cases e <;> simp

@[simp] theorem initOrder_append (acts acts' : List Act) :
    initOrder (acts ++ acts') = initOrder acts ++ initOrder acts' := by
  simp [initOrder, filterMap_append]

/-- `s` came before `t`. -/
def Earlier (ord : List SessionId) (s t : SessionId) : Prop := ord.idxOf s < ord.idxOf t
deriving Decidable

/-- Of the sessions in flight, the earliest is accepted first and the latest rejected first. -/
def InOrder (R : Regex) (ord : List SessionId) (st : State) : Act → Prop
  | .scd (.allocd s) f =>
    if accepts R f st s then ∀ t ∈ inFlight st, t ≠ s → Earlier ord s t
    else st.running = [] ∧ ∀ t ∈ inFlight st, t ≠ s → Earlier ord t s
  | _ => True

instance (R : Regex) (ord : List SessionId) (st : State) : ∀ act, Decidable (InOrder R ord st act)
  | .scd (.allocd _) _ => inferInstanceAs (Decidable (ite _ _ _))
  | .scd (.init _) _ | .scd .schedule _ | .scd (.terminated _) _ | .scd (.cancel _) _ =>
    isTrue trivial
  | .rm _ _ _ | .sessionReq _ | .sessionCancel _ | .stepdComplete _ _ | .nodestateByproc _ _ |
      .nodestateByname _ _ _ => isTrue trivial

theorem InOrder.rejectsAlone {ord : List SessionId} {st : State}
    (h : InOrder R ord st act) : RejectsAlone R st act := by
  unfold RejectsAlone
  split
  · intro hacc
    simp only [InOrder, hacc, Bool.false_eq_true, if_false] at h
    exact h.1
  · trivial

/-- The session that a step puts on `running` for good. -/
def enters (R : Regex) (st : State) : Act → List SessionId
  | .scd (.allocd s) f => if accepts R f st s then [s] else []
  | _ => []

/-! ## What a step does to the queue -/

/-- How a step moves sessions between INIT, `default`, the pending REQ and ALLOCD events, and
`running`. -/
inductive QueueMove (R : Regex) (st st' : State) : Act → Prop
  | arrive (s : SessionId) (f : Bool) (hp : .init s ∈ st.scd) (hd : st'.default = st.default ++ [s])
      (hfl : ∀ t ∈ inFlight st', t ∈ inFlight st) : QueueMove R st st' (.scd (.init s) f)
  | take (s : SessionId) (f : Bool) (hd : st.default = s :: st'.default)
      (hfl : ∀ t ∈ inFlight st', t ∈ inFlight st ∨ t = s) : QueueMove R st st' (.scd .schedule f)
  | enter (s : SessionId) (f : Bool) (hacc : accepts R f st s = true) (hs : s ∈ inFlight st)
      (hr : s ∈ st'.running) (hd : st'.default = st.default)
      (hfl : ∀ t ∈ inFlight st', t ∈ inFlight st) : QueueMove R st st' (.scd (.allocd s) f)
  | requeue (s : SessionId) (f : Bool) (hacc : accepts R f st s = false) (hs : s ∈ inFlight st)
      (hd : st'.default = s :: st.default)
      (hfl : ∀ t ∈ inFlight st', t ∈ inFlight st) : QueueMove R st st' (.scd (.allocd s) f)
  | stay (act : Act) (hent : enters R st act = []) (hd : st'.default.Sublist st.default)
      (hfl : ∀ t ∈ inFlight st', t ∈ inFlight st) : QueueMove R st st' act

theorem Effect.queueMove (h : Effect R st act st') :
    QueueMove R st st' act := by
  have stay (hent : enters R st act = []) (hd : st'.default.Sublist st.default) (hrm : ∀ t, .req t ∈ st'.rm → .req t ∈ st.rm)
      (hscd : ∀ t, .allocd t ∈ st'.scd → .allocd t ∈ st.scd) : QueueMove R st st' act :=
    .stay _ hent hd (inFlight_mono hrm hscd)
  cases h with
  | sessionReq | sessionCancel => exact stay rfl (Sublist.refl _) (fun _ h => h) fun t h => by simpa using h
  | stepdComplete sender a =>
    refine stay rfl (Sublist.refl _) (fun _ h => h) fun t h => ?_
    rcases recvStepdComplete_events sender a st.tracking with he | he <;> simpa [he] using h
  | byproc | byname => exact stay rfl (Sublist.refl _) (fun _ h => h) fun _ h => h
  | initHold | terminated =>
    exact stay rfl (Sublist.refl _) (fun _ h => h) fun t h => mem_of_mem_erase_append h (by simp)
  | initQueue s f A hp hA =>
    exact .arrive s f hp rfl
      (inFlight_mono (fun _ h => h) fun t h => mem_of_mem_erase_append h (by simp))
  | scheduleEmpty | scheduleWait | terminatedFail =>
    exact stay rfl (Sublist.refl _) (fun _ h => h) fun t => mem_of_mem_erase
  | scheduleTake f s rest hp hd hfit =>
    refine .take s f hd fun t ht => ?_
    rw [mem_inFlight] at ht ⊢
    simp only [mem_append, mem_singleton, RmEvent.req.injEq] at ht
    rcases ht with (ht | ht) | ht
    · exact Or.inl (Or.inl ht)
    · exact Or.inr ht
    · exact Or.inl (Or.inr (mem_of_mem_erase ht))
  | allocdAccept s f A nl names hp hA hn hne hx hlen =>
    exact .enter s f (accepts_iff.2 ⟨nl, names, hn, hne, hx, hlen⟩) (mem_inFlight.2 (Or.inr hp))
      (by simp) rfl (inFlight_mono (fun t h => by simpa using h) fun t => mem_of_mem_erase)
  | allocdReject s f A nl hp hA hn hacc =>
    refine .requeue s f hacc (mem_inFlight.2 (Or.inr hp)) rfl
      (inFlight_mono (fun t h => ?_) fun t h => mem_of_mem_erase_append h (by simp))
    split at h <;> simpa using h
  | cancel i f hp =>
    refine stay rfl erase_sublist (fun t h => by simpa using h) fun t h => ?_
    rw [append_assoc] at h
    exact mem_of_mem_erase_append h (by simp)
  | reqNone | activeNone | activeSend | kill =>
    exact stay rfl (Sublist.refl _) (fun t => mem_of_mem_erase) fun _ h => h
  | reqShort s f k hp | reqGrant s f k r hp =>
    -- the session is still in flight, now with its ALLOCD pending
    refine .stay _ rfl (Sublist.refl _) fun t ht => ?_
    rw [mem_inFlight] at ht ⊢
    simp only [mem_append, mem_singleton, ScdEvent.allocd.injEq] at ht
    rcases ht with ht | ht | rfl
    · exact Or.inl (mem_of_mem_erase ht)
    · exact Or.inr ht
    · exact Or.inl hp

/-! ## The order is kept -/

/-- The sessions that entered `running`, those in flight and those waiting stand in this order;
`seen` are the sessions that have passed INIT. -/
structure Ordered (ord entered seen : List SessionId) (st : State) : Prop where
  seenEntered   : ∀ s ∈ entered, s ∈ seen
  seenFlight    : ∀ s ∈ inFlight st, s ∈ seen
  seenDefault   : ∀ s ∈ st.default, s ∈ seen
  enteredSorted : entered.Pairwise (Earlier ord)
  enteredFlight : ∀ s ∈ entered, ∀ t ∈ inFlight st, Earlier ord s t
  enteredQueue  : ∀ s ∈ entered, ∀ t ∈ st.default, Earlier ord s t
  flightQueue   : ∀ s ∈ inFlight st, ∀ t ∈ st.default, Earlier ord s t
  queueSorted   : st.default.Pairwise (Earlier ord)

section
variable {ord entered seen : List SessionId} {st st' : State}

section
variable (h : Ordered ord entered seen st)
include h

/-- A step that adds no session anywhere and reorders nothing. -/
theorem Ordered.frame (hfl : ∀ s ∈ inFlight st', s ∈ inFlight st)
    (hd : st'.default.Sublist st.default) : Ordered ord entered seen st' where
  seenEntered := h.seenEntered
  seenFlight s hs := h.seenFlight s (hfl s hs)
  seenDefault s hs := h.seenDefault s (hd.subset hs)
  enteredSorted := h.enteredSorted
  enteredFlight s hs t ht := h.enteredFlight s hs t (hfl t ht)
  enteredQueue s hs t ht := h.enteredQueue s hs t (hd.subset ht)
  flightQueue s hs t ht := h.flightQueue s (hfl s hs) t (hd.subset ht)
  queueSorted := h.queueSorted.sublist hd

theorem Ordered.mono {seen' : List SessionId} (hs : ∀ s ∈ seen, s ∈ seen') :
    Ordered ord entered seen' st :=
  { h with
    seenEntered := fun s hm => hs s (h.seenEntered s hm)
    seenFlight := fun s hm => hs s (h.seenFlight s hm)
    seenDefault := fun s hm => hs s (h.seenDefault s hm) }

/-- A new session goes to the end of the queue and is later than everything seen before. -/
theorem Ordered.arrive (hfl : ∀ t ∈ inFlight st', t ∈ inFlight st)
    (hd : st'.default = st.default ++ [s]) (later : ∀ t ∈ seen, Earlier ord t s) :
    Ordered ord entered (seen ++ [s]) st' := by
  have hmem : ∀ t ∈ st'.default, t ∈ st.default ∨ t = s := by
    intro t ht
    rw [hd, mem_append, mem_singleton] at ht
    exact ht
  refine ⟨fun t ht => mem_append_left _ (h.seenEntered t ht),
    fun t ht => mem_append_left _ (h.seenFlight t (hfl t ht)), ?_, h.enteredSorted,
    fun e he t ht => h.enteredFlight e he t (hfl t ht), ?_, ?_, ?_⟩
  · intro t ht
    rcases hmem t ht with ht | rfl
    · exact mem_append_left _ (h.seenDefault t ht)
    · simp
  · intro e he t ht
    rcases hmem t ht with ht | rfl
    · exact h.enteredQueue e he t ht
    · exact later e (h.seenEntered e he)
  · intro e he t ht
    rcases hmem t ht with ht | rfl
    · exact h.flightQueue e (hfl e he) t ht
    · exact later e (h.seenFlight e (hfl e he))
  · rw [hd, pairwise_append]
    refine ⟨h.queueSorted, pairwise_singleton _ _, fun t ht u hu => ?_⟩
    rw [mem_singleton.1 hu]
    exact later t (h.seenDefault t ht)

/-- The head of the queue goes in flight: it is later than the others there and earlier than the
rest. -/
theorem Ordered.take (hd : st.default = s :: st'.default)
    (hfl : ∀ t ∈ inFlight st', t ∈ inFlight st ∨ t = s) : Ordered ord entered seen st' := by
  have hso := h.queueSorted
  rw [hd, pairwise_cons] at hso
  have hs : s ∈ st.default := by rw [hd]; exact mem_cons_self
  have hmem : ∀ t ∈ st'.default, t ∈ st.default := by
    intro t ht
    rw [hd]
    exact mem_cons_of_mem _ ht
  refine ⟨h.seenEntered, ?_, fun t ht => h.seenDefault t (hmem t ht), h.enteredSorted, ?_,
    fun e he t ht => h.enteredQueue e he t (hmem t ht), ?_, hso.2⟩
  · intro t ht
    rcases hfl t ht with ht | rfl
    · exact h.seenFlight t ht
    · exact h.seenDefault t hs
  · intro e he t ht
    rcases hfl t ht with ht | rfl
    · exact h.enteredFlight e he t ht
    · exact h.enteredQueue e he t hs
  · intro e he t ht
    rcases hfl e he with he | rfl
    · exact h.flightQueue e he t (hmem t ht)
    · exact hso.1 t ht

/-- The earliest session in flight enters `running`. -/
theorem Ordered.enter (hs : s ∈ inFlight st)
    (hd : st'.default = st.default) (hfl : ∀ t ∈ inFlight st', t ∈ inFlight st ∧ t ≠ s)
    (first : ∀ t ∈ inFlight st, t ≠ s → Earlier ord s t) :
    Ordered ord (entered ++ [s]) seen st' := by
  have hmem : ∀ t ∈ entered ++ [s], t ∈ entered ∨ t = s := by
    intro t ht
    rw [mem_append, mem_singleton] at ht
    exact ht
  refine ⟨?_, fun t ht => h.seenFlight t (hfl t ht).1,
    fun t ht => h.seenDefault t (hd ▸ ht), ?_, ?_, ?_,
    fun e he t ht => h.flightQueue e (hfl e he).1 t (hd ▸ ht), by rw [hd]; exact h.queueSorted⟩
  · intro t ht
    rcases hmem t ht with ht | rfl
    · exact h.seenEntered t ht
    · exact h.seenFlight t hs
  · rw [pairwise_append]
    refine ⟨h.enteredSorted, pairwise_singleton _ _, fun e he t ht => ?_⟩
    rw [mem_singleton.1 ht]
    exact h.enteredFlight e he s hs
  · intro e he t ht
    rcases hmem e he with he | rfl
    · exact h.enteredFlight e he t (hfl t ht).1
    · exact first t (hfl t ht).1 (hfl t ht).2
  · intro e he t ht
    rw [hd] at ht
    rcases hmem e he with he | rfl
    · exact h.enteredQueue e he t ht
    · exact h.flightQueue e hs t ht

/-- The latest session in flight goes back to the front of the queue. -/
theorem Ordered.requeue (hs : s ∈ inFlight st)
    (hd : st'.default = s :: st.default) (hfl : ∀ t ∈ inFlight st', t ∈ inFlight st ∧ t ≠ s)
    (last : ∀ t ∈ inFlight st, t ≠ s → Earlier ord t s) : Ordered ord entered seen st' := by
  have hmem : ∀ t ∈ st'.default, t = s ∨ t ∈ st.default := by
    intro t ht
    rw [hd] at ht
    exact mem_cons.1 ht
  refine ⟨h.seenEntered, fun t ht => h.seenFlight t (hfl t ht).1, ?_, h.enteredSorted,
    fun e he t ht => h.enteredFlight e he t (hfl t ht).1, ?_, ?_, ?_⟩
  · intro t ht
    rcases hmem t ht with rfl | ht
    · exact h.seenFlight t hs
    · exact h.seenDefault t ht
  · intro e he t ht
    rcases hmem t ht with rfl | ht
    · exact h.enteredFlight e he t hs
    · exact h.enteredQueue e he t ht
  · intro e he t ht
    rcases hmem t ht with rfl | ht
    · exact last e (hfl e he).1 (hfl e he).2
    · exact h.flightQueue e (hfl e he).1 t ht
  · rw [hd, pairwise_cons]
    exact ⟨fun t ht => h.flightQueue s hs t ht, h.queueSorted⟩

end

end

/-- A session that is INITed now is later than everything seen before. -/
theorem earlier_of_isPrefix {ord seen : List SessionId} {s t : SessionId}
    (hpre : seen ++ [t] <+: ord) (hs : s ∈ seen) (ht : t ∉ seen) : Earlier ord s t := by
  obtain ⟨rest, rfl⟩ := hpre
  unfold Earlier
  rw [append_assoc, idxOf_append_of_mem hs, idxOf_append_of_notMem ht]
  have := idxOf_lt_length_of_mem hs
  omega

theorem Ordered.step {ord entered : List SessionId} (hpl : Places acts st)
    (hpl' : Places (acts ++ [act]) st') (ho : Ordered ord entered (initOrder acts) st)
    (hpre : initOrder (acts ++ [act]) <+: ord)
    (hC : InOrder R ord st act) (h : Effect R st act st') :
    Ordered ord (entered ++ enters R st act) (initOrder (acts ++ [act])) st' := by
  have hg : ∀ s ∈ initOrder acts, s ∈ initOrder (acts ++ [act]) := by
    intro s hs
    rw [initOrder_append]
    exact mem_append_left _ hs
  cases h.queueMove with
  | arrive s f hp hd hfl =>
    have hnew : s ∉ initOrder acts := by
      rw [mem_initOrder]
      intro hs
      have h1 := count_pos_iff.2 hs
      have h2 := count_pos_iff.2 hp
      have h3 := hpl.once s
      unfold inits at h3
      omega
    have hseq : initOrder (acts ++ [.scd (.init s) f]) = initOrder acts ++ [s] := by
      rw [initOrder_append]; rfl
    have hent : enters R st (.scd (.init s) f) = [] := rfl
    rw [hseq] at hpre ⊢
    rw [hent, append_nil]
    exact ho.arrive hfl hd fun t ht => earlier_of_isPrefix hpre ht hnew
  | take s f hd hfl =>
    have hent : enters R st (.scd .schedule f) = [] := rfl
    rw [hent, append_nil]
    exact (ho.take hd hfl).mono hg
  | enter s f hacc hs hr hd hfl =>
    have hne : ∀ t ∈ inFlight st', t ≠ s := by
      rintro t ht rfl
      exact hpl'.not_inFlight (Or.inl hr) ht
    simp only [InOrder, hacc, if_true] at hC
    simp only [enters, hacc, if_true]
    exact (ho.enter hs hd (fun t ht => ⟨hfl t ht, hne t ht⟩) hC).mono hg
  | requeue s f hacc hs hd hfl =>
    have hne : ∀ t ∈ inFlight st', t ≠ s := by
      rintro t ht rfl
      exact hpl'.not_inFlight (Or.inr (by rw [hd]; exact mem_cons_self)) ht
    simp only [InOrder, hacc, Bool.false_eq_true, if_false] at hC
    simp only [enters, hacc, Bool.false_eq_true, if_false, append_nil]
    exact (ho.requeue hs hd (fun t ht => ⟨hfl t ht, hne t ht⟩) hC.2).mono hg
  | stay _ hent hd hfl =>
    rw [hent, append_nil]
    exact (ho.frame hfl hd).mono hg

/-- **Sessions wait and enter `running` in the order of their INIT events**, in every state of a run
whose steps all meet `InOrder`. -/
theorem fifo_of_run {R : Regex} {st0 st : State} {acts : List Act} (hf : Fresh st0)
    (hpos : ∀ act ∈ acts, PosRequest act) (hrun : run (step R) st0 acts = some st)
    (hC : Along (step R) (InOrder R (initOrder acts)) st0 acts) :
    st.default.Pairwise (Earlier (initOrder acts)) ∧
      (emitted (step R) (enters R) st0 acts).Pairwise (Earlier (initOrder acts)) := by
  have h := run_induction (I := fun tr s => run (step R) st0 tr = some s ∧ Places tr s ∧
      (tr <+: acts → Ordered (initOrder acts) (emitted (step R) (enters R) st0 tr)
      (initOrder tr) s))
    (fun tr s a s' hI hc hs => ?_) ⟨rfl, Places.of_fresh hf, fun _ => ?_⟩ hrun
    ((along_of_forall hpos st0).and hC)
  · have ho := h.2.2 (by simp)
    exact ⟨ho.queueSorted, ho.enteredSorted⟩
  · obtain ⟨htr, hpl, hord⟩ := hI
    have hpl' := hpl.step hc.1 hc.2.rejectsAlone (step_effect hs)
    refine ⟨run_snoc htr hs, hpl', fun hpre => ?_⟩
    rw [emitted_snoc htr]
    obtain ⟨rest, hre⟩ := hpre
    refine Ordered.step hpl hpl' (hord ⟨a :: rest, by simpa using hre⟩) ?_ hc.2 (step_effect hs)
    exact ⟨initOrder rest, by rw [← hre, initOrder_append _ rest]⟩
  · constructor <;> simp [hf.default, inFlight, hf.rm, hf.scd, emitted]

/-- Session 1 fails with nothing else in flight and enters at its second try; session 2 follows. -/
def retryThenNextRun : List Act :=
  admission 1 1 true ++ [.scd .schedule false, .rm (.req 1) false 0,
    .scd (.allocd 1) false, launch 1] ++
    admission 1 2 false

theorem fifo_of_run_retry :
    ∃ st, run (step sampleRegex) sampleState retryThenNextRun = some st ∧
      emitted (step sampleRegex) (enters sampleRegex) sampleState retryThenNextRun = [1, 2] ∧
      st.default.Pairwise (Earlier (initOrder retryThenNextRun)) ∧
      (emitted (step sampleRegex) (enters sampleRegex) sampleState retryThenNextRun).Pairwise
        (Earlier (initOrder retryThenNextRun)) := by
  have hv : (run (step sampleRegex) sampleState retryThenNextRun).isSome = true := by decide
  obtain ⟨st, hst⟩ := Option.isSome_iff_exists.1 hv
  exact ⟨st, hst, by decide, fifo_of_run sampleState_fresh (by decide) hst (by decide)⟩

/-- Sessions 1 and 2 in flight together, and both fail, the first one first. -/
def bothFailRun : List Act :=
  [request 1, request 1, .scd (.init 1) false, .scd (.init 2) false, .scd .schedule false,
    .scd .schedule false, .rm (.req 1) true 0, .rm (.req 2) true 0, .scd (.allocd 1) false,
    .scd (.allocd 2) false]

/-- The queue is turned round, and session 2 then enters `running` before session 1. -/
theorem failures_reverse_queue :
    initOrder bothFailRun = [1, 2] ∧
    (∃ st, run (step sampleRegex) sampleState bothFailRun = some st ∧ st.default = [2, 1]) ∧
    emitted (step sampleRegex) (enters sampleRegex) sampleState
      (bothFailRun ++ [.scd .schedule false, .scd .schedule false, .rm (.req 2) false 0,
        .rm (.req 1) false 0, .scd (.allocd 2) false, .scd (.allocd 1) false]) = [2, 1] := by
  decide

end Sensys.Scd
