import Sensys.Scd.Effect
/-!
# Every session is in exactly one place

A session that passed INIT, and was neither cancelled nor terminated, is on exactly one queue or in
exactly one pending REQ or ALLOCD event. `held` counts the places, `Live` reads the history off the
actions of the run.

The `ERROR` path of `pmf_allocated` breaks the law: it takes the *first* session off `running`
(`scd_pmf.c:332`), which is the failing one only when nothing else runs. With another session
there, that one is lost and the failing one is put on `default` while it is still linked into
`running`. `opal_list_prepend` asserts that this never happens; without the assertion the two
lists share a link from then on, so the list model says nothing about later steps. `RejectsAlone`
excludes exactly this branch.
-/
namespace Sensys.Scd
open Run Lists List

/-- How often a session is held: on a queue, or by a pending REQ or ALLOCD event. -/
def held (st : State) (s : SessionId) : Nat :=
  st.running.count s + st.hold.count s + st.default.count s + st.rm.count (.req s) +
    st.scd.count (.allocd s)

/-- The sessions with a pending REQ or ALLOCD. -/
def inFlight (st : State) : List SessionId :=
  (st.rm.filterMap fun
    | .req s => some s
    | _ => none) ++
  st.scd.filterMap fun
    | .allocd s => some s
    | _ => none

variable {st st' : State} {s : SessionId} {R : Regex} {act : Act} {acts : List Act}

theorem mem_inFlight : s ∈ inFlight st ↔ .req s ∈ st.rm ∨ .allocd s ∈ st.scd := by
  unfold inFlight
  rw [mem_append, mem_filterMap_inv (g := RmEvent.req), mem_filterMap_inv (g := ScdEvent.allocd)]
  · intro e t; cases e <;> simp
  · intro e t; cases e <;> simp

theorem inFlight_mono (hrm : ∀ t, .req t ∈ st.rm → .req t ∈ st'.rm)
    (hscd : ∀ t, .allocd t ∈ st.scd → .allocd t ∈ st'.scd) :
    ∀ t ∈ inFlight st, t ∈ inFlight st' := by
  intro t ht
  rw [mem_inFlight] at ht ⊢
  exact ht.imp (hrm t) (hscd t)

/-- The event takes session `s` out of the scheduler: its CANCEL, or a TERMINATED of its id. -/
def ScdEvent.ends (s : SessionId) : ScdEvent → Bool
  | .cancel id => id == s
  | .terminated a => a.id == s
  | _ => false

theorem held_pos (h : s ∈ st.running ∨ s ∈ st.default ∨ .req s ∈ st.rm ∨ .allocd s ∈ st.scd) :
    0 < held st s := by
  simp only [← count_pos_iff] at h
  unfold held
  omega

/-- Passed INIT, and neither a CANCEL nor a TERMINATED of its id was handled. -/
def Live (acts : List Act) (s : SessionId) : Prop :=
  .init s ∈ handled acts ∧ ∀ e ∈ handled acts, e.ends s = false
deriving Decidable

/-- An allocation is rejected only while no session is on `running`. -/
def RejectsAlone (R : Regex) (st : State) : Act → Prop
  | .scd (.allocd s) f => accepts R f st s = false → st.running = []
  | _ => True

instance (R : Regex) (st : State) (act : Act) : Decidable (RejectsAlone R st act) := by
  delta RejectsAlone
  split <;> infer_instance

/-- A session request asks for at least one node. -/
def PosRequest : Act → Prop
  | .sessionReq a => 0 < a.minNodes
  | _ => True

instance (act : Act) : Decidable (PosRequest act) := by
  delta PosRequest
  split <;> infer_instance

@[simp] theorem handled_append (acts acts' : List Act) :
    handled (acts ++ acts') = handled acts ++ handled acts' :=
  filterMap_append

@[simp] theorem handled_scd (e : ScdEvent) (f : Bool) : handled [.scd e f] = [e] := rfl

/-! ## Ids -/

/-- INIT of `s` is raised or handled. -/
def inits (acts : List Act) (st : State) (s : SessionId) : Nat :=
  st.scd.count (.init s) + (handled acts).count (.init s)

/-- Only a session request raises an INIT, for an id that was never given out. -/
theorem inits_step (h : Effect R st act st') :
    (∃ a, act = .sessionReq a ∧ st'.lastSessionId = st.lastSessionId + 1 ∧
        (st'.alloc (st.lastSessionId + 1)).minNodes = a.minNodes ∧
        (∀ t : Nat, t ≠ st.lastSessionId + 1 → (st'.alloc t).minNodes = (st.alloc t).minNodes) ∧
        ∀ acts (t : Nat), inits (acts ++ [act]) st' t =
          inits acts st t + if t = st.lastSessionId + 1 then 1 else 0) ∨
      (st'.lastSessionId = st.lastSessionId ∧
      (∀ t, (st'.alloc t).minNodes = (st.alloc t).minNodes) ∧
        ∀ acts t, inits (acts ++ [act]) st' t = inits acts st t) := by
  unfold inits
  cases h with
  | sessionReq a =>
    refine Or.inl ⟨a, rfl, rfl,
      by simp, fun t ht => by simp [Function.update_of_ne ht], fun acts t => ?_⟩
    by_cases ht : t = st.lastSessionId + 1
    · subst ht; simp [handled, count_append]; omega
    · simp [handled, count_append, ht, Ne.symm ht]
  | stepdComplete sender a =>
    rcases recvStepdComplete_events sender a st.tracking with he | he
    · simp [he, handled]
    · simp [he, handled, count_append]
  | initHold s f A hp hA | initQueue s f A hp hA =>
    refine Or.inr ⟨rfl, fun t => (hA t).2.1, fun acts t => ?_⟩
    have he := count_erase_add hp (.init t)
    by_cases hs : s = t
    · subst hs; simp [count_append] at he ⊢; omega
    · simp [hs, count_append] at he ⊢; omega
  | allocdAccept s f A nl names hp hA | allocdReject s f A nl hp hA =>
    exact Or.inr ⟨rfl, fun t => (hA t).2.1, fun acts t => by simp [count_append]⟩
  | cancel id f hp =>
    exact Or.inr ⟨rfl, fun _ => rfl, fun acts t => by simp [count_append, count_ite_singleton]⟩
  | reqGrant s f k r hp hmin hleft hr =>
    refine Or.inr ⟨rfl, fun t => ?_, fun acts t => by simp [handled, count_append]⟩
    by_cases ht : t = s
    · subst ht; simp
    · simp [Function.update_of_ne ht]
  | activeSend s f k A names hp hA hx hne =>
    exact Or.inr ⟨rfl, fun t => (hA t).2.1, fun acts t => by simp [handled]⟩
  | scheduleEmpty | scheduleTake | scheduleWait | terminatedFail | terminated =>
    exact Or.inr ⟨rfl, fun _ => rfl, fun acts t => by simp [count_append]⟩
  | sessionCancel | reqShort =>
    exact Or.inr ⟨rfl, fun _ => rfl, fun acts t => by simp [handled, count_append]⟩
  | byproc | byname | reqNone | activeNone | kill =>
    exact Or.inr ⟨rfl, fun _ => rfl, fun acts t => by simp [handled]⟩

/-- Ids are given out once, from 1 up, and the sessions behind them ask for at least one node. -/
structure Registered (acts : List Act) (st : State) : Prop where
  inits_eq : ∀ s : Nat, inits acts st s = if 0 < s ∧ s ≤ st.lastSessionId then 1 else 0
  minPos   : ∀ s : Nat, 0 < s → s ≤ st.lastSessionId → 0 < (st.alloc s).minNodes

theorem Registered.of_fresh (h : Fresh st) : Registered [] st := by
  constructor
  · intro s
    have hno : ¬ (0 < s ∧ s ≤ st.lastSessionId) := by rw [h.lastId]; omega
    rw [if_neg hno]
    simp [inits, h.scd, handled]
  · intro s h1 h2
    rw [h.lastId] at h2
    omega

theorem Registered.step (hreg : Registered acts st) (hpos : PosRequest act)
    (h : Effect R st act st') :
    Registered (acts ++ [act]) st' := by
  rcases inits_step h with ⟨a, rfl, hlast, hmin, ho, hin⟩ | ⟨hlast, hmin, hin⟩
  · -- the new id is above every known one, so it had no INIT before
    constructor
    · intro s
      rw [hin, hreg.inits_eq, hlast]
      split_ifs <;> omega
    · intro s h1 h2
      by_cases hs : s = st.lastSessionId + 1
      · rw [hs, hmin]; exact hpos
      · rw [ho s hs]; exact hreg.minPos s h1 (by omega)
  · constructor
    · intro s; rw [hin, hreg.inits_eq, hlast]
    · intro s h1 h2
      rw [hmin]
      exact hreg.minPos s h1 (by omega)

theorem Registered.once (h : Registered acts st) (s : SessionId) : inits acts st s ≤ 1 := by
  rw [h.inits_eq]
  split <;> omega

theorem Registered.known (h : Registered acts st) {s : Nat}
    (hs : 0 < inits acts st s) : s ≤ st.lastSessionId ∧ 0 < (st.alloc s).minNodes := by
  rw [h.inits_eq] at hs
  split at hs
  · rename_i hk; exact ⟨hk.2, h.minPos s hk.1 hk.2⟩
  · omega

/-! ## Places -/

/-- The actions that may take session `t` out of every place: its own CANCEL, a TERMINATED of its
id, and its REQ when it asks for no nodes. -/
def Drops (st : State) (t : SessionId) : Act → Prop
  | .scd (.cancel id) _ => id = t
  | .scd (.terminated a) _ => a.id = t
  | .rm (.req s) _ _ => s = t ∧ (st.alloc t).minNodes ≤ 0
  | _ => False

/-- One step moves a session from place to place: only its INIT adds one, and only an action that
`Drops` it takes one away. -/
theorem held_step (t : SessionId) (h : Effect R st act st') (hrej : RejectsAlone R st act) :
    held st' t ≤ held st t + (handled [act]).count (.init t) ∧
      (¬ Drops st t act → held st' t = held st t + (handled [act]).count (.init t)) := by
  have kept : ∀ {x y : Nat}, x = y → x ≤ y ∧ (¬ Drops st t act → x = y) :=
    fun e => ⟨Nat.le_of_eq e, fun _ => e⟩
  unfold held
  cases h with
  | stepdComplete sender a =>
    rcases recvStepdComplete_events sender a st.tracking with he | he
    · exact kept (by simp [he, handled])
    · exact kept (by simp [he, handled, count_append])
  | initHold s | initQueue s =>
    apply kept
    by_cases hs : s = t
    · subst hs; simp [count_append]; omega
    · simp [hs, count_append]
  | scheduleTake f s rest hp hd hfit =>
    apply kept
    by_cases hs : s = t
    · subst hs; simp [hd, count_append]; omega
    · simp [hs, hd, count_append]
  | allocdAccept s f A nl names hp =>
    apply kept
    have he := count_erase_add hp (.allocd t)
    by_cases hs : s = t
    · subst hs; simp [count_append] at he ⊢; omega
    · simp [hs, count_append] at he ⊢; omega
  | allocdReject s f A nl hp hA hn hacc =>
    -- nothing else runs, so the first session of `running` is the failing one
    have hrun : st.running = [] := hrej hacc
    apply kept
    have he := count_erase_add hp (.allocd t)
    have hrm : (if nl = "ERROR" then [] else [RmEvent.active s]).count (.req t) = 0 := by
      split <;> simp
    by_cases hs : s = t
    · subst hs; simp [hrun, hrm, count_append] at he ⊢; omega
    · simp [hs, hrun, hrm, count_append] at he ⊢; omega
  | terminated a f names hp hx =>
    have hle : (st.running.filter (· ≠ a.id)).count t ≤ st.running.count t :=
      filter_sublist.count_le t
    have hscd : List.count (ScdEvent.allocd t) (st.scd.erase (.terminated a) ++ [.schedule]) =
        st.scd.count (.allocd t) := by simp [count_append]
    have hin : (handled [.scd (.terminated a) f]).count (.init t) = 0 := by simp
    dsimp only
    refine ⟨by omega, fun hd => ?_⟩
    have hne : t ≠ a.id := fun e => hd e.symm
    have hf : (st.running.filter (· ≠ a.id)).count t = st.running.count t :=
      count_filter (by simpa using hne)
    omega
  | cancel id f hp =>
    refine ⟨?_, fun hd => ?_⟩
    · have hle : ∀ q : List SessionId, (q.erase id).count t ≤ q.count t :=
        fun _ => erase_sublist.count_le t
      have hh := hle st.hold
      have hdef := hle st.default
      simp [count_append, count_ite_singleton]; omega
    · have hne : t ≠ id := fun e => hd e.symm
      simp [count_append, count_ite_singleton, count_erase_of_ne hne]
  | reqNone s f k hp hmin =>
    have he := count_erase_add hp (.req t)
    refine ⟨by simp [handled] at he ⊢; omega, fun hd => ?_⟩
    have hne : s ≠ t := fun e => hd ⟨e, e ▸ hmin⟩
    simp [hne, handled] at he ⊢; omega
  | reqShort s f k hp | reqGrant s f k r hp =>
    apply kept
    have he := count_erase_add hp (.req t)
    by_cases hs : s = t
    · subst hs; simp [handled, count_append] at he ⊢; omega
    · simp [hs, handled, count_append] at he ⊢; omega
  | scheduleEmpty | scheduleWait | terminatedFail => exact kept (by simp)
  | sessionReq | sessionCancel => exact kept (by simp [handled, count_append])
  | byproc | byname | activeNone | activeSend | kill => exact kept (by simp [handled])

/-- The law of places, in the form that is kept step by step: a session is in no more places than
it has passed INIT, and in one while it is live. -/
structure Places (acts : List Act) (st : State) : Prop extends Registered acts st where
  held_le : ∀ s, held st s ≤ (handled acts).count (.init s)
  live    : ∀ s, Live acts s → held st s = 1

theorem Places.of_fresh (h : Fresh st) : Places [] st where
  toRegistered := Registered.of_fresh h
  held_le s := by simp [held, h.running, h.hold, h.default, h.rm, h.scd]
  live s hl := absurd hl.1 (by simp [handled])

theorem Places.held_le_one (h : Places acts st) (s : SessionId) : held st s ≤ 1 := by
  have h1 := h.held_le s
  have h2 := h.once s
  unfold inits at h2
  omega

/-- A session on a queue is not in flight. -/
theorem Places.not_inFlight (h : Places acts st) (hs : s ∈ st.running ∨ s ∈ st.default) :
    s ∉ inFlight st := by
  intro hm
  have h1 := h.held_le_one s
  have h2 : 0 < st.running.count s + st.default.count s := by
    rcases hs with hs | hs <;> have := count_pos_iff.2 hs <;> omega
  unfold held at h1
  rw [mem_inFlight] at hm
  rcases hm with hm | hm <;> have h3 := count_pos_iff.2 hm <;> omega

/-- A session that is somewhere has an id that was given out, and asks for at least one node. -/
theorem Places.known_of_held (h : Places acts st) {s : Nat}
    (hs : 0 < held st s) : s ≤ st.lastSessionId ∧ 0 < (st.alloc s).minNodes := by
  have h1 := h.held_le s
  exact h.known (by unfold inits; omega)

/-- What takes a session away ends it: once in a place, a REQ without nodes cannot happen. -/
theorem Places.ends_of_drops {t : SessionId} (hpl : Places acts st) (h : Effect R st act st')
    (hd : Drops st t act) :
    ∃ e ∈ handled [act], e.ends t = true := by
  cases h with
  | cancel id f hp => exact ⟨.cancel id, by simp, by simpa [ScdEvent.ends, Drops] using hd⟩
  | terminated a f | terminatedFail a f =>
    exact ⟨.terminated a, by simp, by simpa [ScdEvent.ends, Drops] using hd⟩
  | reqNone s f k hp hmin | reqShort s f k hp hmin hleft | reqGrant s f k r hp hmin hleft hr =>
    obtain ⟨rfl, hle⟩ := hd
    have := (hpl.known_of_held (held_pos (.inr (.inr (.inl hp))))).2
    omega
  | _ => exact hd.elim

theorem Places.step (hpl : Places acts st) (hpos : PosRequest act) (hrej : RejectsAlone R st act)
    (h : Effect R st act st') : Places (acts ++ [act]) st' where
  toRegistered := hpl.toRegistered.step hpos h
  held_le s := by
    have h1 := (held_step s h hrej).1
    have h2 := hpl.held_le s
    rw [handled_append, count_append]
    omega
  live s hl := by
    obtain ⟨hin, hend⟩ := hl
    rw [handled_append] at hin hend
    have hnd : ¬ Drops st s act := by
      intro hd
      obtain ⟨e, he, hes⟩ := hpl.ends_of_drops h hd
      have := hend e (mem_append_right _ he)
      simp [this] at hes
    have heq := (held_step s h hrej).2 hnd
    -- the INIT of `s` was handled before, or it is this step; it is handled only once
    have hone := (hpl.toRegistered.step hpos h).once s
    have hle := hpl.held_le s
    unfold inits at hone
    rw [handled_append, count_append] at hone
    rcases mem_append.1 hin with hold | hnew
    · have h1 := hpl.live s ⟨hold, fun e he => hend e (mem_append_left _ he)⟩
      omega
    · have := count_pos_iff.2 hnew
      omega

theorem places_of_run {st0 : State} (hf : Fresh st0)
    (hpos : ∀ act ∈ acts, PosRequest act) (hrun : run (step R) st0 acts = some st)
    (hrej : Along (step R) (RejectsAlone R) st0 acts) : Places acts st := by
  have h :=
    run_induction (I := Places) (fun tr s a s' hI hC hs => hI.step hC.1 hC.2 (step_effect hs))
    (Places.of_fresh hf) hrun ((along_of_forall hpos st0).and hrej)
  simpa using h

/-- **Every live session is in exactly one place**, in every state a run reaches whose rejected
allocations all find `running` empty. The next rejected allocation then moves the failing session
to the front of `default` and nothing else. -/
theorem held_eq_one_of_run {R : Regex} {st0 st : State} {acts : List Act} (hf : Fresh st0)
    (hpos : ∀ act ∈ acts, PosRequest act) (hrun : run (step R) st0 acts = some st)
    (hrej : Along (step R) (RejectsAlone R) st0 acts) :
    (∀ s, Live acts s → held st s = 1) ∧
      ∀ s f st', RejectsAlone R st (.scd (.allocd s) f) → accepts R f st s = false →
        step R st (.scd (.allocd s) f) = some st' →
        st'.running = st.running ∧ st'.hold = st.hold ∧ st'.default = s :: st.default := by
  refine ⟨(places_of_run hf hpos hrun hrej).live, ?_⟩
  intro s f st' hco hacc hst
  have hrun0 : st.running = [] := hco hacc
  obtain ⟨hr, hh, hd⟩ := (step_effect hst).rejected hacc
  exact ⟨by simp [hr, hrun0], hh, hd⟩

/-! ### Two nodes -/

/-- The node regexes of the names `n0` and `n1`, as `orte_regex_create` writes them. -/
def sampleRegex : Regex where
  create l :=
    if l = "n0" then some "n[1:0]"
    else if l = "n1" then some "n[1:1]"
    else if l = "n0,n1" then some "n[1:0-1]"
    else none
  extract r :=
    if r = "n[1:0]" then some ["n0"]
    else if r = "n[1:1]" then some ["n1"]
    else if r = "n[1:0-1]" ∨ r = "n0,n1" then some ["n0", "n1"]
    else some [r]

def sampleNode (name : String) (vpid : Nat) : Node := ⟨name, ⟨0, vpid⟩, .up, .unalloc⟩

/-- Two nodes, up and free. -/
def sampleState : State := { nodes := [sampleNode "n0" 1, sampleNode "n1" 2] }

theorem sampleState_fresh : Fresh sampleState := ⟨rfl, rfl, rfl, rfl, rfl, rfl, rfl⟩

/-- A request for `k` nodes with no list of its own. -/
def request (k : Int) : Act := .sessionReq { id := 0, minNodes := k }

/-- A request for `k` nodes that becomes session `s` and goes from INIT to ALLOCD without
interruption; `fault` is that of the regex call in REQ. -/
def admission (k : Int) (s : SessionId) (fault : Bool) : List Act :=
  [request k, .scd (.init s) false, .scd .schedule false, .rm (.req s) fault 0,
    .scd (.allocd s) false]

/-- ACTIVE is handled and every send succeeds. -/
def launch (s : SessionId) : Act := .rm (.active s) false 9

/-- Session 1 fails while nothing runs, then runs, and session 2 waits. -/
def retryRun : List Act :=
  admission 1 1 true ++ [.scd .schedule false, .rm (.req 1) false 0,
    .scd (.allocd 1) false, launch 1, request 2, .scd (.init 2) false]

theorem held_eq_one_of_run_retry :
    ∃ st, run (step sampleRegex) sampleState retryRun = some st ∧
      (∀ s, Live retryRun s → held st s = 1) ∧ st.running = [1] ∧ st.default = [2] := by
  obtain ⟨st, hst, hr, hd⟩ : ∃ st, run (step sampleRegex) sampleState retryRun = some st ∧
    st.running = [1] ∧
      st.default = [2] := by decide
  have h := held_eq_one_of_run sampleState_fresh (by decide) hst (by decide)
  exact ⟨st, hst, h.1, hr, hd⟩

/-- Session 1 runs on `n0`; then the regex for session 2 cannot be created. -/
def secondFailsRun : List Act :=
  admission 1 1 false ++ [launch 1] ++ admission 1 2 true

/-- Session 1, still live, is in no place any more, and session 2 is in two. -/
theorem rejected_allocation_loses_running :
    ∃ st, run (step sampleRegex) sampleState secondFailsRun = some st ∧
      (Live secondFailsRun 1 ∧ held st 1 = 0) ∧ Live secondFailsRun 2 ∧ held st 2 = 2 := by
  decide

end Sensys.Scd
