import Mathlib.Data.List.Basic
import Sensys.Lib.Run
import Sensys.Orte.Attr
/-!
# Heartbeats (`orcm/mca/sensor/heartbeat/sensor_heartbeat.c`)

| here | there |
| --- | --- |
| `Proc` | `orte_proc_t`, with its state and its attributes |
| `Monitor` | `daemons->procs`, the daemon with number `v` at index `v`, and whether the process is shutting down |
| `beatsAsPointer` | the word at `&beats`, as `orte_attr_unload` reads it |
| `readBeats` | `orte_get_attribute(.., ORTE_PROC_NBEATS, (void**)bptr, OPAL_INT32)` |
| `checkProc`, `checkFrom` | the loop of `check_heartbeat` (`:207-251`) |
| `step`, `raised` | a step of the process, and the daemons for which it activates `HEARTBEAT_FAILED` |

`bptr` is the address of `beats`, and is passed where the address of a pointer is wanted. So the
word that starts at `beats` is taken for the address to write to. Its low half is `beats`, which
is 0, and its high half is what happens to lie behind `beats`: `behind`, a parameter of each read.
The number of heartbeats is never read (`readBeats_eq_zero`).

States of daemons are set elsewhere, also as the consequence of an activated state; `setState`
stands for that.
-/
namespace Sensys.Heartbeat
open Orte

inductive ProcState where
  | running
  | heartbeatFailed
  | other (code : Nat)
deriving DecidableEq, Repr

structure Proc where
  state      : ProcState
  attributes : List Attribute
deriving DecidableEq, Repr

structure Monitor where
  procs        : List (Option Proc)
  shuttingDown : Bool
deriving DecidableEq, Repr

/-- How the process is built, and its own number. -/
structure Config where
  ndebug : Bool
  myVpid : Nat
deriving DecidableEq, Repr

/-- `ORTE_PROC_NBEATS`. -/
def nbeats : Nat := 314

def beatsAsPointer (behind : Nat) : Pointer := if behind = 0 then .null else .stray

/-- What `beats` is after the call; it was 0. -/
def readBeats (ndebug : Bool) (behind : Nat) (p : Proc) : Option Int :=
  (getAttribute ndebug p.attributes nbeats (some (beatsAsPointer behind)) .int32).map fun r =>
    r.2.getD 0

def Proc.setBeats (beats : Int) (p : Proc) : Proc :=
  { p with attributes := setAttribute nbeats true beats .int32 p.attributes }

def Proc.isWatched (c : Config) (v : Nat) (p : Proc) : Bool := v ≠ c.myVpid && p.state = .running

/-- Whether the daemon has failed, and the daemon afterwards. -/
def checkProc (c : Config) (behind : Nat) (v : Nat) (p : Proc) : Option (Bool × Proc) :=
  if p.isWatched c v then (readBeats c.ndebug behind p).map fun beats => (beats = 0, p.setBeats 0)
  else some (false, p)

/-- The daemons from number `v` on. -/
def checkFrom (c : Config) (behind : Nat → Nat) :
    Nat → List (Option Proc) → Option (List Nat × List (Option Proc))
  | _, [] => some ([], [])
  | v, none :: ps => (checkFrom c behind (v + 1) ps).map fun r => (r.1, none :: r.2)
  | v, some p :: ps =>
    (checkProc c (behind v) v p).bind fun q =>
      (checkFrom c behind (v + 1) ps).map fun r =>
        ((if q.1 then [v] else []) ++ r.1, some q.2 :: r.2)

/-- A daemon that had failed has reappeared. -/
def Proc.reappear (p : Proc) : Proc :=
  if p.state = .heartbeatFailed then { p with state := .running } else p

def recvBeat (c : Config) (behind : Nat) (p : Proc) : Option Proc :=
  (readBeats c.ndebug behind p).map fun beats => (p.setBeats (beats + 1)).reappear

inductive Action where
  | beat (sender : Nat) (behind : Nat)
  | check (behind : Nat → Nat)
  | setState (v : Nat) (state : ProcState)
  | shutDown

/-- The process is stopped if there is no next state. -/
def step (c : Config) (s : Monitor) : Action → Option Monitor
  | .beat sender behind =>
    if s.shuttingDown then some s
    else match (s.procs[sender]?).join with
      | none => some s
      | some p => (recvBeat c behind p).map fun p => { s with procs := s.procs.set sender (some p) }
  | .check behind =>
    if s.shuttingDown then some s
    else (checkFrom c behind 0 s.procs).map fun r => { s with procs := r.2 }
  | .setState v state =>
    some { s with procs := s.procs.modify v (Option.map fun p => { p with state }) }
  | .shutDown => some { s with shuttingDown := true }

/-- The daemons for which a check activates `HEARTBEAT_FAILED`, if it comes to its end. -/
def raised (c : Config) (s : Monitor) (behind : Nat → Nat) : Option (List Nat) :=
  (checkFrom c behind 0 s.procs).map Prod.fst

/-! ## What a check is to raise -/

/-- The other daemons in state `RUNNING`, from number `v` on. -/
def watchedFrom (c : Config) (v : Nat) (ps : List (Option Proc)) : List Nat :=
  ((ps.zipIdx v).filter fun x => x.1.any (Proc.isWatched c x.2)).map Prod.snd

def watched (c : Config) (s : Monitor) : List Nat := watchedFrom c 0 s.procs

/-- Who was heard since the last check of the actions. -/
def heard (actions : List Action) : List Nat :=
  actions.foldl (fun l a =>
    match a with
    | .beat sender _ => sender :: l
    | .check _ => []
    | _ => l) []

/-- **A check as it should be**: it raises exactly the other running daemons that were not heard. -/
def RaisesSilent (c : Config) (s : Monitor) (behind : Nat → Nat) (heard : List Nat) : Prop :=
  raised c s behind = some ((watched c s).filter fun v => !heard.contains v)
deriving Decidable

/-- The heartbeats of the daemon are counted already. -/
def Proc.isCounted (p : Proc) : Bool :=
  (p.attributes.find? fun kv => kv.key = nbeats).any fun kv => kv.type = .int32

/-- Reading the daemon does not stop the process. -/
def Readable (c : Config) (behind : Nat → Nat) (x : Option Proc × Nat) : Prop :=
  ∀ p, x.1 = some p → p.isWatched c x.2 = true → p.isCounted = true →
    c.ndebug = true ∧ behind x.2 = 0

/-- The step does not stop the process: where a daemon is read whose heartbeats are counted
already, the build has no assertions and nothing lies behind `beats`. -/
def Survives (c : Config) (s : Monitor) : Action → Prop
  | .beat sender behind => s.shuttingDown = false → ∀ p, (s.procs[sender]?).join = some p →
    p.isCounted = true → c.ndebug = true ∧ behind = 0
  | .check behind => s.shuttingDown = false → ∀ x ∈ s.procs.zipIdx, Readable c behind x
  | .setState _ _ | .shutDown => True

/-- No watched daemon was heard, and none stops the process when it is read. -/
def Quiet (c : Config) (s : Monitor) (behind : Nat → Nat) (heard : List Nat) : Prop :=
  (∀ v ∈ watched c s, v ∉ heard) ∧ ∀ x ∈ s.procs.zipIdx, Readable c behind x

/-! ## Checks raise whoever is running -/

section
variable {c : Config} {behind : Nat → Nat} (ps : List (Option Proc)) {p : Proc}

theorem beatsAsPointer_ne_object (b : Nat) : beatsAsPointer b ≠ .object := by
  unfold beatsAsPointer
  split <;> simp

/-- **The number of heartbeats is never read.** -/
theorem readBeats_eq_zero {b : Nat} {beats : Int} (h : readBeats c.ndebug b p = some beats) :
    beats = 0 := by
  obtain ⟨⟨found, written⟩, hget, rfl⟩ := Option.map_eq_some_iff.1 h
  have hno := getAttribute_of_not_object (beatsAsPointer_ne_object b) hget
  simp [hno]

theorem isSome_readBeats_iff {b : Nat} :
    (readBeats c.ndebug b p).isSome = true ↔ (p.isCounted = true → c.ndebug = true ∧ b = 0) := by
  rw [readBeats, Option.isSome_map, isSome_getAttribute_iff]
  apply imp_congr_right
  by_cases hb : b = 0 <;> simp [beatsAsPointer, hb]

theorem checkProc_cases {b v : Nat} {p q : Proc} {failed : Bool}
    (h : checkProc c b v p = some (failed, q)) :
    failed = p.isWatched c v := by
  unfold checkProc at h
  split at h
  · obtain ⟨beats, hre, heq⟩ := Option.map_eq_some_iff.1 h
    have hz := readBeats_eq_zero hre
    simp_all
  · simp_all

theorem isSome_checkProc_iff {b v : Nat} :
    (checkProc c b v p).isSome = true ↔
      (p.isWatched c v = true → p.isCounted = true → c.ndebug = true ∧ b = 0) := by
  unfold checkProc
  by_cases hw : p.isWatched c v = true
  · simp only [hw, if_true, Option.isSome_map, isSome_readBeats_iff, true_imp_iff]
  · simp [hw]

/-- **A check raises every watched daemon**, if it comes to its end. -/
theorem checkFrom_raises (v : Nat) {r : List Nat × List (Option Proc)}
    (h : checkFrom c behind v ps = some r) : r.1 = watchedFrom c v ps := by
  induction ps generalizing v r with
  | nil =>
    cases h
    rfl
  | cons o ps ih =>
    cases o with
    | none =>
      obtain ⟨r', hr', rfl⟩ := Option.map_eq_some_iff.1 h
      simpa [watchedFrom] using ih (v + 1) hr'
    | some p =>
      obtain ⟨⟨failed, q⟩, hq, h⟩ := Option.bind_eq_some_iff.1 h
      obtain ⟨r', hr', rfl⟩ := Option.map_eq_some_iff.1 h
      have hf := checkProc_cases hq
      have hre := ih (v + 1) hr'
      by_cases hw : p.isWatched c v = true <;> simp_all [watchedFrom]

theorem isSome_checkFrom_iff (v : Nat) :
    (checkFrom c behind v ps).isSome = true ↔ ∀ x ∈ ps.zipIdx v, Readable c behind x := by
  induction ps generalizing v with
  | nil => simp [checkFrom]
  | cons o ps ih =>
    rw [List.zipIdx_cons, List.forall_mem_cons, ← ih (v + 1)]
    cases o with
    | none => simp [checkFrom, Readable]
    | some p =>
      have hp : Readable c behind (some p, v) ↔ (checkProc c (behind v) v p).isSome = true := by
        simp [Readable, isSome_checkProc_iff]
      rw [hp, checkFrom]
      cases checkProc c (behind v) v p <;> simp

theorem raisesSilent_iff (c : Config) (s : Monitor) (behind : Nat → Nat) (heard : List Nat) :
    RaisesSilent c s behind heard ↔ Quiet c s behind heard := by
  have hso := @isSome_checkFrom_iff c behind s.procs 0
  unfold RaisesSilent raised Quiet
  cases hch : checkFrom c behind 0 s.procs with
  | none =>
    rw [hch] at hso
    simp only [Option.map_none, reduceCtorEq, false_iff, not_and]
    intro _ hall
    simpa using hso.2 hall
  | some r =>
    rw [hch] at hso
    have hra := checkFrom_raises s.procs 0 hch
    simp only [Option.map_some, Option.some.injEq, hra]
    constructor
    · intro heq
      refine ⟨?_, hso.1 rfl⟩
      intro v hv
      have hmem : v ∈ (watched c s).filter fun v => !heard.contains v := heq ▸ hv
      simpa using (List.mem_filter.1 hmem).2
    · rintro ⟨hsi, -⟩
      symm
      apply List.filter_eq_self.2
      intro v hv
      simpa using hsi v hv

end

/-! ## Runs -/

section
variable {c : Config} {s s₀ : Monitor} {before : List Action}

theorem isSome_step_iff (a : Action) : (step c s a).isSome = true ↔ Survives c s a := by
  cases a with
  | beat sender behind =>
    by_cases hsd : s.shuttingDown = true
    · simp [step, Survives, hsd]
    · cases hp : (s.procs[sender]?).join with
      | none => simp [step, Survives, hsd, hp]
      | some p => simp [step, Survives, hsd, hp, recvBeat, isSome_readBeats_iff]
  | check behind =>
    by_cases hsd : s.shuttingDown = true
    · simp [step, Survives, hsd]
    · simp [step, Survives, hsd, isSome_checkFrom_iff]
  | setState v state => simp [step, Survives]
  | shutDown => simp [step, Survives]

/-- A check is reached if no step before it stops the process. -/
theorem isSome_run_iff :
    (Run.run (step c) s₀ before).isSome = true ↔ Run.Along (step c) (Survives c) s₀ before := by
  simp only [Run.isSome_run_iff, isSome_step_iff]

end

/-- **Each check of a run** is reached and raises exactly the running daemons that were not heard,
if nothing stops the process before it and none of the running daemons was heard. -/
theorem checks_raise_silent_iff (c : Config) (s₀ : Monitor) (actions : List Action) :
    (∀ before behind after, actions = before ++ .check behind :: after →
      ∃ s, Run.run (step c) s₀ before = some s ∧
        (s.shuttingDown = false → RaisesSilent c s behind (heard before))) ↔
    ∀ before behind after, actions = before ++ .check behind :: after →
      Run.Along (step c) (Survives c) s₀ before ∧
        ∀ s, Run.run (step c) s₀ before = some s → s.shuttingDown = false →
          Quiet c s behind (heard before) := by
  refine forall₄_congr fun before behind after _ => ?_
  rw [← isSome_run_iff]
  cases Run.run (step c) s₀ before with
  | none => simp
  | some s => simp [raisesSilent_iff]

/-- A daemon that is running sends a heartbeat before the check. -/
theorem live_daemon_is_raised :
    ¬ ∀ before behind after,
      [Action.beat 1 0, .check fun _ => 0] = before ++ .check behind :: after →
      ∃ s, Run.run (step ⟨true, 0⟩) ⟨[none, some ⟨.running, []⟩], false⟩ before = some s ∧
        (s.shuttingDown = false → RaisesSilent ⟨true, 0⟩ s behind (heard before)) := by
  intro hall
  obtain ⟨s, hs, hch⟩ := hall [.beat 1 0] (fun _ => 0) [] rfl
  cases hs
  revert hch
  decide

end Sensys.Heartbeat
