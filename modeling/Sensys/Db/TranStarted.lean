import Sensys.Db.Specs
import Sensys.Lib.Run
/-!
# When the module knows of the transaction

With autocommit off, `tran_started` should be set exactly when the session is inside a transaction
block (`Agrees`). Only the stores of samples set it, and a store of an event whose `BEGIN` fails
does not even return. `Recorded` says what a call must meet for the two to stay the same.
-/
namespace Sensys.Db
open Std.Do Triples Run Orte
set_option mvcgen.warning false

def Agrees (h : Handle) : Prop := h.tranStarted = h.session.block.isSome

/-- A call, and what the server replies to it. -/
structure Step where
  call    : Call
  replies : Nat → Reply

def Step.next (h : Handle) (st : Step) : Handle := (st.call.run st.replies h).2

def Step.step (h : Handle) (st : Step) : Option Handle := some (st.next h)

/-- The call returns, and the flag is right after it. -/
def Step.Agrees (h : Handle) (st : Step) : Prop :=
  (st.call.run st.replies h).1 ≠ .error .undefined ∧ Db.Agrees (st.next h)

def NoLoss (replies : Nat → Reply) : Prop := ∀ n, replies n ≠ .lost

/-- `BEGIN`, and before it the statement that is prepared, get good replies. -/
def begins (before : Option Prepared) (h : Handle) (replies : Nat → Reply) : Bool :=
  h.connected && (replies 0).isOk && before.all fun p => h.prepared p || (replies 1).isOk

/-- With `tran_started` not set the call begins a transaction. -/
def Store.begins (c : Store) (h : Handle) (replies : Nat → Reply) : Bool :=
  match c with
  | .sample dataGroup kvs => (storeSampleInsert dataGroup kvs).isOk && Db.begins none h replies
  | .data .env input => (dataSampleParams input).isOk && Db.begins none h replies
  | .data .inventory input =>
    (nodeFeaturesParams input).isOk && nodeFeaturesKeys.length < input.length &&
      Db.begins (some .setNodeFeatureStore) h replies
  | .data .diag input =>
    (diagTestParams input).isOk && Db.begins (some .recordDiagTestResult) h replies
  | .data .event _ => Db.begins none h replies
  | .data .other _ => false
  | .features hostname items =>
    hostname.isSome && items.isSome && Db.begins (some .setNodeFeatureUpdate) h replies
  | .diagTest a _ => (recordDiagParams a).isOk && Db.begins (some .recordDiagTestResult) h replies

def Store.isSample : Store → Bool
  | .sample _ _ => true
  | .data .env _ => true
  | _ => false

theorem Store.isEvent_of_isSample {c : Store} (h : c.isSample = true) : c.isEvent = false := by
  match c with
  | .sample _ _ | .data .env _ => rfl

/-- What keeps the flag right: no connection is lost inside a transaction, no `COMMIT` or `ROLLBACK`
fails and closes the block, only stores of samples begin a transaction, and events are stored inside
one. -/
def Recorded (h : Handle) (st : Step) : Prop :=
  match st.call with
  | .store c =>
    if h.tranStarted then NoLoss st.replies
    else c.isEvent = false ∧ (c.begins h st.replies = true → c.isSample = true ∧ NoLoss st.replies)
  | .commit => h.tranStarted = true → st.replies 0 ≠ .error true ∧ st.replies 0 ≠ .lost
  | .rollback => h.tranStarted = true → st.replies 0 ≠ .error true ∧ st.replies 0 ≠ .lost

/-- Autocommit is off, the flag is `flag`, and `inBlock` says whether the session is inside a
block. -/
structure Mode (flag inBlock : Bool) (s : Running) : Prop extends Up s where
  autocommit  : s.autocommit = false
  tranStarted : s.tranStarted = flag
  block       : s.session.block.isSome = inBlock

/-- Autocommit is off, and there is no transaction; the connection may be lost. -/
structure Idle (s : Running) : Prop where
  autocommit  : s.autocommit = false
  tranStarted : s.tranStarted = false
  block       : s.session.block = none

def Stmt.isControl : Stmt → Bool
  | .begin => true
  | .commit => true
  | .rollback => true
  | _ => false

variable {f o b r : Bool} {s : Running} {stmt : Stmt} (input : List OrcmValue) {c : Call}
  (p : Prepared) (before : List (Option Text))
  (after : OrcmValue → List (Option Text)) {will : Running → Bool} (l : List OrcmValue)

theorem isSome_block_answered (hstmt : stmt.isControl = false) (reply : Reply)
    (session : Session Row) :
    (answered stmt reply session).block.isSome = session.block.isSome := by
  cases stmt <;> cases reply <;> simp_all [answered, Stmt.isControl]

theorem Mode.next (h : Mode f o s) (hstmt : stmt.isControl = false) : Mode f o (s.next stmt) := by
  refine ⟨h.toUp.next stmt, h.autocommit, h.tranStarted, ?_⟩
  rw [← h.block]
  exact isSome_block_answered hstmt _ _

theorem exec_mode (hstmt : stmt.isControl = false) : Keeps (Mode f o) (exec r stmt) := by
  apply exec_rule
  · intro s _ h _ _
    exact h.next hstmt
  · intro s h _
    rw [h.toUp.failed]
    exact h.next hstmt

theorem Mode.prepared (h : Mode f o s) (prepared : Prepared → Bool) :
    Mode f o { s with prepared } :=
  ⟨⟨h.connected, h.replies⟩, h.autocommit, h.tranStarted, h.block⟩

theorem prepare_mode : Keeps (Mode f o) (prepare r p) := by
  mvcgen [prepare, exec_mode]
  rename_i h _
  exact h.prepared _

theorem storeItems_mode :
    Keeps (Mode f o) (l.forM (storeItem p before after)) := by
  apply forM_invariant
  intro mv
  mvcgen [storeItem, exec_mode]
  all_goals grind

theorem addEvent_mode : Keeps (Mode f o) (addEvent input) := by
  mvcgen [addEvent, prepare_mode, exec_mode]
  all_goals grind

theorem commitLocal_mode : Keeps (Mode f o) commitLocal := by
  mvcgen [commitLocal]
  rename_i h hau
  rw [h.autocommit] at hau
  cases hau

theorem withRollback_spec {P Q E : Running → Prop} {body : Cmd Unit}
    (hE : ∀ s, E s → s.autocommit = false) (h : Leads P body Q E) :
    Leads P (withRollback body) Q E := by
  mvcgen [withRollback, h]
  · exact id
  · rename_i s hs _ hau
    change (s.autocommit && s.localTranStarted) = true at hau
    rw [hE s hs] at hau
    cases hau

/-! ## Beginning a transaction -/

/-- What the rest of the call will get for `BEGIN`, once the statement is prepared. -/
def willBegin (before : Option Prepared) (s : Running) : Bool := begins before s.toHandle s.replies

theorem willBegin_none (s : Running) : willBegin none s = s.answers := by
  simp [willBegin, begins, Running.answers]

theorem willBegin_of_prepared {p : Prepared} (h : s.prepared p = true) :
    willBegin (some p) s = s.answers := by
  simp [willBegin, begins, Running.answers, h]

theorem willBegin_of_not_prepared {p : Prepared} (h : s.prepared p = false) :
    willBegin (some p) s = (s.answers && (s.replies 1).isOk) := by
  simp [willBegin, begins, Running.answers, h]

theorem answers_of_ok {v : Int} (hc : s.connected = true) (hv : s.replies 0 = .ok v) :
    s.answers = true := by
  simp [Running.answers, hc, hv, Reply.isOk]

/-- A statement that keeps `I` is prepared before the transaction begins. -/
theorem prepare_begins {I : Running → Prop} {p : Prepared}
    (hnext : ∀ s prepared, I s → I { s.next (.prepare p) with prepared })
    (hf : ∀ s, I s → s.answers = false → I (s.failed r (.prepare p))) :
    Leads (fun s => I s ∧ willBegin (some p) s = b) (prepare r p)
      (fun s => I s ∧ willBegin none s = b) (fun s => I s ∧ b = false) := by
  mvcgen [prepare, exec_spec]
  · rename_i s h hp _ t ht _
    obtain ⟨hc, hv, rfl⟩ := ht
    obtain ⟨hI, rfl⟩ := h
    rw [willBegin_of_not_prepared (by simpa using hp), willBegin_none, answers_of_ok hc hv,
      Bool.true_and]
    refine ⟨hnext s _ hI, ?_⟩
    change (s.connected && (s.replies 1).isOk) = _
    rw [hc, Bool.true_and]
  · rename_i s h hp _ t
    rintro - hans rfl
    obtain ⟨hI, rfl⟩ := h
    rw [willBegin_of_not_prepared (by simpa using hp), hans]
    exact ⟨hf s hI hans, rfl⟩
  · rename_i s h hp
    obtain ⟨hI, rfl⟩ := h
    rw [willBegin_none, willBegin_of_prepared (by simpa using hp)]
    exact ⟨hI, rfl⟩

theorem Mode.begun {v : Int} (h : Mode f o s) (hv : s.replies 0 = .ok v) :
    Mode f true (s.next .begin) := by
  refine ⟨h.toUp.next _, h.autocommit, h.tranStarted, ?_⟩
  simp [Running.next, answered, hv]

theorem Mode.not_begun (h : Mode f o s) (hans : s.answers = false) :
    Mode f o (s.failed r .begin) := by
  rw [h.toUp.failed]
  refine ⟨h.toUp.next _, h.autocommit, h.tranStarted, ?_⟩
  cases hre : s.replies 0 with
  | ok v => simp [Running.answers, h.connected, hre, Reply.isOk] at hans
  | error closes => simpa [Running.next, answered, hre] using h.block
  | lost => exact absurd hre (h.replies 0)

theorem beginLocal_mode :
    Leads (fun s => Mode f f s ∧ willBegin none s = b) beginLocal (Mode f (f || b))
      (Mode f (f || b)) := by
  mvcgen [beginLocal, exec_spec]
  · rename_i s h hco _ t ht _
    obtain ⟨hc, hv, rfl⟩ := ht
    obtain ⟨hm, rfl⟩ := h
    rw [willBegin_none, answers_of_ok hc hv, Bool.or_true]
    have hbe := hm.begun hv
    exact ⟨⟨hbe.connected, hbe.replies⟩, hbe.autocommit, hbe.tranStarted, hbe.block⟩
  · rename_i s h hco _ t
    rintro - hans rfl
    obtain ⟨hm, rfl⟩ := h
    rw [willBegin_none, hans, Bool.or_false]
    exact hm.not_begun hans
  · rename_i s h hco
    have hf : f = true := by simpa [h.1.autocommit, h.1.tranStarted] using hco
    subst hf
    exact h.1

theorem beginRecorded_mode : Leads (Mode f f) beginRecorded (Mode true true) (Mode f f) := by
  mvcgen [beginRecorded, exec_spec]
  · rename_i s h hco _ t ht _
    obtain ⟨hc, hv, rfl⟩ := ht
    have hbe := h.begun hv
    exact ⟨⟨hbe.connected, hbe.replies⟩, hbe.autocommit, rfl, hbe.block⟩
  · rename_i s h hco _ t
    rintro - hans rfl
    exact h.not_begun hans
  · rename_i s h hco
    have hf : f = true := by simpa [h.autocommit, h.tranStarted] using hco
    subst hf
    exact h

/-! ## Without a transaction -/

theorem Idle.next (h : Idle s) (hstmt : stmt.isControl = false) : Idle (s.next stmt) := by
  refine ⟨h.autocommit, h.tranStarted, ?_⟩
  have hbl := isSome_block_answered hstmt (s.replies 0) s.session
  rw [h.block, Option.isSome_none, Option.isSome_eq_false_iff, Option.isNone_iff_eq_none] at hbl
  exact hbl

theorem Idle.send (h : Idle s) (hans : s.answers = false) : Idle (Running.send stmt s).2 := by
  rw [Running.send]
  split
  · rename_i hc
    refine ⟨h.autocommit, h.tranStarted, ?_⟩
    cases hre : s.replies 0 with
    | ok v => simp [Running.answers, hc, hre, Reply.isOk] at hans
    | error closes => cases stmt <;> cases closes <;> simp [answered, h.block]
    | lost => cases stmt <;> simp [answered, h.block]
  · exact h

theorem Idle.reconnectIfNeeded (h : Idle s) : Idle s.reconnectIfNeeded := by
  rw [Running.reconnectIfNeeded]
  split
  · exact h
  · exact ⟨h.autocommit, h.tranStarted, rfl⟩

theorem Idle.failed (h : Idle s) (hans : s.answers = false) : Idle (s.failed r stmt) := by
  rw [Running.failed]
  split
  · exact (h.send hans).reconnectIfNeeded
  · exact h.send hans

theorem execBegin_idle :
    Leads (fun s => Idle s ∧ willBegin none s = false) (exec true .begin)
      (fun _ => False) Idle := by
  apply exec_rule
  · rintro s v ⟨-, hwi⟩ hc hv
    rw [willBegin_none, answers_of_ok hc hv] at hwi
    cases hwi
  · rintro s ⟨hid, -⟩ hans
    exact hid.failed hans

theorem beginLocal_idle :
    Leads (fun s => Idle s ∧ willBegin none s = false) beginLocal (fun _ => False) Idle := by
  mvcgen [beginLocal, execBegin_idle]
  rename_i s h hco
  simp [h.1.autocommit, h.1.tranStarted] at hco

theorem beginRecorded_idle :
    Leads (fun s => Idle s ∧ willBegin none s = false) beginRecorded (fun _ => False) Idle := by
  mvcgen [beginRecorded, execBegin_idle]
  rename_i s h hco
  simp [h.1.autocommit, h.1.tranStarted] at hco

theorem beginEvent_leads {P Q E : Running → Prop} (h : Leads P beginLocal Q E) :
    Leads P beginEvent Q E := by
  mvcgen [beginEvent, h]

/-- Calls that record their transaction in a local variable, with what says that they begin one. -/
inductive Opening : Cmd Unit → (Running → Bool) → Prop
  | rejected (rc : Rc) : Opening (throw (.code rc)) fun _ => false
  | empty : Opening (pure ()) fun _ => false
  | begins {body : Cmd Unit} (h : ∀ f o, Keeps (Mode f o) body) :
    Opening (do beginEvent; body) (willBegin none)
  | prepares {body : Cmd Unit} (p : Prepared) (h : ∀ f o, Keeps (Mode f o) body) :
    Opening (do prepare false p; beginLocal; body) (willBegin (some p))
  | rollback {body : Cmd Unit} {will : Running → Bool} (h : Opening body will) : Opening
      (withRollback body) will

theorem Opening.mode {c : Cmd Unit} (h : Opening c will) :
    Leads (fun s => Mode f f s ∧ will s = b) c (Mode f (f || b)) (Mode f (f || b)) := by
  have hbe := @beginLocal_mode f b
  induction h with
  | rejected _ | empty =>
    mvcgen
    grind
  | begins h =>
    have hev := beginEvent_leads hbe
    have hbody := h f (f || b)
    mvcgen [hev, hbody]
  | prepares p h =>
    have hpr :=
      @prepare_begins b false (Mode f f) p (fun s _ hs => (hs.next rfl).prepared _) fun s hs _ => by
      rw [hs.toUp.failed]
      exact hs.next rfl
    have hbody := h f (f || b)
    mvcgen [hpr, hbe, hbody]
    rintro hm rfl
    rwa [Bool.or_false]
  | rollback _ ih => exact withRollback_spec (fun s h => h.autocommit) ih

theorem Opening.idle {c : Cmd Unit} (h : Opening c will) :
    Leads (fun s => Idle s ∧ will s = false) c Idle Idle := by
  induction h with
  | rejected _ | empty =>
    mvcgen
    assumption
  | begins h =>
    have hev := beginEvent_leads beginLocal_idle
    mvcgen [hev]
    exact fun _ h => h.elim
  | prepares p h =>
    have hnext (s : Running) (hs : Idle s) := @Idle.next s (.prepare p) hs rfl
    have hpr :=
      @prepare_begins false false Idle p
      (fun s _ hs => ⟨(hnext s hs).autocommit, (hnext s hs).tranStarted, (hnext s hs).block⟩)
      fun s hs => hs.failed
    mvcgen [hpr, beginLocal_idle]
    · exact fun _ h => h.elim
    · exact id
  | rollback _ ih => exact withRollback_spec (fun s h => h.autocommit) ih

theorem storeItems_commit_mode :
    Keeps (Mode f o) (do l.forM (storeItem p before after); commitLocal) := by
  mvcgen [storeItems_mode, commitLocal_mode]

theorem storeNodeFeatures_opening :
    Opening (storeNodeFeatures input) fun s =>
      (Store.data .inventory input).begins s.toHandle s.replies := by
  apply Opening.rollback
  simp only [Store.begins]
  cases nodeFeaturesParams input with
  | error rc => exact .rejected rc
  | ok params =>
    by_cases hlen : nodeFeaturesKeys.length < input.length
    · simp only [hlen]
      exact .prepares _ fun _ _ => storeItems_commit_mode _ _ _ _
    · simp only [hlen]
      exact .empty

theorem updateNodeFeatures_opening (hostname : Option Text) (items : Option (List OrcmValue)) :
    Opening (updateNodeFeatures hostname items) fun s =>
      (Store.features hostname items).begins s.toHandle s.replies := by
  apply Opening.rollback
  cases hostname with
  | none => exact .rejected _
  | some hostname =>
    cases items with
    | none => exact .rejected _
    | some items => exact .prepares _ fun _ _ => storeItems_commit_mode _ _ _ _

theorem diagTest_opening (params : Except Rc DiagTest)
    (testParams : DiagTest → Option (List OrcmValue)) :
    Opening (withRollback (do let t ← check params; storeDiag t (testParams t)))
      fun s => params.isOk && begins (some .recordDiagTestResult) s.toHandle s.replies := by
  apply Opening.rollback
  cases params with
  | error rc => exact .rejected rc
  | ok t =>
    refine .prepares _ fun _ _ => ?_
    mvcgen [prepare_mode, exec_mode, storeItems_mode, commitLocal_mode]

theorem storeEvent_opening :
    Opening (storeEvent input) fun s => (Store.data .event input).begins s.toHandle s.replies := by
  refine .rollback (.begins fun _ _ => ?_)
  mvcgen [addEvent_mode, prepare_mode, storeItems_mode, commitLocal_mode]

theorem Store.opening (c : Store) (h : c.isSample = false) :
    Opening c.body fun s => c.begins s.toHandle s.replies := by
  match c with
  | .data .inventory input => exact storeNodeFeatures_opening input
  | .data .diag input | .diagTest a testParams => exact diagTest_opening _ _
  | .data .event input => exact storeEvent_opening input
  | .data .other input => exact .rejected _
  | .features hostname items => exact updateNodeFeatures_opening hostname items

theorem sample_mode {α : Type} (params : Except Rc α) {body : α → Cmd Unit}
    (h : ∀ a, Keeps (Mode true true) (body a)) :
    Leads (Mode f f) (do let a ← check params; beginRecorded; body a) (fun s => ∃ f, Mode f f s)
      (fun s => ∃ f, Mode f f s) := by
  have hbe := @beginRecorded_mode f
  mvcgen [hbe, h]
  all_goals grind

theorem sample_idle {α : Type} (params : Except Rc α) (body : α → Cmd Unit) :
    Leads (fun s => Idle s ∧ (params.isOk && Db.begins none s.toHandle s.replies) = false)
      (do let a ← check params; beginRecorded; body a) Idle Idle := by
  cases params with
  | error rc => exact (Opening.rejected rc).idle
  | ok a =>
    simp only [check, pure_bind]
    mvcgen [beginRecorded_idle]
    exact fun _ h => h.elim

theorem Store.body_sample (c : Store) (h : c.isSample = true) :
    Leads (Mode f f) c.body (fun s => ∃ f, Mode f f s) (fun s => ∃ f, Mode f f s) := by
  match c with
  | .sample dataGroup kvs =>
    apply sample_mode
    intro text
    mvcgen [exec_mode]
  | .data .env input =>
    apply sample_mode
    intro sample
    mvcgen [addEvent_mode, exec_mode]
    all_goals grind

theorem Store.body_idle (c : Store) :
    Leads (fun s => Idle s ∧ c.begins s.toHandle s.replies = false) c.body Idle Idle := by
  cases hsa : c.isSample with
  | false => exact (c.opening hsa).idle
  | true =>
    match c with
    | .sample _ _ | .data .env _ => exact sample_idle _ _

/-! ## Commits and rollbacks -/

/-- What `commit` and `rollback` do. -/
def ending (stmt : Stmt) : Cmd Unit := do
  let _ ← exec true stmt
  modify fun s => { s with tranStarted := false }

theorem ending_returns (stmt : Stmt) : Returns (fun _ => True) (ending stmt) := by
  mvcgen [ending, exec_returns]

def Stmt.ends (stmt : Stmt) : Prop := stmt = .commit ∨ stmt = .rollback

section
variable (hstmt : stmt.ends)
include hstmt

theorem block_answered_ok (v : Int) (session : Session Row) :
    (answered stmt (.ok v) session).block = none := by
  obtain rfl | rfl := hstmt <;> rfl

theorem block_answered_closed (session : Session Row) :
    (answered stmt (.error true) session).block = none := by
  obtain rfl | rfl := hstmt <;> rfl

theorem answered_not_closed (session : Session Row) :
    answered stmt (.error false) session = session := by
  obtain rfl | rfl := hstmt <;> rfl

theorem ending_idle : Keeps Idle (ending stmt) := by
  mvcgen [ending, exec_spec]
  · rename_i s h _ t ht _
    obtain ⟨-, hv, rfl⟩ := ht
    refine ⟨h.autocommit, rfl, ?_⟩
    change (answered stmt (s.replies 0) s.session).block = none
    rw [hv, block_answered_ok hstmt]
  · rename_i s h _ t
    rintro - hans rfl
    exact h.failed hans

end

theorem Call.run_of_triple {P Q : Running → Prop} {replies : Nat → Reply} {h : Handle}
    (hbody : Leads P c.body Q Q) (hP : P { h with replies, localTranStarted := false }) :
    ∃ s, Q s ∧ (c.run replies h).2 = s.toHandle := by
  obtain ⟨s, hs, hrun⟩ | ⟨_, s, hs, hrun⟩ := Call.run_cases hbody hP
  · exact ⟨s, hs, by rw [hrun]⟩
  · exact ⟨s, hs, by rw [hrun]⟩

/-- Autocommit is off and the flag is right. Inside a transaction the connection is there. -/
structure Sound (h : Handle) : Prop where
  autocommit : h.autocommit = false
  agrees     : Agrees h
  connected  : h.tranStarted = true → h.connected = true

theorem Mode.sound (h : Mode f f s) : Sound s.toHandle :=
  ⟨h.autocommit, h.tranStarted.trans h.block.symm, fun _ => h.connected⟩

theorem Idle.sound (h : Idle s) : Sound s.toHandle :=
  ⟨h.autocommit, by rw [Agrees, h.tranStarted, h.block]; rfl, fun hf => by rw [h.tranStarted] at hf; cases hf⟩

section
variable {h : Handle} {replies : Nat → Reply} {st : Step}

theorem Sound.mode (hsound : Sound h) (hc : h.connected = true) (hl : NoLoss replies) :
    Mode h.tranStarted h.tranStarted { h with replies, localTranStarted := false } :=
  ⟨⟨hc, hl⟩, hsound.autocommit, rfl, hsound.agrees.symm⟩

theorem Sound.idle (hsound : Sound h) (hf : h.tranStarted = false) :
    Idle { h with replies, localTranStarted := false } := by
  refine ⟨hsound.autocommit, hf, ?_⟩
  have hag := hsound.agrees
  rw [Agrees, hf] at hag
  simpa using hag.symm

theorem connected_of_begins {c : Store} (hb : c.begins h replies = true) : h.connected = true := by
  match c with
  | .sample _ _ | .data .env _ | .data .inventory _ | .data .diag _ | .data .event _ |
      .features _ _ | .diagTest _ _ =>
    simp_all [Store.begins, Db.begins]

theorem store_noLoss (hsound : Sound h) (hc : h.connected = true) (hl : NoLoss replies)
    (c : Store) :
    ((Call.store c).run replies h).2.autocommit = false ∧
      ((Call.store c).run replies h).2.connected = true ∧
      (Agrees ((Call.store c).run replies h).2 ↔
      h.tranStarted = true ∨ c.isSample = true ∨ c.begins h replies = false) := by
  have hm := hsound.mode hc hl
  cases hsa : c.isSample with
  | true =>
    obtain ⟨s, ⟨f, hs⟩, heq⟩ := Call.run_of_triple (c := .store c) (c.body_sample hsa) hm
    rw [heq]
    exact ⟨hs.autocommit, hs.connected, iff_of_true hs.sound.agrees (Or.inr (Or.inl rfl))⟩
  | false =>
    obtain ⟨s, hs, heq⟩ := Call.run_of_triple (c := .store c) (c.opening hsa).mode ⟨hm, rfl⟩
    rw [heq]
    refine ⟨hs.autocommit, hs.connected, ?_⟩
    rw [Agrees, hs.tranStarted, hs.block]
    cases h.tranStarted <;> cases c.begins h replies <;> simp

section
variable (hbody : c.body = ending stmt)
include hbody

theorem run_ending (hc : h.connected = true) (hl : replies 0 ≠ .lost) :
    (c.run replies h).2 =
      { h with tranStarted := h.tranStarted && !(replies 0).isOk, session := answered stmt (replies 0) h.session } := by
  rw [Call.run, hbody, ending, exec]
  cases hre : replies 0 with
  | ok v => simp [EStateM.run_bind, run_send, Running.send, hc, hre, Reply.isOk]
  | error closes =>
    simp [EStateM.run_bind, run_send, Running.send, Running.reconnectIfNeeded, reconnectIfNeeded, hc, hre, Reply.isOk]
    rfl
  | lost => exact absurd hre hl

theorem agrees_ending_iff (hstmt : stmt.ends) (hsound : Sound h) (hf : h.tranStarted = true)
    (hl : replies 0 ≠ .lost) : Agrees (c.run replies h).2 ↔ replies 0 ≠ .error true := by
  have hbl : h.session.block.isSome = true := by rw [← hsound.agrees, hf]
  rw [run_ending hbody (hsound.connected hf) hl, Agrees, hf]
  rcases hre : replies 0 with v | closes | _
  · simp [block_answered_ok hstmt, Reply.isOk]
  · cases closes with
    | true => simp [block_answered_closed hstmt, Reply.isOk]
    | false => simp [answered_not_closed hstmt, hbl, Reply.isOk]
  · exact absurd hre hl

theorem Sound.ended (hstmt : stmt.ends) (hsound : Sound h)
    (hrec : h.tranStarted = true → replies 0 ≠ .error true ∧ replies 0 ≠ .lost) :
    Sound (c.run replies h).2 := by
  cases hf : h.tranStarted with
  | true =>
    obtain ⟨hcl, hl⟩ := hrec hf
    have hag := (agrees_ending_iff hbody hstmt hsound hf hl).2 hcl
    have hc := hsound.connected hf
    rw [run_ending hbody hc hl] at hag ⊢
    exact ⟨hsound.autocommit, hag, fun _ => hc⟩
  | false =>
    have hid := ending_idle hstmt
    rw [← hbody] at hid
    obtain ⟨s, hs, heq⟩ := Call.run_of_triple hid (hsound.idle hf)
    rw [heq]
    exact hs.sound

end

variable (hsound : Sound h)
include hsound

/-- A call that meets its condition returns. -/
theorem Sound.returns (hrec : Recorded h st) :
    (st.call.run st.replies h).1 ≠ .error .undefined := by
  obtain ⟨call, replies⟩ := st
  cases call with
  | store c =>
    intro hun
    obtain ⟨hev, hbe⟩ := Store.undefined_iff.1 hun
    cases hf : h.tranStarted with
    | true => simp [Handle.failsToBegin, hsound.autocommit, hf] at hbe
    | false =>
      simp only [Recorded, hf, Bool.false_eq_true, if_false, hev] at hrec
      cases hrec.1
  | commit => exact Call.run_of_returns (c := .commit) (ending_returns .commit) trivial
  | rollback => exact Call.run_of_returns (c := .rollback) (ending_returns .rollback) trivial

/-- **One call**: when its condition is met, the flag stays right. -/
theorem Sound.next (hrec : Recorded h st) : Sound (st.next h) := by
  obtain ⟨call, replies⟩ := st
  cases call with
  | store c =>
    cases hf : h.tranStarted with
    | true =>
      simp only [Recorded, hf, if_true] at hrec
      obtain ⟨hau, hc, hag⟩ := store_noLoss hsound (hsound.connected hf) hrec c
      exact ⟨hau, hag.2 (Or.inl hf), fun _ => hc⟩
    | false =>
      simp only [Recorded, hf, Bool.false_eq_true, if_false] at hrec
      cases hb : c.begins h replies with
      | true =>
        obtain ⟨hsa, hl⟩ := hrec.2 hb
        obtain ⟨hau, hc, hag⟩ := store_noLoss hsound (connected_of_begins hb) hl c
        exact ⟨hau, hag.2 (Or.inr (Or.inl hsa)), fun _ => hc⟩
      | false =>
        obtain ⟨s, hs, heq⟩ := Call.run_of_triple (c := .store c) c.body_idle ⟨hsound.idle hf, hb⟩
        rw [Step.next, heq]
        exact hs.sound
  | commit => exact hsound.ended rfl (Or.inl rfl) hrec
  | rollback => exact hsound.ended rfl (Or.inr rfl) hrec

theorem Sound.recorded (hc : h.connected = true) (hl : NoLoss st.replies)
    (hst : st.Agrees h) : Recorded h st := by
  obtain ⟨hret, hag⟩ := hst
  obtain ⟨call, replies⟩ := st
  cases call with
  | store c =>
    have hiff := (store_noLoss hsound hc hl c).2.2.1 hag
    cases hf : h.tranStarted with
    | true => simpa only [Recorded, hf, if_true] using hl
    | false =>
      simp only [Recorded, hf, Bool.false_eq_true, if_false]
      rcases hiff with hst | hsa | hnot
      · rw [hf] at hst
        cases hst
      · exact ⟨Store.isEvent_of_isSample hsa, fun _ => ⟨hsa, hl⟩⟩
      · refine ⟨?_, fun hb => by rw [hb] at hnot; cases hnot⟩
        -- an event whose `BEGIN` fails
        by_contra hev
        obtain ⟨input, rfl⟩ := Store.exists_of_isEvent (Bool.eq_true_of_not_eq_false hev)
        refine hret (Store.undefined_iff.2 ⟨rfl, ?_⟩)
        simp only [Store.begins, Db.begins, Option.all_none, Bool.and_true] at hnot
        simp [Handle.failsToBegin, hf, hnot]
  | commit =>
    intro hf
    exact ⟨(agrees_ending_iff rfl (Or.inl rfl) hsound hf (hl 0)).1 hag, hl 0⟩
  | rollback =>
    intro hf
    exact ⟨(agrees_ending_iff rfl (Or.inr rfl) hsound hf (hl 0)).1 hag, hl 0⟩

theorem Sound.connected_next (hc : h.connected = true) (hl : NoLoss st.replies) :
    (st.next h).connected = true := by
  obtain ⟨call, replies⟩ := st
  cases call with
  | store c => exact (store_noLoss hsound hc hl c).2.1
  | commit | rollback =>
    rw [Step.next, run_ending rfl hc (hl 0)]
    exact hc

end

/-- A handle with autocommit off, after `postgres_init`. -/
def opened (db : List Row) : Handle where
  autocommit  := false
  tranStarted := false
  prepared    := fun _ => false
  connected   := true
  session     := ⟨db, none⟩

theorem sound_opened (db : List Row) : Sound (opened db) := ⟨rfl, rfl, fun _ => rfl⟩

/-- **Every call returns and the flag is right after it**, whatever is called and replied, if each
call meets its condition; and if no connection is lost, only then. -/
theorem tranStarted_agrees (db : List Row) (steps : List Step) :
    (Along Step.step Recorded (opened db) steps → Along Step.step Step.Agrees (opened db) steps) ∧
      ((∀ st ∈ steps, NoLoss st.replies) → Along Step.step Step.Agrees (opened db) steps →
        Along Step.step Recorded (opened db) steps) := by
  refine ⟨fun hrec => ?_, fun hl hag => ?_⟩
  · refine along_of_invariant (I := Sound) (fun h st hsound hst => ?_) (sound_opened db) hrec
    have hnext := hsound.next hst
    refine ⟨⟨hsound.returns hst, hnext.agrees⟩, fun t ht => ?_⟩
    rw [← Option.some.inj ht]
    exact hnext
  · refine along_of_invariant (I := fun h => Sound h ∧ h.connected = true)
      (fun h st hinv hst => ?_) ⟨sound_opened db, rfl⟩ (hag.and (along_of_forall hl _))
    obtain ⟨hsound, hc⟩ := hinv
    have hst' := hsound.recorded hc hst.2 hst.1
    refine ⟨hst', fun t ht => ?_⟩
    rw [← Option.some.inj ht]
    exact ⟨hsound.next hst', hsound.connected_next hc hst.2⟩

/-- A feature of the host `h`. -/
def inventory : List OrcmValue :=
  [⟨some "hostname".toList, .string ['h'], none⟩,
    ⟨some "ctime".toList, .timeval (some ['t']), none⟩, ⟨some ['a'], .string ['x'], none⟩]

/-- The transaction of a store of node features is not recorded. -/
theorem inventory_not_recorded :
    ((Call.store (.data .inventory inventory)).run (fun _ => .ok 1) (opened [])).1 = .ok () ∧
      ((Call.store (.data .inventory inventory)).run (fun _ => .ok 1) (opened [])).2.tranStarted =
      false ∧
      ((Call.store (.data .inventory inventory)).run (fun _ => .ok 1)
      (opened [])).2.session.block.isSome = true := by
  exact ⟨rfl, rfl, rfl⟩

end Sensys.Db
