import Sensys.Db.Postgres
import Sensys.Lib.Triples
/-!
# What the statements of a call do

`exec_spec` says what a statement does: after a good reply the call goes on in `Running.next`,
otherwise it exits in `Running.failed`. While the connection is there and is not lost (`Up`), the
two are the same. `Store.undefined_iff` says which calls end without a return code.
-/
namespace Sensys.Db
open Std.Do Triples Orte
set_option mvcgen.warning false

def Reply.isOk : Reply → Bool
  | .ok _ => true
  | _ => false

theorem Reply.isOk_iff {r : Reply} : r.isOk = true ↔ ∃ v, r = .ok v := by
  cases r <;> simp [Reply.isOk]

/-- The next statement gets a good reply. -/
def Running.answers (s : Running) : Bool := s.connected && (s.replies 0).isOk

def Running.next (stmt : Stmt) (s : Running) : Running :=
  { s with session := answered stmt (s.replies 0) s.session, replies := fun n => s.replies (n + 1) }

def Running.failed (reconnects : Bool) (stmt : Stmt) (s : Running) : Running :=
  if reconnects then (Running.send stmt s).2.reconnectIfNeeded else (Running.send stmt s).2

theorem send_of_answers {s : Running} {v : Int} (hc : s.connected = true) (hr : s.replies 0 = .ok v)
    (stmt : Stmt) :
    Running.send stmt s = (.ok v, s.next stmt) := by
  simp [Running.send, Running.next, hc, hr]

theorem isOk_send_of_not_answers {s : Running} (h : s.answers = false) (stmt : Stmt) :
    (Running.send stmt s).1.isOk = false := by
  rw [Running.send]
  split
  · simp_all [Running.answers]
  · rfl

theorem run_send (stmt : Stmt) (s : Running) :
    (send stmt).run s = .ok (Running.send stmt s).1 (Running.send stmt s).2 := rfl

variable (s₀ : Running)

theorem send_spec (stmt : Stmt) :
    ⦃fun s => ⌜s = s₀⌝⦄ send stmt
    ⦃post⟨fun reply s => ⌜reply = (Running.send stmt s₀).1 ∧ s = (Running.send stmt s₀).2⌝,
      fun _ _ => ⌜False⌝⟩⦄ := by
  rintro s rfl
  exact ⟨rfl, rfl⟩

theorem reconnectIfNeeded_spec :
    ⦃fun s => ⌜s = s₀⌝⦄ reconnectIfNeeded ⦃post⟨fun _ s => ⌜s = s₀.reconnectIfNeeded⌝,
      fun _ _ => ⌜False⌝⟩⦄ := by
  rintro s rfl
  rfl

theorem exec_spec (reconnects : Bool) (stmt : Stmt) :
    ⦃fun s => ⌜s = s₀⌝⦄ exec reconnects stmt
    ⦃post⟨fun v s => ⌜s₀.connected = true ∧ s₀.replies 0 = .ok v ∧ s = s₀.next stmt⌝,
      fun exit s => ⌜exit = .code .error ∧ s₀.answers = false ∧
      s = s₀.failed reconnects stmt⌝⟩⦄ := by
  rw [triple_iff]
  rintro s rfl
  rw [exec, EStateM.run_bind, run_send]
  cases hans : s.answers with
  | true =>
    obtain ⟨hc, hok⟩ := Bool.and_eq_true_iff.1 hans
    obtain ⟨v, hv⟩ := Reply.isOk_iff.1 hok
    rw [send_of_answers hc hv]
    exact ⟨hc, hv, rfl⟩
  | false =>
    have hnot := isOk_send_of_not_answers hans stmt
    generalize hse : Running.send stmt s = r at hnot
    obtain ⟨reply, t⟩ := r
    have hf : s.failed reconnects stmt = if reconnects then t.reconnectIfNeeded else t := by
      rw [Running.failed, hse]
    rw [hf]
    cases reply with
    | ok v => cases hnot
    | error closes | lost => cases reconnects <;> exact ⟨rfl, rfl, rfl⟩

theorem exec_rule {P : Running → Prop} {Q : Int → Running → Prop} {E : Exit → Running → Prop}
    {reconnects : Bool} {stmt : Stmt}
    (hok : ∀ s v, P s → s.connected = true → s.replies 0 = .ok v → Q v (s.next stmt))
    (her : ∀ s, P s → s.answers = false → E (.code .error) (s.failed reconnects stmt)) :
    ⦃fun s => ⌜P s⌝⦄ exec reconnects stmt
    ⦃post⟨fun v s => ⌜Q v s⌝, fun exit s => ⌜E exit s⌝⟩⦄ := by
  rw [triple_iff]
  intro s hs
  have hsp := triple_iff.1 (exec_spec s reconnects stmt) s rfl
  cases hrun : (exec reconnects stmt).run s with
  | ok v t =>
    rw [hrun] at hsp
    obtain ⟨hc, hv, rfl⟩ := hsp
    exact hok s v hs hc hv
  | error exit t =>
    rw [hrun] at hsp
    obtain ⟨rfl, hans, rfl⟩ := hsp
    exact her s hs hans

@[spec]
theorem check_spec {α : Type} (e : Except Rc α) :
    ⦃fun s => ⌜s = s₀⌝⦄ check e
    ⦃post⟨fun a s => ⌜e = .ok a ∧ s = s₀⌝,
      fun exit s => ⌜exit ≠ .undefined ∧ s = s₀⌝⟩⦄ := by
  rintro s rfl
  cases e with
  | ok a => exact ⟨rfl, rfl⟩
  | error rc => exact ⟨Exit.noConfusion, rfl⟩

structure Up (s : Running) : Prop where
  connected : s.connected = true
  replies   : ∀ n, s.replies n ≠ .lost

namespace Up
variable {s : Running}

theorem next (h : Up s) (stmt : Stmt) : Up (s.next stmt) :=
  ⟨h.connected, fun n => h.replies (n + 1)⟩

theorem send (h : Up s) (stmt : Stmt) : Running.send stmt s = (s.replies 0, s.next stmt) := by
  simp [Running.send, Running.next, h.connected, h.replies 0]

theorem reconnectIfNeeded (h : Up s) : s.reconnectIfNeeded = s := if_pos h.connected

theorem failed (h : Up s) (reconnects : Bool) (stmt : Stmt) :
    s.failed reconnects stmt = s.next stmt := by
  rw [Running.failed, h.send, (h.next stmt).reconnectIfNeeded, ite_self]

end Up

/-! ## Calls that return -/

/-- The program ends, or exits with a return code. -/
abbrev Returns {α : Type} (P : Running → Prop) (x : Cmd α) : Prop :=
  ⦃fun s => ⌜P s⌝⦄ x ⦃post⟨fun _ _ => ⌜True⌝, fun exit _ => ⌜exit ≠ .undefined⌝⟩⦄

section
variable {r : Bool} {P : Running → Prop}

theorem exec_returns (stmt : Stmt) : Returns (fun _ => True) (exec r stmt) :=
  exec_rule (fun _ _ _ _ _ => trivial) fun _ _ _ => Exit.noConfusion

theorem prepare_returns (p : Prepared) : Returns (fun _ => True) (prepare r p) := by
  have hex := @exec_returns r (.prepare p)
  mvcgen [prepare, hex]

theorem beginRecorded_returns : Returns (fun _ => True) beginRecorded := by
  mvcgen [beginRecorded, exec_returns]

theorem beginLocal_returns : Returns (fun _ => True) beginLocal := by
  mvcgen [beginLocal, exec_returns]

theorem commitLocal_returns : Returns (fun _ => True) commitLocal := by
  mvcgen [commitLocal, exec_returns]

theorem withRollback_returns {body : Cmd Unit} (h : Returns P body) :
    Returns P (withRollback body) := by
  mvcgen [withRollback, h, send_spec, reconnectIfNeeded_spec]

theorem storeItems_returns (p : Prepared) (before : List (Option Text))
    (after : OrcmValue → List (Option Text)) (l : List OrcmValue) :
    Returns (fun _ => True) (l.forM (storeItem p before after)) := by
  apply forM_invariant
  intro mv
  mvcgen [storeItem, exec_returns]
  all_goals exact fun hne _ => hne

theorem addEvent_returns (input : List OrcmValue) : Returns (fun _ => True) (addEvent input) := by
  mvcgen [addEvent, prepare_returns, exec_returns]
  exact fun hne _ => hne

theorem storeDiag_returns (t : DiagTest) (testParams : Option (List OrcmValue)) :
    Returns (fun _ => True) (storeDiag t testParams) := by
  mvcgen [storeDiag, prepare_returns, beginLocal_returns, exec_returns, storeItems_returns,
    commitLocal_returns]

def Store.isEvent : Store → Bool
  | .data .event _ => true
  | _ => false

theorem Store.exists_of_isEvent {c : Store} (h : c.isEvent = true) :
    ∃ input, c = .data .event input := by
  cases c with
  | data type input =>
    cases type with
    | event => exact ⟨input, rfl⟩
    | env | inventory | diag | other => cases h
  | sample dataGroup kvs => cases h
  | features hostname items => cases h
  | diagTest a testParams => cases h

theorem Store.returns (c : Store) (h : c.isEvent = false) : Returns (fun _ => True) c.body := by
  match c with
  | .sample dataGroup kvs =>
    mvcgen [Store.body, storeSample, beginRecorded_returns, exec_returns]
    exact fun hne _ => hne
  | .data .env input =>
    mvcgen [Store.body, store, storeDataSample, beginRecorded_returns, addEvent_returns,
      exec_returns]
    all_goals exact fun hne _ => hne
  | .data .inventory input =>
    apply withRollback_returns
    mvcgen [prepare_returns, beginLocal_returns, storeItems_returns, commitLocal_returns]
    exact fun hne _ => hne
  | .data .other input => mvcgen [Store.body, store]
  | .features hostname items =>
    apply withRollback_returns
    mvcgen [prepare_returns, beginLocal_returns, storeItems_returns, commitLocal_returns]
    all_goals exact fun hne _ => hne
  | .data .diag input | .diagTest a testParams =>
    apply withRollback_returns
    mvcgen [storeDiag_returns]
    exact fun hne _ => hne

/-- A transaction is to be begun, and `BEGIN` fails. -/
def Handle.failsToBegin (h : Handle) (replies : Nat → Reply) : Bool :=
  (h.autocommit || !h.tranStarted) && !(h.connected && (replies 0).isOk)

theorem storeEvent_returns (input : List OrcmValue) :
    Returns (fun s => s.failsToBegin s.replies = false) (storeEvent input) := by
  apply withRollback_returns
  mvcgen [beginEvent, beginLocal, exec_spec, addEvent_returns, prepare_returns, storeItems_returns,
    commitLocal_returns]
  rename_i s hs hbe _ _ hans
  simp_all [Handle.failsToBegin, Running.answers]

theorem storeEvent_undefined (input : List OrcmValue) :
    ⦃fun s => ⌜s.failsToBegin s.replies = true⌝⦄ storeEvent input
    ⦃post⟨fun _ _ => ⌜False⌝, fun exit _ => ⌜exit = .undefined⌝⟩⦄ := by
  have hbe : ⦃fun s => ⌜s.failsToBegin s.replies = true⌝⦄ beginEvent
      ⦃post⟨fun _ _ => ⌜False⌝, fun exit _ => ⌜exit = .undefined⌝⟩⦄ := by
    mvcgen [beginEvent, beginLocal, exec_spec]
    · rename_i s hs hco v t ht _
      simp_all [Handle.failsToBegin, Reply.isOk]
    · rename_i s hs hco
      simp_all [Handle.failsToBegin]
  mvcgen [storeEvent, withRollback, hbe, send_spec, reconnectIfNeeded_spec]

end

/-- **A call** does what its body does. -/
theorem Call.run_cases {c : Call} {replies : Nat → Reply} {h : Handle} {P Q : Running → Prop}
    {E : Exit → Running → Prop}
    (hbody : ⦃fun s => ⌜P s⌝⦄ c.body ⦃post⟨fun _ s => ⌜Q s⌝, fun exit s => ⌜E exit s⌝⟩⦄)
    (hP : P { h with replies, localTranStarted := false }) :
    (∃ s, Q s ∧ c.run replies h = (.ok (), s.toHandle)) ∨
      ∃ exit s, E exit s ∧ c.run replies h = (.error exit, s.toHandle) := by
  have hsp := triple_iff.1 hbody _ hP
  rw [Call.run]
  cases hrun : c.body.run { h with replies, localTranStarted := false } with
  | ok u s =>
    rw [hrun] at hsp
    exact Or.inl ⟨s, hsp, rfl⟩
  | error exit s =>
    rw [hrun] at hsp
    exact Or.inr ⟨exit, s, hsp, rfl⟩

section
variable {c : Store} {replies : Nat → Reply} {h : Handle}

theorem Call.run_of_returns {c : Call} {P : Running → Prop} (hre : Returns P c.body)
    (hP : P { h with replies, localTranStarted := false }) :
    (c.run replies h).1 ≠ .error .undefined := by
  obtain ⟨s, -, hrun⟩ | ⟨exit, s, hne, hrun⟩ := Call.run_cases hre hP
  · simp [hrun]
  · rw [hrun]
    exact fun heq => hne (Except.error.inj heq)

/-- **Only a store of an event** does something undefined, exactly if its `BEGIN` fails. -/
theorem Store.undefined_iff : ((Call.store c).run replies h).1 = .error .undefined ↔
    c.isEvent = true ∧ h.failsToBegin replies = true := by
  cases hev : c.isEvent with
  | false =>
    exact iff_of_false (Call.run_of_returns (c := .store c) (c.returns hev) trivial) (by simp)
  | true =>
    obtain ⟨input, rfl⟩ := Store.exists_of_isEvent hev
    cases hbe : h.failsToBegin replies with
    | false =>
      exact iff_of_false
        (Call.run_of_returns (c := .store (.data .event input)) (storeEvent_returns input) hbe)
        (by simp)
    | true =>
      obtain ⟨s, hno, -⟩ | ⟨exit, s, rfl, hrun⟩ :=
        Call.run_cases (c := .store (.data .event input)) (storeEvent_undefined input) hbe
      · exact hno.elim
      · exact iff_of_true (by rw [hrun]) ⟨rfl, rfl⟩

end

end Sensys.Db
