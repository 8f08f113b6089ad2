import Sensys.Db.TranStarted
/-!
# Stores that are done as a whole

With autocommit on, a store should leave the database as it was, or with all of its rows
(`AllOrNothing`). Most stores run in a transaction of their own; the stores of samples do not.
`Whole` says when a store is done as a whole, with no connection lost.
-/
namespace Sensys.Db
open Std.Do Triples Orte List
set_option mvcgen.warning false

/-! ## The rows of a store -/

/-- The row of an item that can be stored. -/
def itemRow (p : Prepared) (before : List (Option Text)) (after : OrcmValue → List (Option Text))
    (mv : OrcmValue) : Option Stmt := do
  let key ← (featureKey mv).toOption
  let item ← (dbItem mv.value).toOption
  pure (.execPrepared p (before ++ itemParams key mv.value.type item ++ after mv))

def eventRows (input : List OrcmValue) (eventId : Int) : Option (List Stmt) := do
  let params ← (eventParams input).toOption
  let rows ← (unprocessed eventKeys input).mapM
    (itemRow .addEventData [some (showInt eventId)] fun mv => [some (mv.units.getD [])])
  pure (.execPrepared .addEvent params :: rows)

def dataSampleRows (input : List OrcmValue) (eventId : Int) : Option (List Stmt) := do
  let sample ← (dataSampleParams input).toOption
  let params ← (eventParams input).toOption
  let text ← (dataSampleInsert input sample eventId).toOption
  pure [.execPrepared .addEvent params, .insert text]

def diagRows (params : Except Rc DiagTest) (testParams : List OrcmValue) : Option (List Stmt) := do
  let t ← params.toOption
  let rows ← testParams.mapM (itemRow .recordDiagTestConfig t.configParams fun mv => [mv.units])
  pure (.execPrepared .recordDiagTestResult t.resultParams :: rows)

/-- What a store is to leave in the database: a row for each item that is not a parameter. The id
of a new event is the server's. -/
def Store.rows (c : Store) (eventId : Int) : Option (List Stmt) :=
  match c with
  | .sample dataGroup kvs => (storeSampleInsert dataGroup kvs).toOption.map fun text =>
    [.insert text]
  | .data .env input => dataSampleRows input eventId
  | .data .inventory input => do
    let (hostname, timeStamp) ← (nodeFeaturesParams input).toOption
    (unprocessed nodeFeaturesKeys input).mapM
      (itemRow .setNodeFeatureStore [some hostname] fun mv => [mv.units, some timeStamp])
  | .data .diag input => diagRows (diagTestParams input) (unprocessed diagKeys input)
  | .data .event input => eventRows input eventId
  | .data .other _ => none
  | .features hostname items => do
    let hostname ← hostname
    let items ← items
    items.mapM (itemRow .setNodeFeatureUpdate [some hostname] fun mv => [mv.units])
  | .diagTest a testParams => diagRows (recordDiagParams a) (testParams.getD [])

def Store.addsEvent : Store → Bool
  | .data .env _ => true
  | .data .event _ => true
  | _ => false

/-- What is done are the rows of the store. The id of a new event is the number that the server has
returned for the first of them, which adds it. -/
def Store.IsRows (c : Store) (rows : List Row) : Prop :=
  ∃ eventId, (c.addsEvent = true → rows.head?.map Row.value = some eventId) ∧
    c.rows eventId = some (rows.map Row.stmt)

/-- The call returns. An error leaves the database as it was, and after success all rows are
committed. Whatever a block that was open before has done may be committed with them. -/
def AllOrNothing (c : Store) (replies : Nat → Reply) (h : Handle) : Prop :=
  match (Call.store c).run replies h with
  | (.error .undefined, _) => False
  | (.error (.code _), h') => h'.session.committed = h.session.committed
  | (.ok _, h') => ∃ work rows, (work = [] ∨ work = h.session.work) ∧ c.IsRows rows ∧
      h'.session.committed = h.session.committed ++ work ++ rows

/-! ## When a store is done as a whole -/

/-- The reply to `add_event`, or to what is prepared for it if that fails. -/
def eventReply (h : Handle) (replies : Nat → Reply) : Reply :=
  if h.prepared .addEvent then replies 0 else if (replies 0).isOk then replies 1 else replies 0

/-- The reply to the statement after it. -/
def insertReply (h : Handle) (replies : Nat → Reply) : Reply :=
  if h.prepared .addEvent then replies 1 else replies 2

/-- The samples of the event can be inserted, and are. -/
def Inserts (input : List OrcmValue) (sample : DataSample) (replies : Nat → Reply) (h : Handle)
    (eventId : Int) : Prop :=
  0 < eventId ∧ (dataSampleInsert input sample eventId).isOk = true ∧
    (insertReply h replies).isOk = true

/-- No block is open, and once the event is added the samples are inserted. Inside a block the event
is not committed. The transaction of a store of an event begins. -/
def Whole (c : Store) (replies : Nat → Reply) (h : Handle) : Prop :=
  match c with
  | .sample dataGroup kvs =>
    (storeSampleInsert dataGroup kvs).isOk = true → (replies 0).isOk = true → h.session.block = none
  | .data .env input =>
    ∀ sample params eventId, dataSampleParams input = .ok sample → eventParams input = .ok params →
      eventReply h replies = .ok eventId →
        (h.session.block = none ↔ Inserts input sample replies h eventId)
  | .data .event _ => (replies 0).isOk = true
  | _ => True

/-- Autocommit is on, `x` is the session and `l` is `local_tran_started`. -/
structure At (x : Session Row) (l : Bool) (s : Running) : Prop extends Up s where
  autocommit : s.autocommit = true
  session    : s.session = x
  started    : s.localTranStarted = l

variable {x : Session Row} {l r : Bool} {s : Running} {stmt : Stmt} {c : List Row}
  {P Q : Running → Prop} (p : Prepared)

theorem At.next (h : At x l s) (stmt : Stmt) :
    At (answered stmt (s.replies 0) x) l (s.next stmt) := by
  refine ⟨h.toUp.next stmt, h.autocommit, ?_, h.started⟩
  change answered stmt (s.replies 0) s.session = _
  rw [h.session]

/-- Statements that leave rows. -/
def Stmt.isRow : Stmt → Bool
  | .execPrepared _ _ => true
  | .insert _ => true
  | _ => false

theorem answered_row (hst : stmt.isRow = true) (reply : Reply) (x : Session Row) :
    answered stmt reply x =
      match reply with
      | .ok v => x.execute ⟨stmt, v⟩
      | _ => x := by
  cases stmt <;> cases reply <;> first | rfl | cases hst

theorem Up.replies_of_not_answers (h : Up s) (hans : s.answers = false) :
    ∃ closes, s.replies 0 = .error closes := by
  cases hre : s.replies 0 with
  | ok v => simp [Running.answers, h.connected, hre, Reply.isOk] at hans
  | error closes => exact ⟨closes, rfl⟩
  | lost => exact absurd hre (h.replies 0)

theorem At.next_ok {v : Int} (h : At x l s) (hv : s.replies 0 = .ok v) (stmt : Stmt) :
    At (answered stmt (.ok v) x) l (s.next stmt) :=
  hv ▸ h.next stmt

theorem At.next_error (h : At x l s) (hans : s.answers = false) (r : Bool) (stmt : Stmt) :
    ∃ closes, At (answered stmt (.error closes) x) l (s.failed r stmt) := by
  obtain ⟨closes, hre⟩ := h.toUp.replies_of_not_answers hans
  refine ⟨closes, ?_⟩
  rw [h.toUp.failed, ← hre]
  exact h.next stmt

theorem exec_at (hst : stmt.isRow = true) :
    ⦃fun s => ⌜At x l s⌝⦄ exec r stmt
    ⦃post⟨fun v s => ⌜At (x.execute ⟨stmt, v⟩) l s⌝, fun _ s => ⌜At x l s⌝⟩⦄ := by
  apply exec_rule
  · intro s v h _ hv
    have hnext := h.next_ok hv stmt
    rwa [answered_row hst] at hnext
  · intro s h hans
    obtain ⟨closes, hnext⟩ := h.next_error hans r stmt
    rwa [answered_row hst] at hnext

theorem At.prepared (h : At x l s) (prepared : Prepared → Bool) : At x l { s with prepared } :=
  ⟨⟨h.connected, h.replies⟩, h.autocommit, h.session, h.started⟩

theorem answered_prepare (reply : Reply) (x : Session Row) : answered (.prepare p) reply x = x := by
  cases reply <;> rfl

theorem prepare_at : Keeps (At x l) (prepare r p) := by
  mvcgen [prepare, exec_spec]
  · rename_i s h hp _ t ht _
    obtain ⟨-, -, rfl⟩ := ht
    have hnext := h.next (.prepare p)
    rw [answered_prepare] at hnext
    exact hnext.prepared _
  · rename_i s h hp _ t
    rintro - - rfl
    have hnext := h.next (.prepare p)
    rw [answered_prepare] at hnext
    rwa [h.toUp.failed]

/-! ## Transactions of their own -/

theorem beginLocal_at : Leads (At x false) beginLocal (At x.openBlock true) (At x false) := by
  mvcgen [beginLocal, exec_spec]
  · rename_i s h hco _ t ht _
    obtain ⟨-, hv, rfl⟩ := ht
    have hnext := h.next_ok hv .begin
    exact ⟨⟨hnext.connected, hnext.replies⟩, hnext.autocommit, hnext.session, rfl⟩
  · rename_i s h hco _ t
    rintro - hans rfl
    obtain ⟨closes, hnext⟩ := h.next_error hans true .begin
    exact hnext
  · rename_i s h hco
    simp [h.autocommit] at hco

/-- A call that failed, with `c` committed. -/
structure Failed (c : List Row) (s : Running) : Prop extends Up s where
  autocommit : s.autocommit = true
  committed  : s.session.committed = c

theorem At.failed (h : At x l s) (hc : x.committed = c) : Failed c s :=
  ⟨h.toUp, h.autocommit, by rw [h.session, hc]⟩

theorem commitLocal_at :
    Leads (At x true) commitLocal (fun s => s.session.committed = x.commit.committed)
      (Failed x.committed) := by
  mvcgen [commitLocal, exec_spec]
  · rename_i s h hco v t ht
    obtain ⟨-, hv, rfl⟩ := ht
    rw [(h.next_ok hv .commit).session]
    rfl
  · rename_i s h hco v t
    rintro - hans rfl
    obtain ⟨closes, hnext⟩ := h.next_error hans true .commit
    exact hnext.failed (by cases closes <;> rfl)
  · rename_i s h hco
    exact absurd h.autocommit hco

theorem Failed.rolledBack (h : Failed c s) : (s.next .rollback).session.committed = c := by
  rw [← h.committed]
  change (answered .rollback (s.replies 0) s.session).committed = _
  rcases s.replies 0 with _ | closes | _
  · rfl
  · cases closes <;> rfl
  · rfl

theorem withRollback_failed {body : Cmd Unit}
    (h : Leads P body Q (Failed c)) :
    Leads P (withRollback body) Q fun s => s.session.committed = c := by
  mvcgen [withRollback, h, send_spec, reconnectIfNeeded_spec]
  · exact id
  · rename_i s hs _ _ _ _ _ t ht
    change _ ∧ t = (Running.send .rollback s).2 at ht
    rw [ht.2, hs.toUp.send]
    exact hs.rolledBack
  · rename_i s hs _ _ _ _ _ _ t ht _ _ hu
    change _ ∧ t = (Running.send .rollback s).2 at ht
    rw [hu, ht.2, hs.toUp.send, (hs.toUp.next .rollback).reconnectIfNeeded]
    exact hs.rolledBack
  · rename_i s hs _ _
    exact hs.committed

section
variable {A : List Row → Running → Prop} {E : Running → Prop} {p : Prepared}
  {before : List (Option Text)}
  {after : OrcmValue → List (Option Text)}

/-- `A` says which rows are done, and `E` what holds after an error. -/
structure Adds (A : List Row → Running → Prop) (E : Running → Prop) : Prop where
  error    : ∀ {rows s}, A rows s → E s
  row      : ∀ {rows stmt}, stmt.isRow = true →
    ⦃fun s => ⌜A rows s⌝⦄ exec true stmt
    ⦃post⟨fun v s => ⌜A (rows ++ [⟨stmt, v⟩]) s⌝, fun _ s => ⌜E s⌝⟩⦄
  prepares : ∀ {rows} r p, Leads (A rows) (prepare r p) (A rows) E

theorem storeItem_adds (h : Adds A E) (rows : List Row) (mv : OrcmValue) :
    Leads (A rows) (storeItem p before after mv)
      (fun s => ∃ row : Row, itemRow p before after mv = some row.stmt ∧
        A (rows ++ [row]) s) E := by
  rw [storeItem]
  cases hkey : featureKey mv with
  | error rc =>
    simp only [check]
    mvcgen
    exact h.error ‹_›
  | ok key =>
    cases hit : dbItem mv.value with
    | error rc =>
      simp only [check, pure_bind]
      mvcgen
      exact h.error ‹_›
    | ok item =>
      have hrow : itemRow p before after mv =
          some (.execPrepared p (before ++ itemParams key mv.value.type item ++ after mv)) := by
        simp [itemRow, hkey, hit, Except.toOption]
      have hex :=
        @Adds.row A E h rows
        (.execPrepared p (before ++ itemParams key mv.value.type item ++ after mv)) rfl
      simp only [check, pure_bind]
      mvcgen [hex]
      rename_i hs
      exact ⟨_, hrow, hs⟩

theorem storeItems_adds (h : Adds A E) (rows : List Row) (items : List OrcmValue) :
    Leads (A rows) (items.forM (storeItem p before after))
      (fun s => ∃ more : List Row,
        items.mapM (itemRow p before after) = some (more.map Row.stmt) ∧ A (rows ++ more) s) E := by
  have hloop := @forM_spec Cmd _ _ _ _ items (storeItem p before after)
    (fun done s => ⌜∃ more : List Row,
      done.mapM (itemRow p before after) = some (more.map Row.stmt) ∧ A (rows ++ more) s⌝)
    (fun _ s => ⌜E s⌝, PUnit.unit) (fun done mv => exists_spec fun more => by
      have hit := @storeItem_adds A E p before after h (rows ++ more) mv
      mvcgen [hit]
      · rename_i hs
        exact hs.2
      · rename_i hs _ _
        rintro ⟨row, hrow, hs'⟩
        exact ⟨more ++ [row], by simp [mapM_append, hs.1, hrow], by rwa [← append_assoc]⟩)
  mvcgen [hloop]
  exact ⟨[], rfl, by rwa [append_nil]⟩

/-- The rows of an event, with the id that the first of them got. -/
def IsEvent (input : List OrcmValue) (rows : List Row) : Prop :=
  ∃ eventId, rows.head?.map Row.value = some eventId ∧
    eventRows input eventId = some (rows.map Row.stmt)

theorem storeEvent_adds (h : Adds A E) {input : List OrcmValue} (hbe : Leads P beginLocal (A []) E)
    (hco : Leads (fun s => ∃ rows, IsEvent input rows ∧ A rows s) commitLocal Q E) : Leads P (do
        beginEvent
        let eventId ← addEvent input
        prepare false .addEventData
        (unprocessed eventKeys input).forM (storeItem .addEventData [some (showInt eventId)] fun mv => [some (mv.units.getD [])])
        commitLocal) Q E := by
  have hev := beginEvent_leads hbe
  cases hpa : eventParams input with
  | error rc =>
    simp only [addEvent, hpa, check]
    mvcgen [hev]
    exact h.error ‹_›
  | ok params =>
    have hpr := @Adds.prepares A E h
    have hex := @Adds.row A E h [] (.execPrepared .addEvent params) rfl
    have hit :=
      fun eventId => @storeItems_adds A E .addEventData [some (showInt eventId)]
      (fun mv => [some (mv.units.getD [])])
      h [⟨.execPrepared .addEvent params, eventId⟩] (unprocessed eventKeys input)
    simp only [addEvent, hpa, check, pure_bind]
    mvcgen [hev, hpr, hex, hit, hco]
    · exact h.error ‹_›
    · rename_i eventId _ _ _ _ _ _ _ _ hit
      obtain ⟨more, hm, hs⟩ := hit
      refine ⟨⟨.execPrepared .addEvent params, eventId⟩ :: more, ⟨eventId, rfl, ?_⟩, hs⟩
      simp [eventRows, hpa, hm, Except.toOption]

end

theorem adds_at (hc : ∀ rows, (x.executeAll rows).committed = c) :
    Adds (fun rows => At (x.executeAll rows) l) (Failed c) where
  error hat := hat.failed (hc _)
  row {rows stmt} hst := by
    have hex := @exec_at (x.executeAll rows) l true stmt hst
    simp only [Session.executeAll_concat]
    mvcgen [hex]
    · exact id
    · exact fun hat => hat.failed (hc rows)
  prepares {rows} r p := by
    have hpr := @prepare_at (x.executeAll rows) l r p
    mvcgen [hpr]
    · exact id
    · exact fun hat => hat.failed (hc rows)

/-! ## Stores with a transaction -/

/-- All rows are committed. -/
def Commits (c : Store) (y : Session Row) (s : Running) : Prop :=
  ∃ work rows, (work = [] ∨ work = y.work) ∧ c.IsRows rows ∧
    s.session.committed = y.committed ++ work ++ rows

/-- The body commits all rows, or fails with what was committed before. -/
abbrev Transacts (c : Store) (y : Session Row) (body : Cmd Unit) : Prop :=
  Leads (At y false) body (Commits c y) (Failed y.committed)

theorem commitLocal_whole (c : Store) (y : Session Row) :
    Leads (fun s => ∃ rows, c.IsRows rows ∧ At (y.openBlock.executeAll rows) true s) commitLocal
      (Commits c y) (Failed y.committed) := by
  apply exists_spec
  intro rows
  have hco := @commitLocal_at (y.openBlock.executeAll rows)
  mvcgen [hco]
  · rename_i hs
    exact hs.2
  · rename_i hs _ _
    intro hco
    rw [Session.committed_commit_block] at hco
    exact ⟨_, rows, Or.inr rfl, hs.1, hco⟩
  · rw [Session.committed_block]
    exact id

/-- Stores with a body in `withRollback`, as a whole. -/
abbrev Transacted (c : Store) : Prop :=
  ∀ y, Leads (At y false) c.body (Commits c y) fun s => s.session.committed = y.committed

theorem adds_block (y : Session Row) :
    Adds (fun rows => At (y.openBlock.executeAll rows) true) (Failed y.committed) :=
  adds_at y.committed_block

theorem beginLocal_block (y : Session Row) :
    Leads (At y false) beginLocal (At (y.openBlock.executeAll []) true) (Failed y.committed) := by
  mvcgen [beginLocal_at]
  · exact id
  · exact fun hat => hat.failed rfl

theorem storeEvent_whole (input : List OrcmValue) : Transacted (.data .event input) := by
  intro y
  apply withRollback_failed
  refine storeEvent_adds (adds_block y) (beginLocal_block y) ?_
  have hco := @commitLocal_whole (.data .event input) y
  mvcgen [hco]
  rename_i hs
  obtain ⟨rows, ⟨eventId, hre, hro⟩, hat⟩ := hs
  exact ⟨rows, ⟨eventId, fun _ => hre, hro⟩, hat⟩

theorem Store.isRows_of {c : Store} (hc : c.addsEvent = false) {rows : List Row}
    (hro : c.rows 0 = some (rows.map Row.stmt)) : c.IsRows rows := by
  refine ⟨0, fun h => ?_, hro⟩
  rw [hc] at h
  cases h

/-- The body of a store that prepares a statement and then stores the items in a transaction. -/
theorem items_whole (c : Store) (y : Session Row) {p : Prepared} {before : List (Option Text)}
    {after : OrcmValue → List (Option Text)} {items : List OrcmValue}
    (hro : ∀ rows : List Row, items.mapM (itemRow p before after) = some (rows.map Row.stmt) →
      c.IsRows rows) :
    Transacts c y (do
      prepare false p
      beginLocal
      items.forM (storeItem p before after)
      commitLocal) := by
  have hpr := @prepare_at y false false
  have hbe := beginLocal_block y
  have hit := @storeItems_adds _ _ p before after (adds_block y) [] items
  have hco := @commitLocal_whole c y
  mvcgen [hpr, hbe, hit, hco]
  · rename_i h
    obtain ⟨rows, hmap, hat⟩ := h
    exact ⟨rows, hro rows hmap, hat⟩
  · exact fun hat => hat.failed rfl

theorem rejected_whole (c : Store) (y : Session Row) (rc : Rc) :
    Transacts c y (throw (.code rc)) := by
  mvcgen
  rename_i hat
  exact hat.failed rfl

theorem updateNodeFeatures_whole (hostname : Option Text) (items : Option (List OrcmValue)) :
    Transacted (.features hostname items) := by
  intro y
  apply withRollback_failed
  cases hostname with
  | none => exact rejected_whole _ y _
  | some hostname =>
    cases items with
    | none => exact rejected_whole _ y _
    | some items => exact items_whole _ y fun rows hro => Store.isRows_of rfl hro

theorem length_unprocessed (keys : List Text) (input : List OrcmValue) :
    (unprocessed keys input).length + numFound keys input = input.length := by
  have hk := (input.takeWhile OrcmValue.hasKey).length_eq_length_filter_add (OrcmValue.isParam keys)
  have hall := congrArg List.length (@takeWhile_append_dropWhile _ OrcmValue.hasKey input)
  rw [length_append] at hall
  rw [unprocessed, numFound, length_append, countP_eq_length_filter]
  omega

variable {input : List OrcmValue} {params : List (Option Text)} {sample : DataSample}

theorem unprocessed_eq_nil {keys : List Text} (h : input.length ≤ numFound keys input) :
    unprocessed keys input = [] := by
  have hlen := length_unprocessed keys input
  exact length_eq_zero_iff.1 (by omega)

theorem mem_of_findItem {key : Text} {v : Value} (h : findItem input key = some v) :
    ∃ mv ∈ input.takeWhile OrcmValue.hasKey, mv.key = some key := by
  obtain ⟨mv, hmv, -⟩ := Option.map_eq_some_iff.1 h
  exact ⟨mv, mem_reverse.1 (mem_of_find?_eq_some hmv), by simpa using List.find?_some hmv⟩

theorem two_le_numFound {k k' : Text} {v v' : Value} (hne : k ≠ k') (hk : findItem input k = some v)
    (hk' : findItem input k' = some v') : 2 ≤ numFound [k, k'] input := by
  obtain ⟨mv, hmem, hkey⟩ := mem_of_findItem hk
  obtain ⟨mv', hmem', hkey'⟩ := mem_of_findItem hk'
  have hdi : mv ≠ mv' := by
    rintro rfl
    exact hne (Option.some.inj (hkey.symm.trans hkey'))
  rw [numFound, countP_eq_length_filter]
  have hpa : [mv, mv'].Nodup := by simpa using hdi
  exact (hpa.subperm (by simp [hmem, hmem', OrcmValue.isParam, hkey, hkey'])).length_le

theorem nodeFeaturesParams_ok {params : Text × Text} (h : nodeFeaturesParams input = .ok params) :
    2 ≤ numFound nodeFeaturesKeys input := by
  rw [nodeFeaturesParams] at h
  cases hhost : findItem input "hostname".toList with
  | none =>
    rw [hhost] at h
    cases h
  | some host =>
    cases hti : findItem input "ctime".toList with
    | none =>
      rw [hhost, hti] at h
      cases h
    | some time => exact two_le_numFound (by decide) hhost hti

theorem storeNodeFeatures_whole (input : List OrcmValue) : Transacted (.data .inventory input) := by
  intro y
  apply withRollback_failed
  cases h : nodeFeaturesParams input with
  | error rc => exact rejected_whole _ y rc
  | ok params =>
    have his : ∀ rows : List Row, (unprocessed nodeFeaturesKeys input).mapM
        (itemRow .setNodeFeatureStore [some params.1] fun mv => [mv.units, some params.2]) =
          some (rows.map Row.stmt) → (Store.data .inventory input).IsRows rows := by
      intro rows hro
      apply Store.isRows_of rfl
      simp [Store.rows, h, hro, Except.toOption]
    simp only [check, pure_bind]
    by_cases hlen : nodeFeaturesKeys.length < input.length
    · simp only [hlen]
      exact items_whole _ y his
    · mvcgen
      rename_i hat
      have hnil : unprocessed nodeFeaturesKeys input = [] :=
        unprocessed_eq_nil ((not_lt.1 hlen).trans (nodeFeaturesParams_ok h))
      exact ⟨[], [], Or.inl rfl, his [] (by rw [hnil]; rfl), by rw [hat.session]; simp⟩

theorem storeDiag_whole (c : Store) (y : Session Row) (t : DiagTest)
    (testParams : Option (List OrcmValue))
    (his : ∀ (v : Int) (rows : List Row), (testParams.getD []).mapM
        (itemRow .recordDiagTestConfig t.configParams fun mv => [mv.units]) =
          some (rows.map Row.stmt) →
      c.IsRows (⟨.execPrepared .recordDiagTestResult t.resultParams, v⟩ :: rows)) :
    Transacts c y (storeDiag t testParams) := by
  have hpr := @prepare_at y false false .recordDiagTestResult
  have hbe := beginLocal_block y
  have hre :=
    @Adds.row _ _ (adds_block y) [] (.execPrepared .recordDiagTestResult t.resultParams) rfl
  have hco := @commitLocal_whole c y
  cases testParams with
  | none =>
    mvcgen [storeDiag, hpr, hbe, hre, hco]
    · rename_i hat
      exact ⟨_, his _ [] rfl, hat⟩
    · exact fun hat => hat.failed rfl
  | some items =>
    have hpr' := fun v => @Adds.prepares _ _ (adds_block y)
      [⟨.execPrepared .recordDiagTestResult t.resultParams, v⟩] false .recordDiagTestConfig
    have hit := fun v => @storeItems_adds _ _ .recordDiagTestConfig t.configParams
      (fun mv => [mv.units]) (adds_block y)
      [⟨.execPrepared .recordDiagTestResult t.resultParams, v⟩] items
    mvcgen [storeDiag, hpr, hbe, hre, hpr', hit, hco]
    · rename_i h
      obtain ⟨rows, hro, hat⟩ := h
      exact ⟨_, his _ rows hro, hat⟩
    · exact fun hat => hat.failed rfl

theorem storeDiagTest_whole (input : List OrcmValue) : Transacted (.data .diag input) := by
  intro y
  apply withRollback_failed
  cases h : diagTestParams input with
  | error rc => exact rejected_whole _ y rc
  | ok t =>
    apply storeDiag_whole
    intro v rows hro
    apply Store.isRows_of rfl
    have hit :
      (if input.length ≤ numFound diagKeys input then none
      else some (unprocessed diagKeys input)).getD [] =
        unprocessed diagKeys input := by
      split
      · rename_i hlen
        rw [unprocessed_eq_nil hlen]
        rfl
      · rfl
    rw [hit] at hro
    simp [Store.rows, diagRows, h, hro, Except.toOption]

theorem recordDiagTest_whole (a : DiagArgs) (testParams : Option (List OrcmValue)) :
    Transacted (.diagTest a testParams) := by
  intro y
  apply withRollback_failed
  cases h : recordDiagParams a with
  | error rc => exact rejected_whole _ y rc
  | ok t =>
    apply storeDiag_whole
    intro v rows hro
    apply Store.isRows_of rfl
    simp [Store.rows, diagRows, h, hro, Except.toOption]

/-! ## Stores of samples -/

theorem Up.run_exec (h : Up s) (stmt : Stmt) : (exec r stmt).run s =
    match s.replies 0 with
    | .ok v => .ok v (s.next stmt)
    | _ => .error (.code .error) (s.next stmt) := by
  rw [exec, EStateM.run_bind, run_send, h.send]
  cases hre : s.replies 0 with
  | ok v => rfl
  | error closes =>
    cases r with
    | false => rfl
    | true =>
      change EStateM.Result.error (Exit.code Rc.error) (s.next stmt).reconnectIfNeeded = _
      rw [(h.next stmt).reconnectIfNeeded]
  | lost => exact absurd hre (h.replies 0)

theorem session_next (hst : stmt.isRow = true) :
    (s.next stmt).session =
      match s.replies 0 with
      | .ok v => s.session.execute ⟨stmt, v⟩
      | _ => s.session :=
  answered_row hst _ _

theorem run_beginRecorded (hauto : s.autocommit = true) : beginRecorded.run s = .ok () s := by
  simp [beginRecorded, hauto]

theorem Up.run_prepareEvent (h : Up s) : ∃ t, Up t ∧ t.session = s.session ∧
    ((prepare true .addEvent).run s = .ok () t ∧ t.replies 0 = eventReply s.toHandle s.replies ∧
        t.replies 1 = insertReply s.toHandle s.replies ∨
      (prepare true .addEvent).run s = .error (.code .error) t ∧
        (eventReply s.toHandle s.replies).isOk = false) := by
  cases hp : s.prepared .addEvent with
  | true => exact ⟨s, h, rfl, Or.inl ⟨by simp [prepare, hp], by simp [eventReply, hp], by simp [insertReply, hp]⟩⟩
  | false =>
    have hrun := h.run_exec (r := true) (.prepare .addEvent)
    cases hre : s.replies 0 with
    | ok v =>
      refine ⟨{ s.next (.prepare .addEvent) with prepared := fun q => q = .addEvent || s.prepared q },
        ⟨h.connected, fun n => h.replies (n + 1)⟩, answered_prepare _ _ _, Or.inl ⟨?_, ?_, ?_⟩⟩
      · simp [prepare, hp, hrun, hre]
        rfl
      · simp [eventReply, hp, hre, Reply.isOk, Running.next]
      · simp [insertReply, hp, Running.next]
    | error closes =>
      refine ⟨s.next (.prepare .addEvent), h.next _, answered_prepare _ _ _, Or.inr ⟨?_, ?_⟩⟩
      · simp [prepare, hp, hrun, hre]
      · simp [eventReply, hp, hre, Reply.isOk]
    | lost => exact absurd hre (h.replies 0)

/-- What a store is to do from there. -/
def Ends (c : Store) (s : Running) : Prop :=
  match c.body.run s with
  | .ok _ t => Commits c s.session t
  | .error .undefined _ => False
  | .error (.code _) t => t.session.committed = s.session.committed

theorem allOrNothing_run (c : Store) (replies : Nat → Reply) (h : Handle) :
    AllOrNothing c replies h ↔ Ends c { h with replies, localTranStarted := false } := by
  simp only [AllOrNothing, Call.run, Call.body, Ends]
  rcases c.body.run { h with replies, localTranStarted := false } with _ | ⟨_ | _, _⟩ <;> rfl

theorem not_commits {c : Store} {y : Session Row} (hro : ∀ eventId, c.rows eventId ≠ some [])
    (hs : s.session.committed = y.committed) : ¬ Commits c y s := by
  rintro ⟨work, rows, -, ⟨eventId, -, hr⟩, hco⟩
  rw [hs, append_assoc, self_eq_append_right, append_eq_nil_iff] at hco
  rw [hco.2] at hr
  exact hro eventId hr

theorem rows_sample_ne (dataGroup : Option Text) (kvs : Option (List (Text × Value)))
    (eventId : Int) :
    (Store.sample dataGroup kvs).rows eventId ≠ some [] := by
  simp [Store.rows]

theorem rows_env_ne (input : List OrcmValue) (eventId : Int) :
    (Store.data .env input).rows eventId ≠ some [] := by
  simp [Store.rows, dataSampleRows, Option.bind_eq_some_iff]

theorem env_stopped {t : Running} {eventId : Int}
    (ht : t.session = s.session.execute ⟨.execPrepared .addEvent params, eventId⟩)
    (hre : eventReply s.toHandle s.replies = .ok eventId)
    (hnot : ¬ Inserts input sample s.replies s.toHandle eventId) :
    t.session.committed = s.session.committed ↔
      ∀ id, eventReply s.toHandle s.replies = .ok id →
      (s.session.block = none ↔ Inserts input sample s.replies s.toHandle id) := by
  rw [ht, hre]
  cases hbl : s.session.block <;> simp [Session.execute, hbl, hnot]

theorem env_done {t : Running} {eventId v : Int} {text : Text}
    (ht : t.session = (s.session.execute ⟨.execPrepared .addEvent params, eventId⟩).execute
      ⟨.insert text, v⟩)
    (hre : eventReply s.toHandle s.replies = .ok eventId)
    (hin : Inserts input sample s.replies s.toHandle eventId)
    (hrows : (Store.data .env input).rows eventId =
      some [.execPrepared .addEvent params, .insert text]) :
    Commits (.data .env input) s.session t ↔
      ∀ id, eventReply s.toHandle s.replies = .ok id →
      (s.session.block = none ↔ Inserts input sample s.replies s.toHandle id) := by
  cases hbl : s.session.block with
  | none =>
    refine iff_of_true ⟨[], [⟨.execPrepared .addEvent params, eventId⟩, ⟨.insert text, v⟩],
      Or.inl rfl, ⟨eventId, fun _ => rfl, hrows⟩, ?_⟩ fun id hid => ?_
    · rw [ht]
      simp [Session.execute, hbl]
    · rw [← Reply.ok.inj (hre.symm.trans hid)]
      exact iff_of_true rfl hin
  | some work =>
    refine iff_of_false (not_commits (rows_env_ne input) ?_) fun hall => by
      cases (hall eventId hre).2 hin
    rw [ht]
    simp [Session.execute, hbl]

/-- A store with a transaction of its own is done as a whole, if it returns. -/
theorem allOrNothing_of_transacted {c : Store} (hbo : Transacted c) {replies : Nat → Reply}
    {h : Handle} (hup : Up { h with replies, localTranStarted := false })
    (hauto : h.autocommit = true) :
    AllOrNothing c replies h ↔ ¬ (c.isEvent = true ∧ h.failsToBegin replies = true) := by
  rw [← Store.undefined_iff, AllOrNothing]
  obtain ⟨s, hs, hrun⟩ | ⟨exit, s, hs, hrun⟩ :=
    Call.run_cases (c := .store c) (hbo h.session) ⟨hup, hauto, rfl, rfl⟩
  · rw [hrun]
    exact iff_of_true hs (by simp)
  · rw [hrun]
    cases exit with
    | code rc => exact iff_of_true hs (by simp)
    | undefined => simp

section
variable (hup : Up s) (hauto : s.autocommit = true)
include hup hauto

theorem sample_iff (dataGroup : Option Text) (kvs : Option (List (Text × Value))) :
    Ends (.sample dataGroup kvs) s ↔ Whole (.sample dataGroup kvs) s.replies s.toHandle := by
  rw [Ends, Whole, Store.body, storeSample]
  cases hte : storeSampleInsert dataGroup kvs with
  | error rc => exact iff_of_true rfl fun h => by cases h
  | ok text =>
    have hse := @session_next s (.insert text) rfl
    simp only [check, pure_bind, EStateM.run_bind, run_beginRecorded hauto, hup.run_exec]
    cases hre : s.replies 0 with
    | lost => exact absurd hre (hup.replies 0)
    | error closes =>
      rw [hre] at hse
      exact iff_of_true (congrArg Session.committed hse) fun _ h => by cases h
    | ok v =>
      rw [hre] at hse
      cases hbl : s.session.block with
      | none =>
        refine iff_of_true
          ⟨[], [⟨.insert text, v⟩], Or.inl rfl, Store.isRows_of rfl ?_, ?_⟩ fun _ _ => rfl
        · simp [Store.rows, hte, Except.toOption]
        · rw [hse]
          simp [Session.execute, hbl]
      | some work =>
        refine iff_of_false (not_commits (rows_sample_ne _ _) ?_) fun hwh => by cases hwh rfl rfl
        rw [hse]
        simp [Session.execute, hbl]

theorem env_iff (hsa : dataSampleParams input = .ok sample)
    (hpa : eventParams input = .ok params) : Ends (.data .env input) s ↔ ∀ eventId,
      eventReply s.toHandle s.replies = .ok eventId →
      (s.session.block = none ↔ Inserts input sample s.replies s.toHandle eventId) := by
  rw [Ends, Store.body, store, storeDataSample, addEvent, hsa, hpa]
  simp only [check, pure_bind, EStateM.run_bind, run_beginRecorded hauto]
  obtain ⟨t, ht, hse, ⟨hrun, hev, hinse⟩ | ⟨hrun, hnot⟩⟩ := hup.run_prepareEvent
  · have had := @session_next t (.execPrepared .addEvent params) rfl
    simp only [hrun, ht.run_exec]
    cases hre : t.replies 0 with
    | lost => exact absurd hre (ht.replies 0)
    | error closes =>
      rw [hre] at had hev
      exact iff_of_true (congrArg Session.committed (had.trans hse)) (by simp [← hev])
    | ok eventId =>
      rw [hre, hse] at had
      rw [hre] at hev
      by_cases hpos : eventId ≤ 0
      · simp only [if_pos hpos]
        exact env_stopped had hev.symm fun h => absurd h.1 (not_lt.2 hpos)
      · cases hte : dataSampleInsert input sample eventId with
        | error rc =>
          simp only [if_neg hpos, EStateM.run_pure, hte]
          exact env_stopped had hev.symm fun h => by
            rw [Inserts, hte] at h
            cases h.2.1
        | ok text =>
          have hrow := @session_next (t.next (.execPrepared .addEvent params)) (.insert text) rfl
          simp only [if_neg hpos, EStateM.run_pure, hte, (ht.next _).run_exec]
          have hnext : (t.next (.execPrepared .addEvent params)).replies 0 =
            insertReply s.toHandle s.replies := hinse
          rw [hnext, had] at hrow
          rw [hnext]
          cases hins : insertReply s.toHandle s.replies with
          | lost => exact absurd (hinse.trans hins) (ht.replies 1)
          | error closes =>
            rw [hins] at hrow
            exact env_stopped hrow hev.symm fun h => by
              rw [Inserts, hins] at h
              cases h.2.2
          | ok v =>
            rw [hins] at hrow
            have hin : Inserts input sample s.replies s.toHandle eventId :=
              ⟨not_le.1 hpos, by rw [hte]; rfl, by rw [hins]; rfl⟩
            exact env_done hrow hev.symm hin
              (by simp [Store.rows, dataSampleRows, hsa, hpa, hte, Except.toOption])
  · rw [hrun]
    refine iff_of_true (congrArg Session.committed hse) fun eventId hre => ?_
    rw [hre] at hnot
    cases hnot

end

/-- **Done as a whole or not at all**: with autocommit on, and whatever statements fail without
losing the connection, a store either reports an error and leaves the database as it was, or
reports success and leaves all of its rows committed, exactly if it is not a store of samples that
fails once its event is added, or one inside a block that an earlier call has left open, and not a
store of an event whose `BEGIN` fails. -/
theorem allOrNothing_iff (c : Store) (replies : Nat → Reply) (h : Handle)
    (hauto : h.autocommit = true) (hc : h.connected = true) (hloss : ∀ n, replies n ≠ .lost) :
    AllOrNothing c replies h ↔ Whole c replies h := by
  have hup : Up { h with replies, localTranStarted := false } := ⟨hc, hloss⟩
  have htr {c : Store} (hbo : Transacted c) (hev : c.isEvent = false) :
      AllOrNothing c replies h ↔ True := by
    simp [allOrNothing_of_transacted hbo hup hauto, hev]
  cases c with
  | sample dataGroup kvs =>
    rw [allOrNothing_run]
    exact sample_iff hup hauto dataGroup kvs
  | features hostname items => exact htr (updateNodeFeatures_whole hostname items) rfl
  | diagTest a testParams => exact htr (recordDiagTest_whole a testParams) rfl
  | data dataType input =>
    cases dataType with
    | inventory => exact htr (storeNodeFeatures_whole input) rfl
    | diag => exact htr (storeDiagTest_whole input) rfl
    | event =>
      rw [allOrNothing_of_transacted (storeEvent_whole input) hup hauto, Whole]
      simp [Store.isEvent, Handle.failsToBegin, hauto, hc]
    | other => exact iff_of_true rfl trivial
    | env =>
      rw [allOrNothing_run, Whole]
      cases hsa : dataSampleParams input with
      | error rc =>
        rw [Ends, Store.body, store, storeDataSample, hsa]
        exact iff_of_true rfl fun _ _ _ h => by cases h
      | ok sample =>
        cases hpa : eventParams input with
        | error rc =>
          rw [Ends, Store.body, store, storeDataSample, addEvent, hsa, hpa]
          simp only [check, pure_bind, EStateM.run_bind,
            @run_beginRecorded { h with replies, localTranStarted := false } hauto]
          exact iff_of_true rfl fun _ _ _ _ h => by cases h
        | ok params =>
          refine (env_iff hup hauto hsa hpa).trans
            ⟨?_, fun hwh eventId => hwh sample params eventId rfl rfl⟩
          rintro hwh _ _ eventId ⟨⟩ ⟨⟩
          exact hwh eventId

/-- A sample of the host `h`, with its event. -/
def environment : List OrcmValue :=
  [⟨some "data_group".toList, .string ['g'], none⟩,
    ⟨some "ctime".toList, .timeval (some ['t']), none⟩,
    ⟨some "hostname".toList, .string ['h'], none⟩, ⟨some "severity".toList, .string ['s'], none⟩,
    ⟨some "type".toList, .string ['e'], none⟩, ⟨some ['a'], .string ['x'], none⟩]

/-- A handle with autocommit on. -/
def automatic (db : List Row) : Handle := { opened db with autocommit := true }

theorem environment_whole :
    (∀ n, (fun _ : Nat => Reply.ok 1) n ≠ .lost) ∧
      (AllOrNothing (.data .env environment) (fun _ => .ok 1) (automatic []) ↔
        Whole (.data .env environment) (fun _ => .ok 1) (automatic [])) :=
  ⟨by simp, allOrNothing_iff _ _ _ rfl rfl (by simp)⟩

/-- The replies to a store whose `INSERT` fails. -/
def insertFails : Nat → Reply := fun n => if n = 2 then .error false else .ok 1

/-- The event of samples that are not stored stays. -/
theorem event_left_behind :
    ((Call.store (.data .env environment)).run insertFails (automatic [])).1 =
        .error (.code .error) ∧
      ((Call.store (.data .env environment)).run insertFails (automatic [])).2.session.committed =
        [⟨.execPrepared .addEvent [some ['t'], some ['s'], some ['e'], some [], some [], some []],
          1⟩] ∧
      ¬ AllOrNothing (.data .env environment) insertFails (automatic []) := by
  refine ⟨rfl, rfl, fun h => ?_⟩
  have hem : [(⟨.execPrepared .addEvent
    [some ['t'], some ['s'], some ['e'], some [], some [], some []], 1⟩ : Row)] = [] := h
  cases hem

end Sensys.Db
