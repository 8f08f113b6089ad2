import Sensys.Db.Values
import Sensys.Lib.Transactions
/-!
# Storing in a PostgreSQL database (`orcm/mca/db/postgres/db_postgres.c:226-2300`)

| here | there |
| --- | --- |
| `Handle` | `mca_db_postgres_module_t` with `PQstatus`, and the session at the server |
| `Reply` | the result of `PQexec`, `PQprepare` or `PQexecPrepared`, by `status_ok` |
| `reconnectIfNeeded` | `:226-235` |
| `exec`, `prepare` | a statement, and what is done when it fails |
| `beginRecorded` | `begin` of the stores of samples (`:507-522`, `:677-692`) |
| `beginLocal`, `commitLocal`, `withRollback` | `begin`, `commit` and `cleanup_and_exit` of the others |
| `storeSample`, `storeDataSample`, `updateNodeFeatures`, `storeNodeFeatures`, `recordDiagTest`, `storeDiagTest` | `:327-831`, `:845-1223`, `:1237-1911` |
| `addEvent`, `beginEvent`, `storeEvent` | `:1926-2250` |
| `store`, `commit`, `rollback` | `:264-291`, `:2258-2300` |

What the server replies is a parameter. A statement takes effect when the reply is good. A
`COMMIT` or `ROLLBACK` that fails may have closed the block. Once the connection is lost every
statement fails until `PQreset`, which closes the block; a reset that does not bring the
connection back is one after which the next statement loses it. Lists that are passed to `store`
are not `NULL`, and the keys in the list of `storeSample` are not.
-/
namespace Sensys.Db
open Orte Opal

/-- The prepared statements. -/
inductive Prepared where
  | setNodeFeatureStore
  | setNodeFeatureUpdate
  | recordDiagTestResult
  | recordDiagTestConfig
  | addEvent
  | addEventData
deriving DecidableEq, Repr

inductive Stmt where
  | begin
  | commit
  | rollback
  | prepare (p : Prepared)
  | execPrepared (p : Prepared) (params : List (Option Text))
  | insert (text : Text)
deriving DecidableEq, Repr

inductive Reply where
  /-- With the number in the first field of the result. -/
  | ok (value : Int)
  | error (closes : Bool)
  | lost
deriving DecidableEq, Repr

inductive Rc where
  | badParam
  | notSupported
  | notImplemented
  | error
deriving DecidableEq, Repr

/-- How a call ends that does not succeed. -/
inductive Exit where
  | code (rc : Rc)
  /-- An object is destroyed that was not constructed. -/
  | undefined
deriving DecidableEq, Repr

/-- A statement that was executed, with the number that the server returned for it. -/
structure Row where
  stmt  : Stmt
  value : Int
deriving DecidableEq, Repr

structure Handle where
  autocommit  : Bool
  tranStarted : Bool
  prepared    : Prepared → Bool
  connected   : Bool
  session     : Session Row

/-- A handle during a call. -/
structure Running extends Handle where
  replies          : Nat → Reply
  localTranStarted : Bool

/-- What a statement does to the session. -/
def answered : Stmt → Reply → Session Row → Session Row
  | .begin, .ok _, s => s.openBlock
  | .commit, .ok _, s => s.commit
  | .rollback, .ok _, s => s.rollback
  | .prepare _, .ok _, s => s
  | .execPrepared p params, .ok v, s => s.execute ⟨.execPrepared p params, v⟩
  | .insert text, .ok v, s => s.execute ⟨.insert text, v⟩
  | .commit, .error true, s => s.rollback
  | .rollback, .error true, s => s.rollback
  | _, _, s => s

def Running.send (stmt : Stmt) (s : Running) : Reply × Running :=
  if s.connected then
    (s.replies 0, { s with
      session := answered stmt (s.replies 0) s.session
      connected := s.replies 0 ≠ .lost
      replies := fun n => s.replies (n + 1) })
  else (.lost, s)

def Running.reconnectIfNeeded (s : Running) : Running :=
  if s.connected then s
  else { s with connected := true, prepared := fun _ => false, session := s.session.rollback }

abbrev Cmd := EStateM Exit Running

def send (stmt : Stmt) : Cmd Reply := modifyGet (Running.send stmt)

def reconnectIfNeeded : Cmd Unit := modify Running.reconnectIfNeeded

def exec (reconnects : Bool) (stmt : Stmt) : Cmd Int := do
  match ← send stmt with
  | .ok value => pure value
  | _ =>
    if reconnects then reconnectIfNeeded
    throw (.code .error)

/-- Only if it is not prepared already. -/
def prepare (reconnects : Bool) (p : Prepared) : Cmd Unit := do
  if !(← get).prepared p then
    let _ ← exec reconnects (.prepare p)
    modify fun s => { s with prepared := fun q => q = p || s.prepared q }

/-- The transaction is recorded in the module. -/
def beginRecorded : Cmd Unit := do
  let s ← get
  if !s.tranStarted && !s.autocommit then
    let _ ← exec true .begin
    modify fun s => { s with tranStarted := true }

/-- The transaction is recorded in a local variable. -/
def beginLocal : Cmd Unit := do
  let s ← get
  if s.autocommit || !s.tranStarted then
    let _ ← exec true .begin
    modify fun s => { s with localTranStarted := true }

def commitLocal : Cmd Unit := do
  if (← get).autocommit then
    let _ ← exec true .commit

def withRollback (body : Cmd Unit) : Cmd Unit :=
  tryCatch body fun exit => do
    let s ← get
    if s.autocommit && s.localTranStarted then
      match ← send .rollback with
      | .ok _ => pure ()
      | _ => reconnectIfNeeded
    throw exit

def check {α : Type} : Except Rc α → Cmd α
  | .ok a => pure a
  | .error rc => throw (.code rc)

def require {α : Type} : Option α → Except Rc α
  | some a => .ok a
  | none => .error .badParam

def stringValue : Value → Except Rc Text
  | .string s => .ok s
  | _ => .error .badParam

/-- A string is cut to the length of the buffer. -/
def stampValue : Value → Except Rc Text
  | .timeval stamp => require stamp
  | .time stamp => require stamp
  | .string s => .ok (s.take 39)
  | _ => .error .badParam

def timevalStamp : Value → Except Rc Text
  | .timeval stamp => require stamp
  | _ => .error .badParam

def intValue : Value → Except Rc Int
  | .integer (.fixed .int) n => .ok n
  | _ => .error .badParam

/-- A key that is not empty. -/
def featureKey (mv : OrcmValue) : Except Rc Text :=
  match mv.key with
  | some (c :: k) => .ok (c :: k)
  | _ => .error .badParam

def dbItem (v : Value) : Except Rc DbItem :=
  match opalValueToOrcmDbItem v with
  | some item => .ok item
  | none => .error .notSupported

def DbItem.params : DbItem → List (Option Text)
  | .string s => [none, none, some s]
  | .real x => [none, some x, none]
  | .integer n => [some (showInt n), none, none]

/-- The key, the type and the value of an item, as parameters. -/
def itemParams (key : Text) (type : Nat) (item : DbItem) : List (Option Text) :=
  [some key, some (Nat.toDigits 10 type)] ++ item.params

/-- An item of the list, by a prepared statement: `before` and `after` are the parameters around
those of the item. -/
def storeItem (p : Prepared) (before : List (Option Text)) (after : OrcmValue → List (Option Text))
    (mv : OrcmValue) : Cmd Unit := do
  let key ← check (featureKey mv)
  let item ← check (dbItem mv.value)
  let _ ← exec true (.execPrepared p (before ++ itemParams key mv.value.type item ++ after mv))

/-- The position and the value of the time stamp and of the host name, as far as they were found. -/
abbrev SampleScan := Option (Nat × Text) × Option (Nat × Text)

/-- The loop ends when both are found. -/
def scanSample (i : Nat) : List (Text × Value) → SampleScan → Except Rc SampleScan
  | [], found => .ok found
  | (key, value) :: rest, found => do
    let found ←
      if key = "ctime".toList then do pure (some (i, ← stampValue value), found.2)
      else if key = "hostname".toList then do pure (found.1, some (i, (← stringValue value).take 255))
      else pure found
    if found.1.isSome && found.2.isSome then pure found else scanSample (i + 1) rest found

/-- `data_item` and `units` are the parts of the key. -/
def storeSampleRowOf (hostname dataGroup timeStamp : Text) (kv : Text × Value) : Except Rc Text :=
  match argvSplit ':' kv.1 with
  | [] => .error .badParam
  | dataItem :: parts => do
    let item ← dbItem kv.2
    pure (storeSampleRow hostname dataGroup dataItem timeStamp item parts.head? kv.2.type)

def storeSampleText (rows : List Text) : Text :=
  ("insert into data_sample_raw(hostname,data_item," ++
    "time_stamp,value_int,value_real,value_str,units,data_type_id) " ++ "values ").toList ++
    argvJoin ',' rows

/-- The items without the two at the positions. -/
def withoutItems (i j : Nat) (kvs : List (Text × Value)) : List (Text × Value) :=
  (kvs.zipIdx.filter fun kv => kv.2 ≠ i ∧ kv.2 ≠ j).map Prod.fst

def storeSampleInsert (dataGroup : Option Text) (kvs : Option (List (Text × Value))) :
    Except Rc Text := do
  let dataGroup ← require dataGroup
  let kvs ← require kvs
  let found ← scanSample 0 kvs (none, none)
  let (i, timeStamp) ← require found.1
  let (j, hostname) ← require found.2
  let rows ← (withoutItems i j kvs).mapM (storeSampleRowOf hostname dataGroup timeStamp)
  pure (storeSampleText rows)

def storeSample (dataGroup : Option Text) (kvs : Option (List (Text × Value))) : Cmd Unit := do
  let text ← check (storeSampleInsert dataGroup kvs)
  beginRecorded
  let _ ← exec true (.insert text)

def eventKeys : List Text :=
  ["ctime".toList, "severity".toList, "type".toList, "version".toList, "vendor".toList,
    "description".toList]

/-- A string that may be missing or of another type. -/
def optionalString : Option Value → Text
  | some (.string s) => s
  | _ => []

def eventParams (input : List OrcmValue) : Except Rc (List (Option Text)) := do
  let ctime ← require (findItem input "ctime".toList)
  let severity ← require (findItem input "severity".toList)
  let type ← require (findItem input "type".toList)
  let timeStamp ← timevalStamp ctime
  let severity ← stringValue severity
  let type ← stringValue type
  let version := optionalString (findItem input "version".toList)
  let vendor := optionalString (findItem input "vendor".toList)
  let description := optionalString (findItem input "description".toList)
  pure [some timeStamp, some severity, some type, some version, some vendor, some description]

/-- The new event's id. -/
def addEvent (input : List OrcmValue) : Cmd Int := do
  let params ← check (eventParams input)
  prepare true .addEvent
  let eventId ← exec true (.execPrepared .addEvent params)
  if eventId ≤ 0 then throw (.code .error)
  pure eventId

/-- The bitmap of the items is constructed after `BEGIN` and destroyed on every way out. -/
def beginEvent : Cmd Unit := tryCatch beginLocal fun _ => throw .undefined

def storeEvent (input : List OrcmValue) : Cmd Unit :=
  withRollback do
    beginEvent
    let eventId ← addEvent input
    prepare false .addEventData
    (unprocessed eventKeys input).forM
      (storeItem .addEventData [some (showInt eventId)] fun mv => [some (mv.units.getD [])])
    commitLocal

/-! ## Samples with an event -/

def dataSampleKeys : List Text := ["data_group".toList, "ctime".toList, "hostname".toList]

structure DataSample where
  dataGroup : Text
  timeStamp : Text
  hostname  : Text
deriving DecidableEq, Repr

def dataSampleParams (input : List OrcmValue) : Except Rc DataSample := do
  let dataGroup ← require (findItem input "data_group".toList)
  let ctime ← require (findItem input "ctime".toList)
  let hostname ← require (findItem input "hostname".toList)
  let dataGroup ← stringValue dataGroup
  let timeStamp ← stampValue ctime
  let hostname ← stringValue hostname
  if input.length - dataSampleKeys.length = 0 then throw .badParam
  pure ⟨dataGroup, timeStamp, hostname⟩

def dataSampleRowOf (sample : DataSample) (eventId : Int) (mv : OrcmValue) : Except Rc Text := do
  let dataItem ← require mv.key
  let item ← dbItem mv.value
  pure (dataSampleRow sample.hostname sample.dataGroup dataItem sample.timeStamp item mv.units
    mv.value.type eventId)

def dataSampleText (rows : List Text) : Text :=
  ("INSERT INTO data_sample_raw(" ++ "hostname," ++ "data_item," ++ "time_stamp," ++ "value_int," ++
    "value_real," ++
    "value_str," ++ "units," ++ "data_type_id," ++ "app_value_type_id," ++ "event_id) " ++
    "VALUES ").toList ++
    argvJoin ',' rows

def dataSampleInsert (input : List OrcmValue) (sample : DataSample) (eventId : Int) :
    Except Rc Text := do
  let rows ← (unprocessed (dataSampleKeys ++ eventKeys) input).mapM (dataSampleRowOf sample eventId)
  pure (dataSampleText rows)

def storeDataSample (input : List OrcmValue) : Cmd Unit := do
  let sample ← check (dataSampleParams input)
  beginRecorded
  let eventId ← addEvent input
  let text ← check (dataSampleInsert input sample eventId)
  let _ ← exec true (.insert text)

def updateNodeFeatures (hostname : Option Text) (features : Option (List OrcmValue)) : Cmd Unit :=
  withRollback do
    let hostname ← check (require hostname)
    let features ← check (require features)
    prepare false .setNodeFeatureUpdate
    beginLocal
    features.forM (storeItem .setNodeFeatureUpdate [some hostname] fun mv => [mv.units])
    commitLocal

def nodeFeaturesKeys : List Text := ["hostname".toList, "ctime".toList]

def nodeFeaturesParams (input : List OrcmValue) : Except Rc (Text × Text) := do
  let hostname ← require (findItem input "hostname".toList)
  let ctime ← require (findItem input "ctime".toList)
  let hostname ← stringValue hostname
  let timeStamp ← timevalStamp ctime
  pure (hostname, timeStamp)

/-- Without features nothing is done, and success is returned. -/
def storeNodeFeatures (input : List OrcmValue) : Cmd Unit :=
  withRollback do
    let (hostname, timeStamp) ← check (nodeFeaturesParams input)
    if nodeFeaturesKeys.length < input.length then
      prepare false .setNodeFeatureStore
      beginLocal
      (unprocessed nodeFeaturesKeys input).forM
        (storeItem .setNodeFeatureStore [some hostname] fun mv => [mv.units, some timeStamp])
      commitLocal

structure DiagTest where
  hostname       : Text
  diagType       : Text
  diagSubtype    : Text
  startTime      : Text
  endTime        : Option Text
  componentIndex : Option Int
  testResult     : Text
deriving DecidableEq, Repr

def DiagTest.resultParams (t : DiagTest) : List (Option Text) :=
  [some t.hostname, some t.diagType, some t.diagSubtype, some t.startTime, t.endTime,
    t.componentIndex.map showInt, some t.testResult]

def DiagTest.configParams (t : DiagTest) : List (Option Text) :=
  [some t.hostname, some t.diagType, some t.diagSubtype, some t.startTime]

/-- The result, and the parameters of the test if there are any. -/
def storeDiag (t : DiagTest) (testParams : Option (List OrcmValue)) : Cmd Unit := do
  prepare false .recordDiagTestResult
  beginLocal
  let _ ← exec true (.execPrepared .recordDiagTestResult t.resultParams)
  match testParams with
  | none => commitLocal
  | some items =>
    prepare false .recordDiagTestConfig
    items.forM (storeItem .recordDiagTestConfig t.configParams fun mv => [mv.units])
    commitLocal

/-- The arguments of `postgres_record_diag_test`; a `struct tm` by its time stamp. -/
structure DiagArgs where
  hostname       : Option Text
  diagType       : Option Text
  diagSubtype    : Option Text
  startTime      : Option Text
  endTime        : Option Text
  componentIndex : Option Int
  testResult     : Option Text
deriving DecidableEq, Repr

def recordDiagParams (a : DiagArgs) : Except Rc DiagTest := do
  let hostname ← require a.hostname
  let diagType ← require a.diagType
  let diagSubtype ← require a.diagSubtype
  let startTime ← require a.startTime
  let testResult ← require a.testResult
  pure ⟨hostname, diagType, diagSubtype, startTime, a.endTime, a.componentIndex, testResult⟩

def recordDiagTest (a : DiagArgs) (testParams : Option (List OrcmValue)) : Cmd Unit :=
  withRollback do
    let t ← check (recordDiagParams a)
    storeDiag t testParams

def diagKeys : List Text :=
  ["hostname".toList, "diag_type".toList, "diag_subtype".toList, "start_time".toList,
    "test_result".toList, "end_time".toList, "component_index".toList]

def diagTestParams (input : List OrcmValue) : Except Rc DiagTest := do
  let hostname ← require (findItem input "hostname".toList)
  let diagType ← require (findItem input "diag_type".toList)
  let diagSubtype ← require (findItem input "diag_subtype".toList)
  let startTime ← require (findItem input "start_time".toList)
  let testResult ← require (findItem input "test_result".toList)
  let hostname ← stringValue hostname
  let diagType ← stringValue diagType
  let diagSubtype ← stringValue diagSubtype
  let startTime ← stampValue startTime
  let testResult ← stringValue testResult
  let endTime ← (findItem input "end_time".toList).mapM stampValue
  let componentIndex ← (findItem input "component_index".toList).mapM intValue
  pure ⟨hostname, diagType, diagSubtype, startTime, endTime, componentIndex, testResult⟩

def storeDiagTest (input : List OrcmValue) : Cmd Unit :=
  withRollback do
    let t ← check (diagTestParams input)
    storeDiag t (if input.length ≤ numFound diagKeys input then none
      else some (unprocessed diagKeys input))

inductive DataType where
  | env
  | inventory
  | diag
  | event
  | other
deriving DecidableEq, Repr

def store : DataType → List OrcmValue → Cmd Unit
  | .env, input => storeDataSample input
  | .inventory, input => storeNodeFeatures input
  | .diag, input => storeDiagTest input
  | .event, input => storeEvent input
  | .other, _ => throw (.code .notImplemented)

def commit : Cmd Unit := do
  let _ ← exec true .commit
  modify fun s => { s with tranStarted := false }

def rollback : Cmd Unit := do
  let _ ← exec true .rollback
  modify fun s => { s with tranStarted := false }

/-- The calls that store something. -/
inductive Store where
  | sample (dataGroup : Option Text) (kvs : Option (List (Text × Value)))
  | data (dataType : DataType) (input : List OrcmValue)
  | features (hostname : Option Text) (items : Option (List OrcmValue))
  | diagTest (a : DiagArgs) (testParams : Option (List OrcmValue))
deriving DecidableEq, Repr

def Store.body : Store → Cmd Unit
  | .sample dataGroup kvs => storeSample dataGroup kvs
  | .data dataType input => store dataType input
  | .features hostname items => updateNodeFeatures hostname items
  | .diagTest a testParams => recordDiagTest a testParams

inductive Call where
  | store (c : Store)
  | commit
  | rollback
deriving DecidableEq, Repr

def Call.body : Call → Cmd Unit
  | .store c => c.body
  | .commit => Db.commit
  | .rollback => Db.rollback

/-- What a call returns, and the handle after it, if the server replies so. -/
def Call.run (c : Call) (replies : Nat → Reply) (h : Handle) : Except Exit Unit × Handle :=
  match c.body.run { h with replies, localTranStarted := false } with
  | .ok _ s => (.ok (), s.toHandle)
  | .error exit s => (.error exit, s.toHandle)

end Sensys.Db
