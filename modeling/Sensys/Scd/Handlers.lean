import Sensys.Scd.Types
import Sensys.Lib.Run
/-!
# The event handlers of the PMF scheduler and of the resource manager

| here | there |
| --- | --- |
| `pmfFindQueue` … `pmfCancel` | `scd_pmf.c:107-433` |
| `scdBaseRmRequest` … `scdBaseRmKill` | `scd_base_rm.c:81-313` |
| `recvSessionReq`, `recvSessionCancel` | `orcm_scd_base_recv` (`scd_base_recv.c:332-367`, `:426-457`) |
| `recvStepdComplete`, `updateNodestate*` | `orcm_scd_base_rm_recv` (`scd_base_rm_recv.c:110-317`, `:357-479`) |

A handler runs to its end before the next one starts. `none` is a crash: `strcmp` on the `NULL`
node list of an allocation that was never given nodes (`scd_pmf.c:267`), or on the `NULL` that
ends a too short list of names (`scd_base_rm.c:197`, `:279`). The answers to clients, the log
output and the reference counts of the caddies are left out. So is a change of `hnp` between two
sends of one ACTIVE event, which needs two nodes of the same name.
-/
namespace Sensys.Scd

/-- `pmf_find_queue` (`scd_pmf.c:107-171`), the INIT handler. -/
def pmfFindQueue (st : State) (s : SessionId) : State :=
  if (st.alloc s).minNodes > st.nodes.length then
    -- more nodes than are defined: hold
    let st := st.modAlloc s fun a => { a with queues := some "hold" }
    let st := { st with hold := st.hold ++ [s] }
    let st := st.activateScd .schedule
    st.modAlloc s fun a =>
      { a with notes := match a.notes with
          | some t => some (t ++ ", session request exceeds defined resources")
          | none => some "session exceeds resources" }
  else
    let st := st.modAlloc s fun a => { a with queues := some "default" }
    let st := { st with default := st.default ++ [s] }
    st.activateScd .schedule

/-- `pmf_schedule` (`scd_pmf.c:173-242`): one session per event, the first of the queue. -/
def pmfSchedule (st : State) : State :=
  match st.default with
  | [] => st
  | s :: rest =>
    let st := { st with default := rest }
    if (st.alloc s).minNodes ≤ ((freeNodes st.nodes).length : Int) then st.activateRm (.req s)
    else { st with default := s :: st.default }

/-- The `ERROR` label of `pmf_allocated` (`scd_pmf.c:324-344`). It removes the *first* session
of `running`, and links the failing one into `default`, whatever list it is still on. -/
def pmfAllocatedError (st : State) (s : SessionId) : State :=
  let st := { st with running := st.running.tail }
  let st := { st with default := s :: st.default }
  st.activateScd .schedule

/-- `pmf_allocated` (`scd_pmf.c:244-345`), the ALLOCD handler. -/
def pmfAllocated (R : Regex) (fault : Bool) (st : State) (s : SessionId) : Option State :=
  let st := st.modAlloc s fun a => { a with queues := some "running" }
  let st := { st with running := st.running ++ [s] }
  match (st.alloc s).nodes with
  | none => none
  | some nl =>
    if nl = "ERROR" then some (pmfAllocatedError st s)
    else
      -- ACTIVE is raised here, before the list is looked at
      let st := st.activateRm (.active s)
      match R.names fault (some nl) with
      | none => some (pmfAllocatedError st s)
      | some names =>
        if (names.length : Int) ≠ (st.alloc s).minNodes then some (pmfAllocatedError st s)
        else some { st with nodes := markNodes .alloc names st.nodes }

/-- `pmf_terminated` (`scd_pmf.c:347-408`). -/
def pmfTerminated (R : Regex) (fault : Bool) (st : State) (a : Alloc) : State :=
  match R.names fault a.nodes with
  | none => st
  | some names =>
    let st := { st with nodes := markNodes .unalloc names st.nodes }
    let st := { st with running := st.running.filter (· ≠ a.id) }
    st.activateScd .schedule

/-- One queue other than `running` in the loop of `pmf_cancel`: the first match is removed and
SCHEDULE raised. -/
def cancelQueued (id : SessionId) (q : List SessionId) : List SessionId × List ScdEvent :=
  if id ∈ q then (q.erase id, [.schedule]) else (q, [])

/-- `pmf_cancel` (`scd_pmf.c:410-433`). The loop over the queues does not stop at a match. -/
def pmfCancel (st : State) (id : SessionId) : State :=
  let st := if id ∈ st.running then st.activateRm (.kill id) else st
  let (hold, e1) := cancelQueued id st.hold
  let (default, e2) := cancelQueued id st.default
  { st with hold := hold, default := default, scd := st.scd ++ e1 ++ e2 }

/-- The node loop of `scd_base_rm_request` (`scd_base_rm.c:92-115`): the names collected and
what is left of `num_nodes`. -/
def requestLoop : List Node → Nat → List String × Nat
  | [], k => ([], k)
  | n :: ns, k =>
    if n.free then
      if k - 1 = 0 then ([n.name], 0)
      else
        let (l, k') := requestLoop ns (k - 1)
        (n.name :: l, k')
    else requestLoop ns k

/-- `scd_base_rm_request` (`scd_base_rm.c:81-146`). Without enough nodes `alloc->nodes` keeps
what it was, and ALLOCD is raised all the same. -/
def scdBaseRmRequest (R : Regex) (fault : Bool) (st : State) (s : SessionId) : State :=
  let numNodes := (st.alloc s).minNodes
  if 0 < numNodes then
    let (names, left) := requestLoop st.nodes numNodes.toNat
    let st :=
      if left = 0 then
        match if fault then none else R.create (nodelist names) with
        | none => st.modAlloc s fun a => { a with nodes := some "ERROR" }
        | some r => st.modAlloc s fun a => { a with nodes := some r }
      else st
    st.activateScd (.allocd s)
  else st

/-- The nodes the two nested loops of `scd_base_rm_active` and `_kill` send to, in order. -/
def stepdTargets (ns : List Node) (names : List String) : List Node :=
  names.flatMap fun nm => ns.filter (·.name = nm)

/-- The last node of that name in the array, whose daemon becomes the head node process. -/
def hnpOf (ns : List Node) (nm : String) (old : ProcName) : ProcName :=
  ((ns.filter (·.name = nm)).getLast?.map Node.daemon).getD old

/-- `scd_base_rm_active` (`scd_base_rm.c:148-237`). `sends` of the commands go out before a send
fails (all, when it is at least their number). -/
def scdBaseRmActive (R : Regex) (fault : Bool) (sends : Nat) (st : State) (s : SessionId) :
    Option State :=
  match R.names fault (st.alloc s).nodes with
  | none | some [] => some st
  | some (n0 :: names) =>
    let k := (st.alloc s).minNodes.toNat
    let targets := stepdTargets st.nodes ((n0 :: names).take k)
    -- all names are used up and no send failed: the next `strcmp` reads the `NULL` at the end
    if (n0 :: names).length < k ∧ st.nodes ≠ [] ∧ targets.length ≤ sends then none
    else
      let a := { st.alloc s with hnpname := some n0 }
      let a := if 0 < k then { a with hnp := hnpOf st.nodes n0 a.hnp } else a
      some { st with
        alloc := Function.update st.alloc s a
        tracking :=
        st.tracking ++ [{ allocId := s, countCheckedIn := 0, launched := a, checkedIn := [] }]
        sent := st.sent ++ (targets.map fun n => Sent.mk .launch n.name a).take sends }

/-- `scd_base_rm_kill` (`scd_base_rm.c:239-313`). -/
def scdBaseRmKill (R : Regex) (fault : Bool) (sends : Nat) (st : State) (s : SessionId) :
    Option State :=
  match R.names fault (st.alloc s).nodes with
  | none | some [] => some st
  | some (n0 :: names) =>
    let k := (st.alloc s).minNodes.toNat
    let targets := stepdTargets st.nodes ((n0 :: names).take k)
    if (n0 :: names).length < k ∧ st.nodes ≠ [] ∧ targets.length ≤ sends then none
    else
      some { st with sent := st.sent ++
        (targets.map fun n => Sent.mk .cancel n.name (st.alloc s)).take sends }

/-! ## The receive functions -/

/-- `ORCM_SESSION_REQ_COMMAND` (`scd_base_recv.c:332-367`). -/
def recvSessionReq (st : State) (a : Alloc) : State :=
  let id := st.lastSessionId + 1
  let st :=
    { st with lastSessionId := id, alloc := Function.update st.alloc id { a with id := id } }
  st.activateScd (.init id)

/-- `ORCM_SESSION_CANCEL_COMMAND` (`scd_base_recv.c:426-457`). -/
def recvSessionCancel (st : State) (id : SessionId) : State := st.activateScd (.cancel id)

/-- `ORCM_STEPD_COMPLETE_COMMAND` (`scd_base_rm_recv.c:290-317`): the first tracker of that
allocation counts the message, whoever sent it. The allocation in the event is the message's. -/
def recvStepdComplete (sender : String) (a : Alloc) :
    List Tracker → List Tracker × List ScdEvent
  | [] => ([], [])
  | t :: ts =>
    if t.allocId = a.id then
      let t :=
        { t with countCheckedIn := t.countCheckedIn + 1, checkedIn := t.checkedIn ++ [sender] }
      if (t.countCheckedIn : Int) = a.minNodes then (ts, [.terminated a]) else (t :: ts, [])
    else
      let (ts', es) := recvStepdComplete sender a ts
      (t :: ts', es)

/-- The node update shared by both functions below: a node that comes up leaves `UNDEF` and
`UNKNOWN` for `UNALLOC`. `state` is what the message says, `newstate` what is stored. -/
def Node.setState (state newstate : NodeState) (n : Node) : Node :=
  { n with
    state := newstate
    scdState :=
      if state = .up ∧ (n.scdState = .undef ∨ n.scdState = .unknown) then .unalloc else n.scdState }

/-- The first node that matches is updated (`break`). -/
def updateFirst (p : Node → Bool) (f : Node → Node) : List Node → List Node
  | [] => []
  | n :: ns => if p n then f n :: ns else n :: updateFirst p f ns

/-- `update_nodestate_byproc` (`scd_base_rm_recv.c:357-412`). -/
def updateNodestateByproc (state : NodeState) (procs : List ProcName) (ns : List Node) :
    List Node :=
  procs.foldl (fun ns p => updateFirst (·.daemon = p) (Node.setState state state) ns) ns

/-- `update_nodestate_byname` (`scd_base_rm_recv.c:414-479`). `RESUME` stores `UP`, but `scd_state`
is only looked at when the message itself says `UP`. -/
def updateNodestateByname (state : NodeState) (names : List String) (ns : List Node) : List Node :=
  let newstate := if state = .resume then .up else state
  names.foldl (fun ns nm => updateFirst (·.name = nm) (Node.setState state newstate) ns) ns

inductive Act where
  | sessionReq (a : Alloc)
  | sessionCancel (id : SessionId)
  | stepdComplete (sender : String) (a : Alloc)
  /-- `UP` for one daemon, `DOWN` for a daemon and its dependents. -/
  | nodestateByproc (state : NodeState) (procs : List ProcName)
  /-- `DRAIN` and `RESUME` requests; a regex that cannot be extracted changes nothing. -/
  | nodestateByname (state : NodeState) (regexp : Option String) (fault : Bool)
  /-- A pending scheduler event is handled; `fault`: the regex call in its handler fails. -/
  | scd (e : ScdEvent) (fault : Bool)
  /-- A pending resource-manager event is handled. -/
  | rm (e : RmEvent) (fault : Bool) (sends : Nat)
deriving DecidableEq, Repr

def handleScd (R : Regex) (fault : Bool) (st : State) : ScdEvent → Option State
  | .init s => some (pmfFindQueue st s)
  | .schedule => some (pmfSchedule st)
  | .allocd s => pmfAllocated R fault st s
  | .terminated a => some (pmfTerminated R fault st a)
  | .cancel id => some (pmfCancel st id)

def handleRm (R : Regex) (fault : Bool) (sends : Nat) (st : State) : RmEvent → Option State
  | .req s => some (scdBaseRmRequest R fault st s)
  | .active s => scdBaseRmActive R fault sends st s
  | .kill s => scdBaseRmKill R fault sends st s

/-- One step of the scheduler process. -/
def step (R : Regex) (st : State) : Act → Option State
  | .sessionReq a => some (recvSessionReq st a)
  | .sessionCancel id => some (recvSessionCancel st id)
  | .stepdComplete sender a =>
    let (ts, es) := recvStepdComplete sender a st.tracking
    some { st with tracking := ts, scd := st.scd ++ es }
  | .nodestateByproc x ps => some { st with nodes := updateNodestateByproc x ps st.nodes }
  | .nodestateByname x r fault =>
    match R.names fault r with
    | none => some st
    | some names => some { st with nodes := updateNodestateByname x names st.nodes }
  | .scd e fault =>
    if e ∈ st.scd then handleScd R fault { st with scd := st.scd.erase e } e else none
  | .rm e fault sends =>
    if e ∈ st.rm then handleRm R fault sends { st with rm := st.rm.erase e } e else none

/-- The scheduler events handled in a list of actions, in order. -/
def handled (acts : List Act) : List ScdEvent :=
  acts.filterMap fun
    | .scd e _ => some e
    | _ => none

/-- Empty queues, nothing pending, nothing tracked, no session yet. -/
structure Fresh (st : State) : Prop where
  running  : st.running = []
  hold     : st.hold = []
  default  : st.default = []
  scd      : st.scd = []
  rm       : st.rm = []
  tracking : st.tracking = []
  lastId   : st.lastSessionId = 0

end Sensys.Scd
