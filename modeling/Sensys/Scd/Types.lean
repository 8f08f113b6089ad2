import Mathlib.Data.List.Basic
import Mathlib.Logic.Function.Basic
/-!
# The scheduler's state (`orcm/mca/scd`)

| here | there |
| --- | --- |
| `NodeState`, `ScdNodeState` | `ORCM_NODE_STATE_*` (`orcm/runtime/orcm_globals.h:67-73`), `ORCM_SCD_NODE_STATE_*` (`scd_types.h:134-138`) |
| `Node` | the part of `orcm_node_t` the scheduler reads and writes; `State.nodes` is the non-`NULL` part of `orcm_scd_base.nodes`, in index order |
| `Alloc` | the part of `orcm_alloc_t` the handlers read or write; `nodes = none` is the `NULL` pointer |
| `Tracker` | `orcm_alloc_tracker_t` (`base.h:46-50`) |
| `ScdEvent` | events on `orcm_scd_base.ev_base` (`scd_base_fns.c:29-95`) |
| `RmEvent` | events on `orte_event_base` (`scd_base_rm_fns.c:14-78`) |
| `State.running`, `.hold`, `.default` | the three queues of `orcm_scd_base_construct_queues` (`scd_base_fns.c:127-151`) |

A session object is named by its id, and `State.alloc` is the heap of session allocations:
the queues and the events hold pointers, so a write to `session->alloc` is seen through all
of them. Ids come from a counter (`orcm_scd_base_get_next_session_id`); its wrap at `2^32`
is left out, so ids are distinct. The two event bases run in two threads, so any pending event
of either may be handled next; the lists `scd` and `rm` only say what is pending.
-/
namespace Sensys.Scd

inductive NodeState where
  | undef | unknown | up | down | sesterm | drain | resume
deriving DecidableEq, Repr

inductive ScdNodeState where
  | undef | unknown | unalloc | alloc | exclusive
deriving DecidableEq, Repr

/-- `orte_process_name_t`. -/
structure ProcName where
  jobid : Nat
  vpid  : Nat
deriving DecidableEq, Repr

structure Node where
  name     : String
  daemon   : ProcName
  state    : NodeState
  scdState : ScdNodeState
deriving DecidableEq, Repr

abbrev SessionId := Nat

structure Alloc where
  id       : SessionId
  minNodes : Int
  /-- The node regex; a client may already have set it. -/
  nodes    : Option String := none
  queues   : Option String := none
  notes    : Option String := none
  hnpname  : Option String := none
  hnp      : ProcName := ⟨0, 0⟩
deriving DecidableEq, Repr

structure Tracker where
  allocId        : SessionId
  countCheckedIn : Nat
  /-- History, not in the source: the launched allocation, and the nodes whose message was
  counted here. -/
  launched       : Alloc
  checkedIn      : List String
deriving DecidableEq, Repr

inductive ScdEvent where
  | init (s : SessionId)
  | schedule
  | allocd (s : SessionId)
  /-- Carries the allocation unpacked from the last `STEPD_COMPLETE` message. -/
  | terminated (a : Alloc)
  | cancel (id : SessionId)
deriving DecidableEq, Repr

inductive RmEvent where
  | req (s : SessionId)
  | active (s : SessionId)
  | kill (s : SessionId)
deriving DecidableEq, Repr

/-- `ORCM_LAUNCH_STEPD_COMMAND`, `ORCM_CANCEL_STEPD_COMMAND` (`orcm_globals.h:83-84`). -/
inductive StepdCmd where
  | launch | cancel
deriving DecidableEq, Repr

/-- A command handed to `orte_rml.send_buffer_nb` for a node's daemon. -/
structure Sent where
  cmd   : StepdCmd
  node  : String
  alloc : Alloc
deriving DecidableEq, Repr

structure State where
  nodes         : List Node
  running       : List SessionId := []
  hold          : List SessionId := []
  default       : List SessionId := []
  alloc         : SessionId → Alloc := fun s => ⟨s, 0, none, none, none, none, ⟨0, 0⟩⟩
  scd           : List ScdEvent := []
  rm            : List RmEvent := []
  tracking      : List Tracker := []
  lastSessionId : Nat := 0
  sent          : List Sent := []

/-- The two node-regex functions, as far as the scheduler sees them: `none` is an error
return. What the two do to a name is not the scheduler's business, so they are parameters. -/
structure Regex where
  create  : String → Option String
  extract : String → Option (List String)

/-- `orte_regex_extract_node_names` on a possibly `NULL` regex (`regex.c:301-304`). With `fault`
the call fails in this step (out of memory), whatever the regex. -/
def Regex.names (R : Regex) (fault : Bool) : Option String → Option (List String)
  | none => some []
  | some r => if fault then none else R.extract r

/-- The comma-separated list the request handler builds with `asprintf`. -/
def nodelist (names : List String) : String := ",".intercalate names

/-- `UNALLOC` and `UP`: the test of `pmf_schedule` and `scd_base_rm_request`. -/
def Node.free (n : Node) : Bool := n.scdState == .unalloc && n.state == .up

def freeNodes (ns : List Node) : List Node := ns.filter Node.free

/-- Write to a session's allocation through the session pointer. -/
def State.modAlloc (st : State) (s : SessionId) (f : Alloc → Alloc) : State :=
  { st with alloc := Function.update st.alloc s (f (st.alloc s)) }

/-- `ORCM_ACTIVATE_SCD_STATE`. -/
def State.activateScd (st : State) (e : ScdEvent) : State := { st with scd := st.scd ++ [e] }

/-- `ORCM_ACTIVATE_RM_STATE`. -/
def State.activateRm (st : State) (e : RmEvent) : State := { st with rm := st.rm ++ [e] }

/-- The inner loop of the node updates: every node of that name gets the state. -/
def setScdState (x : ScdNodeState) (ns : List Node) (nm : String) : List Node :=
  ns.map fun n => if n.name = nm then { n with scdState := x } else n

/-- The two nested loops `for i < num_nodes, for j < nodes.size` (`scd_pmf.c:305-315`,
`:379-389`). -/
def markNodes (x : ScdNodeState) (names : List String) (ns : List Node) : List Node :=
  names.foldl (setScdState x) ns

theorem markNodes_eq_map (x : ScdNodeState) (names : List String) (ns : List Node) :
    markNodes x names ns = ns.map fun n =>
      if n.name ∈ names then { n with scdState := x } else n := by
  induction names generalizing ns with
  | nil => simp [markNodes]
  | cons nm names ih =>
    have h : markNodes x (nm :: names) ns = markNodes x names (setScdState x ns nm) := rfl
    rw [h, ih, setScdState, List.map_map]
    apply List.map_congr_left
    intro n _
    by_cases h1 : n.name = nm <;> by_cases h2 : n.name ∈ names <;> simp [h1, h2]

end Sensys.Scd
