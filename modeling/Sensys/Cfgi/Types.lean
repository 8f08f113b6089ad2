/-!
# The parsed system (`orcm/mca/cfgi/cfgi_types.h:42-108`)

| here | there |
| --- | --- |
| `ProcName` | `orte_process_name_t`; `none` is `ORTE_NAME_INVALID` |
| `Config` | `orcm_config_t` |
| `Node` | `orcm_node_t`, a compute node or a controller |
| `Rack`, `Row`, `Cluster`, `Scheduler` | `orcm_rack_t`, `orcm_row_t`, `orcm_cluster_t`, `orcm_scheduler_t` |

A text is `none` where the source has `NULL`. The pointers from an element to the one around it,
`npes` and `topology` are left out. `Place` is an element of the system that may be a process,
with the controllers around it; `places` are those of a system, in the order in which
`define_system` visits them.
-/
namespace Sensys.Cfgi.Topology

structure ProcName where
  jobid : Nat
  vpid  : Nat
deriving DecidableEq, Repr

structure Config where
  mcaParams  : List (List Char)
  env        : List (List Char)
  port       : Option (List Char)
  aggregator : Bool
deriving DecidableEq, Repr

structure Node where
  name     : Option (List Char)
  daemon   : Option ProcName
  config   : Config
  state    : Int8
  scdState : Int8
deriving DecidableEq, Repr

/-- `ORTE_NODE_STATE_UNDEF`, which `ORCM_NODE_STATE_UNDEF` is as well. -/
def stateUndef : Int8 := 0

/-- `ORTE_NODE_STATE_UNKNOWN`. -/
def stateUnknown : Int8 := 1

/-- The state of a controller that is there is set when it is parsed. -/
def Node.present (n : Node) : Bool := n.state ≠ stateUndef

structure Rack where
  name       : Option (List Char)
  controller : Node
  nodes      : List Node
deriving DecidableEq, Repr

structure Row where
  name       : Option (List Char)
  controller : Node
  racks      : List Rack
deriving DecidableEq, Repr

structure Cluster where
  name       : Option (List Char)
  controller : Node
  rows       : List Row
deriving DecidableEq, Repr

structure Scheduler where
  controller : Node
  queues     : List (List Char)
deriving DecidableEq, Repr

/-- `orcm_schedulers` and `orcm_clusters`. -/
structure System where
  schedulers : List Scheduler
  clusters   : List Cluster
deriving DecidableEq, Repr

inductive Role where
  | scheduler
  | controller
  | node
deriving DecidableEq, Repr

structure Place where
  role  : Role
  node  : Node
  /-- The controllers around it, the nearest first, present or not. -/
  above : List Node
deriving DecidableEq, Repr

/-- Controllers need not be there. -/
def Place.counted (p : Place) : Bool := p.role ≠ .controller || p.node.present

def Rack.places (above : List Node) (r : Rack) : List Place :=
  ⟨.controller, r.controller, above⟩ :: r.nodes.map fun n => ⟨.node, n, r.controller :: above⟩

def Row.places (above : List Node) (r : Row) : List Place :=
  ⟨.controller, r.controller, above⟩ ::
    r.racks.reverse.flatMap (Rack.places (r.controller :: above))

def Cluster.places (c : Cluster) : List Place :=
  ⟨.controller, c.controller, []⟩ :: c.rows.reverse.flatMap (Row.places [c.controller])

def System.places (s : System) : List Place :=
  s.schedulers.map (fun d => ⟨.scheduler, d.controller, []⟩) ++ s.clusters.flatMap Cluster.places

/-- The processes of a system. -/
def System.processes (s : System) : List Place := s.places.filter Place.counted

def Node.erase (n : Node) : Node := { n with daemon := none }

def Rack.erase (r : Rack) : Rack :=
  { r with controller := r.controller.erase, nodes := r.nodes.map Node.erase }

def Row.erase (r : Row) : Row :=
  { r with controller := r.controller.erase, racks := r.racks.map Rack.erase }

def Cluster.erase (c : Cluster) : Cluster :=
  { c with controller := c.controller.erase, rows := c.rows.map Row.erase }

def Scheduler.erase (d : Scheduler) : Scheduler := { d with controller := d.controller.erase }

def System.erase (s : System) : System :=
  ⟨s.schedulers.map Scheduler.erase, s.clusters.map Cluster.erase⟩

def Place.erase (p : Place) : Place := ⟨p.role, p.node.erase, p.above.map Node.erase⟩

/-- A system as parsing leaves it: nothing has a process name. -/
structure Parsed where
  system : System
  fresh  : ∀ p ∈ system.places, p.node.daemon = none

end Sensys.Cfgi.Topology
