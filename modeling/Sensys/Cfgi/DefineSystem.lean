import Sensys.Lib.Lists
import Sensys.Cfgi.Types
/-!
# Process names (`orcm/mca/cfgi/file30/cfgi_file30.c:457-768,1369-1408`)

| here | there |
| --- | --- |
| `checkMe` | `:1369-1408` |
| `defineNode`, `defineRack`, `defineRow`, `defineCluster` | the bodies of the four nested loops of `define_system` (`:571-746`) |
| `defineScheduler` | the body of the loop over the schedulers (`:538-555`) |
| `Host.constructUri` | `orcm_util_construct_uri` (`orcm/util/utils.c:49-98`): whether it gets through |
| `defineSystem` | `:531-768`, once the clusters and schedulers are parsed |

Rows and racks are visited from the last to the first (`OPAL_LIST_FOREACH_REV`). What is packed is
a list of items, a buffer among them if one was packed. The process is found at most once. Of
`orte_process_info` the name, the daemon (`ORTE_PROC_MY_DAEMON`) and whether the type became
`ORCM_AGGREGATOR` are kept. `ORTE_PROC_MY_HNP` is read from the end of the list of schedulers
(`myHnp`). Of the URIs, which nothing here reads, only that they can be built is kept
(`Defined.returns`): the process dies where a port is missing. The environment is left out, and
the wrap of process numbers at 2^32.
-/
namespace Sensys.Cfgi.Topology
open Lists

/-- What `opal_dss.pack` puts into a buffer. -/
inductive Item where
  | name (n : Option ProcName)
  | int (n : Nat)
  | buf (items : List Item)
deriving Repr

/-- The process that defines the system: `ORTE_PROC_IS_SCHEDULER`, `ORTE_PROC_IS_DAEMON`, or
neither. -/
inductive ProcType where
  | scheduler
  | daemon
  | other
deriving DecidableEq, Repr

structure Host where
  type       : ProcType
  jobid      : Nat
  nodename   : Option (List Char)
  /-- `orcm_cfgi_base.port_number`. -/
  portNumber : Option (List Char)
  /-- `get_node_ip`; every process that was parsed has a name. -/
  nodeIp     : Option (List Char) → List Char
  /-- `opal_ifislocal`, `opal_net_isaddr` or `gethostbyname` know the name. -/
  resolves   : List Char → Bool

structure Proc where
  name       : Option ProcName
  daemon     : Option ProcName
  aggregator : Bool
deriving DecidableEq, Repr

/-- `vpid`, `found_me`, `*mynode` and the process. -/
structure Defining where
  vpid   : Nat
  found  : Bool
  mynode : Option Node
  proc   : Proc
deriving DecidableEq, Repr

section
variable (h : Host)

/-- The host is the same, and the ports are if both are given. -/
def Host.isMe (n : Node) : Bool :=
  h.nodeIp n.name = h.nodeIp h.nodename &&
    !(h.portNumber.isSome && n.config.port.isSome && h.portNumber ≠ n.config.port)

/-- `check_me`, and what is set if it finds the process; `daemon` is what `ORTE_PROC_MY_DAEMON`
becomes. -/
def checkMe (n : Node) (daemon : ProcName → Option ProcName) (s : Defining) : Defining :=
  if h.isMe n then
    { s with
      found := true
      mynode := some { n with daemon := some ⟨0, s.vpid⟩ }
      proc := ⟨some ⟨h.jobid, s.vpid⟩, daemon ⟨h.jobid, s.vpid⟩, s.proc.aggregator ||
      n.config.aggregator⟩ }
  else s

/-- Only a name that cannot be resolved makes it return before `atoi` reads the port. -/
def Host.constructUri (n : Node) : Bool :=
  match n.name, h.nodename with
  | some name, some nodename =>
    n.config.port.isSome || !(name = nodename || name = "localhost".toList || h.resolves name)
  | _, _ => false

/-- The name of a process, and the search for the own one among those of its type. -/
def assign (type : ProcType) (n : Node) (daemon : ProcName → Option ProcName) (s : Defining) :
    Defining × Node :=
  let s' := if !s.found && h.type = type then checkMe h n daemon s else s
  ({ s' with vpid := s.vpid + 1 }, { n with daemon := some ⟨0, s.vpid⟩ })

/-- A controller gets a name if it is there. -/
def assignController (n : Node) (daemon : ProcName → Option ProcName) (s : Defining) :
    Defining × Node :=
  if n.present then assign h .daemon n daemon s else (s, n)

/-- A scheduler that finds itself leaves `ORTE_PROC_MY_DAEMON` as it is. -/
def defineScheduler (s : Defining) (d : Scheduler) : Defining × Scheduler :=
  let r := assign h .scheduler d.controller (fun _ => s.proc.daemon) s
  (r.1, { d with controller := r.2 })

def nodeDaemon (cluster row rack : Node) (me : ProcName) : Option ProcName :=
  if rack.present then rack.daemon
  else if row.present then row.daemon
  else if cluster.present then cluster.daemon
  else some me

def rackDaemon (cluster row : Node) (me : ProcName) : Option ProcName :=
  if row.present then row.daemon
  else if cluster.present then cluster.daemon
  else some me

def rowDaemon (cluster : Node) (me : ProcName) : Option ProcName :=
  if cluster.present then cluster.daemon else some me

def defineNode (cluster row rack : Node) (s : Defining) (n : Node) : Defining × Node :=
  assign h .daemon n (nodeDaemon cluster row rack) s

def defineRack (cluster row : Node) (s : Defining) (r : Rack) : Defining × Rack :=
  let c := assignController h r.controller (rackDaemon cluster row) s
  let ns := mapAccum (defineNode h cluster row c.2) c.1 r.nodes
  (ns.1, { r with controller := c.2, nodes := ns.2 })

def defineRow (cluster : Node) (s : Defining) (r : Row) : Defining × Row :=
  let c := assignController h r.controller (rowDaemon cluster) s
  let rs := mapAccum (defineRack h cluster c.2) c.1 r.racks.reverse
  (rs.1, { r with controller := c.2, racks := rs.2.reverse })

def defineCluster (s : Defining) (c : Cluster) : Defining × Cluster :=
  let d := assignController h c.controller some s
  let rs := mapAccum (defineRow h d.2) d.1 c.rows.reverse
  (rs.1, { c with controller := d.2, rows := rs.2.reverse })

end

def Rack.pack (r : Rack) : Item :=
  .buf (.name r.controller.daemon :: r.nodes.map fun n => .name n.daemon)

def Row.pack (r : Row) : Item :=
  .buf (.int r.racks.length :: .name r.controller.daemon :: r.racks.reverse.map Rack.pack)

def Cluster.pack (c : Cluster) : List Item :=
  .name c.controller.daemon :: .int c.rows.length :: c.rows.reverse.map Row.pack

/-- `clusterbuf`. -/
def System.pack (s : System) : List Item :=
  .buf (s.schedulers.map fun d => .name d.controller.daemon) :: s.clusters.flatMap Cluster.pack

structure Defined where
  system   : System
  numProcs : Nat
  mynode   : Option Node
  proc     : Proc
  buf      : List Item
  /-- The process has not died while the URIs were built. -/
  returns  : Bool

/-- A URI is built for a scheduler, and for a controller that is an aggregator. -/
def Place.hasUri (p : Place) : Bool :=
  p.role = .scheduler || p.role = .controller && p.node.present && p.node.config.aggregator

def defineSystem (h : Host) (p : Proc) (s : System) : Defined :=
  let ss := mapAccum (defineScheduler h) ⟨0, false, none, p⟩ s.schedulers
  -- without a scheduler the number 0 is left for `orun`
  let start := if s.schedulers.isEmpty then { ss.1 with vpid := 1 } else ss.1
  let cs := mapAccum (defineCluster h) start s.clusters
  let system : System := ⟨ss.2, cs.2⟩
  ⟨system, cs.1.vpid, cs.1.mynode, cs.1.proc, system.pack,
    system.places.all fun q => !q.hasUri || h.constructUri q.node⟩

end Sensys.Cfgi.Topology
