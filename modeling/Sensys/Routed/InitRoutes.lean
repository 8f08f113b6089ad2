import Sensys.Cfgi.DefineSystem
/-!
# Routes between the daemons (`orte/mca/routed/orcm/routed_orcm.c:135-562`)

| here | there |
| --- | --- |
| `Child`, `Routes` | `orte_routed_tree_t`, `my_children` and `ORTE_PROC_MY_PARENT` |
| `addDirect`, `addIndirect` | a new child, and a bit in the relatives of the last one |
| `initNode`, `initRack`, `initRow` | the bodies of the three nested loops of `init_routes` (`:310-542`) |
| `initRoutes` | `:220-562` |
| `getRoute` | `:135-218` |

What is unpacked is what `defineSystem` packs. `sched_name` is read even if no scheduler was
unpacked; `leftover` is what it holds then. `child` is the last one that was added, and
`my_children` is empty before. A name that is invalid is `none`. The lifeline and the output are
left out.
-/
namespace Sensys.Routed
open Cfgi.Topology

structure Child where
  vpid      : Option Nat
  /-- The bits that are set. -/
  relatives : List Nat
deriving DecidableEq, Repr

structure Routes where
  parent   : Option ProcName
  children : List Child
deriving DecidableEq, Repr

/-- `opal_dss.unpack` fails, or `child` is `NULL`. -/
inductive RouteError where
  | unpack
  | nullChild
deriving DecidableEq, Repr

def vpid (n : Option ProcName) : Option Nat := n.map ProcName.vpid

def addDirect (n : Option ProcName) (r : Routes) : Routes :=
  { r with children := r.children ++ [⟨vpid n, []⟩] }

def addIndirect (n : Option ProcName) (r : Routes) : Except RouteError Routes :=
  match r.children.getLast? with
  | none => .error .nullChild
  | some c =>
    .ok { r with children := r.children.dropLast ++
    [{ c with relatives := c.relatives ++ (vpid n).toList }] }

/-- What is known when the rows are unpacked. -/
structure Known where
  me         : ProcName
  sched      : Option ProcName
  iAmSched   : Bool
  cluster    : Option ProcName
  iAmCluster : Bool

section
variable (k : Known)

def initNode (row rack : Option ProcName) (iAmRow iAmRack : Bool) (r : Routes)
    (n : Option ProcName) : Except RouteError Routes :=
  let added : Except RouteError Routes :=
    if iAmRack || (iAmRow && !rack.isSome) || (k.iAmCluster && !row.isSome && !rack.isSome) ||
        (k.iAmSched && !k.cluster.isSome && !row.isSome && !rack.isSome) then .ok (addDirect n r)
    else if iAmRow || k.iAmCluster || k.iAmSched then addIndirect n r
    else .ok r
  added.map fun r =>
    if n = some k.me then
      { r with parent := rack.or (row.or (k.cluster.or (k.sched.or (some k.me)))) } else r

/-- The names up to the end of the buffer. -/
def initNodes (row rack : Option ProcName) (iAmRow iAmRack : Bool) (r : Routes)
    (items : List Item) : Except RouteError Routes :=
  items.foldlM
    (fun r item =>
      match item with
      | .name n => initNode k row rack iAmRow iAmRack r n
      | _ => .error .unpack)
    r

def initRack (row : Option ProcName) (iAmRow : Bool) (r : Routes) (items : List Item) :
    Except RouteError Routes :=
  match items with
  | .name rack :: nodes =>
    let added : Except RouteError Routes :=
      if rack.isSome then
        if iAmRow || (k.iAmCluster && !row.isSome) ||
          (k.iAmSched && !k.cluster.isSome && !row.isSome) then .ok (addDirect rack r)
        else if k.iAmCluster || k.iAmSched then addIndirect rack r
        else .ok r
      else .ok r
    added.bind fun r =>
      let r :=
        if rack = some k.me then { r with parent := row.or (k.cluster.or (k.sched.or (some k.me))) }
        else r
      initNodes k row rack iAmRow (rack = some k.me) r nodes
  | _ => .error .unpack

def initRacks (row : Option ProcName) (iAmRow : Bool) :
    Nat → Routes → List Item → Except RouteError Routes
  | 0, r, _ => .ok r
  | n + 1, r, .buf rack :: rest => (initRack k row iAmRow r rack).bind fun r =>
    initRacks row iAmRow n r rest
  | _ + 1, _, _ => .error .unpack

def initRow (r : Routes) (items : List Item) : Except RouteError Routes :=
  match items with
  | .int nracks :: .name row :: racks =>
    let added : Except RouteError Routes :=
      if row.isSome then
        if k.iAmSched && k.cluster.isSome then addIndirect row r
        else if k.iAmCluster || (!k.cluster.isSome && k.iAmSched) then .ok (addDirect row r)
        else .ok r
      else .ok r
    added.bind fun r =>
      let r :=
        if row = some k.me then { r with parent := k.cluster.or (k.sched.or (some k.me)) } else r
      initRacks k row (row = some k.me) nracks r racks
  | _ => .error .unpack

def initRows : Nat → Routes → List Item → Except RouteError Routes
  | 0, r, _ => .ok r
  | n + 1, r, .buf row :: rest => (initRow k r row).bind fun r => initRows n r rest
  | _ + 1, _, _ => .error .unpack

end

/-- The cluster and its rows, once the scheduler is known. -/
def initCluster (me : ProcName) (sched : Option ProcName) (iAmSched : Bool)
    (parent : Option ProcName) (items : List Item) :
    Except RouteError Routes :=
  match items with
  | .name cluster :: .int nrows :: rows =>
    let r : Routes := ⟨parent, []⟩
    let r := if cluster.isSome && iAmSched then addDirect cluster r else r
    let iAmCluster : Bool := !iAmSched && cluster = some me
    let r := if iAmCluster && sched.isSome then { r with parent := sched } else r
    initRows ⟨me, sched, iAmSched, cluster, iAmCluster⟩ nrows r rows
  | _ => .error .unpack

/-- `init_routes` of a process that is no tool; `parent` is `ORTE_PROC_MY_PARENT` before. -/
def initRoutes (me : ProcName) (leftover parent : Option ProcName) (ndat : List Item) :
    Except RouteError Routes :=
  match ndat with
  | .buf (.name (some sched) :: _) :: rest => initCluster me (some sched) (sched = me) parent rest
  -- nothing to unpack: `sched_name` is what it was
  | .buf [] :: rest => initCluster me none (leftover = some me) parent rest
  -- the name is invalid and `rc` is `OPAL_SUCCESS`, which is returned
  | .buf (.name none :: _) :: _ => .ok ⟨parent, []⟩
  | _ => .error .unpack

/-! ## The next hop -/

inductive DaemonType where
  | tool
  | scheduler
  | daemon
  | aggregator
deriving DecidableEq, Repr

structure Daemon where
  me             : ProcName
  type           : DaemonType
  /-- `orte_routing_is_enabled`. -/
  routingEnabled : Bool
  /-- `ORTE_PROC_MY_SCHEDULER`. -/
  myScheduler    : Option ProcName
  routes         : Routes
deriving DecidableEq, Repr

/-- A name with the own job; `none` if the number is invalid. -/
def Daemon.sibling (d : Daemon) (v : Option Nat) : Option ProcName := v.map fun v => ⟨d.me.jobid, v⟩

def getRoute (d : Daemon) (target : ProcName) : Option ProcName :=
  if d.type = .tool then
    if target.jobid = 0 then d.myScheduler else some target
  else if !d.routingEnabled then some target
  else if target = d.me then some target
  else if target.jobid ≠ d.me.jobid ∧ d.type = .scheduler then some target
  else if d.type = .daemon then d.sibling (vpid d.routes.parent)
  else
    match d.routes.children.find? (fun c => c.vpid = some target.vpid || target.vpid ∈ c.relatives) with
    | some c => if c.vpid = some target.vpid then some target else d.sibling c.vpid
    | none => d.sibling (vpid d.routes.parent)

/-! ## Messages for another job -/

/-- The child at which the search stops. The job of the target is not looked at. -/
def childFor (d : Daemon) (target : ProcName) : Option Child :=
  d.routes.children.find? fun c => c.vpid = some target.vpid || target.vpid ∈ c.relatives

/-- **Another job is reached through the parent** exactly if there is no child for the number of
the target, or the target is below that child and the child has the number of the parent. -/
theorem getRoute_otherJob_iff (d : Daemon) (target : ProcName) (hrouting : d.routingEnabled = true)
    (htype : d.type = .daemon ∨ d.type = .aggregator) (hjob : target.jobid ≠ d.me.jobid) :
    getRoute d target = d.sibling (vpid d.routes.parent) ↔
      (d.type = .aggregator → ∀ c, childFor d target = some c →
      c.vpid ≠ some target.vpid ∧ c.vpid = vpid d.routes.parent) := by
  have hme : target ≠ d.me := fun h => hjob (congrArg ProcName.jobid h)
  have hinj : ∀ v, d.sibling v = d.sibling (vpid d.routes.parent) ↔ v = vpid d.routes.parent := by
    refine fun v => ⟨fun h => Option.map_injective ?_ h, fun h => h ▸ rfl⟩
    exact fun a b hab => congrArg ProcName.vpid hab
  have ho : ∀ v, d.sibling v ≠ some target := by
    rintro v h
    obtain ⟨w, -, hw⟩ := Option.map_eq_some_iff.1 h
    exact hjob (by rw [← hw])
  rcases htype with htype | htype
  · simp [getRoute, htype, hrouting, hme]
  · rw [getRoute, if_neg (by simp [htype]), if_neg (by simp [hrouting]), if_neg hme,
      if_neg (by simp [htype]), if_neg (by simp [htype])]
    change (match childFor d target with | some c => _ | none => _) = _ ↔ _
    cases childFor d target with
    | none => simp
    | some c =>
      dsimp only
      split
      · rename_i heq
        simp [htype, heq, (ho _).symm]
      · rename_i hne
        simp [htype, hne, hinj]

/-- No child is for the process 3 of the job 7. -/
theorem getRoute_otherJob_iff_free :
    getRoute ⟨⟨0, 1⟩, .aggregator, true, none, some ⟨0, 0⟩, [⟨some 2, []⟩]⟩ ⟨7, 3⟩ = some ⟨0, 0⟩ :=
  (getRoute_otherJob_iff ⟨⟨0, 1⟩, .aggregator, true, none, some ⟨0, 0⟩, [⟨some 2, []⟩]⟩ ⟨7, 3⟩ rfl
    (Or.inr rfl) (by decide)).2
    (by decide)

/-- It is sent to the child that has the process 3 of the own job below it. -/
theorem otherJob_sent_down :
    getRoute ⟨⟨0, 1⟩, .aggregator, true, none, some ⟨0, 0⟩, [⟨some 2, [3]⟩]⟩ ⟨7, 3⟩ =
      some ⟨0, 2⟩ := by
  decide

end Sensys.Routed
