import Sensys.Cfgi.Types
import Sensys.Opal.Dss
/-!
# Packing, unpacking and comparing the parsed system (`orcm/mca/cfgi/base/cfgi_dt_fns.c:26-759,864-914`)

| here | there |
| --- | --- |
| `Dss` | packing and unpacking of a primitive with `opal_dss_pack_buffer` and `opal_dss_unpack_buffer`, the type included |
| `packConfig`, `unpackConfig` | `pack_config`, `unpack_config` (`:26-63,288-333`) |
| `packNode`, `unpackNode` | `orcm_pack_node`, `orcm_unpack_node` (`:65-104,336-384`), one element |
| `packRack` .. `unpackCluster` | the same for racks, rows and clusters |
| `packScheduler`, `unpackSchedulers` | `orcm_pack_scheduler`, `orcm_unpack_scheduler` (`:239-282,566-619`) |
| `Payload` | the array that is packed, and its type |
| `compareNode`, `compareScheduler` | `orcm_compare_node`, `orcm_compare_scheduler` (`:623-759,864-914`) |

Sizes of lists are numbers, which an `int32_t` is taken to hold. The argument arrays are lists:
one that is `NULL` is one without elements. What an object holds before it is filled is what its
constructor puts there.
-/
namespace Sensys.Cfgi.Topology

inductive DtType where
  | node
  | rack
  | row
  | cluster
  | scheduler
deriving DecidableEq, Repr

inductive UnpackError where
  | dss (code : Int)
  | outOfResource
  /-- A string in an argument array is `NULL`. -/
  | nullString
deriving DecidableEq, Repr

/-- With the names of processes. -/
structure Dss (β : Type) extends Opal.Dss β UnpackError where
  name : Codec β UnpackError (Option ProcName)
  /-- The description of a type in front of its value, if the buffer has any. -/
  type : DtType → Codec β UnpackError Unit

section
variable {β : Type} (d : Dss β)

def packArgv (l : List (List Char)) : List β := d.count.write l.length ++ l.flatMap d.text.write

def packConfig (c : Config) : List β :=
  packArgv d c.mcaParams ++
    (packArgv d c.env ++ (d.string.write c.port ++ d.bool.write c.aggregator))

def packNode (n : Node) : List β :=
  d.string.write n.name ++
    (d.name.write n.daemon ++
    (packConfig d n.config ++ (d.int8.write n.state ++ d.int8.write n.scdState)))

/-- An element inside another one. -/
def packAs {α : Type} (t : DtType) (pack : α → List β) (a : α) : List β :=
  (d.type t).write () ++ pack a

/-- A rack, row or cluster: the name, the controller and what is inside. -/
def packGroup {α : Type} (t : DtType) (pack : α → List β) (name : Option (List Char))
    (controller : Node) (inside : List α) : List β :=
  d.string.write name ++ (packAs d .node (packNode d) controller ++
    (d.count.write inside.length ++ inside.flatMap (packAs d t pack)))

def packRack (r : Rack) : List β := packGroup d .node (packNode d) r.name r.controller r.nodes

def packRow (r : Row) : List β := packGroup d .rack (packRack d) r.name r.controller r.racks

def packCluster (c : Cluster) : List β := packGroup d .row (packRow d) c.name c.controller c.rows

def packScheduler (s : Scheduler) : List β :=
  packAs d .node (packNode d) s.controller ++ packArgv d s.queues

def unpackArgv : Reader β UnpackError (List (List Char)) := do
  let k ← d.count.read
  readN d.text.read k.toNat

def unpackConfig : Reader β UnpackError Config := do
  let mcaParams ← unpackArgv d
  let env ← unpackArgv d
  let port ← d.string.read
  let aggregator ← d.bool.read
  pure ⟨mcaParams, env, port, aggregator⟩

def unpackNode : Reader β UnpackError Node := do
  let name ← d.string.read
  let daemon ← d.name.read
  let config ← unpackConfig d
  let state ← d.int8.read
  let scdState ← d.int8.read
  pure ⟨name, daemon, config, state, scdState⟩

def unpackAs {α : Type} (t : DtType) (unpack : Reader β UnpackError α) : Reader β UnpackError α :=
  do
  (d.type t).read
  unpack

def unpackGroup {α γ : Type} (t : DtType) (unpack : Reader β UnpackError α)
    (make : Option (List Char) → Node → List α → γ) :
    Reader β UnpackError γ := do
  let name ← d.string.read
  let controller ← unpackAs d .node (unpackNode d)
  let j ← d.count.read
  let inside ← readN (unpackAs d t unpack) j.toNat
  pure (make name controller inside)

def unpackRack : Reader β UnpackError Rack := unpackGroup d .node (unpackNode d) Rack.mk

def unpackRow : Reader β UnpackError Row := unpackGroup d .rack (unpackRack d) Row.mk

def unpackCluster : Reader β UnpackError Cluster := unpackGroup d .row (unpackRow d) Cluster.mk

/-- The constructors. -/
def freshNode : Node := ⟨none, none, ⟨[], [], none, false⟩, stateUndef, 0⟩

def freshScheduler : Scheduler := ⟨freshNode, []⟩

/-- All the objects are made first, and the contents unpacked into the last one. -/
def unpackSchedulers : Nat → Reader β UnpackError (List Scheduler)
  | 0 => throw .outOfResource
  | n + 1 => do
    let controller ← unpackAs d .node (unpackNode d)
    let queues ← unpackArgv d
    pure (List.replicate n freshScheduler ++ [⟨controller, queues⟩])

inductive Payload where
  | nodes (l : List Node)
  | racks (l : List Rack)
  | rows (l : List Row)
  | clusters (l : List Cluster)
  | schedulers (l : List Scheduler)
deriving DecidableEq, Repr

def Payload.type : Payload → DtType
  | .nodes _ => .node
  | .racks _ => .rack
  | .rows _ => .row
  | .clusters _ => .cluster
  | .schedulers _ => .scheduler

def Payload.length : Payload → Nat
  | .nodes l => l.length
  | .racks l => l.length
  | .rows l => l.length
  | .clusters l => l.length
  | .schedulers l => l.length

def Payload.pack : Payload → List β
  | .nodes l => l.flatMap (packNode d)
  | .racks l => l.flatMap (packRack d)
  | .rows l => l.flatMap (packRow d)
  | .clusters l => l.flatMap (packCluster d)
  | .schedulers l => l.flatMap (packScheduler d)

def unpack (n : Nat) : DtType → Reader β UnpackError Payload
  | .node => do pure (.nodes (← readN (unpackNode d) n))
  | .rack => do pure (.racks (← readN (unpackRack d) n))
  | .row => do pure (.rows (← readN (unpackRow d) n))
  | .cluster => do pure (.clusters (← readN (unpackCluster d) n))
  | .scheduler => do pure (.schedulers (← unpackSchedulers d n))

end

/-! ## What is unpacked is what was packed -/

section
variable {β : Type} {d : Dss β}

theorem reads_argv (l : List (List Char)) : Reads (unpackArgv d) (packArgv d l) l :=
  (d.count.reads l.length).bind (reads_readN fun s _ => d.text.reads s)

theorem reads_config (c : Config) : Reads (unpackConfig d) (packConfig d c) c :=
  (reads_argv c.mcaParams).bind
    ((reads_argv c.env).bind ((d.string.reads c.port).bind (d.bool.reads c.aggregator).bind_pure))

theorem reads_node (n : Node) : Reads (unpackNode d) (packNode d n) n :=
  (d.string.reads n.name).bind ((d.name.reads n.daemon).bind ((reads_config n.config).bind
    ((d.int8.reads n.state).bind (d.int8.reads n.scdState).bind_pure)))

theorem reads_as {α : Type} {t : DtType} {p : Reader β UnpackError α} {w : α → List β} {a : α}
    (h : Reads p (w a) a) :
    Reads (unpackAs d t p) (packAs d t w a) a :=
  ((d.type t).reads ()).bind h

theorem reads_group {α γ : Type} {t : DtType} {p : Reader β UnpackError α} {w : α → List β}
    (h : ∀ a, Reads p (w a) a) (make : Option (List Char) → Node → List α → γ)
    (name : Option (List Char)) (controller : Node) (inside : List α) :
    Reads (unpackGroup d t p make) (packGroup d t w name controller inside)
      (make name controller inside) :=
  (d.string.reads name).bind
    ((reads_as (reads_node controller)).bind ((d.count.reads inside.length).bind
    (reads_readN fun a _ => reads_as (h a)).bind_pure))

theorem reads_rack (r : Rack) : Reads (unpackRack d) (packRack d r) r :=
  reads_group reads_node Rack.mk _ _ _

theorem reads_row (r : Row) : Reads (unpackRow d) (packRow d r) r :=
  reads_group reads_rack Row.mk _ _ _

theorem reads_cluster (c : Cluster) : Reads (unpackCluster d) (packCluster d c) c :=
  reads_group reads_row Cluster.mk _ _ _

theorem reads_schedulers (n : Nat) (s : Scheduler) :
    Reads (unpackSchedulers d (n + 1)) (packScheduler d s)
      (List.replicate n freshScheduler ++ [s]) :=
  (reads_as (reads_node s.controller)).bind (reads_argv s.queues).bind_pure

theorem packScheduler_ne_nil (s : Scheduler) : packScheduler d s ≠ [] := by
  have hbo : d.bool.write s.controller.config.aggregator ≠ [] :=
    d.bool.write_ne_nil (b := !s.controller.config.aggregator) (by simp)
  simp [packScheduler, packAs, packNode, packConfig, hbo]

/-- **Which arrays are read back.** -/
theorem unpack_pack_iff (d : Dss β) (a : Payload) (rest : List β) :
    (unpack d a.length a.type).run (a.pack d ++ rest) = .ok (a, rest) ↔
      (a.type = .scheduler → a.length = 1) := by
  have hre : ∀ {α : Type} {p : Reader β UnpackError α} {w : α → List β}
      (make : List α → Payload) (l : List α), (∀ a, Reads p (w a) a) →
      (do pure (make (← readN p l.length)) : Reader β UnpackError Payload).run
        (l.flatMap w ++ rest) = .ok (make l, rest) :=
    fun make l h => (reads_readN fun a _ => h a).bind_pure rest
  cases a with
  | nodes l => exact iff_of_true (hre _ _ reads_node) (fun h => by cases h)
  | racks l => exact iff_of_true (hre _ _ reads_rack) (fun h => by cases h)
  | rows l => exact iff_of_true (hre _ _ reads_row) (fun h => by cases h)
  | clusters l => exact iff_of_true (hre _ _ reads_cluster) (fun h => by cases h)
  | schedulers l =>
    cases l with
    | nil =>
      refine iff_of_false (fun h => ?_) (fun h => by cases h rfl)
      cases h
    | cons s l =>
      have hrun : (unpack d (Payload.schedulers (s :: l)).length .scheduler).run
        ((Payload.schedulers (s :: l)).pack d ++ rest) =
          .ok (.schedulers (List.replicate l.length freshScheduler ++ [s]),
          l.flatMap (packScheduler d) ++ rest) := by
        rw [Payload.pack, List.flatMap_cons, List.append_assoc]
        exact (reads_schedulers l.length s).bind_pure (l.flatMap (packScheduler d) ++ rest)
      rw [show (Payload.schedulers (s :: l)).type = .scheduler from rfl, hrun]
      cases l with
      | nil => simp [Payload.length]
      | cons s' l =>
        refine iff_of_false (fun h => ?_) (fun h => by cases h rfl)
        -- what is left is longer than `rest`
        have hlen := congrArg List.length (Prod.mk.inj (Except.ok.inj h)).2
        have hpos := List.length_pos_iff.2 (packScheduler_ne_nil (d := d) s')
        rw [List.flatMap_cons, List.append_assoc, List.length_append, List.length_append] at hlen
        omega

end

/-! ## A buffer of whole values -/

def items : Dss (Opal.Item (Option ProcName ⊕ DtType)) :=
  { Opal.items _ (UnpackError.dss (-26)) with
    nullString := .nullString
    name :=
    .single (.dss (-26)) (.other ∘ .inl) (fun | .other (.inl n) => some n | _ => none) fun _ => rfl
    type t := .single (.dss (-26)) (fun _ => .other (.inr t))
      (fun x => if x = .other (.inr t) then some () else none) fun _ => if_pos rfl }

def schedulerNamed (c : Char) : Scheduler :=
  ⟨⟨some [c], none, ⟨[], [], none, false⟩, stateUnknown, 0⟩, []⟩

/-- Of two schedulers the first one is read, as the second, and the other is left in the buffer. -/
theorem two_schedulers_unpacked :
    (unpack items 2 .scheduler).run
      ((Payload.schedulers [schedulerNamed 'a', schedulerNamed 'b']).pack items) =
      .ok (.schedulers [freshScheduler, schedulerNamed 'a'],
      packScheduler items (schedulerNamed 'b')) := by
  rfl

/-! ## Comparing

`OPAL_VALUE1_GREATER` is `gt`, `OPAL_VALUE2_GREATER` is `lt`. A list that is `NULL` is shorter
than the others. The lists are compared as texts, which are joined with the delimiter 0: `strcmp`
ends at the first one. -/

/-- What `strcmp` reads of `opal_argv_join(l, 0)`. -/
def joined (l : List (List Char)) : List Char := (['\x00'].intercalate l).takeWhile (· ≠ '\x00')

def compareArgv (l m : List (List Char)) : Ordering :=
  (compare l.length m.length).then (compare (joined l) (joined m))

/-- The numbers of an invalid name are the largest ones. -/
def compareDaemon (n m : Option ProcName) : Ordering :=
  (compare n.isNone m.isNone).then ((compare (n.map ProcName.jobid) (m.map ProcName.jobid)).then
    (compare (n.map ProcName.vpid) (m.map ProcName.vpid)))

def compareNode (a b : Node) : Ordering :=
  (compare a.name b.name).then <| (compareDaemon a.daemon b.daemon).then <|
    (compareArgv a.config.mcaParams b.config.mcaParams).then <|
      (compareArgv a.config.env b.config.env).then <|
      (compare a.config.port b.config.port).then <|
        (compare a.config.aggregator b.config.aggregator).then <|
        (compare a.state b.state).then (compare a.scdState b.scdState)

def compareScheduler (a b : Scheduler) : Ordering :=
  (compareNode a.controller b.controller).then (compareArgv a.queues b.queues)

/-- As many strings, with the same first one. -/
def SameFirst (l m : List (List Char)) : Prop :=
  l.length = m.length ∧ (l.headD []).takeWhile (· ≠ '\x00') = (m.headD []).takeWhile (· ≠ '\x00')

theorem joined_eq (l : List (List Char)) : joined l = (l.headD []).takeWhile (· ≠ '\x00') := by
  match l with
  | [] | [s] => simp [joined]
  | s :: t :: l =>
    rw [joined, List.intercalate_cons_cons, List.append_assoc, List.takeWhile_append]
    split
    · rename_i hlen
      rw [List.headD_cons, (List.takeWhile_sublist _).eq_of_length hlen]
      simp
    · rfl

theorem compareArgv_eq_iff (l m : List (List Char)) : compareArgv l m = .eq ↔ SameFirst l m := by
  simp [compareArgv, SameFirst, joined_eq]

theorem compareDaemon_eq_iff (n m : Option ProcName) : compareDaemon n m = .eq ↔ n = m := by
  rcases n with _ | ⟨_, _⟩ <;> rcases m with _ | ⟨_, _⟩ <;> simp [compareDaemon]

/-- All fields are the same, but of the lists only the lengths and the first strings. -/
structure NodesAlike (a b : Node) : Prop where
  name       : a.name = b.name
  daemon     : a.daemon = b.daemon
  mcaParams  : SameFirst a.config.mcaParams b.config.mcaParams
  env        : SameFirst a.config.env b.config.env
  port       : a.config.port = b.config.port
  aggregator : a.config.aggregator = b.config.aggregator
  state      : a.state = b.state
  scdState   : a.scdState = b.scdState

theorem compareNode_eq_iff (a b : Node) : compareNode a b = .eq ↔ NodesAlike a b := by
  simp only [compareNode, Ordering.then_eq_eq, compareArgv_eq_iff, compareDaemon_eq_iff,
    Std.LawfulEqOrd.compare_eq_iff_eq]
  exact ⟨fun ⟨h1, h2, h3, h4, h5, h6, h7, h8⟩ => ⟨h1, h2, h3, h4, h5, h6, h7, h8⟩,
    fun ⟨h1, h2, h3, h4, h5, h6, h7, h8⟩ => ⟨h1, h2, h3, h4, h5, h6, h7, h8⟩⟩

theorem compareScheduler_eq_iff (a b : Scheduler) :
    compareScheduler a b = .eq ↔
      NodesAlike a.controller b.controller ∧ SameFirst a.queues b.queues := by
  rw [compareScheduler, Ordering.then_eq_eq, compareNode_eq_iff, compareArgv_eq_iff]

theorem swap_compareArgv (l m : List (List Char)) : (compareArgv l m).swap = compareArgv m l := by
  simp only [compareArgv, Ordering.swap_then, ← Std.OrientedOrd.eq_swap]

theorem swap_compareNode (a b : Node) : (compareNode a b).swap = compareNode b a := by
  simp only [compareNode, compareDaemon, Ordering.swap_then, ← Std.OrientedOrd.eq_swap,
    swap_compareArgv]

/-- What a comparison is to answer. -/
def Answers {α : Type} (cmp : α → α → Ordering) (a b : α) : Prop :=
  (cmp a b = .eq ↔ a = b) ∧ cmp b a = (cmp a b).swap

theorem answers_iff {α : Type} {cmp : α → α → Ordering} {R : α → α → Prop}
    (heq : ∀ a b, cmp a b = .eq ↔ R a b) (hre : ∀ a, R a a) (hsw : ∀ a b, (cmp a b).swap = cmp b a)
    (a b : α) : Answers cmp a b ↔ (R a b → a = b) := by
  rw [Answers, heq, hsw]
  exact ⟨fun h => h.1.1, fun h => ⟨⟨h, fun hab => hab ▸ hre a⟩, rfl⟩⟩

/-- **The comparisons are right** exactly for nodes and schedulers that differ in what is
compared, if they differ. -/
theorem compare_right_iff (a b : Scheduler) :
    Answers compareNode a.controller b.controller ∧ Answers compareScheduler a b ↔
      (NodesAlike a.controller b.controller → a.controller = b.controller) ∧
      (NodesAlike a.controller b.controller ∧ SameFirst a.queues b.queues → a = b) := by
  have hre (n : Node) : NodesAlike n n := ⟨rfl, rfl, ⟨rfl, rfl⟩, ⟨rfl, rfl⟩, rfl, rfl, rfl, rfl⟩
  refine and_congr (answers_iff compareNode_eq_iff hre swap_compareNode _ _) ?_
  refine answers_iff compareScheduler_eq_iff (fun d => ⟨hre _, rfl, rfl⟩) ?_ a b
  intro a b
  rw [compareScheduler, Ordering.swap_then, swap_compareNode, swap_compareArgv, compareScheduler]

/-- The second parameters differ. -/
theorem second_param_not_compared :
    compareNode ⟨none, none, ⟨["a=1".toList, "b=1".toList], [], none, false⟩, 1, 0⟩
      ⟨none, none, ⟨["a=1".toList, "b=2".toList], [], none, false⟩, 1, 0⟩ = .eq := by
  decide

end Sensys.Cfgi.Topology
