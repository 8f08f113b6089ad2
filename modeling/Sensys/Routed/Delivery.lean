import Sensys.Lib.TreeRouting
import Sensys.Routed.Children
/-!
# Messages between the daemons

A message goes from daemon to daemon as `getRoute` says at each of them (`nextHop`). Which way a
daemon sends it depends on what kind of process it is: one that is `ORTE_PROC_IS_DAEMON` only
sends to its parent (`routed_orcm.c:175-180`), and that is every process but a scheduler and those
with the flag `aggregator` (`check_me`, `cfgi_file30.c:1387-1390`).
-/
namespace Sensys.Routed
open Cfgi.Topology Hier List

/-- `orte_process_info.proc_type` of the process that finds itself at a place. -/
def processType (q : Place) : DaemonType :=
  if q.node.config.aggregator then .aggregator
  else if q.role = .scheduler then .scheduler
  else .daemon

def processAt (sys : System) (n : ProcName) : Option Place :=
  sys.processes.find? fun q => q.node.daemon = some n

/-- The process may send downwards. -/
def Relays (sys : System) (n : ProcName) : Prop :=
  ∃ q, processAt sys n = some q ∧ processType q ≠ .daemon

section
variable (h : Host) (p : Proc) (sys : Parsed) (leftover : Nat → Option ProcName) (enabled : Bool)
  (myScheduler : Option ProcName)

/-- Where the daemon `n` sends a message for `t`. -/
def nextHop (t n : ProcName) : Option ProcName :=
  match processAt (defineSystem h p sys.system).system n, routesOf h p sys leftover n.vpid with
  | some q, .ok r => getRoute ⟨n, processType q, enabled, myScheduler, r⟩ t
  | _, _ => none

variable {h p sys leftover enabled myScheduler} {F : Hier ProcName} {r : Routes} {n t : ProcName}
  {q : Place} {type : DaemonType}

theorem processType_ne_tool (q : Place) : processType q ≠ .tool := by
  rw [processType]
  split
  · decide
  · split <;> decide

/-! ## One hop -/

namespace Settled
variable (hr : Settled F n r) (hjob : ∀ m ∈ F.labels, m = ⟨0, m.vpid⟩)
include hr hjob

theorem sibling_parent (hn : n = ⟨0, n.vpid⟩) (type : DaemonType) :
    (∃ b, (Daemon.mk n type enabled myScheduler r).sibling (vpid r.parent) = some b ∧
      Parent F n b) ∨
      ((∀ b, ¬ Parent F n b) ∧ ∀ b,
      (Daemon.mk n type enabled myScheduler r).sibling (vpid r.parent) = some b → b = n) := by
  have hname : ∀ b : ProcName, (⟨n.jobid, b.vpid⟩ : ProcName) = ⟨0, b.vpid⟩ := by
    intro b
    rw [hn]
  rcases hr.parent with ⟨b, hb, hpar⟩ | ⟨hno, hb | hb⟩
  · refine Or.inl ⟨b, ?_, hpar⟩
    rw [hb, hjob b hpar.under.mem_right, ← hname]
    rfl
  · refine Or.inr ⟨hno, fun b hsib => ?_⟩
    rw [hb] at hsib
    cases hsib
  · refine Or.inr ⟨hno, fun b hsib => ?_⟩
    rw [hb] at hsib
    cases hsib
    rfl

variable (hF : F.labels.Nodup)
include hF

/-- A child that a target is sent to is the target or above it. -/
theorem within_child {c : Child} (hc : c ∈ r.children)
    (hf : (c.vpid = some t.vpid || t.vpid ∈ c.relatives) = true) (ht : t = ⟨0, t.vpid⟩) :
    ∃ b G, Parent F b n ∧ Below F b G ∧ c = toChild (b, G.labels) ∧ Within F t b := by
  obtain ⟨b, G, hpar, hG, rfl⟩ := (hr.mem_children_iff hF).1 hc
  refine ⟨b, G, hpar, hG, rfl, ?_⟩
  rw [Bool.or_eq_true] at hf
  rcases hf with heq | hmem
  · left
    rw [ht, hjob b hG.mem_labels, Option.some.inj (of_decide_eq_true heq)]
  · obtain ⟨m, hm, hmt⟩ := mem_map.1 (of_decide_eq_true hmem)
    right
    rw [ht, ← hmt, ← hjob m (hG.labels_subset hm)]
    exact ⟨G, hG, hm⟩

variable (hto : type ≠ .tool)
include hto

/-- A process that may send downwards does if the target is under it. -/
theorem getRoute_down (htype : type ≠ .daemon) (ht : Under F t n) :
    ∃ b, getRoute ⟨n, type, true, myScheduler, r⟩ t = some b ∧ Parent F b n ∧ Within F t b := by
  have hn := hjob n ht.mem_right
  have htj := hjob t ht.mem_left
  have hne : t ≠ n := ht.ne hF
  have hjo : t.jobid = n.jobid := by rw [hn, htj]
  -- a child that is the target or above it is found
  have hso : (r.children.find? fun c => c.vpid = some t.vpid || t.vpid ∈ c.relatives).isSome =
      true := by
    rw [find?_isSome]
    rcases ht.exists_parent with hpar | ⟨c, hpar, hun⟩
    · obtain ⟨G, hG⟩ := mem_labels_iff.1 hpar.under.mem_left
      exact ⟨_, (hr.mem_children_iff hF).2 ⟨t, G, hpar, hG, rfl⟩, by simp [toChild]⟩
    · obtain ⟨G, hG, htG⟩ := hun
      refine ⟨_, (hr.mem_children_iff hF).2 ⟨c, G, hpar, hG, rfl⟩, ?_⟩
      rw [Bool.or_eq_true]
      exact Or.inr (decide_eq_true (mem_map_of_mem htG))
  obtain ⟨c, hc⟩ := Option.isSome_iff_exists.1 hso
  have hf := find?_some hc
  obtain ⟨b, G, hpar, hG, rfl, hwithin⟩ := hr.within_child hjob hF (mem_of_find?_eq_some hc) hf htj
  have hb := hjob b hG.mem_labels
  refine ⟨b, ?_, hpar, hwithin⟩
  rw [getRoute, if_neg hto, if_neg (by simp), if_neg hne, if_neg (by simp [hjo]), if_neg htype]
  simp only [hc, toChild]
  split
  · rename_i heq
    rw [htj, hb, Option.some.inj heq]
  · rw [Daemon.sibling, hn, hb]
    rfl

theorem getRoute_up (hn : n = ⟨0, n.vpid⟩) (ht : t = ⟨0, t.vpid⟩) (hne : t ≠ n)
    (hup : type = .daemon ∨ ¬ Under F t n) :
    getRoute ⟨n, type, true, myScheduler, r⟩ t =
      (Daemon.mk n type true myScheduler r).sibling (vpid r.parent) := by
  have hjo : t.jobid = n.jobid := by rw [hn, ht]
  rw [getRoute, if_neg hto, if_neg (by simp), if_neg hne, if_neg (by simp [hjo])]
  by_cases htype : type = .daemon
  · rw [if_pos htype]
  · have hno : (r.children.find? fun c => c.vpid = some t.vpid || t.vpid ∈ c.relatives) = none := by
      rw [find?_eq_none]
      intro c hc hf
      obtain ⟨b, -, hpar, -, -, rfl | hun⟩ := hr.within_child hjob hF hc hf ht
      · exact hup.resolve_left htype hpar.under
      · exact hup.resolve_left htype (hun.trans hF hpar.under)
    simp only [if_neg htype, hno]

end Settled

/-! ## The daemons of a system -/

theorem mem_processAt {sys : System} (hq : processAt sys n = some q) :
    q ∈ sys.places ∧ q.counted = true ∧ q.node.daemon = some n := by
  have hname := find?_some hq
  have hmem := mem_filter.1 (mem_of_find?_eq_some hq)
  exact ⟨hmem.1, hmem.2, of_decide_eq_true hname⟩

theorem jobid_processAt (hq : processAt (defined h p sys) n = some q) : n = ⟨0, n.vpid⟩ := by
  obtain ⟨hmem, hco, hname⟩ := mem_processAt hq
  obtain ⟨v, hv⟩ := exists_daemon h p sys hmem hco
  rw [Option.some.inj (hname.symm.trans hv)]

theorem processAt_isSome_of_mem_forest (hn : n ∈ (forest (defined h p sys)).labels) :
    (processAt (defined h p sys) n).isSome = true := by
  obtain ⟨q, hmem, hname⟩ := mem_filterMap.1 ((labels_forest_sublist _).subset hn)
  have hco : q.counted = true := by
    by_contra hnot
    rw [uncounted_system h p sys hmem (by simpa using hnot)] at hname
    cases hname
  rw [processAt, find?_isSome]
  exact ⟨q, mem_filter.2 ⟨hmem, hco⟩, decide_eq_true hname⟩

theorem nextHop_of_process (hq : processAt (defined h p sys) n = some q)
    (hr : routesOf h p sys leftover n.vpid = .ok r) :
    nextHop h p sys leftover enabled myScheduler t n =
      getRoute ⟨n, processType q, enabled, myScheduler, r⟩ t := by
  simp only [nextHop, hq, hr]

section
variable (hc : sys.system.clusters ≠ [])
  (hl : sys.system.schedulers = [] → ∀ v, leftover v ≠ some ⟨0, v⟩)
include hc hl

theorem nextHop_routing (ht : t = ⟨0, t.vpid⟩) :
    Routing (forest (defined h p sys)) (Relays (defined h p sys)) t
      (nextHop h p sys leftover true myScheduler t) := by
  have hF := nodup_forest h p sys
  have hjob := fun m => @jobid_forest h p sys m
  refine ⟨fun n hne hre hun => ?_, fun n hne hup => ?_⟩
  · obtain ⟨q, hq, htype⟩ := hre
    obtain ⟨r, hr, hse⟩ := routesOf_settled h p sys hc hl n.vpid
    rw [← jobid_processAt hq] at hse
    rw [nextHop_of_process hq hr]
    exact hse.getRoute_down hjob hF (processType_ne_tool q) htype hun
  · cases hq : processAt (defined h p sys) n with
    | none =>
      refine Or.inr ⟨fun b hpar => ?_, fun b hb => ?_⟩
      · have hso := processAt_isSome_of_mem_forest hpar.under.mem_left
        rw [hq] at hso
        cases hso
      · simp [nextHop, hq] at hb
    | some q =>
      obtain ⟨r, hr, hse⟩ := routesOf_settled h p sys hc hl n.vpid
      have hn := jobid_processAt hq
      rw [← hn] at hse
      have htype : processType q = .daemon ∨ ¬ Under (forest (defined h p sys)) t n :=
        Classical.or_iff_not_imp_left.2 fun htype hun => hup ⟨⟨q, hq, htype⟩, hun⟩
      rw [nextHop_of_process hq hr,
        hse.getRoute_up hjob hF (processType_ne_tool q) hn ht hne.symm htype]
      exact hse.sibling_parent hjob hn _

theorem nextHop_disabled (hq : processAt (defined h p sys) n = some q) :
    nextHop h p sys leftover false myScheduler t n = some t := by
  obtain ⟨r, hr, -⟩ := routesOf_settled h p sys hc hl n.vpid
  rw [nextHop_of_process hq hr, getRoute, if_neg (processType_ne_tool q)]
  rfl

end

end

/-- **A message arrives exactly if the daemons on its way down may send downwards.** -/
theorem delivers_iff_relays (h : Host) (p : Proc) (sys : Parsed) (leftover : Nat → Option ProcName)
    (enabled : Bool) (myScheduler : Option ProcName) (hc : sys.system.clusters ≠ [])
    (hl : sys.system.schedulers = [] → ∀ v, leftover v ≠ some ⟨0, v⟩) (s t : ProcName)
    (hs : (processAt (defineSystem h p sys.system).system s).isSome = true)
    (ht : (processAt (defineSystem h p sys.system).system t).isSome = true) :
    Delivers (nextHop h p sys leftover enabled myScheduler t) s t ↔
      enabled = false ∨ Reaches (forest (defineSystem h p sys.system).system)
      (Relays (defineSystem h p sys.system).system) s t := by
  obtain ⟨q, hq⟩ := Option.isSome_iff_exists.1 hs
  obtain ⟨q', hq'⟩ := Option.isSome_iff_exists.1 ht
  cases enabled with
  | false =>
    refine ⟨fun _ => Or.inl rfl, fun _ => ?_⟩
    by_cases hst : s = t
    · exact ⟨[], .singleton s, by rw [hst]; rfl, pairwise_singleton _ _⟩
    · exact ⟨[t], isChain_cons_cons.2 ⟨nextHop_disabled hc hl hq, .singleton t⟩, rfl,
        by simpa using hst⟩
  | true =>
    rw [delivers_iff (nodup_forest h p sys) (nextHop_routing hc hl (jobid_processAt hq'))]
    simp

/-- A scheduler, a row with a controller and a node. -/
def rowSystem (aggregator : Bool) : Parsed where
  system :=
    ⟨[⟨presentNode ['s'], []⟩],
      [⟨none, absentNode,
        [⟨none, ⟨some ['r'], none, { plainConfig with aggregator := aggregator }, stateUnknown, 0⟩,
        [⟨none, absentNode, [presentNode ['n']]⟩]⟩]⟩]⟩
  fresh := by cases aggregator <;> decide

theorem rowSystem_delivers :
    Delivers (nextHop someHost ⟨none, none, false⟩ (rowSystem true) (fun _ => none) true none
      ⟨0, 2⟩) ⟨0, 0⟩ ⟨0, 2⟩ := by
  refine (delivers_iff_relays someHost ⟨none, none, false⟩ (rowSystem true)
    (fun _ => none) true none (by decide)
    (fun hnil => by cases hnil) ⟨0, 0⟩ ⟨0, 2⟩ (by decide) (by decide)).2 (Or.inr ?_)
  have hF := nodup_forest someHost ⟨none, none, false⟩ (rowSystem true)
  have hf : forest (defineSystem someHost ⟨none, none, false⟩ (rowSystem true).system).system =
      .cons (some ⟨0, 0⟩)
      (.cons none (.cons (some ⟨0, 1⟩) (.cons none (.cons (some ⟨0, 2⟩) .nil .nil) .nil) .nil) .nil)
      .nil := rfl
  refine ⟨⟨0, 0⟩, Within.refl _ _, Or.inr ?_, fun b _ hun => ?_⟩
  · exact ⟨_, .here, by decide⟩
  · have hb := hun.mem_right
    have hne := hun.ne hF
    simp only [hf, labels, Option.toList, nil_append, append_nil, mem_append, mem_singleton] at hb
    rcases hb with rfl | rfl | rfl
    · exact ⟨_, rfl, by decide⟩
    · exact ⟨_, rfl, by decide⟩
    · exact absurd rfl hne

/-- The row's controller sends a message from the scheduler to its node back to the scheduler. -/
theorem rowSystem_lost :
    ¬ Delivers (nextHop someHost ⟨none, none, false⟩ (rowSystem false) (fun _ => none) true none
      ⟨0, 2⟩) ⟨0, 0⟩ ⟨0, 2⟩ := by
  rintro ⟨path, hch, hlast, hno⟩
  match path with
  | [] => cases hlast
  | [a] =>
    obtain ⟨ha, -⟩ := isChain_cons_cons.1 hch
    cases ha
    cases hlast
  | a :: b :: rest =>
    obtain ⟨ha, hch⟩ := isChain_cons_cons.1 hch
    obtain ⟨hb, -⟩ := isChain_cons_cons.1 hch
    cases ha
    cases hb
    simp at hno

/-- **A message arrives or is not sent on**: the daemon that it gets to in the end has no next hop
for it, or the next one sends it back and the two exchange it for ever. -/
theorem nextHop_settles (h : Host) (p : Proc) (sys : Parsed) (leftover : Nat → Option ProcName)
    (myScheduler : Option ProcName) (hc : sys.system.clusters ≠ [])
    (hl : sys.system.schedulers = [] → ∀ v, leftover v ≠ some ⟨0, v⟩) (s t : ProcName)
    (ht : (processAt (defineSystem h p sys.system).system t).isSome = true) :
    Settles (nextHop h p sys leftover true myScheduler t) t s := by
  obtain ⟨q, hq⟩ := Option.isSome_iff_exists.1 ht
  exact settles (nodup_forest h p sys) (nextHop_routing hc hl (jobid_processAt hq)) s

theorem rowSystem_settles :
    Settles (nextHop someHost ⟨none, none, false⟩ (rowSystem false) (fun _ => none) true none
      ⟨0, 2⟩) ⟨0, 2⟩ ⟨0, 0⟩ :=
  nextHop_settles someHost ⟨none, none, false⟩ (rowSystem false) (fun _ => none) none (by decide)
    (fun hnil => by cases hnil) ⟨0, 0⟩
    ⟨0, 2⟩ (by decide)

end Sensys.Routed
