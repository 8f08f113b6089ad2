import Sensys.Cfgi.DefineSystem
/-!
# What `defineSystem` does to the processes

Every part of the pass numbers the processes it visits one after the other and sets the own name
and daemon at the first that is found (`Visits`). `defineSystem_visits` puts the parts together.
-/
namespace Sensys.Cfgi.Topology
open Lists List

/-- The processes of which type look for themselves at a place. -/
def Role.procType : Role → ProcType
  | .scheduler => .scheduler
  | _ => .daemon

/-- The process finds itself here if it did not before. -/
def Host.finds (h : Host) (p : Place) : Bool :=
  p.counted && h.type = p.role.procType && h.isMe p.node

/-- The own name at a place. -/
def Host.nameAt (h : Host) (p : Place) : Option ProcName :=
  p.node.daemon.map fun n => ⟨h.jobid, n.vpid⟩

/-- The nearest controller around a place that is there, or the process itself. -/
def Host.parentAt (h : Host) (p : Place) : Option ProcName :=
  match p.above.find? Node.present with
  | some c => c.daemon
  | none => h.nameAt p

/-- What a process knows that finds itself at a place. -/
def Host.settle (h : Host) (old : Proc) (p : Place) : Proc :=
  ⟨h.nameAt p, if p.role = .scheduler then old.daemon else h.parentAt p, old.aggregator ||
    p.node.config.aggregator⟩

/-- The process after places, of which it may have been found before the first. -/
def Host.search (h : Host) (ps : List Place) (s : Defining) : Option Node × Proc :=
  if s.found then (s.mynode, s.proc)
  else
    match ps.find? h.finds with
    | none => (s.mynode, s.proc)
    | some p => (some p.node, h.settle s.proc p)

/-- From `s` to `s'` the places `ps` are visited. -/
structure Visits (h : Host) (ps : List Place) (s s' : Defining) : Prop where
  le      : s.vpid ≤ s'.vpid
  numbers : (ps.filter Place.counted).map (fun p => p.node.daemon) =
    (List.range' s.vpid (s'.vpid - s.vpid)).map fun v => some ⟨0, v⟩
  found   : s'.found = (s.found || ps.any h.finds)
  search  : (s'.mynode, s'.proc) = h.search ps s

section
variable {h : Host} {ps qs : List Place} {s s' s'' : Defining}

theorem visits_nil (h : Host) (s : Defining) : Visits h [] s s where
  le := Nat.le_refl _
  numbers := by simp
  found := by simp
  search := by
    rw [Host.search]
    split <;> rfl

theorem Host.search_append (hf : s'.found = (s.found || ps.any h.finds))
    (hse : (s'.mynode, s'.proc) = h.search ps s) :
    h.search (ps ++ qs) s = h.search qs s' := by
  rw [Host.search, find?_append]
  rw [Host.search] at hse
  cases hs : s.found with
  | true =>
    rw [hs, Bool.true_or] at hf
    rw [hs, if_pos rfl] at hse
    rw [if_pos rfl, Host.search, hf, if_pos rfl, hse]
  | false =>
    rw [hs, Bool.false_or] at hf
    rw [hs, if_neg (by simp)] at hse
    rw [if_neg (by simp), Host.search, hf]
    cases hps : ps.find? h.finds with
    | none =>
      have hany : ps.any h.finds = false := by
        rw [any_eq_false]
        exact find?_eq_none.1 hps
      rw [hps] at hse
      obtain ⟨hm, hpr⟩ := Prod.mk.inj hse
      rw [hany, if_neg (by simp), Option.none_or, hm, hpr]
    | some p =>
      have hany : ps.any h.finds = true :=
        any_eq_true.2 ⟨p, mem_of_find?_eq_some hps, find?_some hps⟩
      rw [hps] at hse
      rw [hany, if_pos rfl, Option.some_or, hse]

theorem Visits.append (h1 : Visits h ps s s') (h2 : Visits h qs s' s'') :
    Visits h (ps ++ qs) s s'' where
  le := Nat.le_trans h1.le h2.le
  numbers := by
    have hle1 := h1.le
    have hle2 := h2.le
    have hlen : s''.vpid - s.vpid = (s'.vpid - s.vpid) + (s''.vpid - s'.vpid) := by omega
    rw [filter_append, map_append, h1.numbers, h2.numbers, ← map_append, hlen, ← range'_append_1,
      Nat.add_sub_cancel' hle1]
  found := by rw [h2.found, h1.found, any_append, Bool.or_assoc]
  search := by rw [h2.search, Host.search_append h1.found h1.search]

theorem visits_mapAccum {α β : Type} {f : Defining → α → Defining × β} {places : β → List Place}
    (hst : ∀ s a, Visits h (places (f s a).2) s (f s a).1) (l : List α) (s : Defining) :
    Visits h ((mapAccum f s l).2.flatMap places) s (mapAccum f s l).1 :=
  mapAccum_rule (visits_nil h) Visits.append places hst l s

variable {n : Node} {above : List Node} {daemon : ProcName → Option ProcName} {role : Role}

theorem visits_assign (hco : role = .controller → n.present = true)
    (hse : h.settle s.proc ⟨role, { n with daemon := some ⟨0, s.vpid⟩ }, above⟩ =
      ⟨some ⟨h.jobid, s.vpid⟩, daemon ⟨h.jobid, s.vpid⟩, s.proc.aggregator ||
      n.config.aggregator⟩) :
    Visits h [⟨role, (assign h role.procType n daemon s).2, above⟩] s
      (assign h role.procType n daemon s).1 := by
  obtain ⟨p, hp⟩ : ∃ p : Place, p = ⟨role, { n with daemon := some ⟨0, s.vpid⟩ }, above⟩ := ⟨_, rfl⟩
  have hcou : p.counted = true := by
    rw [hp]
    by_cases hro : role = .controller
    · simpa [Place.counted, hro, Node.present] using hco hro
    · simp [Place.counted, hro]
  have hf : h.finds p = (decide (h.type = role.procType) && h.isMe n) := by
    rw [Host.finds, hcou, Bool.true_and, hp]
    rfl
  have hass : (assign h role.procType n daemon s).2 = p.node := by rw [hp]; rfl
  have hpl : (⟨role, (assign h role.procType n daemon s).2, above⟩ : Place) = p := by rw [hass, hp]
  rw [hpl]
  refine ⟨Nat.le_succ _, ?_, ?_, ?_⟩
  · have hv : (assign h role.procType n daemon s).1.vpid = s.vpid + 1 := rfl
    rw [hv, Nat.add_sub_cancel_left, range'_one, filter_cons_of_pos hcou, hp]
    rfl
  · cases hfo : s.found <;> cases htype : decide (h.type = role.procType) <;>
      cases hme : h.isMe n <;>
      simp_all [assign, checkMe]
  · rw [Host.search, find?_singleton, hf]
    cases hfo : s.found <;> cases htype : decide (h.type = role.procType) <;>
      cases hme : h.isMe n <;>
      simp_all [assign, checkMe]

/-- The daemon is the nearest controller, or the process itself. -/
def Nearest (above : List Node) (daemon : ProcName → Option ProcName) : Prop :=
  ∀ me, daemon me = ((above.find? Node.present).map Node.daemon).getD (some me)

theorem settle_of_ne_scheduler (hro : role ≠ .scheduler) (hda : Nearest above daemon) (v : Nat)
    (old : Proc) :
    h.settle old ⟨role, { n with daemon := some ⟨0, v⟩ }, above⟩ =
      ⟨some ⟨h.jobid, v⟩, daemon ⟨h.jobid, v⟩, old.aggregator || n.config.aggregator⟩ := by
  rw [Host.settle, if_neg hro, hda, Host.parentAt]
  cases above.find? Node.present <;> rfl

theorem visits_assignController (hda : Nearest above daemon) :
    Visits h [⟨.controller, (assignController h n daemon s).2, above⟩] s
      (assignController h n daemon s).1 := by
  rw [assignController]
  split
  · rename_i hpr
    exact @visits_assign _ _ _ _ _ .controller (fun _ => hpr)
      (settle_of_ne_scheduler (by decide) hda _ _)
  · rename_i hpr
    have hco : Place.counted ⟨.controller, n, above⟩ = false := by simpa [Place.counted] using hpr
    refine ⟨Nat.le_refl _, ?_, ?_, ?_⟩
    · simp [hco]
    · simp [Host.finds, hco]
    · rw [Host.search, find?_singleton, Host.finds, hco]
      cases s.found <;> rfl

theorem visits_scheduler (s : Defining) (d : Scheduler) :
    Visits h [⟨.scheduler, (defineScheduler h s d).2.controller, []⟩] s (defineScheduler h s d).1 :=
  @visits_assign _ _ _ _ _ .scheduler (fun hro => by cases hro) rfl

variable {cluster row rack : Node}

theorem visits_node (s : Defining) (n : Node) :
    Visits h [⟨.node, (defineNode h cluster row rack s n).2, [rack, row, cluster]⟩] s
      (defineNode h cluster row rack s n).1 := by
  refine @visits_assign _ _ _ _ _ .node (fun hro => by cases hro)
    (settle_of_ne_scheduler (by decide) (fun me => ?_) _ _)
  rw [nodeDaemon]
  cases hra : rack.present <;> cases hrow : row.present <;> cases hcl : cluster.present <;>
    simp [hra, hrow, hcl]

theorem visits_rack (s : Defining) (r : Rack) :
    Visits h ((defineRack h cluster row s r).2.places [row, cluster]) s
      (defineRack h cluster row s r).1 := by
  have hda : Nearest [row, cluster] (rackDaemon cluster row) := by
    intro me
    rw [rackDaemon]
    cases hrow : row.present <;> cases hcl : cluster.present <;> simp [hrow, hcl]
  refine (visits_assignController hda).append ?_
  rw [map_eq_flatMap]
  exact visits_mapAccum (fun s n => visits_node s n) _ _

theorem visits_row (s : Defining) (r : Row) :
    Visits h ((defineRow h cluster s r).2.places [cluster]) s (defineRow h cluster s r).1 := by
  have hda : Nearest [cluster] (rowDaemon cluster) := by
    intro me
    rw [rowDaemon]
    cases hcl : cluster.present <;> simp [hcl]
  refine (visits_assignController hda).append ?_
  simp only [defineRow, reverse_reverse]
  exact visits_mapAccum (fun s r => visits_rack s r) _ _

theorem visits_cluster (s : Defining) (c : Cluster) :
    Visits h (defineCluster h s c).2.places s (defineCluster h s c).1 := by
  have hda : Nearest [] some := fun me => rfl
  refine (visits_assignController hda).append ?_
  simp only [defineCluster, reverse_reverse]
  exact visits_mapAccum (fun s r => visits_row s r) _ _

end

/-! ## What is not changed -/

section
variable {h : Host} {s : Defining} {cluster row rack : Node} (above : List Node) (sys : System)

theorem erase_assignController (n : Node) (daemon : ProcName → Option ProcName) :
    (assignController h n daemon s).2.erase = n.erase := by
  rw [assignController]
  split <;> rfl

theorem erase_node (s : Defining) (n : Node) :
    (defineNode h cluster row rack s n).2.erase = n.erase := rfl

theorem erase_scheduler (s : Defining) (d : Scheduler) :
    (defineScheduler h s d).2.erase = d.erase := rfl

theorem erase_rack (s : Defining) (r : Rack) :
    (defineRack h cluster row s r).2.erase = r.erase := by
  simp only [defineRack, Rack.erase, erase_assignController]
  rw [mapAccum_map (fun s n => erase_node s n)]

theorem erase_row (s : Defining) (r : Row) : (defineRow h cluster s r).2.erase = r.erase := by
  simp only [defineRow, Row.erase, erase_assignController, map_reverse]
  rw [mapAccum_map (fun s r => erase_rack s r), map_reverse, reverse_reverse]

theorem erase_cluster (s : Defining) (c : Cluster) : (defineCluster h s c).2.erase = c.erase := by
  simp only [defineCluster, Cluster.erase, erase_assignController, map_reverse]
  rw [mapAccum_map (fun s r => erase_row s r), map_reverse, reverse_reverse]

theorem erase_system (h : Host) (p : Proc) (sys : System) :
    (defineSystem h p sys).system.erase = sys.erase := by
  simp only [defineSystem, System.erase]
  rw [mapAccum_map (fun s c => erase_cluster s c), mapAccum_map (fun s d => erase_scheduler s d)]

theorem places_rack (r : Rack) :
    r.erase.places (above.map Node.erase) = (r.places above).map Place.erase := by
  simp [Rack.places, Rack.erase, Place.erase]

theorem places_row (r : Row) :
    r.erase.places (above.map Node.erase) = (r.places above).map Place.erase := by
  simp only [Row.places, Row.erase, ← map_reverse, flatMap_map, map_cons, map_flatMap,
    ← places_rack]
  rfl

theorem places_cluster (c : Cluster) : c.erase.places = c.places.map Place.erase := by
  simp only [Cluster.places, Cluster.erase, ← map_reverse, flatMap_map, map_cons,
    map_flatMap, ← places_row]
  rfl

theorem places_system : sys.erase.places = sys.places.map Place.erase := by
  simp only [System.places, System.erase, flatMap_map, map_append, map_flatMap,
    places_cluster, map_map]
  rfl

theorem length_processes : sys.processes.length = sys.erase.processes.length := by
  have hco : (Place.counted ∘ Place.erase) = Place.counted := rfl
  rw [System.processes, System.processes, places_system, filter_map, hco, length_map]

end

/-- The first number: 0 is a scheduler's, or left for `orun`. -/
def firstNumber (sys : System) : Nat := if sys.schedulers.isEmpty then 1 else 0

theorem defineSystem_visits (h : Host) (p : Proc) (sys : System) :
    ∃ found, Visits h (defineSystem h p sys).system.places ⟨firstNumber sys, false, none, p⟩
      ⟨(defineSystem h p sys).numProcs, found, (defineSystem h p sys).mynode,
        (defineSystem h p sys).proc⟩ := by
  have hsc :
    ∀ s, Visits h ((mapAccum (defineScheduler h) s sys.schedulers).2.map fun d =>
    ⟨.scheduler, d.controller, []⟩) s
      (mapAccum (defineScheduler h) s sys.schedulers).1 := by
    intro s
    rw [map_eq_flatMap]
    exact visits_mapAccum (fun s d => visits_scheduler s d) _ _
  have hcl : ∀ s, Visits h ((mapAccum (defineCluster h) s sys.clusters).2.flatMap Cluster.places) s
      (mapAccum (defineCluster h) s sys.clusters).1 :=
    fun s => visits_mapAccum (fun s c => visits_cluster s c) _ _
  cases hem : sys.schedulers with
  | nil =>
    simp only [defineSystem, firstNumber, System.places, hem]
    exact ⟨_, hcl ⟨1, false, none, p⟩⟩
  | cons d ds =>
    simp only [defineSystem, firstNumber, System.places]
    rw [show sys.schedulers.isEmpty = false by rw [hem]; rfl]
    exact ⟨_, (hsc _).append (hcl _)⟩

/-- What the URIs need: every process has a name, and a scheduler or an aggregator a port. -/
def System.Reachable (sys : System) : Prop :=
  ∀ q ∈ sys.processes, q.node.name ≠ none ∧ (q.hasUri = true → q.node.config.port ≠ none)

instance (sys : System) : Decidable sys.Reachable :=
  inferInstanceAs (Decidable (∀ q ∈ sys.processes, _))

/-- Naming the processes changes nothing that a URI needs. -/
theorem returns_eq (h : Host) (p : Proc) (sys : System) :
    (defineSystem h p sys).returns = sys.places.all fun q =>
      !q.hasUri || h.constructUri q.node := by
  have hall : ∀ s : System, (s.places.all fun q => !q.hasUri || h.constructUri q.node) =
      s.erase.places.all fun q => !q.hasUri || h.constructUri q.node := by
    intro s
    rw [places_system, all_map]
    rfl
  show (defineSystem h p sys).system.places.all _ = _
  rw [hall, erase_system, ← hall]

theorem returns_of_reachable {h : Host} (p : Proc) {sys : System} (hname : h.nodename ≠ none)
    (hr : sys.Reachable) :
    (defineSystem h p sys).returns = true := by
  rw [returns_eq]
  refine all_eq_true.2 fun q hq => ?_
  cases huri : q.hasUri with
  | false => rfl
  | true =>
    have hcounted : q.counted = true := by
      rw [Place.hasUri] at huri
      rw [Place.counted]
      cases hro : q.role <;> simp_all
    obtain ⟨hn, hport⟩ := hr q (mem_filter.2 ⟨hq, hcounted⟩)
    obtain ⟨name, hn'⟩ := Option.ne_none_iff_exists'.1 hn
    obtain ⟨port, hp'⟩ := Option.ne_none_iff_exists'.1 (hport huri)
    obtain ⟨nodename, hno⟩ := Option.ne_none_iff_exists'.1 hname
    simp [Host.constructUri, hn', hno, hp']

theorem search_defineSystem (h : Host) (p : Proc) (sys : System) :
    ((defineSystem h p sys).mynode, (defineSystem h p sys).proc) =
      match (defineSystem h p sys).system.places.find? h.finds with
      | none => (none, p)
      | some q => (some q.node, h.settle p q) := by
  obtain ⟨found, hv⟩ := defineSystem_visits h p sys
  exact hv.search

/-- **The processes are numbered one after the other, and the own daemon is the nearest
controller.** -/
theorem defineSystem_processes (h : Host) (p : Proc) (sys : System) (hname : h.nodename ≠ none)
    (hr : sys.Reachable) :
    (defineSystem h p sys).returns = true ∧
    (defineSystem h p sys).system.erase = sys.erase ∧
    (defineSystem h p sys).system.processes.map (fun q => q.node.daemon) =
      (List.range' (firstNumber sys) sys.processes.length).map (fun v => some ⟨0, v⟩) ∧
    (defineSystem h p sys).numProcs = firstNumber sys + sys.processes.length ∧
    ((defineSystem h p sys).mynode, (defineSystem h p sys).proc) =
      match (defineSystem h p sys).system.places.find? h.finds with
      | none => (none, p)
      | some q => (some q.node, h.settle p q) := by
  obtain ⟨found, hv⟩ := defineSystem_visits h p sys
  have her := erase_system h p sys
  have hl : (defineSystem h p sys).system.processes.length = sys.processes.length := by
    rw [length_processes, her, ← length_processes]
  have hco := congrArg length hv.numbers
  rw [length_map, length_map, length_range'] at hco
  change (defineSystem h p sys).system.processes.length =
    (defineSystem h p sys).numProcs - firstNumber sys at hco
  have hle : firstNumber sys ≤ (defineSystem h p sys).numProcs := hv.le
  refine ⟨returns_of_reachable p hname hr, her, ?_, by omega, search_defineSystem h p sys⟩
  have hnu := hv.numbers
  simp only [← hco, hl] at hnu
  exact hnu

/-- One scheduler, on the host `s` with the port 1. -/
def loneScheduler : System :=
  ⟨[⟨⟨some ['s'], none, ⟨[], [], some ['1'], false⟩, stateUnknown, 0⟩, []⟩], []⟩

/-- The process of a scheduler on the host `s`. -/
def schedulerHost : Host := ⟨.scheduler, 0, some ['s'], none, fun n => n.getD [], fun _ => true⟩

theorem defineSystem_processes_lone :
    (defineSystem schedulerHost ⟨none, none, false⟩ loneScheduler).returns = true ∧
      (defineSystem schedulerHost ⟨none, none, false⟩ loneScheduler).numProcs = 1 := by
  obtain ⟨hre, -, -, hn, -⟩ :=
    defineSystem_processes schedulerHost ⟨none, none, false⟩ loneScheduler (by decide) (by decide)
  exact ⟨hre, hn⟩

/-- A scheduler finds itself, and its daemon stays invalid. -/
theorem loneScheduler_daemon :
    (defineSystem schedulerHost ⟨none, none, false⟩ loneScheduler).returns = true ∧
    (defineSystem schedulerHost ⟨none, none, false⟩ loneScheduler).mynode.isSome = true ∧
    (defineSystem schedulerHost ⟨none, none, false⟩ loneScheduler).proc =
    ⟨some ⟨0, 0⟩, none, false⟩ := by
  decide

/-! ## The head process (`orcm/mca/cfgi/file30/cfgi_file30.c:538-768`)

Where a daemon finds itself, `ORTE_PROC_MY_HNP` becomes the name of `scheduler`, the variable of
the loop over the schedulers, if that is not `NULL`, and the own name otherwise. The loop leaves
the head of the list there, with or without schedulers. -/

/-- The name of the head process after the pass, `hnp` before it. Behind the head of the list
memory holds `beyond`. -/
def myHnp (h : Host) (p : Proc) (sys : System) (beyond hnp : ProcName) : ProcName :=
  if h.type = .daemon ∧ (defineSystem h p sys).mynode.isSome then beyond else hnp

/-- It is a scheduler if there are any, and the process itself otherwise. -/
def System.IsHnp (sys : System) (me : Option ProcName) (hnp : ProcName) : Prop :=
  if sys.schedulers = [] then me = some hnp else ∃ d ∈ sys.schedulers,
    d.controller.daemon = some hnp

theorem map_daemon_schedulers (h : Host) (l : List Scheduler) (s : Defining) :
    ((mapAccum (defineScheduler h) s l).2.map fun d => d.controller.daemon) =
      (range' s.vpid l.length).map fun v => some ⟨0, v⟩ := by
  induction l generalizing s with
  | nil => rfl
  | cons d l ih => exact congrArg (some ⟨0, s.vpid⟩ :: ·) (ih (defineScheduler h s d).1)

theorem isHnp_defineSystem (h : Host) (p : Proc) (sys : System) (me : Option ProcName)
    (hnp : ProcName) :
    (defineSystem h p sys).system.IsHnp me hnp ↔
      if sys.schedulers = [] then me = some hnp else hnp.jobid = 0 ∧
      hnp.vpid < sys.schedulers.length := by
  have hna := map_daemon_schedulers h sys.schedulers ⟨0, false, none, p⟩
  change (defineSystem h p sys).system.schedulers.map _ = _ at hna
  have hle := congrArg length hna
  simp only [length_map, length_range'] at hle
  have hnil : (defineSystem h p sys).system.schedulers = [] ↔ sys.schedulers = [] := by
    rw [← length_eq_zero_iff, hle, length_eq_zero_iff]
  have hmem : (∃ d ∈ (defineSystem h p sys).system.schedulers, d.controller.daemon = some hnp) ↔
      hnp.jobid = 0 ∧ hnp.vpid < sys.schedulers.length := by
    rw [← mem_map (f := fun d : Scheduler => d.controller.daemon), hna]
    simp only [mem_map, mem_range'_1, Option.some.injEq, Nat.zero_le, true_and, Nat.zero_add]
    constructor
    · rintro ⟨v, hv, rfl⟩
      exact ⟨rfl, hv⟩
    · rintro ⟨hjob, hv⟩
      exact ⟨hnp.vpid, hv, by rw [← hjob]⟩
  simp only [System.IsHnp, hnil, hmem]

theorem schedulers_ne_nil {h : Host} {p : Proc} {sys : System} {q : Place}
    (hq : q ∈ (defineSystem h p sys).system.places) (hrole : q.role = .scheduler) :
    sys.schedulers ≠ [] := by
  intro hnil
  have hmem : q.erase ∈ sys.erase.places := by
    rw [← erase_system h p sys, places_system]
    exact mem_map_of_mem hq
  have hpl : sys.erase.places = (sys.clusters.map Cluster.erase).flatMap Cluster.places := by
    rw [System.places, System.erase, hnil]
    rfl
  rw [hpl] at hmem
  obtain ⟨c, -, hc⟩ := mem_flatMap.1 hmem
  have hro : ∀ q ∈ c.places, q.role ≠ .scheduler := by
    simp only [Cluster.places, Row.places, Rack.places, mem_cons, mem_flatMap, mem_map]
    rintro q (rfl | ⟨row, -, rfl | ⟨rack, -, rfl | ⟨n, -, rfl⟩⟩⟩) <;> simp
  exact hro _ hc hrole

/-- **The head process of one that found itself** is right, whatever memory holds behind the head
of the list, exactly if it is a scheduler and had a configured one for its head process before. -/
theorem myHnp_right_iff (h : Host) (p : Proc) (sys : System) (hnp : ProcName) (q : Place)
    (hq : (defineSystem h p sys).system.places.find? h.finds = some q) :
    (∀ beyond, (defineSystem h p sys).system.IsHnp (defineSystem h p sys).proc.name
      (myHnp h p sys beyond hnp)) ↔
      h.type = .scheduler ∧ hnp.jobid = 0 ∧ hnp.vpid < sys.schedulers.length := by
  have hse := search_defineSystem h p sys
  rw [hq] at hse
  obtain ⟨hm, hpr⟩ := Prod.mk.inj hse
  have htype : h.type = q.role.procType := by
    have hf := find?_some hq
    simp only [Host.finds, Bool.and_eq_true, decide_eq_true_eq] at hf
    exact hf.1.2
  simp only [isHnp_defineSystem, myHnp, hm, Option.isSome_some, and_true]
  by_cases hrole : q.role = .scheduler
  · have hsch : h.type = .scheduler := by rw [htype, hrole]; rfl
    simp only [hsch, schedulers_ne_nil (mem_of_find?_eq_some hq) hrole, reduceCtorEq,
      if_false, true_and]
    exact ⟨fun hall => hall hnp, fun hright _ => hright⟩
  · have hdae : h.type = .daemon := by
      rw [htype]
      cases hro : q.role with
      | scheduler => exact absurd hro hrole
      | controller | node => rfl
    simp only [hdae, if_true, reduceCtorEq, false_and, iff_false]
    intro hall
    -- two different names cannot both be the own one, and the second has the job of no scheduler
    have h1 := hall ⟨1, 0⟩
    have h2 := hall ⟨1, 1⟩
    split at h1
    · rw [if_pos ‹_›, h1] at h2
      cases h2
    · exact absurd h1.1 (by decide)

/-- A scheduler, and a cluster with a controller on the host `c`. -/
def controlled : System :=
  { loneScheduler with clusters := [⟨none,
    ⟨some ['c'], none, ⟨[], [], none, false⟩, stateUnknown, 0⟩, []⟩] }

def controllerHost : Host := { schedulerHost with type := .daemon, nodename := some ['c'] }

theorem myHnp_right_iff_lone :
    (defineSystem schedulerHost ⟨none, none, false⟩ loneScheduler).system.IsHnp (some ⟨0, 0⟩)
      (myHnp schedulerHost ⟨none, none, false⟩ loneScheduler ⟨7, 7⟩ ⟨0, 0⟩) :=
  (myHnp_right_iff schedulerHost ⟨none, none, false⟩ loneScheduler ⟨0, 0⟩ _ (by rfl)).2
    (by decide) ⟨7, 7⟩

/-- The controller finds itself, and has for its head process what memory holds. -/
theorem hnp_beyond_schedulers :
    (defineSystem controllerHost ⟨none, none, false⟩ controlled).returns = true ∧
      (defineSystem controllerHost ⟨none, none, false⟩ controlled).proc.name = some ⟨0, 1⟩ ∧
      myHnp controllerHost ⟨none, none, false⟩ controlled ⟨7, 7⟩ ⟨0, 0⟩ = ⟨7, 7⟩ ∧
      ¬ (defineSystem controllerHost ⟨none, none, false⟩ controlled).system.IsHnp
      (some ⟨0, 1⟩) ⟨7, 7⟩ := by
  refine ⟨by decide, by decide, by decide, ?_⟩
  rw [isHnp_defineSystem]
  decide

end Sensys.Cfgi.Topology
