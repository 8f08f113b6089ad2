import Sensys.Routed.RoutingTree
/-!
# Children, parents and relatives of all the daemons

Every daemon goes through the same buffer. The names in it are different (`System.forest`,
`nodup_forest`), so what one daemon takes for its children is what their daemons take for their
parent.
-/
namespace Sensys.Routed
open Cfgi.Topology Hier Lists List

/-- The forest of which `initRoutes` reads the names. -/
def forest (sys : System) : Hier ProcName :=
  match sys.clusters with
  | [] => .nil
  | c :: _ => routing (sys.schedulers.head?.bind fun d => d.controller.daemon) c

/-! ## The names in the forest -/

def names (ps : List Place) : List ProcName := ps.filterMap fun p => p.node.daemon

section
variable {above : List Node}

theorem labels_nodesHier (l : List Node) :
    (nodesHier l).labels = names (l.map fun n => ⟨.node, n, above⟩) := by
  induction l with
  | nil => rfl
  | cons n l ih =>
    rw [nodesHier, foldr_cons, labels, ← nodesHier, @ih]
    cases hn : n.daemon <;> simp [names, labels, hn]

theorem labels_cons_controller (n : Node) (F G : Hier ProcName) (ps qs : List Place)
    (hF : F.labels = names ps) (hG : G.labels = names qs) :
    (Hier.cons n.daemon F G).labels = names ((⟨.controller, n, above⟩ :: ps) ++ qs) := by
  rw [labels, hF, hG]
  cases hn : n.daemon <;> simp [names, hn]

theorem labels_racksHier (l : List Rack) :
    (racksHier l).labels = names (l.flatMap (Rack.places above)) := by
  induction l with
  | nil => rfl
  | cons r l ih => exact labels_cons_controller _ _ _ _ _ (labels_nodesHier r.nodes) ih

theorem labels_rowsHier (l : List Row) :
    (rowsHier l).labels = names (l.flatMap (Row.places above)) := by
  induction l with
  | nil => rfl
  | cons r l ih => exact labels_cons_controller _ _ _ _ _ (labels_racksHier r.racks.reverse) ih

theorem labels_clusterHier (c : Cluster) : (clusterHier c).labels = names c.places := by
  rw [← append_nil c.places]
  exact labels_cons_controller _ _ _ _ _ (labels_rowsHier c.rows.reverse) rfl

end

theorem labels_forest_sublist (sys : System) : (forest sys).labels.Sublist (names sys.places) := by
  rw [forest, names, System.places, filterMap_append]
  cases sys.clusters with
  | nil => exact nil_sublist _
  | cons c cs =>
    rw [flatMap_cons, filterMap_append]
    simp only [routing, labels, labels_clusterHier]
    refine List.Sublist.append ?_ (List.Sublist.append (List.Sublist.refl _) (nil_sublist _))
    cases sys.schedulers with
    | nil => exact nil_sublist _
    | cons d ds =>
      cases hd : d.controller.daemon with
      | none | some n => simp [hd]

theorem initRoutes_settled {sys : System} {me : ProcName} {leftover : Option ProcName}
    (hno : (forest sys).labels.Nodup) (hna : ∀ c ∈ sys.clusters, NodesNamed c)
    (hsc : ∀ d ∈ sys.schedulers, d.controller.daemon.isSome = true)
    (hc : sys.clusters ≠ []) (hl : sys.schedulers = [] → leftover ≠ some me) :
    ∃ r, initRoutes me leftover none sys.pack = .ok r ∧ Settled (forest sys) me r := by
  obtain ⟨scheds, clusters⟩ := sys
  cases clusters with
  | nil => exact absurd rfl hc
  | cons c cs =>
    have hf : NodesNamed c := hna c mem_cons_self
    cases scheds with
    | nil =>
      obtain ⟨r, hr, hse⟩ := @initCluster_settled me none c (cs.flatMap Cluster.pack) hno hf
      refine ⟨r, ?_, hse⟩
      rw [← hr, System.pack, map_nil, initRoutes, decide_eq_false (hl rfl)]
      rfl
    | cons d ds =>
      obtain ⟨n, hn⟩ := Option.isSome_iff_exists.1 (hsc d mem_cons_self)
      have hfo : forest ⟨d :: ds, c :: cs⟩ = routing (some n) c := by
        rw [← hn]
        rfl
      rw [hfo] at hno ⊢
      obtain ⟨r, hr, hse⟩ := @initCluster_settled me (some n) c (cs.flatMap Cluster.pack) hno hf
      refine ⟨r, ?_, hse⟩
      rw [← hr, System.pack, map_cons, hn, initRoutes]
      simp only [flatMap_cons, Option.some.injEq]

/-! ## Only processes have names -/

section
variable {h : Host} {s : Defining} {cluster row : Node} {above above' : List Node} {q : Place}

theorem uncounted_controller {n : Node} {daemon : ProcName → Option ProcName} (hf : n.daemon = none)
    (hq : Place.counted ⟨.controller, (assignController h n daemon s).2, above⟩ = false) :
    (assignController h n daemon s).2.daemon = none := by
  cases hn : n.present with
  | false =>
    rw [assignController, hn]
    exact hf
  | true =>
    have hpr : (assignController h n daemon s).2.present = true := by
      rw [assignController, if_pos hn]
      exact hn
    rw [Place.counted, hpr] at hq
    cases hq

theorem uncounted_rack {r : Rack} (hf : ∀ p ∈ r.places above, p.node.daemon = none)
    (hmem : q ∈ (defineRack h cluster row s r).2.places above') (hq : q.counted = false) :
    q.node.daemon = none := by
  rcases mem_cons.1 hmem with rfl | hno
  · exact uncounted_controller (hf _ mem_cons_self) hq
  · obtain ⟨n, -, rfl⟩ := mem_map.1 hno
    cases hq

theorem uncounted_row {r : Row} (hf : ∀ p ∈ r.places above, p.node.daemon = none)
    (hmem : q ∈ (defineRow h cluster s r).2.places above') (hq : q.counted = false) :
    q.node.daemon = none := by
  rcases mem_cons.1 hmem with rfl | hra
  · exact uncounted_controller (hf _ mem_cons_self) hq
  · simp only [defineRow, reverse_reverse] at hra
    obtain ⟨rack', hra', hq'⟩ := mem_flatMap.1 hra
    obtain ⟨rack, hra, s', rfl⟩ := exists_of_mem_mapAccum hra'
    exact uncounted_rack (fun p hp =>
      hf p (mem_cons_of_mem _ (mem_flatMap.2 ⟨rack, hra, hp⟩))) hq' hq

theorem uncounted_cluster {c : Cluster} (hf : ∀ p ∈ c.places, p.node.daemon = none)
    (hmem : q ∈ (defineCluster h s c).2.places) (hq : q.counted = false) :
    q.node.daemon = none := by
  rcases mem_cons.1 hmem with rfl | hrow
  · exact uncounted_controller (hf _ mem_cons_self) hq
  · simp only [defineCluster, reverse_reverse] at hrow
    obtain ⟨row', hrow', hq'⟩ := mem_flatMap.1 hrow
    obtain ⟨row, hrow, s', rfl⟩ := exists_of_mem_mapAccum hrow'
    exact uncounted_row (fun p hp =>
      hf p (mem_cons_of_mem _ (mem_flatMap.2 ⟨row, hrow, hp⟩))) hq' hq

end

section
variable (h : Host) (p : Proc) (sys : Parsed)

/-- With the names that the processes get. -/
abbrev defined : System := (defineSystem h p sys.system).system

theorem uncounted_system {q : Place} (hmem : q ∈ (defined h p sys).places)
    (hq : q.counted = false) :
    q.node.daemon = none := by
  rcases mem_append.1 hmem with hsc | hcl
  · obtain ⟨d, -, rfl⟩ := mem_map.1 hsc
    cases hq
  · obtain ⟨c', hc', hq'⟩ := mem_flatMap.1 hcl
    obtain ⟨c, hc, s', rfl⟩ := exists_of_mem_mapAccum hc'
    exact uncounted_cluster
      (fun p hp => sys.fresh p (mem_append_right _ (mem_flatMap.2 ⟨c, hc, hp⟩))) hq' hq

theorem names_processes : ∃ n, names (defined h p sys).places =
    (List.range' (firstNumber sys.system) n).map fun v => ⟨0, v⟩ := by
  obtain ⟨found, hv⟩ := defineSystem_visits h p sys.system
  refine ⟨(defineSystem h p sys.system).numProcs - firstNumber sys.system, ?_⟩
  have hf : ∀ q ∈ (defined h p sys).places,
      q.node.daemon = if q.counted then q.node.daemon else none := by
    intro q hmem
    split
    · rfl
    · rename_i hq
      exact uncounted_system h p sys hmem (by simpa using hq)
  have hnu := congrArg (List.filterMap id) hv.numbers
  rw [filterMap_map, filterMap_map, filterMap_filter] at hnu
  rw [names, filterMap_congr hf]
  simpa [filterMap_eq_map] using hnu

theorem nodup_forest : (forest (defined h p sys)).labels.Nodup := by
  obtain ⟨n, hn⟩ := names_processes h p sys
  refine (labels_forest_sublist _).nodup ?_
  rw [hn]
  exact List.Pairwise.map _ (fun a b hne heq => hne (ProcName.mk.inj heq).2) nodup_range'

theorem jobid_forest {a : ProcName} (ha : a ∈ (forest (defined h p sys)).labels) :
    a = ⟨0, a.vpid⟩ := by
  obtain ⟨n, hn⟩ := names_processes h p sys
  have hmem := (labels_forest_sublist _).subset ha
  rw [hn] at hmem
  obtain ⟨v, -, rfl⟩ := mem_map.1 hmem
  rfl

theorem exists_daemon {q : Place} (hmem : q ∈ (defined h p sys).places) (hq : q.counted = true) :
    ∃ v, q.node.daemon = some ⟨0, v⟩ := by
  obtain ⟨found, hvi⟩ := defineSystem_visits h p sys.system
  have hda := mem_map_of_mem (f := fun p : Place => p.node.daemon) (mem_filter.2 ⟨hmem, hq⟩)
  rw [hvi.numbers] at hda
  obtain ⟨v, -, hv⟩ := mem_map.1 hda
  exact ⟨v, hv.symm⟩

theorem nodesNamed {c : Cluster} (hc : c ∈ (defined h p sys).clusters) : NodesNamed c := by
  intro row hrow rack hra n hn
  have hpl : (⟨.node, n, [rack.controller, row.controller, c.controller]⟩ : Place) ∈ c.places := by
    refine mem_cons_of_mem _ (mem_flatMap.2 ⟨row, mem_reverse.2 hrow, ?_⟩)
    refine mem_cons_of_mem _ (mem_flatMap.2 ⟨rack, mem_reverse.2 hra, ?_⟩)
    exact mem_cons_of_mem _ (mem_map.2 ⟨n, hn, rfl⟩)
  obtain ⟨v, hv⟩ := exists_daemon h p sys (mem_append_right _ (mem_flatMap.2 ⟨c, hc, hpl⟩)) rfl
  exact Option.isSome_of_eq_some hv

/-- The routes of the daemon `v`, where `leftover` is what it reads if there is no scheduler. -/
def routesOf (leftover : Nat → Option ProcName) (v : Nat) : Except RouteError Routes :=
  initRoutes ⟨0, v⟩ (leftover v) none (defineSystem h p sys.system).buf

variable {leftover : Nat → Option ProcName}

theorem routesOf_settled (hc : sys.system.clusters ≠ [])
    (hl : sys.system.schedulers = [] → ∀ v, leftover v ≠ some ⟨0, v⟩) (v : Nat) :
    ∃ r, routesOf h p sys leftover v = .ok r ∧ Settled (forest (defined h p sys)) ⟨0, v⟩ r := by
  have her := erase_system h p sys.system
  refine initRoutes_settled (nodup_forest h p sys) (fun c => nodesNamed h p sys)
    (fun d hd => ?_) (fun hnil => hc ?_) (fun hnil => hl ?_ v)
  · obtain ⟨v, hv⟩ :=
      @exists_daemon h p sys ⟨.scheduler, d.controller, []⟩
      (mem_append_left _ (mem_map.2 ⟨d, hd, rfl⟩)) rfl
    exact Option.isSome_of_eq_some hv
  · change (defined h p sys).clusters = [] at hnil
    have hcl := congrArg System.clusters her
    rw [System.erase, hnil] at hcl
    exact map_eq_nil_iff.1 hcl.symm
  · change (defined h p sys).schedulers = [] at hnil
    have hsc := congrArg System.schedulers her
    rw [System.erase, hnil] at hsc
    exact map_eq_nil_iff.1 hsc.symm

end

/-! ## Each daemon by the routes of the others -/

section
variable {F : Hier ProcName} {r : Routes} {a b : Nat}

theorem Settled.mem_children_iff {me : ProcName} (hr : Settled F me r) (hF : F.labels.Nodup)
    {c : Child} :
    c ∈ r.children ↔ ∃ n G, Parent F n me ∧ Below F n G ∧ c = toChild (n, G.labels) := by
  constructor
  · intro hc
    by_cases hme : me ∈ F.labels
    · obtain ⟨G, hG⟩ := mem_labels_iff.1 hme
      rw [hr.below G hG] at hc
      obtain ⟨⟨n, l⟩, hkid, rfl⟩ := mem_map.1 hc
      obtain ⟨H, hH, rfl⟩ := exists_below_of_mem_kids hkid
      exact ⟨n, H, ⟨G, hG, mem_map.2 ⟨_, hkid, rfl⟩⟩, hG.trans hH, rfl⟩
    · rw [hr.outside hme] at hc
      cases hc
  · rintro ⟨n, H, ⟨G, hG, htop⟩, hH, rfl⟩
    obtain ⟨⟨m, l⟩, hkid, rfl⟩ := mem_map.1 htop
    obtain ⟨H', hH', rfl⟩ := exists_below_of_mem_kids hkid
    rw [hr.below G hG, hH.unique hF (hG.trans hH')]
    exact mem_map_of_mem hkid

theorem Settled.child_iff (hr : Settled F ⟨0, b⟩ r) (hjob : ∀ n ∈ F.labels, n = ⟨0, n.vpid⟩)
    (hF : F.labels.Nodup) :
    (∃ c ∈ r.children, c.vpid = some a) ↔ Parent F ⟨0, a⟩ ⟨0, b⟩ := by
  constructor
  · rintro ⟨c, hc, hv⟩
    obtain ⟨n, G, hpar, hG, rfl⟩ := (hr.mem_children_iff hF).1 hc
    have hn : n.vpid = a := Option.some.inj hv
    rwa [hjob n hG.mem_labels, hn] at hpar
  · intro hpar
    obtain ⟨G, hG⟩ := mem_labels_iff.1 hpar.under.mem_left
    exact ⟨_, (hr.mem_children_iff hF).2 ⟨_, G, hpar, hG, rfl⟩, rfl⟩

theorem Settled.parent_iff (hr : Settled F ⟨0, a⟩ r) (hF : F.labels.Nodup) :
    a ≠ b ∧ r.parent = some ⟨0, b⟩ ↔ Parent F ⟨0, a⟩ ⟨0, b⟩ := by
  constructor
  · rintro ⟨hne, hpa⟩
    rcases hr.parent with ⟨q, hq, hpar⟩ | ⟨-, hnon | hse⟩
    · rw [hpa] at hq
      cases hq
      exact hpar
    · rw [hpa] at hnon
      cases hnon
    · rw [hpa] at hse
      cases hse
      exact absurd rfl hne
  · intro hpar
    refine ⟨?_, ?_⟩
    · rintro rfl
      exact hpar.under.ne hF rfl
    · rcases hr.parent with ⟨q, hq, hpar'⟩ | ⟨hno, -⟩
      · rw [hq, hpar'.unique hF hpar]
      · exact absurd hpar (hno _)

theorem Settled.relatives (hr : Settled F ⟨0, b⟩ r) (hjob : ∀ n ∈ F.labels, n = ⟨0, n.vpid⟩)
    (hF : F.labels.Nodup) {c : Child} (hc : c ∈ r.children) :
    ∃ a, c.vpid = some a ∧ ∀ d, d ∈ c.relatives ↔ Under F ⟨0, d⟩ ⟨0, a⟩ := by
  obtain ⟨n, G, -, hG, rfl⟩ := (hr.mem_children_iff hF).1 hc
  rw [hjob n hG.mem_labels] at hG
  refine ⟨n.vpid, rfl, fun d => ⟨fun hd => ?_, ?_⟩⟩
  · obtain ⟨m, hm, rfl⟩ := mem_map.1 hd
    refine ⟨G, hG, ?_⟩
    rwa [hjob m (hG.labels_subset hm)] at hm
  · rintro ⟨H, hH, hd⟩
    rw [hH.unique hF hG] at hd
    exact mem_map.2 ⟨_, hd, rfl⟩

end

/-- Another daemon is the parent of `a`. -/
def ParentOf (routes : Nat → Routes) (a b : Nat) : Prop := a ≠ b ∧ (routes a).parent = some ⟨0, b⟩

theorem transGen_parentOf {F : Hier ProcName} {routes : Nat → Routes} (hF : F.labels.Nodup)
    (hjob : ∀ n ∈ F.labels, n = ⟨0, n.vpid⟩) (hr : ∀ v, Settled F ⟨0, v⟩ (routes v)) (a b : Nat) :
    Relation.TransGen (ParentOf routes) a b ↔ Under F ⟨0, a⟩ ⟨0, b⟩ := by
  have hpa : ∀ a b, ParentOf routes a b ↔ Parent F ⟨0, a⟩ ⟨0, b⟩ := fun a b => (hr a).parent_iff hF
  rw [under_iff_transGen hF]
  constructor
  · exact Relation.TransGen.lift (fun v => (⟨0, v⟩ : ProcName)) (fun a b hab => (hpa a b).1 hab) a b
  · refine Relation.TransGen.lift ProcName.vpid (fun m n hmn => ?_) ⟨0, a⟩ ⟨0, b⟩
    change ParentOf routes m.vpid n.vpid
    rw [hpa, ← hjob m hmn.under.mem_left, ← hjob n hmn.under.mem_right]
    exact hmn

/-- **All the daemons agree on the tree.** -/
theorem initRoutes_agree (h : Host) (p : Proc) (sys : Parsed) (leftover : Nat → Option ProcName)
    (hc : sys.system.clusters ≠ [])
    (hl : sys.system.schedulers = [] → ∀ v, leftover v ≠ some ⟨0, v⟩) :
    ∃ routes : Nat → Routes, (∀ v, routesOf h p sys leftover v = .ok (routes v)) ∧
      (∀ a b, (∃ c ∈ (routes b).children, c.vpid = some a) ↔ ParentOf routes a b) ∧
      ∀ b, ∀ c ∈ (routes b).children,
        ∃ a, c.vpid = some a ∧ ∀ d, d ∈ c.relatives ↔ Relation.TransGen (ParentOf routes) d a := by
  choose routes hro hse using routesOf_settled h p sys hc hl
  have hF := nodup_forest h p sys
  have hjob := fun n => @jobid_forest h p sys n
  refine ⟨routes, hro, fun a b => ?_, fun b c hch => ?_⟩
  · rw [(hse b).child_iff hjob hF]
    exact ((hse a).parent_iff hF).symm
  · obtain ⟨a, hv, hrel⟩ := (hse b).relatives hjob hF hch
    refine ⟨a, hv, fun d => ?_⟩
    rw [hrel, transGen_parentOf hF hjob hse]

def plainConfig : Config := ⟨[], [], some ['1'], false⟩

def absentNode : Node := ⟨none, none, plainConfig, stateUndef, 0⟩

def presentNode (name : List Char) : Node := ⟨some name, none, plainConfig, stateUnknown, 0⟩

/-- One row with a controller and a node; there is no scheduler and nothing else has a controller.
-/
def rootRow : Parsed where
  system :=
    ⟨[], [⟨none, absentNode,
    [⟨none, presentNode ['r'], [⟨none, absentNode, [presentNode ['n']]⟩]⟩]⟩]⟩
  fresh := by decide

def someHost : Host := ⟨.daemon, 0, some ['r'], none, fun n => n.getD [], fun _ => true⟩

theorem rootRow_agree :
    ∃ routes : Nat → Routes,
      (∀ v, routesOf someHost ⟨none, none, false⟩ rootRow (fun _ => none) v = .ok (routes v)) ∧
    ∀ a b, (∃ c ∈ (routes b).children, c.vpid = some a) ↔ ParentOf routes a b := by
  obtain ⟨routes, hro, hch, -⟩ :=
    initRoutes_agree someHost ⟨none, none, false⟩ rootRow (fun _ => none) (by decide)
      (fun _ v => by simp)
  exact ⟨routes, hro, hch⟩

/-- The row's controller has itself as its parent, and does not list itself. -/
theorem rootRow_itself :
    routesOf someHost ⟨none, none, false⟩ rootRow (fun _ => none) 1 =
      .ok ⟨some ⟨0, 1⟩, [⟨some 2, []⟩]⟩ := by
  rfl

end Sensys.Routed
