import Sensys.Lib.Hierarchy
import Sensys.Cfgi.Numbering
import Sensys.Routed.InitRoutes
/-!
# The routes are the tree of the daemons

The names that are packed form a forest (`Hier`), in which controllers that are not there have no
label. `initRoutes` goes through it once (`walk`) and collects what is under the own name: the
labels at the top there are the children, and the labels under each of them its relatives
(`Settled`). The parent is the next label above.
-/
namespace Sensys.Routed
open Cfgi.Topology Hier List

def nodesHier (l : List Node) : Hier ProcName := l.foldr (fun n F => .cons n.daemon .nil F) .nil

def racksHier (l : List Rack) : Hier ProcName :=
  l.foldr (fun r F => .cons r.controller.daemon (nodesHier r.nodes) F) .nil

def rowsHier (l : List Row) : Hier ProcName :=
  l.foldr (fun r F => .cons r.controller.daemon (racksHier r.racks.reverse) F) .nil

def clusterHier (c : Cluster) : Hier ProcName :=
  .cons c.controller.daemon (rowsHier c.rows.reverse) .nil

/-- The first scheduler and the first cluster; `initRoutes` reads no more. -/
def routing (sched : Option ProcName) (c : Cluster) : Hier ProcName :=
  .cons sched (clusterHier c) .nil

/-! ## One pass over a forest -/

/-- The own name is not above, or it is the next label above, or there is a label between. -/
inductive Mode where
  | outside
  | direct
  | indirect
deriving DecidableEq

def absorb (mode : Mode) (n : Option ProcName) (r : Routes) : Except RouteError Routes :=
  if n.isSome then
    match mode with
    | .outside => .ok r
    | .direct => .ok (addDirect n r)
    | .indirect => addIndirect n r
  else .ok r

/-- The mode as the code decides it, from two conditions. -/
theorem absorb_ite (c d : Bool) (n : Option ProcName) (r : Routes) :
    absorb (if c then .direct else if d then .indirect else .outside) n r =
      if n.isSome then if c then .ok (addDirect n r) else if d then addIndirect n r else .ok r
      else .ok r := by
  cases c <;> cases d <;> rfl

def enter (me : ProcName) (mode : Mode) (n : Option ProcName) : Mode :=
  if n = some me then .direct
  else if n.isSome ∧ mode = .direct then .indirect
  else mode

/-- The pass; `up` is the next label above, or the scheduler. -/
def walk (me : ProcName) :
    Mode → Option ProcName → Hier ProcName → Routes → Except RouteError Routes
  | _, _, .nil, r => .ok r
  | mode, up, .cons n inner next, r =>
    (absorb mode n r).bind fun r =>
      (walk me (enter me mode n) (n.or up) inner
        (if n = some me then { r with parent := up.or (some me) } else r)).bind fun r =>
        walk me mode up next r

/-! ## The loops are the pass -/

section
variable (k : Known)

def rowMode : Mode :=
  if k.iAmSched && k.cluster.isSome then .indirect
  else if k.iAmCluster || (!k.cluster.isSome && k.iAmSched) then .direct
  else .outside

def rackMode (row : Option ProcName) (iAmRow : Bool) : Mode :=
  if iAmRow || (k.iAmCluster && !row.isSome) ||
    (k.iAmSched && !k.cluster.isSome && !row.isSome) then .direct
  else if k.iAmCluster || k.iAmSched then .indirect
  else .outside

def nodeMode (row rack : Option ProcName) (iAmRow iAmRack : Bool) : Mode :=
  if iAmRack || (iAmRow && !rack.isSome) || (k.iAmCluster && !row.isSome && !rack.isSome) ||
      (k.iAmSched && !k.cluster.isSome && !row.isSome && !rack.isSome) then .direct
  else if iAmRow || k.iAmCluster || k.iAmSched then .indirect
  else .outside

variable {k} (row rack : Option ProcName) (iAmRow iAmRack : Bool) (row : Option ProcName)
  (iAmRow : Bool)

theorem rackMode_eq (hk : k.iAmCluster = true → k.iAmSched = false) (row : Option ProcName) :
    rackMode k row (row = some k.me) = enter k.me (rowMode k) row := by
  by_cases hrow : row = some k.me
  · simp [rackMode, enter, hrow]
  · rw [enter, if_neg hrow, rackMode, rowMode]
    cases hs : k.iAmSched <;> cases hc : k.iAmCluster <;> cases hp : k.cluster.isSome <;>
      cases hr : row.isSome <;> simp_all

theorem nodeMode_eq :
    nodeMode k row rack iAmRow (rack = some k.me) = enter k.me (rackMode k row iAmRow) rack := by
  by_cases hra : rack = some k.me
  · simp [nodeMode, enter, hra]
  · rw [enter, if_neg hra, nodeMode, rackMode]
    cases iAmRow <;> cases hs : k.iAmSched <;> cases hc : k.iAmCluster <;>
      cases hp : k.cluster.isSome <;>
      cases hr : row.isSome <;> cases hk : rack.isSome <;> simp_all

theorem initNode_eq (r : Routes) (n : ProcName) :
    initNode k row rack iAmRow iAmRack r (some n) =
      (absorb (nodeMode k row rack iAmRow iAmRack) (some n) r).map fun r =>
        if some n = some k.me then
          { r with parent := (rack.or (row.or (k.cluster.or k.sched))).or (some k.me) } else r := by
  rw [initNode, nodeMode, absorb_ite]
  simp only [Option.isSome_some, if_true, Option.or_assoc]

theorem initNodes_eq {l : List Node} (hl : ∀ n ∈ l, n.daemon.isSome = true)
    (r : Routes) : initNodes k row rack iAmRow iAmRack r (l.map fun n => .name n.daemon) =
      walk k.me (nodeMode k row rack iAmRow iAmRack) (rack.or (row.or (k.cluster.or k.sched)))
      (nodesHier l) r := by
  induction l generalizing r with
  | nil => rfl
  | cons n l ih =>
    obtain ⟨name, hname⟩ := Option.isSome_iff_exists.1 (hl n mem_cons_self)
    have ih := fun r => ih (forall_mem_cons.1 hl).2 r
    unfold initNodes at ih ⊢
    rw [map_cons, foldlM_cons, nodesHier, foldr_cons, walk]
    simp only [hname, initNode_eq]
    cases absorb (nodeMode k row rack iAmRow iAmRack) (some name) r with
    | error e => rfl
    | ok r => exact ih _

theorem initRack_eq {rack : Rack} (hra : ∀ n ∈ rack.nodes, n.daemon.isSome = true)
    (r : Routes) :
    initRack k row iAmRow r
    (.name rack.controller.daemon :: rack.nodes.map fun n => .name n.daemon) =
      (absorb (rackMode k row iAmRow) rack.controller.daemon r).bind fun r =>
        walk k.me (enter k.me (rackMode k row iAmRow) rack.controller.daemon)
          (rack.controller.daemon.or (row.or (k.cluster.or k.sched))) (nodesHier rack.nodes)
          (if rack.controller.daemon = some k.me then
            { r with parent := (row.or (k.cluster.or k.sched)).or (some k.me) }
            else r) := by
  rw [initRack]
  simp only [initNodes_eq _ _ _ _ hra, nodeMode_eq, Option.or_assoc]
  rw [rackMode, absorb_ite]

theorem initRacks_eq {l : List Rack} (hl : ∀ rack ∈ l, ∀ n ∈ rack.nodes, n.daemon.isSome = true)
    (r : Routes) : initRacks k row iAmRow l.length r (l.map Rack.pack) =
      walk k.me (rackMode k row iAmRow) (row.or (k.cluster.or k.sched)) (racksHier l) r := by
  induction l generalizing r with
  | nil => rfl
  | cons rack l ih =>
    have ih := fun r => ih (forall_mem_cons.1 hl).2 r
    rw [length_cons, map_cons, Rack.pack, initRacks,
      initRack_eq _ _ (hl rack mem_cons_self), racksHier, foldr_cons, walk]
    cases absorb (rackMode k row iAmRow) rack.controller.daemon r with
    | error e => rfl
    | ok r =>
      simp only [Except.bind, ih]
      rfl

variable (hk : k.iAmCluster = true → k.iAmSched = false)
include hk

theorem initRow_eq {row : Row}
    (hrow : ∀ rack ∈ row.racks, ∀ n ∈ rack.nodes, n.daemon.isSome = true) (r : Routes) :
    initRow k r (.int row.racks.length :: .name row.controller.daemon ::
      row.racks.reverse.map Rack.pack) =
      (absorb (rowMode k) row.controller.daemon r).bind fun r =>
        walk k.me (enter k.me (rowMode k) row.controller.daemon)
          (row.controller.daemon.or (k.cluster.or k.sched))
          (racksHier row.racks.reverse)
          (if row.controller.daemon = some k.me then
            { r with parent := (k.cluster.or k.sched).or (some k.me) } else r) := by
  have hra : ∀ rack ∈ row.racks.reverse, ∀ n ∈ rack.nodes, n.daemon.isSome = true :=
    fun rack hrac => hrow rack (mem_reverse.1 hrac)
  rw [initRow, ← length_reverse]
  simp only [initRacks_eq _ _ hra, rackMode_eq hk, Option.or_assoc]
  rw [rowMode]
  cases k.iAmSched <;> cases k.iAmCluster <;> cases k.cluster.isSome <;> rfl

theorem initRows_eq {l : List Row}
    (hl : ∀ row ∈ l, ∀ rack ∈ row.racks, ∀ n ∈ rack.nodes, n.daemon.isSome = true)
    (rest : List Item) (r : Routes) :
    initRows k l.length r (l.map Row.pack ++ rest) =
      walk k.me (rowMode k) (k.cluster.or k.sched) (rowsHier l) r := by
  induction l generalizing r with
  | nil => rfl
  | cons row l ih =>
    have ih := fun r => ih (forall_mem_cons.1 hl).2 r
    rw [length_cons, map_cons, cons_append, Row.pack, initRows,
      initRow_eq hk (hl row mem_cons_self), rowsHier, foldr_cons, walk]
    cases absorb (rowMode k) row.controller.daemon r with
    | error e => rfl
    | ok r =>
      simp only [Except.bind, ih]
      rfl

end

/-! ## What the pass collects -/

def toChild (a : ProcName × List ProcName) : Child := ⟨some a.1.vpid, a.2.map ProcName.vpid⟩

section
variable {me : ProcName} {F G : Hier ProcName} {up : Option ProcName} {n : Option ProcName}
  {mode : Mode}

theorem ne_of_not_mem (h : me ∉ (Hier.cons n F G).labels) :
    n ≠ some me ∧ me ∉ F.labels ∧ me ∉ G.labels := by
  rw [mem_labels_cons, not_or, not_or] at h
  exact h

theorem enter_of_ne (h : n ≠ some me) (hm : mode ≠ .direct) : enter me mode n = mode := by
  rw [enter, if_neg h, if_neg fun hbo => hm hbo.2]

theorem walk_of_ne (h : n ≠ some me) (r : Routes) : walk me mode up (.cons n F G) r =
    (absorb mode n r).bind fun r => (walk me (enter me mode n) (n.or up) F r).bind fun r =>
    walk me mode up G r := by
  simp only [walk, if_neg h]

theorem absorb_outside (n : Option ProcName) (r : Routes) : absorb .outside n r = .ok r := by
  cases n <;> rfl

theorem walk_outside (h : me ∉ F.labels) (r : Routes) : walk me .outside up F r = .ok r := by
  induction F generalizing up with
  | nil => rfl
  | cons n inner next ihi ihn =>
    obtain ⟨hn, hi, hnext⟩ := ne_of_not_mem h
    rw [walk_of_ne hn, absorb_outside, enter_of_ne hn (by decide)]
    simp only [Except.bind, ihi hi, ihn hnext]

theorem walk_indirect (h : me ∉ F.labels) (parent : Option ProcName) (l : List Child) (c : Child) :
    walk me .indirect up F ⟨parent, l ++ [c]⟩ =
      .ok ⟨parent, l ++ [{ c with relatives := c.relatives ++ F.labels.map ProcName.vpid }]⟩ := by
  induction F generalizing up c with
  | nil => simp [walk, labels]
  | cons n inner next ihi ihn =>
    obtain ⟨hn, hi, hnext⟩ := ne_of_not_mem h
    have hab : absorb .indirect n ⟨parent, l ++ [c]⟩ =
        .ok ⟨parent, l ++ [{ c with relatives := c.relatives ++ n.toList.map ProcName.vpid }]⟩ := by
      cases n with
      | none => simp [absorb]
      | some a => simp [absorb, addIndirect, vpid]
    rw [walk_of_ne hn, hab, enter_of_ne hn (by decide)]
    simp only [Except.bind, ihi hi, ihn hnext, labels, map_append, append_assoc]

theorem walk_direct (h : me ∉ F.labels) (r : Routes) :
    walk me .direct up F r = .ok { r with children := r.children ++ F.kids.map toChild } := by
  induction F generalizing up r with
  | nil => simp [walk, kids]
  | cons n inner next ihi ihn =>
    obtain ⟨hn, hi, hnext⟩ := ne_of_not_mem h
    rw [walk_of_ne hn]
    cases n with
    | none =>
      have hen : enter me .direct none = .direct := rfl
      have hab : absorb .direct none r = .ok r := rfl
      rw [hen, hab]
      simp only [Except.bind, ihi hi, ihn hnext, kids, map_append, append_assoc]
    | some a =>
      have hen : enter me .direct (some a) = .indirect := by
        rw [enter, if_neg hn]
        rfl
      have hab : absorb .direct (some a) r = .ok ⟨r.parent, r.children ++ [⟨some a.vpid, []⟩]⟩ :=
        rfl
      rw [hen, hab]
      simp only [Except.bind, walk_indirect hi, ihn hnext, nil_append, kids, map_cons, append_assoc,
        singleton_append]
      rfl

/-- What the own name is above, and the next name above it. -/
theorem walk_below (hF : F.labels.Nodup) (hG : Below F me G) (r : Routes) :
    ∃ q, walk me .outside up F r = .ok ⟨some q, r.children ++ G.kids.map toChild⟩ ∧
      ((me ∈ F.tops ∧ up.or (some me) = some q) ∨ Parent F me q) := by
  induction F generalizing up r with
  | nil => cases hG
  | cons n inner next ihi ihn =>
    obtain ⟨hi, hnext, hl, hdi⟩ := nodup_cons hF
    cases hG with
    | here =>
      obtain ⟨hmi, hmn⟩ := hl me rfl
      obtain ⟨q, hq⟩ : ∃ q, up.or (some me) = some q := by cases up <;> exact ⟨_, rfl⟩
      have hen : enter me .outside (some me) = .direct := by rw [enter, if_pos rfl]
      refine ⟨q, ?_, Or.inl ⟨mem_tops_some.2 (Or.inl rfl), hq⟩⟩
      rw [walk, absorb_outside]
      simp only [Except.bind, hen, if_true, walk_direct hmi, walk_outside hmn, hq]
    | inner hG =>
      have hn : n ≠ some me := fun heq => (hl me heq).1 hG.mem_labels
      have hmn : me ∉ next.labels := hdi me hG.mem_labels
      obtain ⟨q, hwa, hq⟩ := @ihi (n.or up) hi hG r
      refine ⟨q, ?_, ?_⟩
      · rw [walk_of_ne hn, absorb_outside, enter_of_ne hn (by decide)]
        simp only [Except.bind, hwa, walk_outside hmn]
      · rcases hq with ⟨htop, hup⟩ | ⟨H, hH, htop⟩
        · cases n with
          | none => exact Or.inl ⟨mem_tops_none.2 (Or.inl htop), hup⟩
          | some a =>
            cases hup
            exact Or.inr ⟨inner, .here, htop⟩
        · exact Or.inr ⟨H, .inner hH, htop⟩
    | next hG =>
      have hn : n ≠ some me := fun heq => (hl me heq).2 hG.mem_labels
      have hmi : me ∉ inner.labels := fun hmem => hdi me hmem hG.mem_labels
      obtain ⟨q, hwa, hq⟩ := @ihn up hnext hG r
      refine ⟨q, ?_, ?_⟩
      · rw [walk_of_ne hn, absorb_outside, enter_of_ne hn (by decide)]
        simp only [Except.bind, walk_outside hmi, hwa]
      · rcases hq with ⟨htop, hup⟩ | ⟨H, hH, htop⟩
        · exact Or.inl ⟨mem_tops_next _ _ htop, hup⟩
        · exact Or.inr ⟨H, .next hH, htop⟩

end

/-! ## The routes of a daemon -/

/-- The routes are those of the daemon `me` in the forest. -/
structure Settled (F : Hier ProcName) (me : ProcName) (r : Routes) : Prop where
  below   : ∀ G, Below F me G → r.children = G.kids.map toChild
  outside : me ∉ F.labels → r.children = []
  parent  : (∃ q, r.parent = some q ∧ Parent F me q) ∨
    ((∀ q, ¬ Parent F me q) ∧ (r.parent = none ∨ r.parent = some me))

/-- Every node has a name. -/
def NodesNamed (c : Cluster) : Prop :=
  ∀ row ∈ c.rows, ∀ rack ∈ row.racks, ∀ n ∈ rack.nodes, n.daemon.isSome = true

section
variable {me : ProcName} {sched leftover : Option ProcName} {c : Cluster} {rest : List Item}

theorem initCluster_eq (hc : NodesNamed c) (iAmSched : Bool)
    (hsc : iAmSched = true → c.controller.daemon ≠ some me) :
    initCluster me sched iAmSched none (c.pack ++ rest) =
      walk me (enter me (if iAmSched then .direct else .outside) c.controller.daemon)
      (c.controller.daemon.or sched)
        (rowsHier c.rows.reverse)
        ⟨if c.controller.daemon = some me then sched else none,
          if iAmSched then c.controller.daemon.toList.map (fun n => ⟨some n.vpid, []⟩)
          else []⟩ := by
  have hro : ∀ row ∈ c.rows.reverse, ∀ rack ∈ row.racks, ∀ n ∈ rack.nodes, n.daemon.isSome = true :=
    fun row hrow => hc row (mem_reverse.1 hrow)
  rw [Cluster.pack, cons_append, cons_append, initCluster, ← length_reverse]
  rw [initRows_eq (by simp +contextual) hro]
  congr 1
  · rw [rowMode, enter]
    by_cases hme : c.controller.daemon = some me
    · cases iAmSched with
      | true => exact absurd hme (hsc rfl)
      | false => simp [hme]
    · cases iAmSched <;> cases hd : c.controller.daemon <;> simp_all
  · by_cases hme : c.controller.daemon = some me
    · cases iAmSched with
      | true => exact absurd hme (hsc rfl)
      | false => cases hd : sched <;> simp [hme]
    · cases iAmSched <;> cases hd : c.controller.daemon <;> simp_all [addDirect, vpid]

theorem walk_scheduler (hne : c.controller.daemon ≠ some me)
    (hnr : me ∉ (rowsHier c.rows.reverse).labels) (up : Option ProcName) :
    walk me (enter me .direct c.controller.daemon) up (rowsHier c.rows.reverse)
        ⟨none, c.controller.daemon.toList.map (fun n => ⟨some n.vpid, []⟩)⟩ =
      .ok ⟨none, (clusterHier c).kids.map toChild⟩ := by
  rw [clusterHier]
  cases hd : c.controller.daemon with
  | none =>
    rw [kids, kids, append_nil]
    exact walk_direct hnr _
  | some a =>
    have hen : enter me .direct (some a) = .indirect := by
      rw [enter, if_neg (hd ▸ hne)]
      rfl
    rw [hen]
    exact walk_indirect hnr none [] _

theorem outside_settled (hout : me ∉ (routing sched c).labels) :
    Settled (routing sched c) me ⟨none, []⟩ where
  below _ hG := absurd hG.mem_labels hout
  outside _ := rfl
  parent := Or.inr ⟨fun _ hq => hout hq.under.mem_left, Or.inl rfl⟩

variable (hF : (routing sched c).labels.Nodup)
include hF

theorem parent_of_top (htop : me ∈ (clusterHier c).tops) :
    (∃ q, sched = some q ∧ Parent (routing sched c) me q) ∨
      sched = none ∧ ∀ q, ¬ Parent (routing sched c) me q := by
  cases sched with
  | some q => exact Or.inl ⟨q, rfl, clusterHier c, .here, htop⟩
  | none =>
    exact Or.inr ⟨rfl, fun q hq => not_under_of_top hF (mem_tops_none.2 (Or.inl htop)) hq.under⟩

theorem scheduler_settled (hme : sched = some me) :
    Settled (routing sched c) me ⟨none, (clusterHier c).kids.map toChild⟩ := by
  subst hme
  have hbe : Below (routing (some me) c) me (clusterHier c) := .here
  have htop : me ∈ (routing (some me) c).tops := mem_tops_some.2 (Or.inl rfl)
  refine ⟨fun G hG => ?_, fun hout => absurd hbe.mem_labels hout,
    Or.inr ⟨fun q hq => not_under_of_top hF htop hq.under, Or.inl rfl⟩⟩
  rw [hG.unique hF hbe]

theorem controller_settled (hctl : c.controller.daemon = some me) :
    Settled (routing sched c) me ⟨sched, (rowsHier c.rows.reverse).kids.map toChild⟩ := by
  have hbe : Below (routing sched c) me (rowsHier c.rows.reverse) := by
    rw [routing, clusterHier, hctl]
    exact .inner .here
  have htop : me ∈ (clusterHier c).tops := by
    rw [clusterHier, hctl]
    exact mem_tops_some.2 (Or.inl rfl)
  refine ⟨fun G hG => ?_, fun hout => absurd hbe.mem_labels hout, ?_⟩
  · rw [hG.unique hF hbe]
  · obtain hq | ⟨hnon, hno⟩ := parent_of_top hF htop
    · exact Or.inl hq
    · exact Or.inr ⟨hno, Or.inl hnon⟩

/-- A process below the controller of the cluster, with the parent that the walk finds. -/
theorem inside_settled {G : Hier ProcName} (hG : Below (rowsHier c.rows.reverse) me G)
    {q : ProcName}
    (hq : me ∈ (rowsHier c.rows.reverse).tops ∧
    (c.controller.daemon.or sched).or (some me) = some q ∨
      Parent (rowsHier c.rows.reverse) me q) :
    Settled (routing sched c) me ⟨some q, G.kids.map toChild⟩ := by
  have hbe : Below (routing sched c) me G := .inner (.inner hG)
  refine ⟨fun G' hG' => ?_, fun hout => absurd hbe.mem_labels hout, ?_⟩
  · rw [hG'.unique hF hbe]
  rcases hq with ⟨htop, hup⟩ | ⟨H, hH, htop⟩
  · cases hd : c.controller.daemon with
    | some a =>
      rw [hd] at hup
      cases hup
      refine Or.inl ⟨q, rfl, rowsHier c.rows.reverse, ?_, htop⟩
      rw [routing, clusterHier, hd]
      exact .inner .here
    | none =>
      rw [hd] at hup
      have htop' : me ∈ (clusterHier c).tops := by
        rw [clusterHier, hd]
        exact mem_tops_none.2 (Or.inl htop)
      obtain ⟨b, rfl, hb⟩ | ⟨rfl, hno⟩ := parent_of_top hF htop'
      · cases hup
        exact Or.inl ⟨q, rfl, hb⟩
      · cases hup
        exact Or.inr ⟨hno, Or.inr rfl⟩
  · exact Or.inl ⟨q, rfl, H, .inner (.inner hH), htop⟩

/-- **The routes are those of the forest.** -/
theorem initCluster_settled (hc : NodesNamed c) :
    ∃ r, initCluster me sched (sched = some me) none (c.pack ++ rest) = .ok r ∧
      Settled (routing sched c) me r := by
  obtain ⟨hcl, -, hl, -⟩ := nodup_cons hF
  obtain ⟨hro, -, hct, -⟩ := nodup_cons hcl
  have hsc : decide (sched = some me) = true → c.controller.daemon ≠ some me := by
    intro hme heq
    exact (hl me (of_decide_eq_true hme)).1 (mem_labels_cons.2 (Or.inl heq))
  rw [initCluster_eq hc _ hsc]
  by_cases hme : sched = some me
  · obtain ⟨hne, hnr, -⟩ := ne_of_not_mem (hl me hme).1
    refine ⟨_, ?_, scheduler_settled hF hme⟩
    rw [if_neg hne]
    simp only [hme, decide_true, if_true]
    exact walk_scheduler hne hnr _
  · simp only [hme, decide_false, Bool.false_eq_true, if_false]
    by_cases hctl : c.controller.daemon = some me
    · refine ⟨_, ?_, controller_settled hF hctl⟩
      rw [if_pos hctl, hctl, enter, if_pos rfl]
      exact walk_direct (hct me hctl).1 _
    · rw [if_neg hctl, enter_of_ne hctl (by decide)]
      by_cases hin : me ∈ (rowsHier c.rows.reverse).labels
      · obtain ⟨G, hG⟩ := mem_labels_iff.1 hin
        obtain ⟨q, hwa, hq⟩ := @walk_below me _ G (c.controller.daemon.or sched) hro hG ⟨none, []⟩
        exact ⟨_, hwa, inside_settled hF hG hq⟩
      · refine ⟨_, walk_outside hin _, outside_settled fun hmem => ?_⟩
        rw [routing, mem_labels_cons, clusterHier, mem_labels_cons] at hmem
        simp_all [labels]

end

end Sensys.Routed
