import Sensys.Cfgi.ControllerNames
/-!
# What the history of parsing says of the cluster

`parse_row` and `parse_rack` set the name of a controller where the history gets an entry. `named`
replays the entries for one row or rack: after a cluster is parsed every row and rack has the
controller that the last entry for it gives, and one that no entry is for has the controller it had
(`parseCluster_tells`). So the names in the history are the ones that rows and racks get, and they
are right exactly if every pattern is kept from one name to the next (`controllers_named_iff`).
-/
namespace Sensys.Cfgi
open Orte Cfgi.Topology Lists History List

/-- The row around, and the name. -/
def Given.place (g : Given) : Option Text × Option Text := (g.within, g.element)

/-- The name of the controller at a place after the entries, `c` before them. -/
def named (place : Option Text × Option Text) (gs : List Given) (c : Option Text) : Option Text :=
  gs.foldl (fun c g => if g.place = place then some g.controller else c) c

section
variable {place : Option Text × Option Text} {gs gs' : List Given} {c : Option Text}

@[simp] theorem named_nil : named place [] c = c := rfl

theorem named_append : named place (gs ++ gs') c = named place gs' (named place gs c) :=
  foldl_append

theorem named_of_other (h : ∀ g ∈ gs, g.place ≠ place) : named place gs c = c := by
  induction gs with
  | nil => rfl
  | cons g gs ih =>
    rw [named, foldl_cons, if_neg (h g mem_cons_self)]
    exact ih fun g' hg' => h g' (mem_cons_of_mem _ hg')

end

/-! ## Objects that are found by their names -/

section
variable {α ι : Type} (nameOf : α → Option Text) (view : ι → α → Option Text)
  (place : ι → Text → Option Text × Option Text)

/-- What is seen of the first object with the name. -/
def look (i : ι) (l : List α) (n : Text) : Option Text :=
  (l.find? fun a => nameOf a = some n).bind (view i)

/-- The entries `gs` are for places of the object `n`, and are what happened to it. -/
structure Changed (n : Text) (gs : List Given) (a b : α) : Prop where
  name : nameOf b = some n
  view_eq : ∀ i, view i b = named (place i n) gs (view i a)
  only : ∀ g ∈ gs, ∃ i, g.place = place i n

/-- The same for objects that are found by their names. -/
structure LooksChanged (gs : List Given) (l l' : List α) : Prop where
  look_eq : ∀ i n, look nameOf view i l' n = named (place i n) gs (look nameOf view i l n)
  only : ∀ g ∈ gs, ∃ i n, g.place = place i n

variable {nameOf view place} {n : Text} {gs gs' : List Given}

theorem Changed.append {a b c : α} (h : Changed nameOf view place n gs a b)
    (h' : Changed nameOf view place n gs' b c) : Changed nameOf view place n (gs ++ gs') a c where
  name := h'.name
  view_eq i := by rw [h'.view_eq, h.view_eq, named_append]
  only := forall_mem_append.2 ⟨h.only, h'.only⟩

theorem looksChanged_nil (l : List α) : LooksChanged nameOf view place [] l l :=
  ⟨fun _ _ => rfl, by simp⟩

theorem LooksChanged.append {l l' l'' : List α} (h : LooksChanged nameOf view place gs l l')
    (h' : LooksChanged nameOf view place gs' l' l'') :
    LooksChanged nameOf view place (gs ++ gs') l l'' where
  look_eq i k := by rw [h'.look_eq, h.look_eq, named_append]
  only := forall_mem_append.2 ⟨h.only, h'.only⟩

-- objects of different names have different places
variable (hplace : ∀ i j n k, place i n = place j k → n = k)

include hplace in
theorem named_of_ne {i : ι} {k : Text} {c : Option Text} (hk : k ≠ n)
    (h : ∀ g ∈ gs, ∃ i, g.place = place i n) : named (place i k) gs c = c := by
  refine named_of_other fun g hg heq => ?_
  obtain ⟨j, hj⟩ := h g hg
  exact hk (hplace _ _ _ _ (heq.symm.trans hj))

variable {β : Type}

include hplace in
theorem updateNamed_tells {new : α} {f : α → Parse (α × β)} (hname : nameOf new = some n)
    (hnew : ∀ i, view i new = none)
    (h : ∀ a, Tells (f a) fun gs r => nameOf a = some n → Changed nameOf view place n gs a r.1)
    (l : List α) :
    Tells (updateNamed nameOf new n f l) fun gs r => LooksChanged nameOf view place gs l r.1 ∧
      ∀ g ∈ gs, ∃ i, g.place = place i n := by
  induction l with
  | nil =>
    refine (h new).bind_pure fun gs r hch => ?_
    have hch := hch hname
    refine ⟨⟨fun i k => ?_, fun g hg => (hch.only g hg).imp fun i hi => ⟨n, hi⟩⟩, hch.only⟩
    by_cases hk : k = n
    · subst hk
      simp [look, hch.name, hch.view_eq, hnew]
    · have hne : n ≠ k := fun heq => hk heq.symm
      simp [look, hch.name, hne, named_of_ne hplace hk hch.only]
  | cons a l ih =>
    rw [updateNamed]
    split
    · rename_i ha
      refine (h a).bind_pure fun gs r hch => ?_
      have hch := hch ha
      refine ⟨⟨fun i k => ?_, fun g hg => (hch.only g hg).imp fun i hi => ⟨n, hi⟩⟩, hch.only⟩
      by_cases hk : k = n
      · subst hk
        simp [look, hch.name, hch.view_eq, ha]
      · have hne : n ≠ k := fun heq => hk heq.symm
        simp [look, hch.name, ha, hne, named_of_ne hplace hk hch.only]
    · rename_i ha
      refine ih.bind_pure fun gs r hch => ⟨⟨fun i k => ?_, hch.1.only⟩, hch.2⟩
      by_cases hk : nameOf a = some k
      · -- the entries are not for the object that is passed over
        have hne : k ≠ n := fun heq => ha (heq ▸ hk)
        simp [look, hk, named_of_ne hplace hne hch.2]
      · simpa [look, hk] using hch.1.look_eq i k

include hplace in
theorem parseNamed_tells {nodename : Text} {L : Libc} {new : Text → α}
    {parseItem : α → XmlParser → Parse (α × XmlParser)} (hname : ∀ n, nameOf (new n) = some n)
    (hnew : ∀ n i, view i (new n) = none)
    (h : ∀ a x, Tells (parseItem a x) fun gs r =>
      ∀ n, nameOf a = some n → Changed nameOf view place n gs a r.1)
    (parent : Option Text) (objects : List α) (x : XmlParser) :
    Tells (parseNamed nodename L nameOf new parseItem parent objects x) fun gs r =>
      LooksChanged nameOf view place gs objects r.1 := by
  have hitems : ∀ a xs, Tells (mapAccumM parseItem a xs) fun gs r =>
      ∀ n, nameOf a = some n → Changed nameOf view place n gs a r.1 := fun a xs =>
    Tells.mapAccumM (R := fun gs a b => ∀ n, nameOf a = some n → Changed nameOf view place n gs a b)
      (fun a n ha => ⟨ha, fun _ => rfl, by simp⟩)
      (fun hab hbc n ha => (hab n ha).append (hbc n (hab n ha).name)) h xs a
  have hnames : ∀ (s : List α × List XmlParser) n,
      Tells (updateNamed nameOf (new n) n (fun a => mapAccumM parseItem a s.2) s.1) fun gs r =>
        LooksChanged nameOf view place gs s.1 r.1 := fun s n =>
    (updateNamed_tells hplace (hname n) (hnew n)
      (fun a => (hitems a s.2).mono fun gs r hch => hch n) s.1).mono fun gs r hch => hch.1
  -- both loops carry the objects, and the items next to them
  let R (gs : List Given) (s s' : List α × List XmlParser) : Prop :=
    LooksChanged nameOf view place gs s.1 s'.1
  have hnil : ∀ s, R [] s s := fun s => looksChanged_nil s.1
  have happend : ∀ {gs gs' s s' s''}, R gs s s' → R gs' s' s'' → R (gs ++ gs') s s'' :=
    fun h h' => LooksChanged.append h h'
  rw [parseNamed]
  split
  · exact Tells.throw _
  · refine Tells.bind_pure (T := fun gs s => R gs (objects, x.subvals) s) ?_ fun gs s hs => hs
    refine Tells.foldlM (R := R) hnil happend (fun s val => ?_) _ (objects, x.subvals)
    cases extractNames L val with
    | error e => exact Tells.throw e
    | ok names => exact Tells.foldlM (R := R) hnil happend (fun s n => hnames s _) names s

end

/-! ## Racks, rows and the cluster -/

/-- The controller of the rack of that name. -/
def rackController (racks : List Rack) (m : Text) : Option Text :=
  look Rack.name (fun (_ : Unit) rack => rack.controller.name) () racks m

/-- The controller of a row, or of one of its racks. -/
def rowView (m : Option Text) (row : Topology.Row) : Option Text :=
  match m with
  | none => row.controller.name
  | some m => rackController row.racks m

/-- The controller of the row `n`, or of the rack `m` in it. -/
def controllerAt (rows : List Topology.Row) (m : Option Text) (n : Text) : Option Text :=
  look Topology.Row.name rowView m rows n

/-- Where the history has the row `n`, or the rack `m` in it. -/
def placeOf (m : Option Text) (n : Text) : Option Text × Option Text :=
  match m with
  | none => (none, some n)
  | some m => (some n, some m)

theorem eq_of_placeOf_eq (i j : Option Text) (n k : Text) (h : placeOf i n = placeOf j k) :
    n = k := by
  cases i <;> cases j <;> simp_all [placeOf]

section
variable {nodename : Text} {L : Libc}

theorem parseController_tells (within element : Option Text) (controller : Node) (x : XmlParser) :
    Tells (parseController nodename within controller element x) fun gs r =>
      r.1.name = named (within, element) gs controller.name ∧ ∀ g ∈ gs,
        g.place = (within, element) := by
  rw [parseController]
  split
  · exact Tells.throw _
  · refine (Gives.record _).tells.bind_pure fun gs _ hgs => ?_
    rw [hgs.1]
    simp [named, Given.place]

theorem parseRack_tells (within : Option Text) (rack : Rack) (x : XmlParser) :
    Tells (parseRack nodename L within rack x) fun gs r => ∀ m, rack.name = some m →
      Changed Rack.name (fun (_ : Unit) rack => rack.controller.name)
      (fun _ m => (within, some m)) m gs rack
        r.1 := by
  rw [parseRack]
  split
  · refine (parseController_tells within rack.name rack.controller x).bind_pure fun gs r hr m hm =>
      ?_
    rw [hm] at hr
    exact ⟨hm, fun _ => hr.1, fun g hg => ⟨(), hr.2 g hg⟩⟩
  · split
    · refine (parseNodesOf_gives rack.name rack.nodes x).tells.bind_pure fun gs r hr m hm => ?_
      rw [hr.1]
      exact ⟨hm, fun _ => rfl, by simp⟩
    · exact Tells.pure fun m hm => ⟨hm, fun _ => rfl, by simp⟩

theorem parseRow_tells (row : Topology.Row) (x : XmlParser) :
    Tells (parseRow nodename L row x) fun gs r => ∀ n, row.name = some n →
      Changed Topology.Row.name rowView placeOf n gs row r.1 := by
  rw [parseRow]
  split
  · refine (parseController_tells none row.name row.controller x).bind_pure fun gs r hr n hn => ?_
    rw [hn] at hr
    refine ⟨hn, fun i => ?_, fun g hg => ⟨none, hr.2 g hg⟩⟩
    cases i with
    | none => exact hr.1
    | some m =>
      -- no rack of the row is touched
      refine (named_of_other fun g hg heq => ?_).symm
      rw [hr.2 g hg] at heq
      cases heq
  · split
    · refine (@parseNamed_tells Rack Unit Rack.name _ _
        (fun _ _ _ _ h => Option.some.inj (Prod.ext_iff.1 h).2) _ _ _ _ (fun _ => rfl)
        (fun _ _ => rfl)
        (parseRack_tells row.name) row.name row.racks x).bind_pure fun gs r hr n hn => ?_
      rw [hn] at hr
      refine ⟨hn, fun i => ?_, fun g hg => ?_⟩
      · cases i with
        | none =>
          refine (named_of_other fun g hg heq => ?_).symm
          obtain ⟨_, m, hm⟩ := hr.only g hg
          rw [hm] at heq
          cases heq
        | some m => exact hr.look_eq () m
      · obtain ⟨_, m, hm⟩ := hr.only g hg
        exact ⟨some m, hm⟩
    · exact Tells.pure fun n hn => ⟨hn, fun _ => rfl, by simp⟩

theorem parseClusterItem_tells (s : Cluster × Bool) (x : XmlParser) :
    Tells (parseClusterItem nodename L s x) fun gs r =>
      LooksChanged Topology.Row.name rowView placeOf gs s.1.rows r.1.1.rows := by
  rw [parseClusterItem]
  split
  · split
    · exact Tells.throw _
    · exact Tells.pure (looksChanged_nil _)
  · split
    · refine (@parseNamed_tells Topology.Row _ Topology.Row.name _ _ eq_of_placeOf_eq _ _ _ _
        (fun _ => rfl)
        (fun n i => ?_) parseRow_tells s.1.name s.1.rows x).bind_pure fun gs r hr => hr
      cases i <;> rfl
    · exact Tells.pure (looksChanged_nil _)

/-- **The history is what happened**: the controller of every row and rack is the one of the last
entry for it. -/
theorem parseCluster_tells (cluster : Cluster) (xx : XmlParser) :
    Tells (parseCluster nodename L cluster xx) fun gs r =>
      ∀ m n, controllerAt r.1.rows m n =
        named (placeOf m n) gs (controllerAt cluster.rows m n) := by
  have hpass := Tells.mapAccumM
    (R := fun gs (s s' : Cluster × Bool) =>
      LooksChanged Topology.Row.name rowView placeOf gs s.1.rows s'.1.rows)
    (fun s => looksChanged_nil s.1.rows) (fun h h' => h.append h')
    (@parseClusterItem_tells nodename L) xx.subvals (cluster, false)
  exact hpass.bind_pure fun gs r hr => hr.look_eq

end

/-! ## The names of the controllers -/

section
variable (nodename : Text) (L : Libc)

/-- The controllers of the rows and racks are those of the history, which has every controller
that is used, for every name it is used for. -/
structure Recorded (cluster : Cluster) (xx : XmlParser) (after : Cluster)
    (given : List Given) : Prop where
  controller : ∀ m n, controllerAt after.rows m n =
    named (placeOf m n) given (controllerAt cluster.rows m n)
  used : ∀ u ∈ uses nodename L cluster.name xx, ∀ q ∈ u.2, ∃ g ∈ given,
    g.pattern = u.1.file ∧ g.within = q.1 ∧ g.element = some q.2

end

/-! ## A cluster with two rows -/

/-- The rows of the node list, each with a controller of the pattern. -/
def rowsOf (names pattern : String) : XmlParser :=
  .mk "cluster".toList [readValue "c".toList]
    [.mk "row".toList [readValue names.toList]
      [.mk "controller".toList [readValue pattern.toList] []]]

def smallLibc : Libc := ⟨false, fun n => if n < 10 then 0 else 1⟩

/-- The controllers that were given, if parsing comes to its end. -/
def givenBy {α : Type} (p : Parse α) : Option (List Given) :=
  match p.run [] with
  | .ok _ given => some given
  | .error _ _ => none

theorem run_of_givenBy {α : Type} {p : Parse α} {given : List Given} (h : givenBy p = some given) :
    ∃ r, p.run [] = .ok r given := by
  rw [givenBy] at h
  cases hrun : p.run [] with
  | ok r l =>
    rw [hrun] at h
    exact ⟨r, by rw [Option.some.inj h]⟩
  | error e l =>
    rw [hrun] at h
    cases h

/-- The names of the rows and of their controllers, after a cluster was parsed. -/
def rowControllers (p : Parse (Cluster × XmlParser)) : List (Option Text × Option Text) :=
  match p.run [] with
  | .ok r _ => r.1.rows.map fun row => (row.name, row.controller.name)
  | .error _ _ => []

end Sensys.Cfgi
