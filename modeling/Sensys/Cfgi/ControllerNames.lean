import Mathlib.Data.List.Chain
import Sensys.Cfgi.ParseSystem
import Sensys.Lib.History
/-!
# The controllers of rows and racks that are given by a pattern

The `@` in the host of a controller stands for the name of the row or rack, which may be several,
by a node list. All of them share the one element of the controller, and `get_controller_name`
replaces the `@` in that element. `uses` lists the patterns of a cluster with the names each of
them is used for, in order; a pattern keeps what it stands for only if each name leaves it so for
the next one (`Keeps`).
-/
namespace Sensys.Cfgi
open Orte Opal Cfgi.Topology Lists History List

theorem replaceAt_split {a : Text} (ha : '@' ∉ a) (b m : Text) :
    replaceAt m (a ++ '@' :: b) = a ++ m ++ b := by
  have hall := Text.decide_ne_of_notMem ha
  rw [replaceAt, dropWhile_append_of_pos hall, takeWhile_append_of_pos hall]
  simp

theorem replaceAt_of_notMem {t : Text} (h : '@' ∉ t) (m : Text) : replaceAt m t = t := by
  rw [replaceAt, dropWhile_eq_nil_iff.2 (Text.decide_ne_of_notMem h)]

/-- After `m` the pattern `p` still gives the right name for `m'`: it is the same name and no `@`
is left, or `m` puts the `@` back, or it gives `localhost`, which is replaced by the node's own
name. -/
def Keeps (nodename p m m' : Text) : Prop :=
  if replaceAt m p = "localhost".toList then replaceAt m' p = nodename else m = ['@'] ∨
    m' = m ∧ '@' ∉ replaceAt m p

variable {p : Text} {v : Value}

theorem replaceAt_twice (hp : '@' ∈ p) (m m' : Text) :
    replaceAt m' (replaceAt m p) = replaceAt m' p ↔ m = ['@'] ∨ m' = m ∧ '@' ∉ replaceAt m p := by
  obtain ⟨a, b, rfl, ha⟩ := eq_append_cons_of_mem hp
  rw [replaceAt_split ha, replaceAt_split ha]
  by_cases hm : '@' ∈ m
  · obtain ⟨c, d, rfl, hc⟩ := eq_append_cons_of_mem hm
    have hac : '@' ∉ a ++ c := by simp [ha, hc]
    have hsp : a ++ (c ++ '@' :: d) ++ b = a ++ c ++ '@' :: (d ++ b) := by simp
    rw [hsp, replaceAt_split hac]
    constructor
    · intro h
      have hlen := congrArg length h
      simp only [length_append] at hlen
      have hc : c = [] := length_eq_zero_iff.1 (by omega)
      have hd : d = [] := length_eq_zero_iff.1 (by omega)
      exact Or.inl (by rw [hc, hd]; rfl)
    · rintro (h | ⟨-, h⟩)
      · obtain ⟨rfl, rfl⟩ : c = [] ∧ d = [] := by simpa [append_eq_cons_iff] using h
        simp
      · exact absurd (by simp) h
  · have hne : m ≠ ['@'] := fun h => hm (by simp [h])
    by_cases hb : '@' ∈ b
    · obtain ⟨e, f, rfl, he⟩ := eq_append_cons_of_mem hb
      have hame : '@' ∉ a ++ m ++ e := by simp [ha, hm, he]
      have hsp : a ++ m ++ (e ++ '@' :: f) = a ++ m ++ e ++ '@' :: f := by simp
      rw [hsp, replaceAt_split hame]
      refine iff_of_false (fun h => ?_) (by simp [hne])
      have hco := congrArg (count '@') h
      simp only [count_append, count_cons_self, count_eq_zero_of_not_mem ha,
        count_eq_zero_of_not_mem hm, count_eq_zero_of_not_mem he] at hco
      omega
    · have hall : '@' ∉ a ++ m ++ b := by simp [ha, hm, hb]
      rw [replaceAt_of_notMem hall]
      simp only [hne, hall, false_or, not_false_eq_true, and_true, append_cancel_right_eq,
        append_cancel_left_eq]
      exact eq_comm

theorem getControllerName_pattern (nodename m : Text) (hp : '@' ∈ p) :
    getControllerName nodename p (some m) = replaceAt m p := by
  rw [getControllerName, if_neg]
  rintro rfl
  exact absurd hp (by decide)

/-- The second name gets the right controller exactly if the first one keeps the pattern. -/
theorem getControllerName_again (nodename m m' : Text) (hp : '@' ∈ p) :
    getControllerName nodename (replaceAt m p) (some m') = replaceAt m' p ↔
      Keeps nodename p m m' := by
  rw [getControllerName, Keeps]
  split
  · exact eq_comm
  · exact replaceAt_twice hp m m'

/-! ## A pattern and the names it is used for -/

/-- The controller is named by the pattern of the file, with the name of the row or rack in it. -/
def Given.Right (g : Given) : Prop :=
  '@' ∈ g.pattern → ∃ m, g.element = some m ∧ g.controller = replaceAt m g.pattern

section
variable (nodename : Text) (q : Option Text × Text)

/-- The name of `q` is put in place of the `@`. -/
def Value.renamed (v : Value) : Value :=
  { v with text := getControllerName nodename v.text (some q.2) }

/-- `q` is the row around a rack, and the name of the row or rack. -/
def Value.given (v : Value) : Given :=
  ⟨v.file, q.1, some q.2, getControllerName nodename v.text (some q.2)⟩

theorem right_given_iff (v : Value) :
    (v.given nodename q).Right ↔
      ('@' ∈ v.file → getControllerName nodename v.text (some q.2) = replaceAt q.2 v.file) := by
  simp [Given.Right, Value.given]

/-- The controllers that a value gives for names one after the other. -/
abbrev Value.givenAll : List (Option Text × Text) → Value → List Given :=
  emits (fun q v => [Value.given nodename q v]) (Value.renamed nodename)

/-- After the name `m`, as long as all was right. -/
theorem right_after_iff (hp : '@' ∈ p) (qs : List (Option Text × Text)) (m : Text) :
    (∀ g ∈ Value.givenAll nodename qs ⟨p, replaceAt m p⟩, g.Right) ↔
      (m :: qs.map Prod.snd).IsChain (Keeps nodename p) := by
  induction qs generalizing m with
  | nil => simp [emits]
  | cons q qs ih =>
    rw [Value.givenAll, emits, singleton_append, forall_mem_cons, map_cons, isChain_cons_cons,
      right_given_iff, ← getControllerName_again nodename m q.2 hp]
    simp only [hp, forall_const]
    refine and_congr_right fun hri => ?_
    rw [← ih q.2, ← hri]
    rfl

theorem pattern_of_mem_emits {qs : List (Option Text × Text)} {g : Given}
    (h : g ∈ Value.givenAll nodename qs v) : g.pattern = v.file := by
  induction qs generalizing v with
  | nil => cases h
  | cons q qs ih =>
    rcases mem_append.1 h with h | h
    · rw [mem_singleton.1 h]
      rfl
    · have hf := ih h
      exact hf

/-- Each of the names is given a controller. -/
theorem exists_mem_givenAll {qs : List (Option Text × Text)} {q : Option Text × Text}
    (hq : q ∈ qs) :
    ∃ g ∈ Value.givenAll nodename qs v, g.within = q.1 ∧ g.element = some q.2 := by
  induction qs generalizing v with
  | nil => cases hq
  | cons q' qs ih =>
    rcases mem_cons.1 hq with rfl | hq
    · exact ⟨v.given nodename q, mem_append_left _ mem_cons_self, rfl, rfl⟩
    · obtain ⟨g, hg, hpl⟩ := ih (v := v.renamed nodename q') hq
      exact ⟨g, mem_append_right _ hg, hpl⟩

theorem right_emits_iff (hf : v.text = v.file) (qs : List (Option Text × Text)) :
    (∀ g ∈ Value.givenAll nodename qs v, g.Right) ↔
      ('@' ∈ v.file → (qs.map Prod.snd).IsChain (Keeps nodename v.file)) := by
  obtain ⟨p, t⟩ := v
  obtain rfl : t = p := hf
  by_cases hp : '@' ∈ t
  · cases qs with
    | nil => simp [emits]
    | cons q qs =>
      rw [Value.givenAll, emits, singleton_append, forall_mem_cons, right_given_iff]
      simp only [hp, forall_const]
      rw [Value.renamed, getControllerName_pattern nodename q.2 hp]
      simp only [true_and]
      exact right_after_iff nodename hp qs q.2
  · simp only [hp, false_implies, iff_true]
    intro g hg hmem
    rw [pattern_of_mem_emits nodename hg] at hmem
    exact absurd hmem hp

/-! ## What parsing gives -/

/-- The pattern of an item under a rack. -/
def pattern (z : XmlParser) : Option Value :=
  if z.name = "controller".toList then z.value.head? else none

def patternGives (p : Option Value) : List Given := p.toList.map (Value.given nodename q)

def patternAfter (p : Option Value) : Option Value := p.map (Value.renamed nodename q)

/-- An item under a row, as far as controllers are named in it. -/
inductive RowItem where
  | controller (v : Value)
  | racks (value : Text) (patterns : List (Option Value))
  | other

def rowItem (y : XmlParser) : RowItem :=
  if y.name = "controller".toList then
    match y.value with
    | v :: _ => .controller v
    | [] => .other
  else if y.name = "rack".toList then
    match y.value with
    | v :: _ => .racks v.text (y.subvals.map pattern)
    | [] => .other
  else .other

variable (L : Libc) {x : XmlParser}

/-- The names a value stands for, those of objects inside `parent`. -/
def namesOf (parent : Option Text) (value : Text) : List Text :=
  (argvSplit ',' value).flatMap fun val =>
    ((extractNames L val).toOption.getD []).map fun name => getControllerName nodename name parent

def RowItem.gives (n : Text) : RowItem → List Given
  | .controller v => [v.given nodename (none, n)]
  | .racks value ps =>
    emits (fun m ps => ps.flatMap (patternGives nodename (some n, m)))
      (fun m ps => ps.map (patternAfter nodename (some n, m)))
        (namesOf nodename L (some n) value) ps
  | .other => []

def RowItem.after (n : Text) : RowItem → RowItem
  | .controller v => .controller (v.renamed nodename (none, n))
  | .racks value ps =>
    .racks value
      (afterAll (fun m ps => ps.map (patternAfter nodename (some n, m)))
        (namesOf nodename L (some n) value) ps)
  | .other => .other

/-- What an item of a cluster of that name gives. -/
def clusterGives (cluster : Option Text) (x : XmlParser) : List Given :=
  if x.name = "row".toList then
    emits (fun n is => is.flatMap (RowItem.gives nodename L n))
      (fun n is => is.map (RowItem.after nodename L n))
      (namesOf nodename L cluster (x.first.getD [])) (x.subvals.map rowItem)
  else []

section
variable {nodename L} {vs : List Value} {y : XmlParser} {α β : Type} (node : Node)

theorem map_of_forall₂ {V : α → β} {A : β → β} {l l' : List α}
    (h : List.Forall₂ (fun a b => V b = A (V a)) l l') :
    l'.map V = (l.map V).map A := by
  induction h with
  | nil => rfl
  | cons hab _ ih => rw [map_cons, map_cons, map_cons, hab, ih]

theorem parseController_gives (c : Node) (z : XmlParser) :
    Gives (parseController nodename q.1 c (some q.2) z)
      (z.value.head?.toList.map (Value.given nodename q)) fun r =>
        r.2.name = z.name ∧ r.2.value.head? = z.value.head?.map (Value.renamed nodename q) := by
  obtain ⟨name, value, subvals⟩ := z
  cases value with
  | nil => exact Gives.throw _
  | cons v vs => exact (Gives.record _).bind_pure fun _ _ => ⟨rfl, rfl⟩

theorem updateNamed_gives {nameOf : α → Option Text} {new : α} {name : Text} {f : α → Parse (α × β)}
    {gs : List Given} {Q : β → Prop} (hnew : nameOf new = some name)
    (h : ∀ a, nameOf a = some name → Gives (f a) gs fun r => Q r.2) (l : List α) :
    Gives (updateNamed nameOf new name f l) gs fun r => Q r.2 := by
  induction l with
  | nil => exact (h new hnew).bind_pure fun _ hr => hr
  | cons a l ih =>
    rw [updateNamed]
    split
    · rename_i ha
      exact (h a ha).bind_pure fun _ hr => hr
    · exact ih.bind_pure fun _ hr => hr

section
variable {ω : Type} {G : Text → ω → List Given} {A : Text → ω → ω}

theorem eachName_gives {σ : Type} {V : σ → ω} {body : σ → Text → Parse σ}
    (h : ∀ n s, Gives (body s n) (G n (V s)) fun s' => V s' = A n (V s)) (value : Text)
    (parent : Option Text) (s : σ) :
    Gives (eachName nodename L value parent body s)
      (emits G A (namesOf nodename L parent value) (V s)) fun s' =>
      V s' = afterAll A (namesOf nodename L parent value) (V s) := by
  rw [namesOf, emits_flatMap, afterAll_flatMap]
  refine Gives.foldlM (fun val s => ?_) _ s
  cases hna : extractNames L val with
  | error e => exact Gives.throw e
  | ok names =>
    have hloop := Gives.foldlM (fun n s => h (getControllerName nodename n parent) s) names s
    rw [← emits_map G A (fun n => getControllerName nodename n parent),
      ← afterAll_map A (fun n => getControllerName nodename n parent)] at hloop
    exact hloop

theorem parseNamed_gives {α : Type} {nameOf : α → Option Text} {new : Text → α}
    {parseItem : α → XmlParser → Parse (α × XmlParser)} {V : List XmlParser → ω}
    (hnew : ∀ n, nameOf (new n) = some n)
    (h : ∀ n a xs, nameOf a = some n →
      Gives (mapAccumM parseItem a xs) (G n (V xs)) fun r => V r.2 = A n (V xs))
    (parent : Option Text) (objects : List α) (x : XmlParser) :
    Gives (parseNamed nodename L nameOf new parseItem parent objects x)
      (emits G A (namesOf nodename L parent (x.first.getD [])) (V x.subvals)) fun r =>
        r.2.name = x.name ∧ r.2.value = x.value ∧
        V r.2.subvals = afterAll A (namesOf nodename L parent (x.first.getD [])) (V x.subvals) := by
  rw [parseNamed, XmlParser.first]
  cases x.value with
  | nil => exact Gives.throw _
  | cons v vs =>
    have hloop := @eachName_gives nodename L ω G A (List α × List XmlParser) (fun s => V s.2)
      (fun s name => updateNamed nameOf (new name) name (fun a => mapAccumM parseItem a s.2) s.1)
      (fun n s => updateNamed_gives (Q := fun xs => V xs = A n (V s.2)) (hnew n)
        (fun a ha => h n a s.2 ha) s.1)
      v.text parent (objects, x.subvals)
    exact hloop.bind_pure fun r hr => ⟨rfl, rfl, hr⟩

end

theorem parseNode_gives (x : XmlParser) : Gives (parseNode nodename node x) [] fun _ => True := by
  rw [parseNode]
  split
  · cases x.first with
    | none => exact Gives.throw _
    | some v => exact Gives.pure trivial
  · exact Gives.pure trivial

theorem parseNodes_gives (xs : List XmlParser) :
    Gives (mapAccumM (parseNode nodename) node xs) [] fun _ => True := by
  have hpa := Gives.mapAccumM (I := fun _ => True) (R := fun _ _ => True) (G := fun _ => [])
    (fun a x _ => (@parseNode_gives nodename a x).mono fun _ _ => ⟨trivial, trivial⟩) xs
      (a := node) trivial
  rw [flatMap_eq_nil_iff.2 fun _ _ => rfl] at hpa
  exact hpa.mono fun _ _ => trivial

theorem emits_eq_nil {ν ω : Type} {G : ν → ω → List Given} {A : ν → ω → ω} {w : ω}
    (hG : ∀ n, G n w = []) (hA : ∀ n, A n w = w) (ns : List ν) : emits G A ns w = [] := by
  induction ns with
  | nil => rfl
  | cons n ns ih => rw [emits, hG, hA, ih, append_nil]

/-- Nodes give nothing. -/
theorem parseNodesOf_gives (parent : Option Text) (nodes : List Node) (z : XmlParser) :
    Gives (parseNamed nodename L Node.name
      (fun name => { newNode with name := some name, state := stateUnknown })
      (parseNode nodename) parent nodes
      z) [] fun r => r.2.name = z.name := by
  have hno := @parseNamed_gives nodename L Unit (fun _ _ => []) (fun _ u => u) Node Node.name
    (fun name => { newNode with name := some name, state := stateUnknown })
      (parseNode nodename) (fun _ => ())
    (fun _ => rfl) (fun _ a xs _ => (parseNodes_gives a xs).mono fun _ _ => rfl) parent nodes z
  rw [emits_eq_nil (fun _ => rfl) (fun _ => rfl)] at hno
  exact hno.mono fun r hr => hr.1

theorem parseRack_gives (controller : Node) (nodes : List Node) (z : XmlParser) :
    Gives (parseRack nodename L q.1 ⟨some q.2, controller, nodes⟩ z)
      (patternGives nodename q (pattern z))
      fun r => r.1.name = some q.2 ∧ pattern r.2 = patternAfter nodename q (pattern z) := by
  rw [parseRack, pattern]
  split
  · rename_i hz
    refine (parseController_gives q controller z).bind_pure fun r hr => ⟨rfl, ?_⟩
    rw [pattern, hr.1, if_pos hz, hr.2]
    rfl
  · rename_i hz
    split
    · refine (parseNodesOf_gives (some q.2) nodes z).bind_pure fun r hr => ⟨rfl, ?_⟩
      rw [pattern, hr, if_neg hz]
      rfl
    · refine Gives.pure ⟨rfl, ?_⟩
      rw [pattern, if_neg hz]
      rfl

theorem parseRacks_gives (rack : Rack) (zs : List XmlParser) (hname : rack.name = some q.2) :
    Gives (mapAccumM (parseRack nodename L q.1) rack zs)
      ((zs.map pattern).flatMap (patternGives nodename q)) fun r =>
        r.2.map pattern = (zs.map pattern).map (patternAfter nodename q) := by
  have hpa := Gives.mapAccumM (I := fun rack : Rack => rack.name = some q.2)
    (R := fun z z' => pattern z' = patternAfter nodename q (pattern z))
    (G := fun z => patternGives nodename q (pattern z))
    (fun rack z hra => by
      obtain ⟨name, controller, nodes⟩ := rack
      obtain rfl : name = some q.2 := hra
      exact parseRack_gives (L := L) q controller nodes z) zs hname
  rw [flatMap_map]
  exact hpa.mono fun r hr => map_of_forall₂ hr.2

theorem rowItem_controller (hname : y.name = "controller".toList)
    (hv : y.value = v :: vs) : rowItem y = .controller v := by
  simp [rowItem, hname, hv]

theorem rowItem_rack (hname : y.name = "rack".toList) (hv : y.value = v :: vs) :
    rowItem y = .racks v.text (y.subvals.map pattern) := by
  simp [rowItem, hname, hv]

theorem parseRow_gives (n : Text) (controller : Node) (racks : List Rack) (y : XmlParser) :
    Gives (parseRow nodename L ⟨some n, controller, racks⟩ y) ((rowItem y).gives nodename L n)
      fun r =>
      r.1.name = some n ∧ rowItem r.2 = (rowItem y).after nodename L n := by
  rw [parseRow]
  split
  · rename_i hname
    cases hv : y.value with
    | nil =>
      simp only [parseController, hv]
      exact Gives.throw _
    | cons v vs =>
      have hco := @parseController_gives nodename (none, n) controller y
      rw [hv] at hco
      rw [rowItem_controller hname hv]
      refine hco.bind_pure fun r hr => ⟨rfl, ?_⟩
      obtain ⟨vs', hr'⟩ : ∃ vs', r.2.value = v.renamed nodename (none, n) :: vs' :=
        head?_eq_some_iff.1 hr.2
      exact rowItem_controller (hr.1.trans hname) hr'
  · rename_i hname
    split
    · rename_i hrac
      cases hv : y.value with
      | nil =>
        simp only [parseNamed, hv]
        exact Gives.throw _
      | cons v vs =>
        have hra := @parseNamed_gives nodename L (List (Option Value))
          (fun m ps => ps.flatMap (patternGives nodename (some n, m)))
          (fun m ps => ps.map (patternAfter nodename (some n, m))) Rack Rack.name
          (fun name => ⟨some name, newNode, []⟩) (parseRack nodename L (some n))
            (fun zs => zs.map pattern)
          (fun _ => rfl) (fun m rack zs hname => parseRacks_gives (some n, m) rack zs hname)
            (some n) racks y
        rw [XmlParser.first, hv] at hra
        rw [rowItem_rack hrac hv]
        refine hra.bind_pure fun r hr => ⟨rfl, ?_⟩
        rw [rowItem_rack (hr.1.trans hrac) hr.2.1, hr.2.2]
        rfl
    · rename_i hrac
      have ho : rowItem y = .other := by simp only [rowItem, hname, hrac, if_false]
      rw [ho]
      exact Gives.pure ⟨rfl, ho⟩

theorem parseRows_gives (n : Text) (row : Topology.Row) (ys : List XmlParser)
    (hname : row.name = some n) :
    Gives (mapAccumM (parseRow nodename L) row ys)
      ((ys.map rowItem).flatMap (RowItem.gives nodename L n)) fun r =>
      r.2.map rowItem = (ys.map rowItem).map (RowItem.after nodename L n) := by
  have hpa := Gives.mapAccumM (I := fun row : Topology.Row => row.name = some n)
    (R := fun y y' => rowItem y' = (rowItem y).after nodename L n)
      (G := fun y => (rowItem y).gives nodename L n)
    (fun row y hrow => by
      obtain ⟨name, controller, racks⟩ := row
      obtain rfl : name = some n := hrow
      exact parseRow_gives n controller racks y) ys hname
  rw [flatMap_map]
  exact hpa.mono fun r hr => map_of_forall₂ hr.2

theorem parseClusterItem_gives (s : Cluster × Bool) (x : XmlParser) :
    Gives (parseClusterItem nodename L s x) (clusterGives nodename L s.1.name x) fun r =>
      r.1.1.name = s.1.name := by
  rw [parseClusterItem, clusterGives]
  split
  · rename_i hname
    have hrow : ¬ x.name = "row".toList := by
      rw [hname]
      decide
    rw [if_neg hrow]
    cases x.value with
    | nil => exact Gives.throw _
    | cons v vs => exact Gives.pure rfl
  · split
    · have hro := @parseNamed_gives nodename L (List RowItem)
        (fun n is => is.flatMap (RowItem.gives nodename L n))
          (fun n is => is.map (RowItem.after nodename L n)) Topology.Row
        Topology.Row.name (fun name => ⟨some name, newNode, []⟩) (parseRow nodename L)
          (fun ys => ys.map rowItem) (fun _ => rfl)
        (fun n row ys hname => parseRows_gives n row ys hname) s.1.name s.1.rows x
      exact hro.bind_pure fun _ _ => rfl
    · exact Gives.pure rfl

theorem parseCluster_gives (cluster : Cluster) (xx : XmlParser) :
    Gives (parseCluster nodename L cluster xx)
      (xx.subvals.flatMap (clusterGives nodename L cluster.name)) fun _ => True := by
  have hpa :=
    Gives.mapAccumM (I := fun s : Cluster × Bool => s.1.name = cluster.name) (R := fun _ _ => True)
    (G := clusterGives nodename L cluster.name)
    (fun s x hs => by
      have hit := @parseClusterItem_gives nodename L s x
      rw [hs] at hit
      exact hit.mono fun r hr => ⟨hr, trivial⟩) xx.subvals (a := (cluster, false)) rfl
  exact hpa.bind_pure fun _ _ => trivial

end

/-! ## The patterns of a cluster -/

mutual
/-- Nothing was parsed yet. -/
def XmlParser.Fresh : XmlParser → Prop
  | .mk _ value subvals => (∀ v ∈ value, v.text = v.file) ∧ FreshAll subvals
def FreshAll : List XmlParser → Prop
  | [] => True
  | x :: xs => x.Fresh ∧ FreshAll xs
end

theorem freshAll_iff (xs : List XmlParser) : FreshAll xs ↔ ∀ x ∈ xs, x.Fresh := by
  induction xs with
  | nil => simp [FreshAll]
  | cons x xs ih => simp [FreshAll, ih]

theorem XmlParser.Fresh.value (h : x.Fresh) : ∀ v ∈ x.value, v.text = v.file := by
  obtain ⟨name, value, subvals⟩ := x
  exact h.1

theorem XmlParser.Fresh.subvals (h : x.Fresh) : ∀ y ∈ x.subvals, y.Fresh := by
  obtain ⟨name, value, subvals⟩ := x
  exact (freshAll_iff subvals).1 h.2

/-- The controllers under an item of a row with these names, each with the names it is used for. -/
def rowUses (ns : List Text) (y : XmlParser) : List (Value × List (Option Text × Text)) :=
  match rowItem y with
  | .controller v => [(v, ns.map fun n => (none, n))]
  | .racks value ps =>
    ps.flatMap fun p => p.toList.map fun v =>
      (v, ns.flatMap fun n => (namesOf nodename L (some n) value).map fun m => (some n, m))
  | .other => []

/-- The controllers of the rows and racks of a cluster, each with the names it is used for: with the
row around, if it is one of a rack. -/
def uses (cluster : Option Text) (xx : XmlParser) : List (Value × List (Option Text × Text)) :=
  xx.subvals.flatMap fun x =>
    if x.name = "row".toList then
      x.subvals.flatMap (rowUses nodename L (namesOf nodename L cluster (x.first.getD [])))
    else []

section
variable {nodename L} {y : XmlParser} {g : Given} {u : Value × List (Option Text × Text)}

theorem mem_pattern_emits {qs : List (Option Text × Text)} {p : Option Value} :
    g ∈ emits (patternGives nodename) (patternAfter nodename) qs p ↔
      ∃ v ∈ p, g ∈ Value.givenAll nodename qs v := by
  cases p with
  | none =>
    have hno : emits (patternGives nodename) (patternAfter nodename) qs none = [] :=
      emits_eq_nil (fun _ => rfl) (fun _ => rfl) qs
    simp [hno]
  | some v =>
    have hso : emits (patternGives nodename) (patternAfter nodename) qs (some v) =
        Value.givenAll nodename qs v :=
      emits_image _ _ (f := some) (fun _ _ => rfl) (fun _ _ => rfl) qs v
    simp [hso]

theorem mem_value_of_controller (h : rowItem y = .controller v) : v ∈ y.value := by
  rw [rowItem] at h
  split at h
  · cases hv : y.value with
    | nil =>
      rw [hv] at h
      cases h
    | cons w ws =>
      rw [hv] at h
      cases h
      exact mem_cons_self
  · split at h
    · split at h <;> cases h
    · cases h

theorem patterns_of_racks {value : Text} {ps : List (Option Value)}
    (h : rowItem y = .racks value ps) :
    ps = y.subvals.map pattern := by
  rw [rowItem] at h
  split at h
  · split at h <;> cases h
  · split at h
    · split at h <;> cases h
      rfl
    · cases h

theorem XmlParser.Fresh.pattern {z : XmlParser} (h : z.Fresh) :
    ∀ v ∈ pattern z, v.text = v.file := by
  intro v hv
  rw [Cfgi.pattern] at hv
  split at hv
  · exact h.value v (mem_of_head? hv)
  · cases hv

theorem fresh_of_mem_rowUses (hf : y.Fresh) {ns : List Text} (hu : u ∈ rowUses nodename L ns y) :
    u.1.text = u.1.file := by
  rw [rowUses] at hu
  cases hit : rowItem y with
  | controller v =>
    simp only [hit, mem_singleton] at hu
    rw [hu]
    exact hf.value v (mem_value_of_controller hit)
  | racks value ps =>
    simp only [hit, mem_flatMap, mem_map, Option.mem_toList] at hu
    obtain ⟨p, hp, v, hv, rfl⟩ := hu
    rw [patterns_of_racks hit] at hp
    obtain ⟨z, hz, rfl⟩ := mem_map.1 hp
    exact (hf.subvals z hz).pattern v hv
  | other =>
    simp only [hit] at hu
    cases hu

theorem mem_rowItem_emits (ns : List Text) :
    g ∈ emits (RowItem.gives nodename L) (RowItem.after nodename L) ns (rowItem y) ↔
      ∃ u ∈ rowUses nodename L ns y, g ∈ Value.givenAll nodename u.2 u.1 := by
  rw [rowUses]
  cases rowItem y with
  | controller v =>
    have hem : emits (RowItem.gives nodename L) (RowItem.after nodename L) ns (.controller v) =
        Value.givenAll nodename (ns.map fun n => (none, n)) v := by
      rw [Value.givenAll, emits_map]
      exact emits_image _ _ (f := RowItem.controller) (fun _ _ => rfl) (fun _ _ => rfl) ns v
    simp [hem]
  | racks value ps =>
    -- for each name of the row all racks are visited, so the names of the racks follow each other
    have hem : emits (RowItem.gives nodename L) (RowItem.after nodename L) ns (.racks value ps) =
        emits (fun q ps => ps.flatMap (patternGives nodename q))
        (fun q ps => ps.map (patternAfter nodename q))
          (ns.flatMap fun n => (namesOf nodename L (some n) value).map fun m =>
            (some n, m)) ps := by
      rw [emits_flatMap]
      exact emits_image _ _ (f := RowItem.racks value) (fun n ps => by rw [emits_map]; rfl)
        (fun n ps => by rw [afterAll_map]; rfl) ns ps
    rw [hem, mem_emits_map]
    simp only [mem_pattern_emits, mem_flatMap, mem_map, Option.mem_toList]
    constructor
    · rintro ⟨p, hp, v, hv, hg⟩
      exact ⟨_, ⟨p, hp, v, hv, rfl⟩, hg⟩
    · rintro ⟨_, ⟨p, hp, v, hv, rfl⟩, hg⟩
      exact ⟨p, hp, v, hv, hg⟩
  | other =>
    have hem : emits (RowItem.gives nodename L) (RowItem.after nodename L) ns .other = [] :=
      emits_eq_nil (fun _ => rfl) (fun _ => rfl) ns
    simp [hem]

variable {xx : XmlParser} {cluster : Option Text}

theorem fresh_of_mem_uses (hf : xx.Fresh) (hu : u ∈ uses nodename L cluster xx) :
    u.1.text = u.1.file := by
  obtain ⟨x, hx, hu⟩ := mem_flatMap.1 hu
  split at hu
  · obtain ⟨y, hy, hu⟩ := mem_flatMap.1 hu
    exact fresh_of_mem_rowUses ((hf.subvals x hx).subvals y hy) hu
  · cases hu

/-- **The history of a cluster**: what each controller gives for the names it is used for. -/
theorem mem_clusterGives :
    g ∈ xx.subvals.flatMap (clusterGives nodename L cluster) ↔
      ∃ u ∈ uses nodename L cluster xx, g ∈ Value.givenAll nodename u.2 u.1 := by
  simp only [uses, mem_flatMap, clusterGives]
  constructor
  · rintro ⟨x, hx, hg⟩
    split at hg
    · rename_i hname
      obtain ⟨i, hi, hg⟩ := (mem_emits_map _ _ _ _).1 hg
      obtain ⟨y, hy, rfl⟩ := mem_map.1 hi
      obtain ⟨u, hu, hg⟩ := (mem_rowItem_emits _).1 hg
      exact ⟨u, ⟨x, hx, by rw [if_pos hname]; exact mem_flatMap_of_mem hy hu⟩, hg⟩
    · cases hg
  · rintro ⟨u, ⟨x, hx, hu⟩, hg⟩
    refine ⟨x, hx, ?_⟩
    split at hu
    · rename_i hname
      obtain ⟨y, hy, hu⟩ := mem_flatMap.1 hu
      rw [if_pos hname, mem_emits_map]
      exact ⟨rowItem y, mem_map_of_mem hy, (mem_rowItem_emits _).2 ⟨u, hu, hg⟩⟩
    · cases hu

theorem right_cluster_iff (hf : xx.Fresh) :
    (∀ g ∈ xx.subvals.flatMap (clusterGives nodename L cluster), g.Right) ↔
      ∀ u ∈ uses nodename L cluster xx, '@' ∈ u.1.file →
        (u.2.map Prod.snd).IsChain (Keeps nodename u.1.file) := by
  constructor
  · intro h u hu
    exact (right_emits_iff nodename (fresh_of_mem_uses hf hu) u.2).1 fun g hg =>
      h g (mem_clusterGives.2 ⟨u, hu, hg⟩)
  · intro h g hg
    obtain ⟨u, hu, hg⟩ := mem_clusterGives.1 hg
    exact (right_emits_iff nodename (fresh_of_mem_uses hf hu) u.2).2 (h u hu) g hg

end

end

end Sensys.Cfgi
