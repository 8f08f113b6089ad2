import Sensys.Cfgi.Inserted
/-!
# Complete levels

Under a cluster there are rows, under a row racks, and under a rack nodes (`Complete`). A tree
that leaves levels out (`OnlySkips`) is completed by the two phases; a complete tree passes
`checkHierarchyIntegrity` and is left as it is.
-/
namespace Sensys.Cfgi
open List

/-- The junctions directly under those of type `parent` are of the types allowed, and there are
some. -/
def Below (x : XmlTree) (parent : JunctionType) (allowed : List JunctionType) : Prop :=
  ∀ i < x.hierarchy.length, x.isJunction i = true → x.typeOf i = some parent →
    (∀ c ∈ x.junctionChildren i, ∃ t ∈ allowed, x.typeOf c = some t) ∧ x.junctionChildren i ≠ []

instance (x : XmlTree) (parent : JunctionType) (allowed : List JunctionType) :
    Decidable (Below x parent allowed) :=
  inferInstanceAs (Decidable (∀ _ < _, _))

/-- There are no junctions under nodes. -/
def NodesEnd (x : XmlTree) : Prop :=
  ∀ i < x.hierarchy.length, x.isJunction i = true → x.typeOf i = some .node →
    x.junctionChildren i = []

instance (x : XmlTree) : Decidable (NodesEnd x) := inferInstanceAs (Decidable (∀ _ < _, _))

/-- Racks and nodes may be directly under a cluster, and nodes directly under a row. -/
structure OnlySkips (x : XmlTree) : Prop where
  cluster : Below x .cluster [.row, .rack, .node]
  row     : Below x .row [.rack, .node]
  rack    : Below x .rack [.node]
  node    : NodesEnd x

structure Complete (x : XmlTree) : Prop where
  cluster : Below x .cluster [.row]
  row     : Below x .row [.rack]
  rack    : Below x .rack [.node]
  node    : NodesEnd x

/-- The values of a level fit together. -/
structure Level.Proper (lv : Level) : Prop where
  text_type  : junctionType lv.text = lv.type
  new_type   : lv.type ≠ lv.parent
  not_node   : lv.type ≠ .node ∧ lv.parent ≠ .node

theorem rowLevel_proper : rowLevel.Proper := ⟨by decide, by decide, by decide⟩

theorem rackLevel_proper : rackLevel.Proper := ⟨by decide, by decide, by decide⟩

variable {parent : JunctionType}

section
variable {lv : Level} {x y : XmlTree} {done : List (Nat × Nat)} {i j k c : Nat} {u v : Int}

theorem mem_junctionChildren : c ∈ x.junctionChildren i ↔
    ∃ (j : Nat) (u : Int), (x.row i)[j]? = some u ∧ x.isJunctionChild u = true ∧
    c = childToOffset u := by
  simp only [XmlTree.junctionChildren, mem_map, mem_filter]
  constructor
  · rintro ⟨u, ⟨hmem, hu⟩, rfl⟩
    obtain ⟨j, hj⟩ := getElem?_of_mem hmem
    exact ⟨j, u, hj, hu, rfl⟩
  · rintro ⟨j, u, hj, hu, rfl⟩
    exact ⟨u, ⟨mem_of_getElem? hj, hu⟩, rfl⟩

theorem isJunctionChild_iff :
    x.isJunctionChild u = true ↔ u < 0 ∧ x.isJunction (childToOffset u) = true := by
  simp [XmlTree.isJunctionChild, isChild]

theorem Linked.child_lt (hl : Linked x) (hc : c ∈ x.junctionChildren i) :
    c < x.hierarchy.length := by
  obtain ⟨j, u, hu, hch, rfl⟩ := mem_junctionChildren.1 hc
  have hmem := mem_of_getElem? hu
  exact (hl.inRange i (lt_of_mem_row hmem) u hmem).2 (isJunctionChild_iff.1 hch).1

theorem mem_places : (i, j) ∈ places lv x ↔ j < (x.row i).length ∧ needs lv x i j = true := by
  simp only [places, placesAt, mem_flatMap, mem_map, mem_filter, mem_range, Prod.mk.injEq]
  constructor
  · rintro ⟨k, -, m, hm, rfl, rfl⟩
    exact hm
  · intro h
    refine ⟨i, ?_, j, h, rfl, rfl⟩
    by_contra hi
    rw [row_eq_nil (Nat.not_lt.1 hi)] at h
    exact absurd h.1 (Nat.not_lt_zero j)

theorem needs_iff (hu : (x.row i)[j]? = some u) : needs lv x i j = true ↔
    x.isJunction i = true ∧ x.typeOf i = some lv.parent ∧ x.isJunctionChild u = true ∧
      ∃ t ∈ lv.inserts, x.typeOf (childToOffset u) = some t := by
  have hxu : (x.row i).getD j 0 = u := by rw [getD_eq_getElem?_getD, hu, Option.getD_some]
  simp only [needs, hxu, Bool.and_eq_true, decide_eq_true_eq, any_eq_true, and_assoc]

/-- The rows after the phase: those before, and one for each place. -/
theorem Inserted.row_cases (h : Inserted lv x done y) (hi : i < y.hierarchy.length) :
    i < x.hierarchy.length ∨ ∃ t k j, done[t]? = some (k, j) ∧ i = x.hierarchy.length + t := by
  rcases Nat.lt_or_ge i x.hierarchy.length with hlt | hge
  · exact Or.inl hlt
  · rw [h.size_eq] at hi
    have ht : i - x.hierarchy.length < done.length := by omega
    exact Or.inr ⟨i - x.hierarchy.length, _, _, getElem?_eq_getElem ht, by omega⟩

/-- The entries of a row that was there: those before, and new junctions at the places. -/
theorem Inserted.entry_cases (h : Inserted lv x done y) (hi : i < x.hierarchy.length)
    (hv : (y.row i)[j]? = some v) :
    ((i, j) ∉ done ∧ (x.row i)[j]? = some v) ∨
      ∃ t, done[t]? = some (i, j) ∧ v = -((x.hierarchy.length + t : Nat) : Int) := by
  by_cases hmem : (i, j) ∈ done
  · obtain ⟨t, ht⟩ := getElem?_of_mem hmem
    obtain ⟨u, -, -, hyu, -⟩ := h.moved t i j ht
    rw [hv] at hyu
    exact Or.inr ⟨t, ht, Option.some.inj hyu⟩
  · exact Or.inl ⟨hmem, by rw [← h.kept i hi j hmem, hv]⟩

theorem childToOffset_neg (n : Nat) : childToOffset (-(n : Int)) = n := by simp [childToOffset]

theorem filter_newRow {p : Int → Bool} (hp : ∀ v : Int, 0 ≤ v → p v = false) (n : Nat) {u : Int}
    (hu : p u = true) :
    [(n : Int), (n : Int) + 1, (n : Int) + 4, u].filter p = [u] := by
  have h0 := hp (n : Int) (by omega)
  have h1 := hp ((n : Int) + 1) (by omega)
  have h4 := hp ((n : Int) + 4) (by omega)
  simp only [filter_cons, h0, h1, h4, hu, if_true, Bool.false_eq_true, if_false, filter_nil]

theorem isChild_of_nonneg {v : Int} (hv : 0 ≤ v) : isChild v = false := by
  simpa [isChild] using hv

theorem Inserted.junctionChildren_new (h : Inserted lv x done y) (hl : Linked x) {t : Nat}
    (ht : done[t]? = some (i, j)) (hu : (x.row i)[j]? = some u) :
    y.junctionChildren (x.hierarchy.length + t) = [childToOffset u] := by
  obtain ⟨w, hw, hch, -, hrow⟩ := h.moved t i j ht
  rw [hu] at hw
  cases hw
  have hy : y.isJunctionChild u = true := by rw [h.isJunctionChild_eq hl (mem_of_getElem? hu), hch]
  have hit : ∀ v : Int, 0 ≤ v → y.isJunctionChild v = false := by
    intro v hv
    rw [XmlTree.isJunctionChild, isChild_of_nonneg hv, Bool.false_and]
  rw [XmlTree.junctionChildren, hrow, filter_newRow hit _ hy, map_singleton]

theorem Inserted.typeOf_new (h : Inserted lv x done y) (hp : lv.Proper) {t : Nat}
    (ht : done[t]? = some (i, j)) :
    y.typeOf (x.hierarchy.length + t) = some lv.type := by
  rw [XmlTree.typeOf, (h.new ht).2.1, Option.map_some, hp.text_type]

/-! ## What a phase keeps -/

section
variable (h : Inserted lv x done y) (hl : Linked x)
include h hl

theorem Inserted.linked : Linked y := by
  refine ⟨fun i hi => ?_, fun i hi v hv => ?_⟩
  · rcases h.row_cases hi with hi | ⟨t, k, j, ht, rfl⟩
    · obtain ⟨u, hu, hpos⟩ := hl.start i hi
      refine ⟨u, ?_, hpos⟩
      rw [Option.mem_def, head?_eq_getElem?] at hu ⊢
      exact h.field_kept hi hu hpos
    · obtain ⟨u, -, -, -, hrow⟩ := h.moved t k j ht
      rw [hrow]
      exact ⟨_, rfl, by omega⟩
  · have hit := h.items_length
    have hsi := h.size_eq
    rcases h.row_cases hi with hi | ⟨t, k, j, ht, rfl⟩
    · obtain ⟨j, hj⟩ := mem_iff_getElem?.1 hv
      rcases h.entry_cases hi hj with ⟨-, hxv⟩ | ⟨t, ht, rfl⟩
      · have hx := hl.inRange i hi v (mem_of_getElem? hxv)
        exact ⟨fun hpos => by have := hx.1 hpos; omega, fun hneg => by have := hx.2 hneg; omega⟩
      · have hlt := (List.getElem?_eq_some_iff.1 ht).1
        rw [childToOffset_neg]
        omega
    · obtain ⟨u, hu, hch, -, hrow⟩ := h.moved t k j ht
      have hoff := hl.child_lt (mem_junctionChildren.2 ⟨j, u, hu, hch, rfl⟩)
      have hneg := (isJunctionChild_iff.1 hch).1
      rw [hrow] at hv
      simp only [mem_cons, not_mem_nil, or_false] at hv
      rcases hv with rfl | rfl | rfl | rfl
      · omega
      · omega
      · omega
      · exact ⟨fun hpos => by omega, fun _ => by omega⟩

/-- The junctions after the phase: those before, and the new ones. -/
theorem Inserted.junction_cases (hi : i < y.hierarchy.length) (hj : y.isJunction i = true) :
    (i < x.hierarchy.length ∧ x.isJunction i = true ∧ y.typeOf i = x.typeOf i ∧
      y.nameOf i = x.nameOf i) ∨
      ∃ t k j, done[t]? = some (k, j) ∧ i = x.hierarchy.length + t := by
  rcases h.row_cases hi with hi | hnew
  · rw [h.isJunction_eq hl hi] at hj
    exact Or.inl ⟨hi, hj, h.typeOf_eq hl hi, h.nameOf_eq hl hi⟩
  · exact Or.inr hnew

theorem Inserted.typed (hp : lv.Proper) (ht : Typed x) : Typed y := by
  intro i hi hj
  rcases h.junction_cases hl hi hj with ⟨hi, hj, htype, -⟩ | ⟨t, k, j, hdo, rfl⟩
  · rw [htype]
    exact ht i hi hj
  · rw [h.typeOf_new hp hdo]
    rfl

variable (hi : i < x.hierarchy.length)
include hi

/-- A child of a row that was there: one from before, or a new junction. -/
theorem Inserted.junctionChild_cases (hc : c ∈ y.junctionChildren i) :
    (∃ (j : Nat) (u : Int), (i, j) ∉ done ∧ (x.row i)[j]? = some u ∧ x.isJunctionChild u = true ∧
      c = childToOffset u) ∨
      ∃ t j, done[t]? = some (i, j) ∧ c = x.hierarchy.length + t := by
  obtain ⟨j, v, hv, hch, rfl⟩ := mem_junctionChildren.1 hc
  rcases h.entry_cases hi hv with ⟨hnot, hxv⟩ | ⟨t, ht, rfl⟩
  · rw [h.isJunctionChild_eq hl (mem_of_getElem? hxv)] at hch
    exact Or.inl ⟨j, v, hnot, hxv, hch, rfl⟩
  · exact Or.inr ⟨t, j, ht, childToOffset_neg _⟩

theorem Inserted.junctionChildren_ne_nil (hx : x.junctionChildren i ≠ []) :
    y.junctionChildren i ≠ [] := by
  obtain ⟨c, hc⟩ := exists_mem_of_ne_nil _ hx
  obtain ⟨j, u, hu, hch, rfl⟩ := mem_junctionChildren.1 hc
  by_cases hmem : (i, j) ∈ done
  · obtain ⟨t, ht⟩ := getElem?_of_mem hmem
    obtain ⟨-, -, -, hyv, -⟩ := h.moved t i j ht
    refine ne_nil_of_mem (mem_junctionChildren.2
      ⟨j, _, hyv, isJunctionChild_iff.2 ⟨by omega, ?_⟩, rfl⟩)
    rw [childToOffset_neg]
    exact (h.new ht).1
  · refine ne_nil_of_mem (mem_junctionChildren.2 ⟨j, u, by rw [h.kept i hi j hmem, hu], ?_, rfl⟩)
    rw [h.isJunctionChild_eq hl (mem_of_getElem? hu), hch]

theorem Inserted.junctionChildren_eq (hnot : ∀ p ∈ done, p.1 ≠ i) :
    y.junctionChildren i = x.junctionChildren i := by
  rw [XmlTree.junctionChildren, XmlTree.junctionChildren, h.row_eq hi hnot]
  congr 1
  exact filter_congr fun u hu => h.isJunctionChild_eq hl hu

end

theorem not_place (h : x.typeOf i ≠ some lv.parent) : ∀ p ∈ places lv x, p.1 ≠ i := by
  rintro ⟨k, j⟩ hp rfl
  have hnee := (mem_places.1 hp).2
  simp only [needs, Bool.and_eq_true, decide_eq_true_eq] at hnee
  exact h hnee.1.1.2

section
variable (h : Inserted lv x (places lv x) y) (hl : Linked x) (hp : lv.Proper)
include h hl hp

theorem Inserted.below_parent (hbe : Below x lv.parent (lv.type :: lv.inserts)) :
    Below y lv.parent [lv.type] := by
  intro i hi hj htype
  rcases h.junction_cases hl hi hj with ⟨hi, hj, heq, -⟩ | ⟨t, k, j, ht, rfl⟩
  · rw [heq] at htype
    obtain ⟨hall, hso⟩ := hbe i hi hj htype
    refine ⟨fun c hc => ⟨lv.type, mem_singleton_self _, ?_⟩, h.junctionChildren_ne_nil hl hi hso⟩
    rcases h.junctionChild_cases hl hi hc with ⟨j, u, hnot, hu, hch, rfl⟩ | ⟨t, j, ht, rfl⟩
    · have hc := mem_junctionChildren.2 ⟨j, u, hu, hch, rfl⟩
      obtain ⟨t, hmem, hct⟩ := hall _ hc
      rw [h.typeOf_eq hl (hl.child_lt hc), hct]
      rcases mem_cons.1 hmem with rfl | hins
      · rfl
      · refine absurd (mem_places.2 ⟨(List.getElem?_eq_some_iff.1 hu).1, ?_⟩) hnot
        exact (needs_iff hu).2 ⟨hj, htype, hch, t, hins, hct⟩
    · exact h.typeOf_new hp ht
  · rw [h.typeOf_new hp ht] at htype
    exact absurd (Option.some.inj htype) hp.new_type

/-- What is under other junctions stays; a new junction has what was inserted above. -/
theorem Inserted.below_other {allowed : List JunctionType} (hpa : parent ≠ lv.parent)
    (hnew : parent = lv.type → lv.inserts ⊆ allowed) (hbe : Below x parent allowed) :
    Below y parent allowed := by
  intro i hi hj htype
  rcases h.junction_cases hl hi hj with ⟨hi, hj, heq, -⟩ | ⟨t, k, j, ht, rfl⟩
  · rw [heq] at htype
    have hnot := @not_place lv x i (by simp [htype, hpa])
    obtain ⟨hall, hso⟩ := hbe i hi hj htype
    rw [h.junctionChildren_eq hl hi hnot]
    refine ⟨fun c hc => ?_, hso⟩
    rw [h.typeOf_eq hl (hl.child_lt hc)]
    exact hall _ hc
  · obtain ⟨u, hu, hch, -, -⟩ := h.moved t k j ht
    have hnee := (mem_places.1 (mem_of_getElem? ht)).2
    obtain ⟨-, -, -, t', hins, hut⟩ := (needs_iff hu).1 hnee
    rw [h.typeOf_new hp ht] at htype
    rw [h.junctionChildren_new hl ht hu]
    refine ⟨fun c hc => ?_, by simp⟩
    rw [mem_singleton.1 hc,
      h.typeOf_eq hl (hl.child_lt (mem_junctionChildren.2 ⟨j, u, hu, hch, rfl⟩))]
    exact ⟨t', hnew (Option.some.inj htype).symm hins, hut⟩

theorem Inserted.nodesEnd (hno : NodesEnd x) : NodesEnd y := by
  intro i hi hj htype
  rcases h.junction_cases hl hi hj with ⟨hi, hj, heq, -⟩ | ⟨t, k, j, ht, rfl⟩
  · rw [heq] at htype
    have hnot := @not_place lv x i (by simp [htype, hp.not_node.2.symm])
    rw [h.junctionChildren_eq hl hi hnot]
    exact hno i hi hj htype
  · rw [h.typeOf_new hp ht] at htype
    exact absurd (Option.some.inj htype) hp.not_node.1

end

end

section
variable {x y z : XmlTree}

theorem complete_of_onlySkips (hl : Linked x) (hs : OnlySkips x)
    (hy : Inserted rowLevel x (places rowLevel x) y)
    (hz : Inserted rackLevel y (places rackLevel y) z) : Complete z := by
  have hly := hy.linked hl
  have hcl : Below y .cluster [.row] := hy.below_parent hl rowLevel_proper hs.cluster
  have hrow : Below y .row [.rack, .node] :=
    hy.below_other hl rowLevel_proper (by decide) (fun _ => List.Subset.refl _) hs.row
  have hra : Below y .rack [.node] :=
    hy.below_other hl rowLevel_proper (by decide) (by decide) hs.rack
  have hno := hy.nodesEnd hl rowLevel_proper hs.node
  exact ⟨hz.below_other hly rackLevel_proper (by decide) (by decide) hcl,
    hz.below_parent hly rackLevel_proper hrow,
    hz.below_other hly rackLevel_proper (by decide) (fun _ => List.Subset.refl _) hra,
    hz.nodesEnd hly rackLevel_proper hno⟩

theorem hasOnly_of_below {i : Nat} {parent child : JunctionType} (h : Below x parent [child])
    (hi : i < x.hierarchy.length) (hj : x.isJunction i = true) (htype : x.typeOf i = some parent) :
    x.hasOnly child i = true := by
  obtain ⟨hall, hso⟩ := h i hi hj htype
  simp only [XmlTree.hasOnly, Bool.and_eq_true, all_eq_true, decide_eq_true_eq, Bool.not_eq_true',
    isEmpty_eq_false_iff]
  refine ⟨fun c hc => ?_, hso⟩
  obtain ⟨t, ht, hct⟩ := hall c hc
  rw [hct, mem_singleton.1 ht]

theorem checkType_of {ok : Nat → Bool} (ht : Typed x)
    (h : ∀ i < x.hierarchy.length, x.isJunction i = true → x.typeOf i = some parent → ok i = true) :
    x.checkType parent ok = true := by
  rw [XmlTree.checkType, all_eq_true]
  intro i hi
  have hi := mem_range.1 hi
  cases hj : x.isJunction i with
  | false => rfl
  | true =>
    obtain ⟨t, htype⟩ := Option.isSome_iff_exists.1 (ht i hi hj)
    simp only [htype, Bool.not_true, Bool.false_or, Bool.or_eq_true, decide_eq_true_eq]
    by_cases hpa : t = parent
    · exact Or.inr (h i hi hj (by rw [htype, hpa]))
    · exact Or.inl hpa

theorem checkCluster_of (ht : Typed x) (h : Below x .cluster [.row]) {l : List Nat}
    (hlt : ∀ i ∈ l, i < x.hierarchy.length) :
    x.checkCluster l = true := by
  induction l with
  | nil => rfl
  | cons i l ih =>
    have hi := hlt i mem_cons_self
    have ih := ih (forall_mem_cons.1 hlt).2
    rw [XmlTree.checkCluster]
    split
    · rename_i hj
      obtain ⟨t, htype⟩ := Option.isSome_iff_exists.1 (ht i hi hj)
      simp only [htype]
      split
      · rename_i hcl
        exact hasOnly_of_below h hi hj (by rw [htype, hcl])
      · exact ih
    · exact ih

/-- **A complete tree passes the check.** -/
theorem checkHierarchyIntegrity_of_complete (ht : Typed x) (h : Complete x) :
    x.checkHierarchyIntegrity = true := by
  simp only [XmlTree.checkHierarchyIntegrity, Bool.and_eq_true]
  refine ⟨⟨⟨checkCluster_of ht h.cluster fun i hi => mem_range.1 hi,
    checkType_of ht fun i => hasOnly_of_below h.row⟩,
    checkType_of ht fun i => hasOnly_of_below h.rack⟩, checkType_of ht fun i hi hj htype => ?_⟩
  rw [h.node i hi hj htype]
  rfl

theorem places_eq_nil {lv : Level} (h : Below x lv.parent [lv.type]) (hp : lv.type ∉ lv.inserts) :
    places lv x = [] := by
  rw [eq_nil_iff_forall_not_mem]
  rintro ⟨i, j⟩ hmem
  obtain ⟨hj, hnee⟩ := mem_places.1 hmem
  have hu : (x.row i)[j]? = some ((x.row i)[j]) := getElem?_eq_getElem hj
  obtain ⟨hi, htype, hch, t, hins, hut⟩ := (needs_iff hu).1 hnee
  obtain ⟨hall, -⟩ := h i (lt_of_mem_row (getElem_mem hj)) hi htype
  obtain ⟨t', ht', hut'⟩ := hall _ (mem_junctionChildren.2 ⟨j, _, hu, hch, rfl⟩)
  rw [hut] at hut'
  rw [mem_singleton] at ht'
  cases hut'
  exact hp (ht' ▸ hins)

/-- **A complete tree is left as it is.** -/
theorem augmentHierarchy_of_complete (hl : Linked x) (ht : Typed x) (h : Complete x) :
    augmentHierarchy x = .ok x := by
  rw [augmentHierarchy, insertLevel_eq_self hl ht (places_eq_nil h.cluster (by decide))]
  exact insertLevel_eq_self hl ht (places_eq_nil h.row (by decide))

end

end Sensys.Cfgi
