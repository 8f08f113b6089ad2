import Sensys.Lib.Text
import Sensys.Cfgi.JunctionTree
/-!
# Names of siblings, and what `augmentHierarchy` does to a tree that leaves levels out

The names of siblings are compared before `augmentHierarchy` and not after it. It inserts
`FictitiousRow1`, `FictitiousRow2`, … under clusters and `FictitiousRack1`, … under rows, whatever
is there (`NamesFree`).
-/
namespace Sensys.Cfgi
open List

/-- Every junction has a name. -/
def Named (x : XmlTree) : Prop :=
  ∀ i < x.hierarchy.length, x.isJunction i = true → (x.nameOf i).isSome = true

instance (x : XmlTree) : Decidable (Named x) := inferInstanceAs (Decidable (∀ _ < _, _))

/-- The junctions directly under row `i` have different names. -/
def DistinctAt (x : XmlTree) (i : Nat) : Prop :=
  ∀ (j j' : Nat) (u u' : Int), j ≠ j' → (x.row i)[j]? = some u → (x.row i)[j']? = some u' →
    x.isJunctionChild u = true →
    x.isJunctionChild u' = true → x.nameOf (childToOffset u) ≠ x.nameOf (childToOffset u')

/-- No junction beside those inserted in row `i` has the name of one of them. -/
def FreeAt (lv : Level) (x : XmlTree) (i : Nat) : Prop :=
  ∀ t j, (places lv x)[t]? = some (i, j) →
    ∀ c ∈ x.junctionChildren i, (∀ t' ∈ lv.inserts, x.typeOf c ≠ some t') →
    x.nameOf c ≠ some (lv.name (t + 1))

/-! ## The check of the names -/

section
variable {x : XmlTree} {i : Nat}

theorem allDistinct_iff {l : List (Option (List Char))} (h : ∀ a ∈ l, a.isSome = true) :
    XmlTree.allDistinct l = true ↔ l.Nodup := by
  induction l with
  | nil => simp [XmlTree.allDistinct]
  | cons a l ih =>
    obtain ⟨b, rfl⟩ := Option.isSome_iff_exists.1 (h a mem_cons_self)
    have hl : ∀ a ∈ l, a.isSome = true := (forall_mem_cons.1 h).2
    rw [XmlTree.allDistinct, Bool.and_eq_true, ih hl, nodup_cons, all_eq_true]
    refine and_congr_left fun _ => ?_
    constructor
    · intro hall hmem
      simpa using hall _ hmem
    · intro hnot a ha
      have hne : a ≠ some b := fun heq => hnot (heq ▸ ha)
      simp [hl a ha, hne]

theorem pairwise_iff_getElem? {α : Type} {R : α → α → Prop} {l : List α} :
    l.Pairwise R ↔ ∀ (j j' : Nat) (a b : α), j < j' → l[j]? = some a → l[j']? = some b → R a b := by
  rw [pairwise_iff_getElem]
  constructor
  · intro h j j' a b hlt ha hb
    obtain ⟨hj, rfl⟩ := List.getElem?_eq_some_iff.1 ha
    obtain ⟨hj', rfl⟩ := List.getElem?_eq_some_iff.1 hb
    exact h j j' hj hj' hlt
  · intro h j j' hj hj' hlt
    exact h j j' _ _ hlt (getElem?_eq_getElem hj) (getElem?_eq_getElem hj')

theorem distinctAt_iff_nodup : DistinctAt x i ↔ ((x.junctionChildren i).map x.nameOf).Nodup := by
  rw [XmlTree.junctionChildren, List.Nodup, pairwise_map, pairwise_map, pairwise_filter,
    pairwise_iff_getElem?]
  constructor
  · intro h j j' u u' hlt hu hu' hc hc'
    exact h j j' u u' (Nat.ne_of_lt hlt) hu hu' hc hc'
  · intro h j j' u u' hne hu hu' hc hc'
    rcases Nat.lt_or_gt_of_ne hne with hlt | hgt
    · exact h j j' u u' hlt hu hu' hc hc'
    · exact (h j' j u' u hgt hu' hu hc' hc).symm

theorem checkNames_iff (hl : Linked x) (hn : Named x) :
    x.checkParentHasUniquelyNamedChildren = true ↔
    ∀ i < x.hierarchy.length, x.isJunction i = true → DistinctAt x i := by
  have hso : ∀ i, ∀ a ∈ (x.junctionChildren i).map x.nameOf, a.isSome = true := by
    intro i a ha
    obtain ⟨c, hc, rfl⟩ := mem_map.1 ha
    obtain ⟨j, u, hu, hch, rfl⟩ := mem_junctionChildren.1 hc
    exact hn _ (hl.child_lt hc) (isJunctionChild_iff.1 hch).2
  rw [XmlTree.checkParentHasUniquelyNamedChildren, all_eq_true]
  constructor
  · intro h i hi hj
    have hall := h i (mem_range.2 hi)
    rw [hj, Bool.not_true, Bool.false_or, allDistinct_iff (hso i)] at hall
    exact distinctAt_iff_nodup.2 hall
  · intro h i hi
    cases hj : x.isJunction i with
    | false => rfl
    | true =>
      rw [Bool.not_true, Bool.false_or, allDistinct_iff (hso i)]
      exact distinctAt_iff_nodup.1 (h i (mem_range.1 hi) hj)

end

/-! ## The names after a phase -/

section
variable {lv : Level} {x y : XmlTree} {i : Nat}

theorem Level.name_injective (lv : Level) {m n : Nat} (h : lv.name m = lv.name n) : m = n := by
  have hdi := append_cancel_left h
  rw [← Text.digitsValue_toDigits m, hdi, Text.digitsValue_toDigits]

section
variable (h : Inserted lv x (places lv x) y) (hl : Linked x)
include h hl

theorem Inserted.named (hn : Named x) : Named y := by
  intro i hi hj
  rcases h.junction_cases hl hi hj with ⟨hi, hj, -, hname⟩ | ⟨t, k, j, ht, rfl⟩
  · rw [hname]
    exact hn i hi hj
  · rw [(h.new ht).2.2]
    rfl

theorem Inserted.distinctAt_new {t k j : Nat}
    (ht : (places lv x)[t]? = some (k, j)) : DistinctAt y (x.hierarchy.length + t) := by
  obtain ⟨u, hu, -⟩ := h.moved t k j ht
  rw [distinctAt_iff_nodup, h.junctionChildren_new hl ht hu]
  exact pairwise_singleton _ _

theorem Inserted.distinctAt_iff (hi : i < x.hierarchy.length) (hx : DistinctAt x i) :
    DistinctAt y i ↔ FreeAt lv x i := by
  constructor
  · intro hy t j ht c hc hins hname
    obtain ⟨j', u', hu', hch', rfl⟩ := mem_junctionChildren.1 hc
    have hnot : (i, j') ∉ places lv x := by
      intro hmem
      obtain ⟨-, -, -, t', ht', htype⟩ := (needs_iff hu').1 (mem_places.1 hmem).2
      exact hins t' ht' htype
    have hne : j ≠ j' := by
      rintro rfl
      exact hnot (mem_of_getElem? ht)
    obtain ⟨u, -, -, hyu, -⟩ := h.moved t i j ht
    have hyu' : (y.row i)[j']? = some u' := by rw [h.kept i hi j' hnot, hu']
    refine hy j j' _ u' hne hyu hyu' (isJunctionChild_iff.2 ⟨by omega, ?_⟩) ?_ ?_
    · rw [childToOffset_neg]
      exact (h.new ht).1
    · rw [h.isJunctionChild_eq hl (mem_of_getElem? hu'), hch']
    · rw [childToOffset_neg, (h.new ht).2.2, h.nameOf_eq hl (hl.child_lt hc), hname]
  · intro hf j j' v v' hne hv hv' hc hc'
    -- a child that was there is no place, so its type is not one of those that get a junction
    have hk : ∀ {j : Nat} {v : Int}, (i, j) ∉ places lv x → (x.row i)[j]? = some v →
      y.isJunctionChild v = true →
        x.isJunctionChild v = true ∧ y.nameOf (childToOffset v) = x.nameOf (childToOffset v) := by
      intro j v _ hxv hch
      rw [h.isJunctionChild_eq hl (mem_of_getElem? hxv)] at hch
      exact ⟨hch, h.nameOf_eq hl (hl.child_lt (mem_junctionChildren.2 ⟨j, v, hxv, hch, rfl⟩))⟩
    have hbe : ∀ {t j : Nat}, (places lv x)[t]? = some (i, j) →
      ∀ {j' : Nat} {v' : Int}, (i, j') ∉ places lv x →
        (x.row i)[j']? = some v' → y.isJunctionChild v' = true →
        y.nameOf (x.hierarchy.length + t) ≠ y.nameOf (childToOffset v') := by
      intro t j ht j' v' hnot' hxv' hc'
      obtain ⟨hch', hname'⟩ := hk hnot' hxv' hc'
      rw [(h.new ht).2.2, hname']
      refine (hf t j ht _ (mem_junctionChildren.2 ⟨j', v', hxv', hch', rfl⟩) fun t' ht' htype =>
        hnot' ?_).symm
      have hpl := mem_places.1 (mem_of_getElem? ht)
      have hlt := (List.getElem?_eq_some_iff.1 hxv').1
      obtain ⟨hj, hpa, -⟩ := (needs_iff (getElem?_eq_getElem hpl.1)).1 hpl.2
      exact mem_places.2 ⟨hlt, (needs_iff hxv').2 ⟨hj, hpa, hch', t', ht', htype⟩⟩
    rcases h.entry_cases hi hv with ⟨hnot, hxv⟩ | ⟨t, ht, rfl⟩
    · rcases h.entry_cases hi hv' with ⟨hnot', hxv'⟩ | ⟨t', ht', rfl⟩
      · obtain ⟨hch, hname⟩ := hk hnot hxv hc
        obtain ⟨hch', hname'⟩ := hk hnot' hxv' hc'
        rw [hname, hname']
        exact hx j j' v v' hne hxv hxv' hch hch'
      · rw [childToOffset_neg]
        exact (hbe ht' hnot hxv hc).symm
    · rcases h.entry_cases hi hv' with ⟨hnot', hxv'⟩ | ⟨t', ht', rfl⟩
      · rw [childToOffset_neg]
        exact hbe ht hnot' hxv' hc'
      · rw [childToOffset_neg, childToOffset_neg, (h.new ht).2.2, (h.new ht').2.2]
        intro heq
        have htt : t + 1 = t' + 1 := lv.name_injective (Option.some.inj heq)
        obtain rfl : t = t' := by omega
        rw [ht] at ht'
        cases ht'
        exact hne rfl

theorem Inserted.distinctAt_eq (hi : i < x.hierarchy.length)
    (htype : x.typeOf i ≠ some lv.parent) : DistinctAt y i ↔ DistinctAt x i := by
  rw [distinctAt_iff_nodup, distinctAt_iff_nodup, h.junctionChildren_eq hl hi (not_place htype)]
  have hna : (x.junctionChildren i).map y.nameOf = (x.junctionChildren i).map x.nameOf := by
    exact map_congr_left fun c hc => h.nameOf_eq hl (hl.child_lt hc)
  rw [hna]

end

theorem freeAt_of_not_place (h : x.typeOf i ≠ some lv.parent) : FreeAt lv x i := by
  intro t j ht
  exact absurd rfl (not_place h _ (mem_of_getElem? ht))

/-! ## The places of the next phase -/

variable {next : Level}

section
variable (h : Inserted lv x (places lv x) y) (hl : Linked x) (hnext : next.parent ≠ lv.parent)
include h hl hnext

/-- The next phase asks for the same in rows that the first leaves alone. -/
theorem Inserted.placesAt_eq (hi : i < x.hierarchy.length) :
    placesAt next y i = placesAt next x i := by
  by_cases htype : x.typeOf i = some next.parent
  · have hrow : y.row i = x.row i := h.row_eq hi (not_place (by rw [htype]; simpa using hnext))
    rw [placesAt, placesAt, hrow]
    congr 1
    refine filter_congr fun j hj => Bool.eq_iff_iff.2 ?_
    obtain ⟨u, hu⟩ : ∃ u, (x.row i)[j]? = some u := ⟨_, getElem?_eq_getElem (mem_range.1 hj)⟩
    have hmem := mem_of_getElem? hu
    have hyu : (y.row i)[j]? = some u := by rw [hrow, hu]
    rw [needs_iff hu, needs_iff hyu, h.isJunction_eq hl hi, h.typeOf_eq hl hi,
      h.isJunctionChild_eq hl hmem]
    refine and_congr_right fun _ => and_congr_right fun _ => and_congr_right fun hch => ?_
    rw [h.typeOf_eq hl (hl.child_lt (mem_junctionChildren.2 ⟨j, u, hu, hch, rfl⟩))]
  · rw [placesAt_eq_nil fun hbo => htype hbo.2, placesAt_eq_nil]
    rw [h.typeOf_eq hl hi]
    exact fun hbo => htype hbo.2

/-- The places of the next phase: those that were there, then those in new rows. -/
theorem Inserted.places_next :
    ∃ rest, places next y = places next x ++ rest ∧ ∀ p ∈ rest, x.hierarchy.length ≤ p.1 := by
  refine ⟨((range (places lv x).length).map (x.hierarchy.length + ·)).flatMap (placesAt next y), ?_,
    ?_⟩
  · rw [places, h.size_eq, range_add, flatMap_append, places]
    congr 1
    refine flatMap_congr fun i hi => ?_
    exact h.placesAt_eq hl hnext (mem_range.1 hi)
  · intro p hp
    obtain ⟨k, hk, hp⟩ := mem_flatMap.1 hp
    obtain ⟨t, -, rfl⟩ := mem_map.1 hk
    obtain ⟨j, -, rfl⟩ := mem_map.1 hp
    exact Nat.le_add_right _ _

theorem Inserted.freeAt_next
    (hi : i < x.hierarchy.length) (htype : x.typeOf i ≠ some lv.parent) : FreeAt next y i ↔
      FreeAt next x i := by
  obtain ⟨rest, hpl, hre⟩ := h.places_next hl hnext
  have hat : ∀ t j : Nat, (places next y)[t]? = some (i, j) ↔
      (places next x)[t]? = some (i, j) := by
    intro t j
    rw [hpl]
    rcases Nat.lt_or_ge t (places next x).length with hlt | hge
    · rw [getElem?_append_left hlt]
    · rw [getElem?_append_right hge, getElem?_eq_none hge]
      refine ⟨fun ht => absurd (hre _ (mem_of_getElem? ht)) (Nat.not_le.2 hi),
        fun ht => by cases ht⟩
  have hk : ∀ c ∈ x.junctionChildren i, y.typeOf c = x.typeOf c ∧ y.nameOf c = x.nameOf c := by
    intro c hc
    have hlt := hl.child_lt hc
    exact ⟨h.typeOf_eq hl hlt, h.nameOf_eq hl hlt⟩
  simp only [FreeAt, hat, h.junctionChildren_eq hl hi (not_place htype)]
  refine forall_congr' fun t => forall_congr' fun j => forall_congr' fun _ => forall_congr' fun c =>
    forall_congr' fun hc => ?_
  rw [(hk c hc).1, (hk c hc).2]

end

theorem Inserted.freeAt_new (h : Inserted lv x (places lv x) y) (hl : Linked x) {t k j : Nat}
    (ht : (places lv x)[t]? = some (k, j)) : FreeAt next y (x.hierarchy.length + t) := by
  intro t' j' ht' c hc hins
  obtain ⟨u, hu, -⟩ := h.moved t k j ht
  obtain ⟨hj', hnee⟩ := mem_places.1 (mem_of_getElem? ht')
  have hv : (y.row (x.hierarchy.length + t))[j']? = some _ := getElem?_eq_getElem hj'
  obtain ⟨-, -, hch, t'', hmem, htype⟩ := (needs_iff hv).1 hnee
  have hbo := mem_junctionChildren.2 ⟨j', _, hv, hch, rfl⟩
  rw [h.junctionChildren_new hl ht hu, mem_singleton] at hbo hc
  rw [hbo, ← hc] at htype
  exact absurd htype (hins t'' hmem)

end

/-- No junction beside an inserted one has its name. -/
def NamesFree (x : XmlTree) : Prop :=
  (∀ i < x.hierarchy.length, FreeAt rowLevel x i) ∧ ∀ i < x.hierarchy.length, FreeAt rackLevel x i

section
variable {x y z : XmlTree}

theorem distinct_iff_namesFree (hl : Linked x) (hn : Named x)
    (hx : x.checkParentHasUniquelyNamedChildren = true)
    (hy : Inserted rowLevel x (places rowLevel x) y)
    (hz : Inserted rackLevel y (places rackLevel y) z) :
    z.checkParentHasUniquelyNamedChildren = true ↔ NamesFree x := by
  have hly := hy.linked hl
  have hny := hy.named hl hn
  have hold : ∀ i < x.hierarchy.length, i < y.hierarchy.length :=
    fun i hi => by rw [hy.size_eq]; omega
  have hold' : ∀ i < y.hierarchy.length, i < z.hierarchy.length :=
    fun i hi => by rw [hz.size_eq]; omega
  rw [checkNames_iff hl hn] at hx
  rw [checkNames_iff (hz.linked hly) (hz.named hly hny)]
  constructor
  · intro hdi
    have hj : ∀ {lv : Level} {i : Nat}, i < x.hierarchy.length → ¬ FreeAt lv x i →
        x.isJunction i = true ∧ x.typeOf i = some lv.parent := by
      intro lv i hi hf
      by_contra hbo
      refine hf fun t j ht => absurd (mem_of_getElem? ht) fun hmem => ?_
      obtain ⟨hj, hnee⟩ := mem_places.1 hmem
      obtain ⟨hjun, htype, -⟩ := (needs_iff (getElem?_eq_getElem hj)).1 hnee
      exact hbo ⟨hjun, htype⟩
    have haf : ∀ i < x.hierarchy.length, x.isJunction i = true → DistinctAt z i := by
      intro i hi hjun
      refine hdi i (hold' i (hold i hi)) ?_
      rw [hz.isJunction_eq hly (hold i hi), hy.isJunction_eq hl hi, hjun]
    refine ⟨fun i hi => ?_, fun i hi => ?_⟩
    · by_contra hf
      obtain ⟨hjun, htype⟩ := hj hi hf
      have hk : y.typeOf i ≠ some rackLevel.parent := by rw [hy.typeOf_eq hl hi, htype]; decide
      have hy' := (hz.distinctAt_eq hly (hold i hi) hk).1 (haf i hi hjun)
      exact hf ((hy.distinctAt_iff hl hi (hx i hi hjun)).1 hy')
    · by_contra hf
      obtain ⟨hjun, htype⟩ := hj hi hf
      have hk : x.typeOf i ≠ some rowLevel.parent := by rw [htype]; decide
      have hy' := (hy.distinctAt_eq hl hi hk).2 (hx i hi hjun)
      have hf' := (hz.distinctAt_iff hly (hold i hi) hy').1 (haf i hi hjun)
      exact hf ((hy.freeAt_next hl (by decide) hi hk).1 hf')
  · rintro ⟨hrow, hra⟩ i hi hjun
    rcases hz.row_cases hi with hi | ⟨t, k, j, ht, rfl⟩
    · rw [hz.isJunction_eq hly hi] at hjun
      -- the names after the first phase, and those that the second one inserts
      have hbo : DistinctAt y i ∧ FreeAt rackLevel y i := by
        rcases hy.row_cases hi with hi | ⟨t, k, j, ht, rfl⟩
        · rw [hy.isJunction_eq hl hi] at hjun
          refine ⟨(hy.distinctAt_iff hl hi (hx i hi hjun)).2 (hrow i hi), ?_⟩
          by_cases htype : x.typeOf i = some rowLevel.parent
          · refine freeAt_of_not_place ?_
            rw [hy.typeOf_eq hl hi, htype]
            decide
          · exact (hy.freeAt_next hl (by decide) hi htype).2 (hra i hi)
        · exact ⟨hy.distinctAt_new hl ht, hy.freeAt_new hl ht⟩
      exact (hz.distinctAt_iff hly hi hbo.1).2 hbo.2
    · exact hz.distinctAt_new hly ht

end

/-- What the checks before `augmentHierarchy` leave. -/
structure Checked (x : XmlTree) : Prop where
  nonempty : 0 < x.hierarchy.length
  linked   : Linked x
  typed    : Typed x
  named    : Named x
  distinct : x.checkParentHasUniquelyNamedChildren = true
  leaves   : LeavesEnd x

/-- The tree `y` is what `augmentHierarchy` should make of `x`, whose sections are those of `T`. -/
structure Augmented (x : XmlTree) (T : Forest) (y : XmlTree) : Prop where
  returns   : augmentHierarchy x = .ok y
  integrity : y.checkHierarchyIntegrity = true
  nodes_eq  : ∃ T', Holds y [0] T' ∧ nodes T' = nodes T
  distinct  : y.checkParentHasUniquelyNamedChildren = true
  again     : augmentHierarchy y = .ok y

section
variable {lv : Level} {x y : XmlTree}

theorem Inserted.holds_top {T : Forest} (h : Inserted lv x (places lv x) y) (hl : Linked x)
    (hp : lv.Proper) (hle : LeavesEnd x) (hno : NodesEnd x) (hpos : 0 < x.hierarchy.length)
    (hT : Holds x [0] T) : ∃ T', Holds y [0] T' ∧ nodes T' = nodes T := by
  refine h.holds hl hp hle hno hT ?_ (.cons (Or.inl rfl) .nil)
  intro k hk
  rw [mem_singleton.1 hk]
  exact hpos

/-- **A tree that only leaves levels out is augmented as it should be exactly if no name is
taken.** -/
theorem augmentHierarchy_iff (x : XmlTree) (T : Forest) (hx : Checked x) (hs : OnlySkips x)
    (hT : Holds x [0] T) :
    (∃ y, Augmented x T y) ↔ NamesFree x := by
  obtain ⟨y, hy, hxy⟩ := insertLevel_eq hx.linked hx.typed rowLevel
  have hly := hxy.linked hx.linked
  have hty := hxy.typed hx.linked rowLevel_proper hx.typed
  obtain ⟨z, hz, hyz⟩ := insertLevel_eq hly hty rackLevel
  have hrun : augmentHierarchy x = .ok z := by
    rw [augmentHierarchy, hy]
    exact hz
  have hdi := distinct_iff_namesFree hx.linked hx.named hx.distinct hxy hyz
  constructor
  · rintro ⟨z', h⟩
    have hsa := h.returns
    rw [hrun] at hsa
    cases hsa
    exact hdi.1 h.distinct
  · intro hf
    have hco := complete_of_onlySkips hx.linked hs hxy hyz
    have htz := hyz.typed hly rackLevel_proper hty
    obtain ⟨T', hT', hno⟩ :=
      hxy.holds_top hx.linked rowLevel_proper hx.leaves hs.node hx.nonempty hT
    have hpos : 0 < y.hierarchy.length := by
      rw [hxy.size_eq]
      exact Nat.add_pos_left hx.nonempty _
    obtain ⟨T'', hT'', hno'⟩ :=
      hyz.holds_top hly rackLevel_proper (hxy.leavesEnd hx.linked hx.leaves)
      (hxy.nodesEnd hx.linked rowLevel_proper hs.node) hpos hT'
    exact ⟨z, hrun, checkHierarchyIntegrity_of_complete htz hco,
      ⟨T'', hT'', hno'.trans hno⟩, hdi.2 hf, augmentHierarchy_of_complete (hyz.linked hly) htz hco⟩

/-- A node directly under the cluster. -/
def skippingTree : XmlTree where
  items := ["configuration".toList,
    "junction".toList, "type".toList, "\tcluster".toList, "/type".toList, "name".toList,
    "\tc".toList, "/name".toList, "junction".toList, "type".toList, "\tnode".toList, "/type".toList,
    "name".toList, "\tn".toList, "/name".toList, "/junction".toList, "/junction".toList,
    "/configuration".toList]
  hierarchy := [[0, -1], [1, 2, 5, -2], [8, 9, 12]]

def skippingForest : Forest :=
  .cons "configuration".toList []
    (.cons "junction".toList [("type".toList, "cluster".toList), ("name".toList, "c".toList)]
    (.cons "junction".toList [("type".toList, "node".toList),
    ("name".toList, "n".toList)] .nil .nil) .nil) .nil

theorem skippingTree_augmented :
    Checked skippingTree ∧ OnlySkips skippingTree ∧ Holds skippingTree [0] skippingForest ∧
    ∃ y, Augmented skippingTree skippingForest y := by
  have hx : Checked skippingTree :=
    ⟨by decide, ⟨by decide, by decide⟩, by decide, by decide, by decide, by decide⟩
  have hs : OnlySkips skippingTree := ⟨by decide, by decide, by decide, by decide⟩
  have hT : Holds skippingTree [0] skippingForest :=
    .cons rfl (.cons rfl (.cons rfl .nil .nil) .nil) .nil
  refine ⟨hx, hs, hT, (augmentHierarchy_iff skippingTree skippingForest hx hs hT).2
    ⟨fun i _ t j ht c hc hins => ?_, fun i _ t j ht => ?_⟩⟩
  · obtain rfl : i = 1 := congrArg Prod.fst (mem_singleton.1 (mem_of_getElem? ht))
    have hc : c = 2 := mem_singleton.1 hc
    subst hc
    exact absurd (by decide) (hins .node (by decide))
  · cases ht

/-- A node and a row directly under the cluster; the row has the name of the one that is inserted
above the node. -/
def takenTree : XmlTree where
  items := ["configuration".toList,
    "junction".toList, "type".toList, "\tcluster".toList, "/type".toList, "name".toList,
    "\tc".toList, "/name".toList, "junction".toList, "type".toList, "\tnode".toList, "/type".toList,
    "name".toList, "\tn".toList, "/name".toList, "/junction".toList, "junction".toList,
    "type".toList, "\trow".toList, "/type".toList, "name".toList, "\tFictitiousRow1".toList,
    "/name".toList, "junction".toList, "type".toList, "\track".toList, "/type".toList,
    "name".toList, "\tr".toList, "/name".toList, "junction".toList, "type".toList, "\tnode".toList,
    "/type".toList, "name".toList, "\tm".toList, "/name".toList, "/junction".toList,
    "/junction".toList, "/junction".toList, "/junction".toList, "/configuration".toList]
  hierarchy :=
    [[0, -1], [1, 2, 5, -2, -3], [8, 9, 12], [16, 17, 20, -4], [23, 24, 27, -5], [30, 31, 34]]

theorem takenTree_siblings : Checked takenTree ∧ OnlySkips takenTree ∧
    (augmentHierarchy takenTree).map XmlTree.checkParentHasUniquelyNamedChildren = .ok false := by
  exact ⟨⟨by decide, ⟨by decide, by decide⟩, by decide, by decide, by decide, by decide⟩,
    ⟨by decide, by decide, by decide, by decide⟩, by decide⟩

end

end Sensys.Cfgi
