import Sensys.Lib.Lists
import Sensys.Cfgi.Augment
/-!
# What one phase of `augmentHierarchy` inserts

Rows are only changed at entries that are children, and items only added, so what a phase asks
about a row has the same answer before it and while it runs. The places where it inserts are those
of the tree it starts with (`places`), and the tree after it is described by them (`Inserted`).
-/
namespace Sensys.Cfgi
open List

/-- Rows start with the item of their tag, and their entries are items with one behind them and
rows. -/
structure Linked (x : XmlTree) : Prop where
  start   : ∀ i < x.hierarchy.length, ∃ u ∈ (x.row i).head?, 0 ≤ u
  inRange : ∀ i < x.hierarchy.length, ∀ u ∈ x.row i,
    (0 ≤ u → u.toNat + 1 < x.items.length) ∧ (u < 0 → childToOffset u < x.hierarchy.length)

/-- Every junction has a type. -/
def Typed (x : XmlTree) : Prop :=
  ∀ i < x.hierarchy.length, x.isJunction i = true → (x.typeOf i).isSome = true

instance (x : XmlTree) : Decidable (Typed x) := inferInstanceAs (Decidable (∀ _ < _, _))

/-- A level is left out between row `i` and its entry `j`. -/
def needs (lv : Level) (x : XmlTree) (i j : Nat) : Bool :=
  x.isJunction i && x.typeOf i = some lv.parent && x.isJunctionChild ((x.row i).getD j 0) &&
    lv.inserts.any fun t => x.typeOf (childToOffset ((x.row i).getD j 0)) = some t

/-- The entries of a row that get a new junction. -/
def placesAt (lv : Level) (x : XmlTree) (i : Nat) : List (Nat × Nat) :=
  ((List.range (x.row i).length).filter (needs lv x i)).map fun j => (i, j)

def places (lv : Level) (x : XmlTree) : List (Nat × Nat) :=
  (List.range x.hierarchy.length).flatMap (placesAt lv x)

/-- The tree `y` is `x` with a new junction at each of the places, in their order. -/
structure Inserted (lv : Level) (x : XmlTree) (done : List (Nat × Nat)) (y : XmlTree) : Prop where
  items_length : y.items.length = x.items.length + 8 * done.length
  items_old    : ∀ u < x.items.length, y.items[u]? = x.items[u]?
  items_new    : ∀ t < done.length, ∀ r < 8,
    y.items[x.items.length + 8 * t + r]? = (fictitious lv (t + 1))[r]?
  size_eq      : y.hierarchy.length = x.hierarchy.length + done.length
  length_eq    : ∀ i < x.hierarchy.length, (y.row i).length = (x.row i).length
  kept         : ∀ i < x.hierarchy.length, ∀ j, (i, j) ∉ done → (y.row i)[j]? = (x.row i)[j]?
  moved        : ∀ t i j, done[t]? = some (i, j) →
    ∃ u, (x.row i)[j]? = some u ∧ x.isJunctionChild u = true ∧
    (y.row i)[j]? = some (-((x.hierarchy.length + t : Nat) : Int)) ∧
    y.row (x.hierarchy.length + t) =
      [((x.items.length + 8 * t : Nat) : Int), (x.items.length + 8 * t : Nat) + 1,
      (x.items.length + 8 * t : Nat) + 4, u]

section
variable {lv : Level} {x y : XmlTree} {done : List (Nat × Nat)} {i j k : Nat} {u : Int}

theorem row_eq_nil (h : x.hierarchy.length ≤ i) : x.row i = [] := by
  rw [XmlTree.row, getD_eq_getElem?_getD, getElem?_eq_none h, Option.getD_none]

theorem lt_of_mem_row (h : u ∈ x.row i) : i < x.hierarchy.length := by
  by_contra hlt
  rw [row_eq_nil (Nat.not_lt.1 hlt)] at h
  cases h

theorem inserted_refl (lv : Level) (x : XmlTree) : Inserted lv x [] x where
  items_length := rfl
  items_old _ _ := rfl
  items_new _ ht := by cases ht
  size_eq := rfl
  length_eq _ _ := rfl
  kept _ _ _ _ := rfl
  moved _ _ _ ht := by cases ht

theorem row_insertJunction (n : Nat) (h : k < x.hierarchy.length) :
    (insertJunction lv n i j x).row k = if i = k then (x.row k).set j (-(x.hierarchy.length : Int))
      else x.row k := by
  simp only [XmlTree.row, insertJunction, getD_eq_getElem?_getD]
  rw [getElem?_append_left (by simpa using h), getElem?_modify, getElem?_eq_getElem h]
  by_cases hik : i = k <;> simp [hik]

theorem row_insertJunction_new (n : Nat) : (insertJunction lv n i j x).row x.hierarchy.length =
    [(x.items.length : Int), x.items.length + 1, x.items.length + 4, (x.row i).getD j 0] := by
  simp [XmlTree.row, insertJunction]

theorem Inserted.insert (h : Inserted lv x done y) (hnot : (i, j) ∉ done)
    (hu : (x.row i)[j]? = some u) (hch : x.isJunctionChild u = true) :
    Inserted lv x (done ++ [(i, j)]) (insertJunction lv (done.length + 1) i j y) := by
  have hi : i < x.hierarchy.length := lt_of_mem_row (mem_of_getElem? hu)
  have hold : ∀ k < x.hierarchy.length, k < y.hierarchy.length := by
    rw [h.size_eq]
    omega
  have hyu : (y.row i)[j]? = some u := by rw [h.kept i hi j hnot, hu]
  refine ⟨?_, ?_, ?_, ?_, ?_, ?_, ?_⟩
  · simp only [insertJunction, length_append, h.items_length, length_singleton]
    rw [show (fictitious lv (done.length + 1)).length = 8 from rfl]
    omega
  · intro v hv
    have hlt : v < y.items.length := by
      rw [h.items_length]
      omega
    simp only [insertJunction]
    rw [getElem?_append_left hlt, h.items_old v hv]
  · intro t ht r hr
    simp only [insertJunction]
    rw [length_append, length_singleton] at ht
    rcases Nat.lt_or_ge t done.length with hlt | hge
    · rw [getElem?_append_left (by rw [h.items_length]; omega), h.items_new t hlt r hr]
    · obtain rfl : t = done.length := by omega
      rw [getElem?_append_right (by rw [h.items_length]; omega), h.items_length,
        Nat.add_sub_cancel_left]
  · simp only [insertJunction, length_append, length_modify, length_singleton, h.size_eq]
    omega
  · intro k hk
    rw [row_insertJunction _ (hold k hk), ← h.length_eq k hk]
    split <;> simp
  · intro k hk m hm
    have hm' : (k, m) ∉ done := fun hmem => hm (mem_append_left _ hmem)
    rw [row_insertJunction _ (hold k hk), ← h.kept k hk m hm']
    split
    · rename_i hik
      subst hik
      have hjm : j ≠ m := by
        rintro rfl
        exact hm (by simp)
      rw [getElem?_set_ne hjm]
    · rfl
  · intro t k m ht
    rcases Lists.concat_eq_some ht with ⟨hlt, ht⟩ | ⟨rfl, heq⟩
    · obtain ⟨v, hv, hvc, hyv, hrow⟩ := h.moved t k m ht
      have hk : k < x.hierarchy.length := lt_of_mem_row (mem_of_getElem? hv)
      refine ⟨v, hv, hvc, ?_, ?_⟩
      · rw [row_insertJunction _ (hold k hk)]
        split
        · rename_i hik
          subst hik
          have hjm : j ≠ m := by
            rintro rfl
            exact hnot (mem_of_getElem? ht)
          rw [getElem?_set_ne hjm, hyv]
        · exact hyv
      · rw [row_insertJunction _ (by rw [h.size_eq]; omega), if_neg (by omega), hrow]
    · cases heq
      refine ⟨u, hu, hch, ?_, ?_⟩
      · have hj := (List.getElem?_eq_some_iff.1 hyu).1
        rw [row_insertJunction _ (hold i hi), if_pos rfl, getElem?_set_self hj, h.size_eq]
      · rw [← h.size_eq, row_insertJunction_new, h.items_length, getD_eq_getElem?_getD, hyu,
          Option.getD_some]

/-! ## What has not changed -/

section
variable (h : Inserted lv x done y) (hi : i < x.hierarchy.length)
include h hi

theorem Inserted.field_kept (hu : (x.row i)[j]? = some u) (hpos : 0 ≤ u) :
    (y.row i)[j]? = some u := by
  rw [h.kept i hi j, hu]
  intro hmem
  obtain ⟨t, ht⟩ := getElem?_of_mem hmem
  obtain ⟨v, hv, hch, -⟩ := h.moved t i j ht
  rw [hu] at hv
  cases hv
  simp only [XmlTree.isJunctionChild, isChild, Bool.and_eq_true, decide_eq_true_eq] at hch
  omega

theorem Inserted.child_kept (hu : (x.row i)[j]? = some u) (hneg : u < 0) :
    ∃ v, (y.row i)[j]? = some v ∧ v < 0 := by
  by_cases hmem : (i, j) ∈ done
  · obtain ⟨t, ht⟩ := getElem?_of_mem hmem
    obtain ⟨v, hv, hch, hyv, -⟩ := h.moved t i j ht
    refine ⟨_, hyv, ?_⟩
    omega
  · exact ⟨u, by rw [h.kept i hi j hmem, hu], hneg⟩

/-- The rows before and after: items stay, and children are children. -/
theorem Inserted.rows_alike :
    List.Forall₂ (fun u v => u ∈ x.row i ∧ (0 ≤ u ∧ v = u ∨ u < 0 ∧ v < 0)) (x.row i)
      (y.row i) := by
  refine forall₂_iff_get.2 ⟨(h.length_eq i hi).symm, fun j hj hj' => ?_⟩
  have hu : (x.row i)[j]? = some ((x.row i)[j]) := getElem?_eq_getElem hj
  have hv : (y.row i)[j]? = some ((y.row i)[j]) := getElem?_eq_getElem hj'
  refine ⟨getElem_mem hj, ?_⟩
  rcases Int.lt_or_le ((x.row i)[j]) 0 with hneg | hpos
  · obtain ⟨w, hw, hwn⟩ := h.child_kept hi hu hneg
    rw [hv] at hw
    cases hw
    exact Or.inr ⟨hneg, hwn⟩
  · have hw := h.field_kept hi hu hpos
    rw [hv] at hw
    exact Or.inl ⟨hpos, Option.some.inj hw⟩

end

theorem findSome?_forall₂ {R : Int → Int → Prop} {f g : Int → Option (List Char)} {l m : List Int}
    (h : List.Forall₂ R l m) (hfg : ∀ u v, R u v → f u = g v) : l.findSome? f = m.findSome? g := by
  induction h with
  | nil => rfl
  | cons huv _ ih => rw [findSome?_cons, findSome?_cons, hfg _ _ huv, ih]

theorem Inserted.item_eq (h : Inserted lv x done y) (hu : u.toNat < x.items.length) :
    y.item u = x.item u := by
  rw [XmlTree.item, XmlTree.item, getD_eq_getElem?_getD, getD_eq_getElem?_getD, h.items_old _ hu]

section
variable (h : Inserted lv x done y) (hl : Linked x) (hi : i < x.hierarchy.length)
include h hl hi

theorem Inserted.getField_eq (name : List Char) :
    y.getField name i = x.getField name i := by
  refine (findSome?_forall₂ (h.rows_alike hi) ?_).symm
  rintro u v ⟨hmem, ⟨hpos, rfl⟩ | ⟨hneg, hneg'⟩⟩
  · have hlt := (hl.inRange i hi v hmem).1 hpos
    rw [h.item_eq (by omega), h.item_eq (by omega)]
  · simp [isChild, hneg, hneg']

theorem Inserted.tag_eq : y.tag i = x.tag i := by
  obtain ⟨u, hu, hpos⟩ := hl.start i hi
  have hu' : (x.row i)[0]? = some u := by rw [← head?_eq_getElem?]; exact hu
  have hv := h.field_kept hi hu' hpos
  have hlt := (hl.inRange i hi u (mem_of_getElem? hu')).1 hpos
  rw [XmlTree.tag, XmlTree.tag, headD_eq_head?_getD, headD_eq_head?_getD, head?_eq_getElem?,
    head?_eq_getElem?, hv, hu', Option.getD_some, h.item_eq (by omega)]

theorem Inserted.isJunction_eq :
    y.isJunction i = x.isJunction i := by
  rw [XmlTree.isJunction, XmlTree.isJunction, h.tag_eq hl hi]

theorem Inserted.typeOf_eq : y.typeOf i = x.typeOf i := by
  rw [XmlTree.typeOf, XmlTree.typeOf, h.getField_eq hl hi]

theorem Inserted.nameOf_eq : y.nameOf i = x.nameOf i :=
  h.getField_eq hl hi _

end

theorem Inserted.isJunctionChild_eq (h : Inserted lv x done y) (hl : Linked x) (hu : u ∈ x.row i) :
    y.isJunctionChild u = x.isJunctionChild u := by
  rw [XmlTree.isJunctionChild, XmlTree.isJunctionChild]
  rcases Int.lt_or_le u 0 with hneg | hpos
  · rw [h.isJunction_eq hl ((hl.inRange i (lt_of_mem_row hu) u hu).2 hneg)]
  · rw [show isChild u = false by simpa [isChild] using hpos, Bool.false_and, Bool.false_and]

/-! ## The new junctions -/

theorem strcaseeq_self (t : List Char) : strcaseeq t t = true := by simp [strcaseeq]

theorem Inserted.item_new (h : Inserted lv x done y) {t : Nat} (ht : t < done.length) {r : Nat}
    (hr : r < 8) :
    y.item (((x.items.length + 8 * t + r : Nat) : Int)) = (fictitious lv (t + 1)).getD r [] := by
  rw [XmlTree.item, getD_eq_getElem?_getD, getD_eq_getElem?_getD, Int.toNat_natCast,
    h.items_new t ht r hr]

theorem Inserted.new (h : Inserted lv x done y) {t : Nat} (ht : done[t]? = some (i, j)) :
    y.isJunction (x.hierarchy.length + t) = true ∧
      y.getField "type".toList (x.hierarchy.length + t) = some lv.text ∧
      y.nameOf (x.hierarchy.length + t) = some (lv.name (t + 1)) := by
  obtain ⟨u, -, -, -, hrow⟩ := h.moved t i j ht
  have hlt := (List.getElem?_eq_some_iff.1 ht).1
  generalize hm : x.items.length + 8 * t = m at hrow
  have hit : ∀ r < 8, y.item ((m + r : Nat) : Int) = (fictitious lv (t + 1)).getD r [] := by
    intro r hr
    rw [← hm]
    exact h.item_new hlt hr
  have h0 : y.item (m : Int) = "junction".toList := hit 0 (by omega)
  have h1 : y.item ((m : Int) + 1) = "type".toList := hit 1 (by omega)
  have h2 : y.item ((m : Int) + 1 + 1) = '\t' :: lv.text := hit 2 (by omega)
  have h4 : y.item ((m : Int) + 4) = "name".toList := hit 4 (by omega)
  have h5 : y.item ((m : Int) + 4 + 1) = '\t' :: lv.name (t + 1) := hit 5 (by omega)
  have hch : isChild (m : Int) = false ∧ isChild ((m : Int) + 1) = false ∧
      isChild ((m : Int) + 4) = false := by
    simp only [isChild, decide_eq_false_iff_not]
    omega
  have hte : strcaseeq "junction".toList "type".toList = false ∧
    strcaseeq "junction".toList "name".toList = false ∧
      strcaseeq "type".toList "name".toList = false := by decide
  refine ⟨?_, ?_, ?_⟩
  · rw [XmlTree.isJunction, XmlTree.tag, hrow, headD_cons, h0]
    decide
  · rw [XmlTree.getField, hrow]
    simp only [List.findSome?_cons, hch, h0, h1, h2, hte, strcaseeq_self, if_true,
      Bool.false_eq_true, if_false, tail_cons]
  · rw [XmlTree.nameOf, XmlTree.getField, hrow]
    simp only [List.findSome?_cons, hch, h0, h1, h4, h5, hte, strcaseeq_self, if_true,
      Bool.false_eq_true, if_false, tail_cons]

end

section
variable {lv : Level} {x : XmlTree} {done : List (Nat × Nat)} {i : Nat} {s : Inserting}
  {y : XmlTree}

/-- The tree and the number of insertions, while a phase runs. -/
def Running (lv : Level) (x : XmlTree) (done : List (Nat × Nat)) (s : Inserting) : Prop :=
  Inserted lv x done s.1 ∧ s.2 = done.length

section
variable (hl : Linked x) (ht : Typed x) (h : Running lv x done s) (hi : x.isJunction i = true)
  (hparent : x.typeOf i = some lv.parent)
include hl ht h hi hparent

theorem visit_eq {j : Nat} (hj : j < (x.row i).length) (hnot : (i, j) ∉ done) :
    ∃ s', visit lv i s j = .ok s' ∧
      Running lv x (done ++ if needs lv x i j then [(i, j)] else []) s' := by
  obtain ⟨u, hu⟩ : ∃ u, (x.row i)[j]? = some u := ⟨_, getElem?_eq_getElem hj⟩
  have hmem := mem_of_getElem? hu
  have hlt := lt_of_mem_row hmem
  have hsu : (s.1.row i).getD j 0 = u := by
    rw [getD_eq_getElem?_getD, h.1.kept i hlt j hnot, hu, Option.getD_some]
  have hxu : (x.row i).getD j 0 = u := by rw [getD_eq_getElem?_getD, hu, Option.getD_some]
  rw [visit, hsu, h.1.isJunctionChild_eq hl hmem]
  unfold needs
  rw [hxu, hi, hparent]
  cases hch : x.isJunctionChild u with
  | false => exact ⟨s, rfl, by simpa using h⟩
  | true =>
    have hneg : u < 0 ∧ x.isJunction (childToOffset u) = true := by
      simpa [XmlTree.isJunctionChild, isChild] using hch
    have hoff := (hl.inRange i hlt u hmem).2 hneg.1
    obtain ⟨t, htype⟩ := Option.isSome_iff_exists.1 (ht _ hoff hneg.2)
    have hany : (lv.inserts.any fun t' => some t = some t') = lv.inserts.contains t := by
      rw [contains_eq_any_beq]
      congr 1
      funext t'
      by_cases heq : t = t' <;> simp [heq]
    rw [if_pos rfl, h.1.typeOf_eq hl hoff, htype]
    simp only [Bool.and_self, Bool.true_and, decide_true, hany]
    by_cases hins : lv.inserts.contains t = true
    · rw [if_pos hins, if_pos hins, h.2]
      exact ⟨_, rfl, h.1.insert hnot hu hch, by simp⟩
    · rw [if_neg hins, if_neg hins]
      exact ⟨s, rfl, by simpa using h⟩

theorem foldlM_visit (hdo : ∀ p ∈ done, p.1 < i) {m : Nat} (hm : m ≤ (x.row i).length) :
    ∃ s', (List.range m).foldlM (visit lv i) s = .ok s' ∧
      Running lv x (done ++ ((List.range m).filter (needs lv x i)).map fun j => (i, j)) s' := by
  induction m with
  | zero => exact ⟨s, rfl, by simpa using h⟩
  | succ m ih =>
    obtain ⟨s', hs', hrun⟩ := ih (by omega)
    have hnot : (i, m) ∉ done ++ ((range m).filter (needs lv x i)).map fun j => (i, j) := by
      intro hmem
      rcases mem_append.1 hmem with hmem | hmem
      · exact Nat.lt_irrefl _ (hdo _ hmem)
      · simp at hmem
    obtain ⟨s'', hs'', hrun'⟩ := visit_eq hl ht hrun hi hparent hm hnot
    refine ⟨s'', ?_, ?_⟩
    · rw [range_succ, foldlM_append, hs']
      show [m].foldlM (visit lv i) s' = _
      rw [foldlM_cons, hs'']
      rfl
    · rw [range_succ, filter_append, map_append, ← append_assoc]
      by_cases hnee : needs lv x i m = true <;> simpa [hnee] using hrun'

end

theorem placesAt_eq_nil (h : ¬ (x.isJunction i = true ∧ x.typeOf i = some lv.parent)) :
    placesAt lv x i = [] := by
  rw [placesAt, map_eq_nil_iff, filter_eq_nil_iff]
  intro j _ hnee
  simp only [needs, Bool.and_eq_true, decide_eq_true_eq] at hnee
  exact h hnee.1.1

theorem visitRow_eq (hl : Linked x) (ht : Typed x) (h : Running lv x done s)
    (hi : i < x.hierarchy.length) (hdo : ∀ p ∈ done, p.1 < i) :
    ∃ s', visitRow lv s i = .ok s' ∧ Running lv x (done ++ placesAt lv x i) s' := by
  rw [visitRow, h.1.isJunction_eq hl hi, h.1.typeOf_eq hl hi, h.1.length_eq i hi]
  by_cases hj : x.isJunction i = true
  · obtain ⟨t, htype⟩ := Option.isSome_iff_exists.1 (ht i hi hj)
    rw [if_pos hj, htype]
    by_cases hparent : t = lv.parent
    · subst hparent
      simp only [if_true]
      exact foldlM_visit hl ht h hj htype hdo (Nat.le_refl _)
    · simp only [hparent, if_false]
      rw [placesAt_eq_nil (by simp [htype, hparent]), append_nil]
      exact ⟨s, rfl, h⟩
  · rw [if_neg hj, placesAt_eq_nil (fun hbo => hj hbo.1), append_nil]
    exact ⟨s, rfl, h⟩

/-- **A phase inserts at the places of the tree it starts with.** -/
theorem insertLevel_eq (hl : Linked x) (ht : Typed x) (lv : Level) :
    ∃ y, insertLevel lv x = .ok y ∧ Inserted lv x (places lv x) y := by
  have hro : ∀ m ≤ x.hierarchy.length, ∃ s, (range m).foldlM (visitRow lv) (x, 0) = .ok s ∧
      Running lv x ((range m).flatMap (placesAt lv x)) s := by
    intro m hm
    induction m with
    | zero => exact ⟨(x, 0), rfl, inserted_refl lv x, rfl⟩
    | succ m ih =>
      obtain ⟨s, hs, hrun⟩ := ih (by omega)
      have hdo : ∀ p ∈ (range m).flatMap (placesAt lv x), p.1 < m := by
        intro p hp
        obtain ⟨i, hi, hp⟩ := mem_flatMap.1 hp
        obtain ⟨j, -, rfl⟩ := mem_map.1 hp
        exact mem_range.1 hi
      obtain ⟨s', hs', hrun'⟩ := visitRow_eq hl ht hrun hm hdo
      refine ⟨s', ?_, ?_⟩
      · rw [range_succ, foldlM_append, hs]
        show [m].foldlM (visitRow lv) s = _
        rw [foldlM_cons, hs']
        rfl
      · rw [range_succ, flatMap_append, flatMap_singleton]
        exact hrun'
  obtain ⟨s, hs, hrun⟩ := hro _ (Nat.le_refl _)
  exact ⟨s.1, by rw [insertLevel, hs]; rfl, hrun.1⟩

theorem row_eq_getElem (h : i < x.hierarchy.length) : x.row i = x.hierarchy[i] := by
  rw [XmlTree.row, getD_eq_getElem?_getD, getElem?_eq_getElem h, Option.getD_some]

theorem Inserted.row_eq (h : Inserted lv x done y) (hi : i < x.hierarchy.length)
    (hnot : ∀ p ∈ done, p.1 ≠ i) :
    y.row i = x.row i :=
  ext_getElem? fun j => h.kept i hi j fun hmem => hnot _ hmem rfl

theorem Inserted.eq_of_nil (h : Inserted lv x [] y) : y = x := by
  have hit : y.items = x.items := by
    refine ext_getElem? fun u => ?_
    by_cases hu : u < x.items.length
    · exact h.items_old u hu
    · have hlen := h.items_length
      rw [length_nil] at hlen
      rw [getElem?_eq_none (by omega), getElem?_eq_none (by omega)]
  have hsi := h.size_eq
  have hro : y.hierarchy = x.hierarchy := by
    refine ext_getElem hsi fun i hi hi' => ?_
    rw [← row_eq_getElem hi, ← row_eq_getElem hi']
    exact h.row_eq hi' (by simp)
  cases y
  simp only at hit hro
  rw [hit, hro]

theorem insertLevel_eq_self (hl : Linked x) (ht : Typed x) (h : places lv x = []) :
    insertLevel lv x = .ok x := by
  obtain ⟨y, hy, hins⟩ := insertLevel_eq hl ht lv
  rw [h] at hins
  rw [hy, hins.eq_of_nil]

end

end Sensys.Cfgi
