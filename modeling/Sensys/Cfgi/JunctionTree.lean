import Sensys.Cfgi.Levels
/-!
# The tree of sections and its nodes

`Holds` reads the rows as a tree, from a list of rows down. A phase puts junctions between others,
so the tree after it is another; the nodes with their settings are the same and in the same order
(`Inserted.holds`).
-/
namespace Sensys.Cfgi
open List

/-- Sections beside each other: the first with its fields and what is inside, and the others. -/
inductive Forest where
  | nil
  | cons (tag : List Char) (fields : List (List Char × List Char)) (inner : Forest) (next : Forest)

/-- A section by itself. -/
structure Sect where
  tag    : List Char
  fields : List (List Char × List Char)
  inner  : Forest

/-- The type of a junction. -/
def sectType (tag : List Char) (fields : List (List Char × List Char)) : Option JunctionType :=
  if strcaseeq tag "junction".toList then
    (fields.find? fun f => strcaseeq f.1 "type".toList).map fun f => junctionType f.2
  else none

/-- The nodes, in the order of the file. -/
def nodes : Forest → List Sect
  | .nil => []
  | .cons tag fields inner next =>
    if sectType tag fields = some .node then ⟨tag, fields, inner⟩ :: nodes next
    else nodes inner ++ nodes next

namespace XmlTree
variable (x : XmlTree)

/-- The names of the fields of a row, with their values. -/
def fieldsOf (k : Nat) : List (List Char × List Char) :=
  ((x.row k).tail.filter fun u => !isChild u).map fun u => (x.item u, (x.item (u + 1)).tail)

def children (k : Nat) : List Nat := ((x.row k).filter isChild).map childToOffset

end XmlTree

/-- The rows are those of the forest. -/
inductive Holds (x : XmlTree) : List Nat → Forest → Prop
  | nil : Holds x [] .nil
  | cons {k : Nat} {ks cs : List Nat} {inner next : Forest} (hcs : x.children k = cs)
      (hinner : Holds x cs inner)
    (hnext : Holds x ks next) : Holds x (k :: ks) (.cons (x.tag k) (x.fieldsOf k) inner next)

/-- Sections that are no junctions have no sections inside, the file itself apart. -/
def LeavesEnd (x : XmlTree) : Prop :=
  ∀ i < x.hierarchy.length, i ≠ 0 → x.isJunction i = false → x.children i = []

instance (x : XmlTree) : Decidable (LeavesEnd x) := inferInstanceAs (Decidable (∀ _ < _, _))

section
variable {lv : Level} {x y : XmlTree} {done : List (Nat × Nat)} {i j k : Nat} {c : Nat}

theorem findSome?_eq_find? (x : XmlTree) (name : List Char) (l : List Int) :
    (l.findSome? fun u => if isChild u then none
      else if strcaseeq (x.item u) name then some (x.item (u + 1)).tail else none) =
      (((l.filter fun u => !isChild u).map fun u => (x.item u, (x.item (u + 1)).tail)).find?
      fun f => strcaseeq f.1 name).map
        Prod.snd := by
  induction l with
  | nil => rfl
  | cons u l ih =>
    rw [findSome?_cons, filter_cons]
    cases hch : isChild u with
    | true => simpa using ih
    | false =>
      cases hname : strcaseeq (x.item u) name with
      | true => simp [hname]
      | false => simpa [hname] using ih

theorem sectType_eq (hl : Linked x) (hk : k < x.hierarchy.length) :
    sectType (x.tag k) (x.fieldsOf k) = if x.isJunction k then x.typeOf k else none := by
  obtain ⟨u, hu, hpos⟩ := hl.start k hk
  obtain ⟨r, hr⟩ : ∃ r, x.row k = u :: r := ⟨_, eq_cons_of_mem_head? hu⟩
  have htag : x.tag k = x.item u := by rw [XmlTree.tag, hr, headD_cons]
  show (if x.isJunction k = true then _ else none) = _
  cases hj : x.isJunction k with
  | false => rfl
  | true =>
    have hsk : strcaseeq (x.item u) "type".toList = false := by
      have hlow : (x.item u).map Char.toLower = "junction".toList.map Char.toLower := by
        rw [← htag]
        simpa [XmlTree.isJunction, strcaseeq] using hj
      simp only [strcaseeq, hlow]
      decide
    have hch : isChild u = false := by simpa [isChild] using hpos
    rw [if_pos rfl, if_pos rfl, XmlTree.typeOf, XmlTree.getField, hr, findSome?_cons, hch, hsk,
      findSome?_eq_find?, XmlTree.fieldsOf, hr, tail_cons]
    simp only [Bool.false_eq_true, if_false, Option.map_map]
    rfl

/-! ## The rows after a phase -/

theorem Inserted.filter_tail_eq (h : Inserted lv x done y) (hk : k < x.hierarchy.length) :
    ((y.row k).tail.filter fun u => !isChild u) = (x.row k).tail.filter fun u => !isChild u := by
  have hf :=
    Lists.forall₂_filter_map (S := Eq) (p := fun u => !isChild u) (q := fun u => !isChild u)
    (f := id) (g := id)
    (forall₂_drop 1 (h.rows_alike hk)) ?_ ?_
  · rw [forall₂_eq_eq_eq, map_id, map_id, drop_one, drop_one] at hf
    exact hf.symm
  · rintro u v ⟨-, ⟨-, rfl⟩ | ⟨hneg, hneg'⟩⟩
    · rfl
    · simp [isChild, hneg, hneg']
  · rintro u v ⟨-, ⟨-, rfl⟩ | ⟨hneg, -⟩⟩ hch
    · rfl
    · simp [isChild, hneg] at hch

theorem Inserted.fieldsOf_eq (h : Inserted lv x done y) (hl : Linked x)
    (hk : k < x.hierarchy.length) :
    y.fieldsOf k = x.fieldsOf k := by
  rw [XmlTree.fieldsOf, XmlTree.fieldsOf, h.filter_tail_eq hk]
  refine map_congr_left fun u hu => ?_
  obtain ⟨hmem, hch⟩ := mem_filter.1 hu
  have hlt := (hl.inRange k hk u (mem_of_mem_tail hmem)).1 (by simpa [isChild] using hch)
  rw [h.item_eq (by omega), h.item_eq (by omega)]

/-- A child and what stands in its place: the child, or a new junction around it. -/
def Wraps (x : XmlTree) (done : List (Nat × Nat)) (c c' : Nat) : Prop :=
  c' = c ∨ ∃ (t i j : Nat) (u : Int), done[t]? = some (i, j) ∧ (x.row i)[j]? = some u ∧
    c = childToOffset u ∧
    c' = x.hierarchy.length + t

theorem Inserted.children_related (h : Inserted lv x done y) (hk : k < x.hierarchy.length) :
    List.Forall₂ (Wraps x done) (x.children k) (y.children k) := by
  have hro : List.Forall₂ (fun u v => v = u ∨
    (u < 0 ∧ v < 0 ∧ Wraps x done (childToOffset u) (childToOffset v)))
      (x.row k) (y.row k) := by
    refine forall₂_iff_get.2 ⟨(h.length_eq k hk).symm, fun j hj hj' => ?_⟩
    have hu : (x.row k)[j]? = some ((x.row k)[j]) := getElem?_eq_getElem hj
    have hv : (y.row k)[j]? = some ((y.row k)[j]) := getElem?_eq_getElem hj'
    rcases h.entry_cases hk hv with ⟨-, hxv⟩ | ⟨t, ht, hvt⟩
    · rw [hu] at hxv
      exact Or.inl (Option.some.inj hxv).symm
    · obtain ⟨w, hw, hch, -, -⟩ := h.moved t k j ht
      rw [hu] at hw
      cases hw
      refine Or.inr ⟨(isJunctionChild_iff.1 hch).1, ?_, Or.inr ⟨t, k, j, _, ht, hu, rfl, ?_⟩⟩
      · simp only [get_eq_getElem, hvt]
        omega
      · simp only [get_eq_getElem, hvt]
        exact childToOffset_neg _
  refine Lists.forall₂_filter_map hro ?_ ?_
  · rintro u v (rfl | ⟨hneg, hneg', -⟩)
    · rfl
    · simp [isChild, hneg, hneg']
  · rintro u v (rfl | ⟨-, -, hwr⟩) -
    · exact Or.inl rfl
    · exact hwr

theorem Inserted.children_new (h : Inserted lv x done y) {t : Nat} {u : Int}
    (ht : done[t]? = some (i, j)) (hu : (x.row i)[j]? = some u) :
    y.children (x.hierarchy.length + t) = [childToOffset u] := by
  obtain ⟨w, hw, hch, -, hrow⟩ := h.moved t i j ht
  rw [hu] at hw
  cases hw
  have hneg : isChild u = true := by simpa [isChild] using (isJunctionChild_iff.1 hch).1
  rw [XmlTree.children, hrow, filter_newRow (fun _ => isChild_of_nonneg) _ hneg, map_singleton]

/-! ## The nodes after a phase -/

theorem child_of_mem_children (h : c ∈ x.children k) :
    ∃ u ∈ x.row k, u < 0 ∧ c = childToOffset u := by
  obtain ⟨u, hu, rfl⟩ := mem_map.1 h
  obtain ⟨hmem, hch⟩ := mem_filter.1 hu
  exact ⟨u, hmem, by simpa [isChild] using hch, rfl⟩

theorem Linked.child_bounds (hl : Linked x) (h : c ∈ x.children k) :
    c < x.hierarchy.length ∧ c ≠ 0 := by
  obtain ⟨u, hmem, hneg, rfl⟩ := child_of_mem_children h
  refine ⟨(hl.inRange k (lt_of_mem_row hmem) u hmem).2 hneg, ?_⟩
  simp only [childToOffset]
  omega

theorem junctionChild_of_mem_children (h : c ∈ x.children k) (hj : x.isJunction c = true) :
    c ∈ x.junctionChildren k := by
  obtain ⟨u, hmem, hneg, rfl⟩ := child_of_mem_children h
  exact mem_map.2 ⟨u, mem_filter.2 ⟨hmem, isJunctionChild_iff.2 ⟨hneg, hj⟩⟩, rfl⟩

section
variable (h : Inserted lv x (places lv x) y)
include h

theorem Inserted.children_eq (hk : k < x.hierarchy.length)
    (hnot : ¬ (x.isJunction k = true ∧ x.typeOf k = some lv.parent)) :
    y.children k = x.children k := by
  rw [XmlTree.children, XmlTree.children, h.row_eq hk]
  rintro ⟨i, j⟩ hp rfl
  have hnee := (mem_places.1 hp).2
  simp only [needs, Bool.and_eq_true, decide_eq_true_eq] at hnee
  exact hnot ⟨hnee.1.1.1, hnee.1.1.2⟩

theorem Inserted.leavesEnd (hl : Linked x) (hle : LeavesEnd x) : LeavesEnd y := by
  intro i hi hne hj
  rcases h.row_cases hi with hi | ⟨t, k, j, ht, rfl⟩
  · rw [h.isJunction_eq hl hi] at hj
    rw [h.children_eq hi (by simp [hj])]
    exact hle i hi hne hj
  · rw [(h.new ht).1] at hj
    cases hj

theorem Inserted.holds_leaves (hl : Linked x) (hle : LeavesEnd x) {ks : List Nat} {F : Forest}
    (hF : Holds x ks F) (hks : ∀ k ∈ ks, k < x.hierarchy.length ∧ k ≠ 0 ∧ x.isJunction k = false) :
    Holds y ks F := by
  induction hF with
  | nil => exact .nil
  | @cons k ks cs inner next hcs hinner _ ihinner ihnext =>
    obtain ⟨hk, hne, hj⟩ := hks k mem_cons_self
    have hnil : cs = [] := by rw [← hcs, hle k hk hne hj]
    subst hnil
    have hco : Holds y (k :: ks) (.cons (y.tag k) (y.fieldsOf k) inner next) :=
      .cons (by rw [h.children_eq hk (by simp [hj]), hcs]) (ihinner (by simp))
        (ihnext (forall_mem_cons.1 hks).2)
    rwa [h.tag_eq hl hk, h.fieldsOf_eq hl hk] at hco

end

theorem nodes_cons (tag : List Char) (fields : List (List Char × List Char)) (inner next : Forest) :
    nodes (.cons tag fields inner next) = nodes (.cons tag fields inner .nil) ++ nodes next := by
  simp only [nodes]
  split <;> simp

/-- **A phase keeps the nodes, with their settings and in their order.** -/
theorem Inserted.holds (h : Inserted lv x (places lv x) y) (hl : Linked x) (hp : lv.Proper)
    (hle : LeavesEnd x) (hno : NodesEnd x) {ks ks' : List Nat} {F : Forest} (hF : Holds x ks F)
    (hks : ∀ k ∈ ks, k < x.hierarchy.length)
    (hks' : List.Forall₂ (Wraps x (places lv x)) ks ks') :
    ∃ F', Holds y ks' F' ∧ nodes F' = nodes F := by
  induction hF generalizing ks' with
  | nil =>
    cases hks'
    exact ⟨.nil, .nil, rfl⟩
  | @cons k ks cs inner next hcs hinner hnext ihinner ihnext =>
    obtain ⟨k', ks', hwr, hre, rfl⟩ := forall₂_cons_left_iff.1 hks'
    have hk := hks k mem_cons_self
    have hcsx : ∀ c ∈ cs, c < x.hierarchy.length ∧ c ≠ 0 := by
      intro c hc
      rw [← hcs] at hc
      exact hl.child_bounds hc
    obtain ⟨next', hnext', hnex⟩ := ihnext (forall_mem_cons.1 hks).2 hre
    -- what is inside: unchanged in a node, with the same nodes elsewhere
    obtain ⟨inner', hinner', hsa⟩ : ∃ inner', Holds y (y.children k) inner' ∧
        nodes (.cons (x.tag k) (x.fieldsOf k) inner' .nil) =
        nodes (.cons (x.tag k) (x.fieldsOf k) inner .nil) := by
      by_cases hnod : sectType (x.tag k) (x.fieldsOf k) = some .node
      · have htype := hnod
        rw [sectType_eq hl hk] at htype
        cases hj : x.isJunction k with
        | false => simp [hj] at htype
        | true =>
          rw [hj, if_pos rfl] at htype
          have hke : y.children k = cs := by
            rw [h.children_eq hk (by simp [htype, hp.not_node.2.symm]), hcs]
          refine ⟨inner, ?_, rfl⟩
          rw [hke]
          refine h.holds_leaves hl hle hinner fun c hc => ⟨(hcsx c hc).1, (hcsx c hc).2, ?_⟩
          by_contra hjc
          have hmem :=
            junctionChild_of_mem_children (k := k) (by rw [hcs]; exact hc) (by simpa using hjc)
          rw [hno k hk hj htype] at hmem
          cases hmem
      · obtain ⟨inner', hinner', heq⟩ :=
          ihinner (fun c hc => (hcsx c hc).1) (hcs ▸ h.children_related hk)
        exact ⟨inner', hinner', by simp [nodes, hnod, heq]⟩
    rw [nodes_cons, ← hsa, ← hnex]
    rcases hwr with rfl | ⟨t, i, j, u, ht, hu, rfl, rfl⟩
    · refine ⟨_, .cons rfl hinner' hnext', ?_⟩
      rw [nodes_cons, h.tag_eq hl hk, h.fieldsOf_eq hl hk]
    · have hch : Holds y [childToOffset u] _ := .cons rfl hinner' .nil
      have hlt : x.hierarchy.length + t < y.hierarchy.length := by
        rw [h.size_eq]
        have := (List.getElem?_eq_some_iff.1 ht).1
        omega
      have htype : sectType (y.tag (x.hierarchy.length + t)) (y.fieldsOf (x.hierarchy.length + t)) ≠
          some .node := by
        rw [sectType_eq (h.linked hl) hlt, (h.new ht).1, if_pos rfl, h.typeOf_new hp ht]
        exact fun heq => hp.not_node.1 (Option.some.inj heq)
      refine ⟨_, .cons (h.children_new ht hu) hch hnext', ?_⟩
      rw [h.tag_eq hl hk, h.fieldsOf_eq hl hk, nodes, if_neg htype]

end

end Sensys.Cfgi
