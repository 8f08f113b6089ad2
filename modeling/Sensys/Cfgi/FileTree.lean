import Sensys.Cfgi.Nesting
import Sensys.Cfgi.Siblings
/-!
# The tree of a file

What `readSections` makes of a file is linked, and its rows hold the sections of the file, with
their fields and in their order. So `Linked` and `Holds` ask nothing of the trees that
`augmentHierarchy` gets, and what it does to them is done to files.
-/
namespace Sensys.Cfgi
open Lists List

/-- The fields that are not in a section inside. -/
def Body.fields : Body → List (List Char × List Char)
  | .nil => []
  | .field name value _ rest => (name, value) :: rest.fields
  | .sub _ _ _ rest => rest.fields

def Body.forest : Body → Forest
  | .nil => .nil
  | .field _ _ _ rest => rest.forest
  | .sub name body _ rest => .cons name body.fields body.forest rest.forest

namespace File
variable (f : File)

def forest : Forest := .cons f.name f.body.fields f.body.forest .nil

def tree : XmlTree := ⟨f.items, f.rows.map Row.entries⟩

end File

/-! ## Where the entries of the rows point -/

variable (b : Body) (f : File) {r : Row}

theorem Body.fieldStarts_lt {pos u : Nat} (h : u ∈ b.fieldStarts pos) :
    u + 1 < pos + b.items.length := by
  induction b generalizing pos with
  | nil => cases h
  | field name value close rest ih =>
    rw [Body.items]
    simp only [length_cons]
    rcases mem_cons.1 h with rfl | h
    · omega
    · have := ih h
      omega
  | sub name body close rest ihb ihr =>
    have := ihr h
    rw [Body.items]
    simp only [length_cons, length_append]
    omega

theorem Body.childRows_bounds {row c : Nat} (h : c ∈ b.childRows row) :
    row ≤ c ∧ c < row + b.count := by
  induction b generalizing row with
  | nil => cases h
  | field name value close rest ih => exact ih h
  | sub name body close rest ihb ihr =>
    rw [Body.count]
    rcases mem_cons.1 h with rfl | h
    · omega
    · have := ihr h
      omega

/-- A row whose entries are below the numbers of items and rows. -/
def Row.Within (items rows : Nat) (r : Row) : Prop :=
  r.start + 1 < items ∧ (∀ u ∈ r.fields, u + 1 < items) ∧ ∀ c ∈ r.children, c < rows

theorem Row.Within.mono {m n m' n' : Nat} (h : r.Within m n) (hm : m ≤ m') (hn : n ≤ n') :
    r.Within m' n' := by
  obtain ⟨hst, hf, hch⟩ := h
  exact ⟨by omega, fun u hu => by have := hf u hu; omega, fun c hc => by have := hch c hc; omega⟩

theorem Body.row_within (pos row : Nat) :
    Row.Within (pos + b.items.length + 2) (row + b.count + 1) ⟨pos, b.fieldStarts (pos + 1),
      b.childRows (row + 1), true⟩ := by
  refine ⟨by simp only; omega, fun u hu => ?_, fun c hc => ?_⟩
  · have := b.fieldStarts_lt hu
    omega
  · have := b.childRows_bounds hc
    omega

theorem Body.rows_within {pos row : Nat} (h : r ∈ b.rows pos row) :
    r.Within (pos + b.items.length) (row + b.count) := by
  induction b generalizing pos row with
  | nil => cases h
  | field name value close rest ih =>
    refine (ih h).mono ?_ ?_
    · simp only [Body.items, length_cons]
      omega
    · exact Nat.le_refl _
  | sub name body close rest ihb ihr =>
    have hit : (Body.sub name body close rest).items.length =
        body.items.length + 2 + rest.items.length := by
      simp only [Body.items, length_cons, length_append]
      omega
    rw [hit, Body.count]
    rcases mem_append.1 h with h | h
    · rcases mem_cons.1 h with rfl | h
      · exact (body.row_within pos row).mono (by omega) (by omega)
      · exact (ihb h).mono (by omega) (by omega)
    · exact (ihr h).mono (by omega) (by omega)

theorem File.row_within (h : r ∈ f.rows) : r.Within f.items.length f.rows.length := by
  have hit : f.items.length = 0 + f.body.items.length + 2 := by
    simp only [File.items, length_cons, length_append, length_nil]
    omega
  have hro : f.rows.length = 0 + f.body.count + 1 := by
    rw [File.rows, length_cons, f.body.length_rows]
    omega
  rw [hit, hro]
  rcases mem_cons.1 h with rfl | h
  · exact f.body.row_within 0 0
  · exact (f.body.rows_within h).mono (by omega) (by omega)

/-- **The rows of a file are linked.** -/
theorem File.linked : Linked f.tree := by
  have hrow : ∀ i < f.tree.hierarchy.length, ∃ r ∈ f.rows, f.tree.row i = r.entries := by
    intro i hi
    have hi' : i < f.rows.length := by simpa [File.tree] using hi
    refine ⟨f.rows[i], getElem_mem hi', ?_⟩
    rw [row_eq_getElem hi]
    simp only [File.tree, getElem_map]
  refine ⟨fun i hi => ?_, fun i hi u hu => ?_⟩
  · obtain ⟨r, -, hr⟩ := hrow i hi
    rw [hr]
    exact ⟨r.start, rfl, by omega⟩
  · obtain ⟨r, hmem, hr⟩ := hrow i hi
    obtain ⟨hst, hf, hch⟩ := f.row_within hmem
    have hsi : f.tree.hierarchy.length = f.rows.length := length_map _
    have hit : f.tree.items = f.items := rfl
    rw [hsi, hit]
    rw [hr, Row.entries, cons_append, mem_cons, mem_append, mem_map, mem_map] at hu
    rcases hu with rfl | ⟨m, hm, rfl⟩ | ⟨c, hc, rfl⟩
    · exact ⟨fun _ => by omega, fun hneg => by omega⟩
    · have := hf m hm
      exact ⟨fun _ => by omega, fun hneg => by omega⟩
    · have := hch c hc
      rw [childToOffset_neg]
      exact ⟨fun hpos => by omega, fun _ => this⟩

/-! ## The sections -/

section
variable {x : XmlTree} {pos row : Nat} {part : List (List Char)}

theorem item_of_partAt {t : List Char} (h : PartAt x.items pos (t :: part)) :
    x.item (pos : Int) = t := by
  rw [XmlTree.item, Int.toNat_natCast, getD_eq_getElem?_getD, h.head, Option.getD_some]

theorem Body.fields_eq (h : PartAt x.items pos b.items) :
    (b.fieldStarts pos).map (fun (m : Nat) => (x.item (m : Int), (x.item ((m : Int) + 1)).tail)) =
      b.fields := by
  induction b generalizing pos with
  | nil => rfl
  | field name value close rest ih =>
    have hv : x.item ((pos : Int) + 1) = '\t' :: value := item_of_partAt h.tail
    rw [Body.fieldStarts, map_cons, Body.fields, item_of_partAt h, hv,
      ih h.tail.tail.tail, tail_cons]
  | sub name body close rest ihb ihr =>
    refine ihr ?_
    have hre := h.tail.append_right.tail
    rwa [show pos + 1 + body.items.length + 1 = pos + body.items.length + 2 by omega] at hre

theorem isChild_entries (r : Row) (h : ∀ c ∈ r.children, 0 < c) :
    (∀ u ∈ r.fields.map (Nat.cast : Nat → Int), isChild u = false) ∧
      ∀ u ∈ r.children.map fun (k : Nat) => -(k : Int), isChild u = true := by
  simpa [isChild] using h

theorem filter_entries_children (r : Row) (h : ∀ c ∈ r.children, 0 < c) :
    (r.entries.filter isChild).map childToOffset = r.children := by
  obtain ⟨hf, hch⟩ := isChild_entries r h
  rw [Row.entries, cons_append, filter_cons_of_neg (by simp [isChild]), filter_append,
    filter_eq_nil_iff.2 fun u hu => by simp [hf u hu], filter_eq_self.2 hch, nil_append, map_map]
  exact (map_congr_left fun c _ => childToOffset_neg c).trans (map_id _)

theorem filter_entries_fields (r : Row) (h : ∀ c ∈ r.children, 0 < c) :
    r.entries.tail.filter (fun u => !isChild u) = r.fields.map (Nat.cast : Nat → Int) := by
  obtain ⟨hf, hch⟩ := isChild_entries r h
  rw [Row.entries, cons_append, tail_cons, filter_append,
    filter_eq_self.2 fun u hu => by
    simp [hf u hu], filter_eq_nil_iff.2 fun u hu => by simp [hch u hu], append_nil]

/-- One section: its row, with what is inside and what is beside it. -/
theorem holds_section {name : List Char} {body : Body} {ks : List Nat} {next : Forest}
    (hname : PartAt x.items pos (name :: part)) (hbo : PartAt x.items (pos + 1) body.items)
    (hrow : x.row row = Row.entries ⟨pos, body.fieldStarts (pos + 1),
      body.childRows (row + 1), true⟩)
    (hinner : Holds x (body.childRows (row + 1)) body.forest) (hnext : Holds x ks next) :
    Holds x (row :: ks) (.cons name body.fields body.forest next) := by
  have hpos : ∀ c ∈ body.childRows (row + 1), 0 < c :=
    fun c hc => by have := body.childRows_bounds hc; omega
  have htag : x.tag row = name := by
    rw [XmlTree.tag, hrow]
    exact item_of_partAt hname
  have hf : x.fieldsOf row = body.fields := by
    rw [XmlTree.fieldsOf, hrow, filter_entries_fields _ hpos, map_map, ← body.fields_eq hbo]
    rfl
  have hch : x.children row = body.childRows (row + 1) := by
    rw [XmlTree.children, hrow]
    exact filter_entries_children _ hpos
  rw [← htag, ← hf]
  exact .cons hch hinner hnext

theorem row_of_partAt {part : List (List Int)} (h : PartAt x.hierarchy row (r.entries :: part)) :
    x.row row = r.entries := by
  rw [XmlTree.row, getD_eq_getElem?_getD, h.head, Option.getD_some]

theorem Body.holds (hit : PartAt x.items pos b.items)
    (hro : PartAt x.hierarchy row ((b.rows pos row).map Row.entries)) :
    Holds x (b.childRows row) b.forest := by
  induction b generalizing pos row with
  | nil => exact .nil
  | field name value close rest ih =>
    exact ih hit.tail.tail.tail hro
  | sub name body close rest ihb ihr =>
    rw [Body.rows, map_append, map_cons] at hro
    have hm := hit.tail.append_right.tail
    rw [show pos + 1 + body.items.length + 1 = pos + body.items.length + 2 by omega] at hm
    have hla := hro.append_right
    rw [length_cons, length_map, body.length_rows, ← Nat.add_assoc] at hla
    exact holds_section hit hit.tail.append_left (row_of_partAt hro.append_left)
      (ihb hit.tail.append_left hro.append_left.tail) (ihr hm hla)

/-- **The rows of a file hold its sections.** -/
theorem File.holds : Holds f.tree [0] f.forest := by
  have hit : PartAt f.tree.items 0 (f.name :: (f.body.items ++ ['/' :: f.close])) :=
    ⟨[], [], by simp [File.tree, File.items], rfl⟩
  have hro : PartAt f.tree.hierarchy 0 (f.rows.map Row.entries) :=
    ⟨[], [], by simp [File.tree], rfl⟩
  exact holds_section hit hit.tail.append_left (row_of_partAt hro)
    (f.body.holds hit.tail.append_left hro.tail) .nil

/-- What is read from a file. -/
theorem File.readSections_tree :
    readSections f.items = .ok f.tree.hierarchy ∧ Linked f.tree ∧ Holds f.tree [0] f.forest :=
  ⟨readSections_items f, f.linked, f.holds⟩

/-- **No node of a file is lost on the way**: its sections are read, `augmentHierarchy` returns,
and the tree has the node sections of the file in their order, each with its fields and what is
inside, whatever levels are left out and whatever the names are. -/
theorem File.augmentHierarchy_nodes (ht : Typed f.tree) (hle : LeavesEnd f.tree)
    (hno : NodesEnd f.tree) :
    readSections f.items = .ok f.tree.hierarchy ∧
      ∃ z T', augmentHierarchy f.tree = .ok z ∧ Linked z ∧ Holds z [0] T' ∧
      nodes T' = nodes f.forest := by
  have hl := f.linked
  obtain ⟨y, hy, hxy⟩ := insertLevel_eq hl ht rowLevel
  have hly := hxy.linked hl
  obtain ⟨z, hz, hyz⟩ := insertLevel_eq hly (hxy.typed hl rowLevel_proper ht) rackLevel
  have hpos : 0 < f.tree.hierarchy.length := Nat.succ_pos _
  obtain ⟨T, hT, hn⟩ := hxy.holds_top hl rowLevel_proper hle hno hpos f.holds
  obtain ⟨T', hT', hn'⟩ :=
    hyz.holds_top hly rackLevel_proper (hxy.leavesEnd hl hle) (hxy.nodesEnd hl rowLevel_proper hno)
    (by rw [hxy.size_eq]; exact Nat.add_pos_left hpos _) hT
  refine ⟨readSections_items f, z, T', ?_, hyz.linked hly, hT', hn'.trans hn⟩
  rw [augmentHierarchy, hy]
  exact hz

/-- A node directly under the cluster, without names. -/
def namelessFile : File where
  name := "configuration".toList
  body :=
    .sub "junction".toList (.field "type".toList "cluster".toList "type".toList
      (.sub "junction".toList
      (.field "type".toList "node".toList "type".toList .nil) "junction".toList .nil))
      "junction".toList .nil
  close := "configuration".toList
  opens := by decide
  closes := by decide
  valid :=
    ⟨by decide, by decide, ⟨by decide, by decide, by decide, by decide, by decide, ⟨by decide, by decide, by decide, trivial⟩, trivial⟩, trivial⟩

theorem namelessFile_nodes :
    ∃ z T', augmentHierarchy namelessFile.tree = .ok z ∧ Holds z [0] T' ∧
      nodes T' = nodes namelessFile.forest := by
  obtain ⟨-, z, T', hz, -, hT', hn⟩ :=
    namelessFile.augmentHierarchy_nodes (by decide) (by decide) (by decide)
  exact ⟨z, T', hz, hT', hn⟩

end

end Sensys.Cfgi
