import Sensys.Cfgi.Structure
/-!
# Levels that the configuration file leaves out (`orcm/mca/cfgi/file30/cfgi_file30.c:3765-3989,4488-5172`)

| here | there |
| --- | --- |
| `XmlTree` | `xml_tree_t` (`:134-184`); the row lengths are those of the rows |
| `isChild`, `childToOffset`, `getField`, `checkParentHasUniquelyNamedChildren`, `checkHierarchyIntegrity` | `:3765-3776`, `:3803-3837`, `:3907-3989`, `:4488-4752` |
| `fictitious`, `insertJunction` | the eight new items, the new row and the entry that points to it (`:4824-4960`) |
| `visit`, `visitRow`, `insertLevel` | the loops over the entries of a row and over the rows, one phase |
| `augmentHierarchy` | `:4754-5172`: rows under clusters, then racks under rows |

The two phases of `augment_hierarchy` differ in the values of `Level` only. A comparison of a type
with the texts is `junctionType`. Rows are not empty and start with the item of their tag, so the
checks that they do are left out. That there is memory is assumed, and that fewer than 2^32
junctions are inserted.
-/
namespace Sensys.Cfgi

inductive JunctionType where
  | cluster
  | row
  | rack
  | node
  | other
deriving DecidableEq, Repr

def junctionType (t : List Char) : JunctionType :=
  if strcaseeq t "cluster".toList then .cluster
  else if strcaseeq t "row".toList then .row
  else if strcaseeq t "rack".toList then .rack
  else if strcaseeq t "node".toList then .node
  else .other

/-- An entry of a row: a child, or the index of an item. -/
def isChild (u : Int) : Bool := u < 0

def childToOffset (u : Int) : Nat := (-u).toNat

structure XmlTree where
  items     : List (List Char)
  hierarchy : List (List Int)
deriving DecidableEq, Repr

namespace XmlTree
variable (x : XmlTree)

def item (u : Int) : List Char := x.items.getD u.toNat []

def row (i : Nat) : List Int := x.hierarchy.getD i []

/-- The tag of the section. -/
def tag (i : Nat) : List Char := x.item ((x.row i).headD 0)

def isJunction (i : Nat) : Bool := strcaseeq (x.tag i) "junction".toList

def getField (name : List Char) (i : Nat) : Option (List Char) :=
  (x.row i).findSome? fun u =>
    if isChild u then none
    else if strcaseeq (x.item u) name then some (x.item (u + 1)).tail
    else none

def typeOf (i : Nat) : Option JunctionType := (x.getField "type".toList i).map junctionType

def nameOf (i : Nat) : Option (List Char) := x.getField "name".toList i

/-- An entry that is a child and a junction. -/
def isJunctionChild (u : Int) : Bool := isChild u && x.isJunction (childToOffset u)

def junctionChildren (i : Nat) : List Nat := ((x.row i).filter x.isJunctionChild).map childToOffset

/-! ## The checks -/

/-- Every child has a name that no later child has. -/
def allDistinct : List (Option (List Char)) → Bool
  | [] => true
  | none :: _ => false
  | some a :: rest => rest.all (fun b => b.isSome ∧ b ≠ some a) && allDistinct rest

def checkParentHasUniquelyNamedChildren : Bool :=
  (List.range x.hierarchy.length).all fun i =>
    !x.isJunction i || allDistinct ((x.junctionChildren i).map x.nameOf)

/-- The junctions directly under row `i` are of one type, and there are some. -/
def hasOnly (child : JunctionType) (i : Nat) : Bool :=
  (x.junctionChildren i).all (fun c => x.typeOf c = some child) && !(x.junctionChildren i).isEmpty

/-- The first cluster has only rows. -/
def checkCluster : List Nat → Bool
  | [] => true
  | i :: rest =>
    if x.isJunction i then
      match x.typeOf i with
      | none => false
      | some t => if t = .cluster then x.hasOnly .row i else checkCluster rest
    else checkCluster rest

/-- Whatever has the type `parent` is as `ok` says. -/
def checkType (parent : JunctionType) (ok : Nat → Bool) : Bool :=
  (List.range x.hierarchy.length).all fun i =>
    !x.isJunction i ||
      match x.typeOf i with
      | none => false
      | some t => t ≠ parent || ok i

def checkHierarchyIntegrity : Bool :=
  x.checkCluster (List.range x.hierarchy.length) &&
  x.checkType .row (x.hasOnly .rack) &&
  x.checkType .rack (x.hasOnly .node) &&
  x.checkType .node fun i => (x.junctionChildren i).isEmpty

end XmlTree

/-! ## The insertions -/

/-- What is inserted between a parent and children of which types. -/
structure Level where
  parent  : JunctionType
  inserts : List JunctionType
  type    : JunctionType
  text    : List Char
  label   : List Char

def rowLevel : Level := ⟨.cluster, [.rack, .node], .row, "row".toList, "FictitiousRow".toList⟩

def rackLevel : Level := ⟨.row, [.node], .rack, "rack".toList, "FictitiousRack".toList⟩

/-- The name of the `n`-th junction that is inserted. -/
def Level.name (lv : Level) (n : Nat) : List Char := lv.label ++ Nat.toDigits 10 n

def fictitious (lv : Level) (n : Nat) : List (List Char) :=
  ["junction".toList, "type".toList, '\t' :: lv.text, "/type".toList,
    "name".toList, '\t' :: lv.name n, "/name".toList, "/junction".toList]

/-- The entry `j` of row `i` goes into a new row, which takes its place. -/
def insertJunction (lv : Level) (n i j : Nat) (x : XmlTree) : XmlTree where
  items := x.items ++ fictitious lv n
  hierarchy := x.hierarchy.modify i (fun r => r.set j (-(x.hierarchy.length : Int))) ++
    [[(x.items.length : Int), x.items.length + 1, x.items.length + 4, (x.row i).getD j 0]]

/-- The tree and `nb_inserted_row` or `nb_inserted_rack`. -/
abbrev Inserting := XmlTree × Nat

def visit (lv : Level) (i : Nat) (s : Inserting) (j : Nat) : Except Fault Inserting :=
  if s.1.isJunctionChild ((s.1.row i).getD j 0) then
    match s.1.typeOf (childToOffset ((s.1.row i).getD j 0)) with
    | none => .error .badParam
    | some t =>
      if lv.inserts.contains t then .ok (insertJunction lv (s.2 + 1) i j s.1, s.2 + 1) else .ok s
  else .ok s

def visitRow (lv : Level) (s : Inserting) (i : Nat) : Except Fault Inserting :=
  if s.1.isJunction i then
    match s.1.typeOf i with
    | none => .error .badParam
    | some t =>
      if t = lv.parent then (List.range (s.1.row i).length).foldlM (visit lv i) s else .ok s
  else .ok s

def insertLevel (lv : Level) (x : XmlTree) : Except Fault XmlTree :=
  ((List.range x.hierarchy.length).foldlM (visitRow lv) (x, 0)).map Prod.fst

def augmentHierarchy (x : XmlTree) : Except Fault XmlTree :=
  (insertLevel rowLevel x).bind (insertLevel rackLevel)

end Sensys.Cfgi
