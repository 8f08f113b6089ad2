import Sensys.Cfgi.LexXml
/-!
# The sections of the configuration file (`orcm/mca/cfgi/file30/cfgi_file30.c:2420-3267`)

| here | there |
| --- | --- |
| `isSectionalItem`, `checkLexOpenCloseTagsMatching` | `:2420-2453`, `:2734-2813` |
| `emptyEnding` | the search for the first empty ending, from the last section down |
| `firstTurn` | the loop that finds starts, ends and parents (`:3077-3147`) |
| `secondTurn` | the same loop again, for the fields (`:3198-3249`) |
| `addChildren` | the loop that adds the children (`:3253-3260`) |
| `structureLexedItems` | `:2962-3267` |

An item that starts with a tab is data, one that starts with `/` is a closing tag, and any other
is an opening tag. The arrays are functions from indices; what `calloc` cleared reads 0, and
`nota_index` is `none`. The search for an empty ending leaves its index at −1 if there is none,
which `0 == x && 0 != section_ends[0]` does not see: the access that follows is outside the array.
That there is memory is assumed.
-/
namespace Sensys.Cfgi
open Buffer

/-- `ORCM_ERR_BAD_PARAM`, or an access outside an array. -/
inductive Fault where
  | badParam
  | outside
deriving DecidableEq, Repr

/-- `0 == strcasecmp(a, b)`. -/
def strcaseeq (a b : List Char) : Bool := a.map Char.toLower = b.map Char.toLower

def sectionNames : List (List Char) :=
  ["controller".toList, "configuration".toList, "junction".toList, "scheduler".toList]

def isSectionalItem (t : List Char) : Bool := sectionNames.any (strcaseeq t)

inductive Kind where
  | data
  | closing (name : List Char)
  | opening (name : List Char)
deriving DecidableEq, Repr

def kind : List Char → Kind
  | '\t' :: _ => .data
  | '/' :: name => .closing name
  | name => .opening name

/-- There is an item, and its first character is `c`. -/
def startsWith (c : Char) (t : Option (List Char)) : Bool := t.any fun t => t.head? = some c

/-- The loop over the items: the numbers of opening and closing tags. -/
def scanTags : List (List Char) → Nat → Nat → Except Fault (Nat × Nat)
  | [], openings, closings => .ok (openings, closings)
  | t :: rest, openings, closings =>
    match kind t with
    | .data => scanTags rest openings closings
    | .closing _ => scanTags rest openings (closings + 1)
    | .opening name =>
      if isSectionalItem name then scanTags rest (openings + 1) closings
      -- the tag of a field: data and a closing tag follow
      else if startsWith '\t' rest[0]? ∧ startsWith '/' rest[1]? then
        scanTags rest (openings + 1) closings
      else .error .badParam

def checkLexOpenCloseTagsMatching (items : List (List Char)) : Except Fault Unit :=
  if items = [] then .error .badParam
  else
    (scanTags items 0 0).bind fun n => if n.1 ≠ n.2 then .error .badParam else .ok ()

/-! ## The sections -/

/-- The largest index below `n` of a section without an end; `none` is the index −1. -/
def emptyEnding (ends : Nat → Nat) : Nat → Option Nat
  | 0 => none
  | x + 1 => if ends x = 0 then some x else emptyEnding ends x

/-- The section that is used after the search. -/
def foundEnding (ends : Nat → Nat) (n : Nat) : Except Fault Nat :=
  match emptyEnding ends n with
  | none => .error .outside
  | some x => if x = 0 ∧ ends 0 ≠ 0 then .error .badParam else .ok x

structure Sections where
  /-- `sz_section + 1`. -/
  sz      : Nat
  starts  : Nat → Nat
  ends    : Nat → Nat
  parents : Nat → Option Nat
  counts  : Nat → Nat

def Sections.init : Sections :=
  ⟨0, fun _ => 0, fun _ => 0, fun k => if k = 0 then none else some 0, fun _ => 0⟩

def countField (s : Sections) : Except Fault Sections :=
  if s.sz = 0 then .error .badParam
  else (foundEnding s.ends s.sz).map fun x => { s with counts := put s.counts x (s.counts x + 1) }

def endSection (s : Sections) (i : Nat) : Except Fault Sections :=
  (foundEnding s.ends s.sz).map fun x => { s with ends := put s.ends x i }

/-- The arrays have `size` places. A section that finds no parent keeps the 0 of `calloc`. -/
def beginSection (size : Nat) (s : Sections) (i : Nat) : Except Fault Sections :=
  if s.sz < size then
    let s' := { s with sz := s.sz + 1, starts := put s.starts s.sz i, ends := put s.ends s.sz 0 }
    if s.sz = 0 then .ok s'
    else
      match emptyEnding s'.ends s.sz with
      | none => .ok s'
      | some x =>
        if x = 0 ∧ s'.ends 0 ≠ 0 then .error .badParam
        else .ok { s' with parents := put s.parents s.sz (some x) }
  else .error .outside

/-- One turn of the first loop, at the item with its index. -/
def firstTurn (size : Nat) (s : Sections) (t : List Char × Nat) : Except Fault Sections :=
  match kind t.1 with
  | .data => .ok s
  | .closing name => if isSectionalItem name then endSection s t.2 else .ok s
  | .opening name => if isSectionalItem name then beginSection size s t.2 else countField s

structure Filling where
  sz     : Nat
  ends   : Nat → Nat
  counts : Nat → Nat
  /-- `hierarchy`. -/
  rows   : Nat → List Int

/-- `hierarchy[x][section_counts[x]] = v; ++section_counts[x]`. -/
def addEntry (f : Filling) (x : Nat) (v : Int) : Except Fault Filling :=
  if f.counts x < (f.rows x).length then
    .ok { f with rows := put f.rows x ((f.rows x).set (f.counts x) v), counts := put f.counts x (f.counts x + 1) }
  else .error .outside

/-- One turn of the second loop; the sections are those of the first. -/
def secondTurn (f : Filling) (t : List Char × Nat) : Except Fault Filling :=
  match kind t.1 with
  | .data => .ok f
  | .closing name =>
    if isSectionalItem name then (foundEnding f.ends f.sz).map fun x =>
      { f with ends := put f.ends x t.2 } else .ok f
  | .opening name =>
    if isSectionalItem name then .ok { f with sz := f.sz + 1, ends := put f.ends f.sz 0 }
    else if f.sz = 0 then .error .badParam
    else (foundEnding f.ends f.sz).bind fun x => addEntry f x t.2

def addChildren (parents : Nat → Option Nat) (size : Nat) (f : Filling) : Except Fault Filling :=
  (List.range size).foldlM
    (fun f k =>
      match parents k with
      | none => .ok f
      | some i => addEntry f i (-(k : Int)))
    f

/-- `hier_row_lengths`: the start, the fields and the children. -/
def rowLength (s : Sections) (size k : Nat) : Nat :=
  s.counts k + (List.range size).countP (fun j => s.parents j = some k) + 1

/-- The rows with their starts. -/
def Filling.init (s : Sections) (size : Nat) : Filling :=
  ⟨0, fun _ => 0, fun _ => 1, fun k => (List.replicate (rowLength s size k) 0).set 0 (s.starts k)⟩

def isBegin (t : List Char) : Bool :=
  match kind t with
  | .opening name => isSectionalItem name
  | _ => false

def isEnd (t : List Char) : Bool :=
  match kind t with
  | .closing name => isSectionalItem name
  | _ => false

/-- The rows of the sections among the items from `b` up to `e`. -/
def structureLexedItems (b e : Nat) (items : List (List Char)) : Except Fault (List (List Int)) :=
  if items = [] then .error .badParam
  else if e ≤ b ∨ items.length ≤ b ∨ items.length < e then .error .badParam
  else if !isSectionalItem (items.getD b []) then .error .badParam
  else
    let part := (items.take e).drop b
    let size := part.countP isBegin
    if size ≠ part.countP isEnd ∨ size = 0 then .error .badParam
    else
      ((part.zipIdx b).foldlM (firstTurn size) Sections.init).bind fun s =>
        if s.sz ≠ size then .error .badParam
        else
          ((part.zipIdx b).foldlM secondTurn (Filling.init s size)).bind fun f =>
            (addChildren s.parents size f).map fun f => (List.range size).map f.rows

/-- The check of the tags, then the sections of the whole file. -/
def readSections (items : List (List Char)) : Except Fault (List (List Int)) :=
  (checkLexOpenCloseTagsMatching items).bind fun _ => structureLexedItems 0 items.length items

end Sensys.Cfgi
