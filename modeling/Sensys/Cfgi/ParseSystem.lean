import Sensys.Cfgi.Structure
import Sensys.Cfgi.Types
import Sensys.Orte.Extract
import Sensys.Opal.Argv
/-!
# From elements to clusters (`orcm/mca/cfgi/file30/cfgi_file30.c:1411-1851,5319-5346`)

| here | there |
| --- | --- |
| `XmlParser`, `Value` | `orcm_cfgi_xml_parser_t` (`orcm/mca/cfgi/cfgi_types.h:38-43`), an entry of its `value` |
| `getControllerName` | `:5319-5346` |
| `parseOrcmConfig` | `:1411-1496` |
| `parseController` | what `parse_rack` and `parse_row` do with a controller |
| `parseNamed`, `eachName`, `updateNamed` | the loops over the names of an element, and the search for the object of a name |
| `parseNode`, `parseRack`, `parseRow`, `parseCluster` | `:1498-1851` |

`get_controller_name` writes into the element it is given, so parsing an element returns it as it
is afterwards; a loop over elements that does so is `mapAccumM`. Next to each text stands the one
of the file. The state of `Parse` is a history, which nothing reads: the controllers that were
given to rows and racks. An argument list that is `NULL` is empty here. Error codes other than
`ORCM_ERR_BAD_PARAM` are not told apart from it. That there is memory is assumed. `errno` is taken
to be the same at every reading of names; a range that ends at 0 can only make a later one fail
that is read here.
-/
namespace Sensys.Cfgi
open Orte Opal Cfgi.Topology Lists

structure Value where
  file : Text
  text : Text
deriving DecidableEq, Repr

/-- A text as it is read. -/
def readValue (t : Text) : Value := ⟨t, t⟩

inductive XmlParser where
  | mk (name : Text) (value : List Value) (subvals : List XmlParser)

namespace XmlParser

def name : XmlParser → Text
  | mk name _ _ => name

def value : XmlParser → List Value
  | mk _ value _ => value

def subvals : XmlParser → List XmlParser
  | mk _ _ subvals => subvals

/-- `value[0]`. -/
def first (x : XmlParser) : Option Text := x.value.head?.map Value.text

end XmlParser

/-- The controller a row or a rack was given: the pattern in the file, the row around a rack, the
name of the row or rack, and the controller's. -/
structure Given where
  pattern    : Text
  within     : Option Text
  element    : Option Text
  controller : Text
deriving DecidableEq, Repr

abbrev Parse := EStateM Fault (List Given)

/-- The first `@` is replaced. -/
def replaceAt (parent t : Text) : Text :=
  match t.dropWhile (· ≠ '@') with
  | [] => t
  | _ :: rest => t.takeWhile (· ≠ '@') ++ parent ++ rest

/-- What `*element_name` becomes. -/
def getControllerName (nodename element : Text) (parent : Option Text) : Text :=
  if element = "localhost".toList then nodename
  else
    match parent with
    | none => element
    | some parent => replaceAt parent element

/-- `OPAL_MCA_PREFIX`. -/
def mcaPrefix : Text := "ORCM_MCA_".toList

def mcaParam (v : Text) : Text := if mcaPrefix.isPrefixOf v then v else mcaPrefix ++ v

def parseOrcmConfig (cfg : Config) (xml : XmlParser) : Config :=
  if xml.name = "port".toList then
    match xml.first with
    | some v => { cfg with port := some v }
    | none => cfg
  else if xml.name = "cores".toList then
    match xml.first with
    | some v =>
      { cfg with mcaParams := cfg.mcaParams ++ [mcaPrefix ++ "orte_daemon_cores=".toList ++ v] }
    | none => cfg
  else if xml.name = "mca-params".toList then
    match xml.first with
    | some v => { cfg with mcaParams := cfg.mcaParams ++ (argvSplit ',' v).map mcaParam }
    | none => cfg
  else if xml.name = "log".toList then
    match xml.first with
    | some v =>
      { cfg with
        env := setenv "OPAL_OUTPUT_SUFFIX".toList ".log".toList
          (setenv "OPAL_OUTPUT_LOCATION".toList v
          (setenv "OPAL_OUTPUT_REDIRECT".toList "file".toList cfg.env)) }
    | none => cfg
  else if xml.name = "envar".toList then
    match xml.first with
    | some v => { cfg with env := cfg.env ++ argvSplit ',' v }
    | none => cfg
  else if xml.name = "aggregator".toList then
    match xml.first with
    | some v => { cfg with aggregator := v.head? = some 'y' }
    | none => { cfg with aggregator := true }
  -- an unknown tag
  else cfg

/-! ## Rows, racks and nodes -/

/-- `OBJ_NEW(orcm_node_t)`. -/
def newNode : Node := ⟨none, none, ⟨[], [], none, false⟩, stateUndef, 0⟩

/-- The first element with the name, or a new one at the end. -/
def updateNamed {α β : Type} (nameOf : α → Option Text) (new : α) (name : Text)
    (f : α → Parse (α × β)) :
    List α → Parse (List α × β)
  | [] => do
    let (a, b) ← f new
    pure ([a], b)
  | a :: l =>
    if nameOf a = some name then do
      let (a, b) ← f a
      pure (a :: l, b)
    else do
      let (l, b) ← updateNamed nameOf new name f l
      pure (a :: l, b)

section
variable (nodename : Text) (L : Libc)

/-- `get_controller_name(&x->value[0], parent)`. -/
def renameFirst (parent : Option Text) : XmlParser → XmlParser
  | .mk name (v :: vs) subvals =>
    .mk name ({ v with text := getControllerName nodename v.text parent } :: vs) subvals
  | x => x

/-- `orte_regex_extract_node_names`, which returns an error or no names. -/
def extractNames (val : Text) : Except Fault (List Text) :=
  match (extractNodeNames L val L.erange).1 with
  | .ok [] => .error .badParam
  | .ok names => .ok names
  | .error .overrun => .error .outside
  | .error _ => .error .badParam

def liftExcept {α : Type} : Except Fault α → Parse α
  | .ok a => pure a
  | .error e => throw e

def eachName {σ : Type} (value : Text) (parent : Option Text) (body : σ → Text → Parse σ) (s : σ) :
    Parse σ :=
  (argvSplit ',' value).foldlM
    (fun s val => do
      let names ← liftExcept (extractNames L val)
      names.foldlM (fun s name => body s (getControllerName nodename name parent)) s)
    s

/-- The objects of the names, each with all of the items under the element. -/
def parseNamed {α : Type} (nameOf : α → Option Text) (new : Text → α)
    (parseItem : α → XmlParser → Parse (α × XmlParser)) (parent : Option Text) (objects : List α)
    (x : XmlParser) : Parse (List α × XmlParser) :=
  match x.value with
  | [] => throw .badParam
  | v :: _ => do
    let (objects, subvals) ← eachName nodename L v.text parent
      (fun s name => updateNamed nameOf (new name) name (fun a => mapAccumM parseItem a s.2) s.1)
        (objects, x.subvals)
    pure (objects, .mk x.name x.value subvals)

/-- `within` is the row around a rack, for the history. -/
def parseController (within : Option Text) (controller : Node) (element : Option Text)
    (x : XmlParser) :
    Parse (Node × XmlParser) :=
  match x.value with
  | [] => throw .badParam
  | v :: _ => do
    let name := getControllerName nodename v.text element
    modify (· ++ [⟨v.file, within, element, name⟩])
    pure ({ controller with
        name := some name
        state := stateUnknown
        config := x.subvals.foldl parseOrcmConfig controller.config },
      renameFirst nodename element x)

def parseNode (node : Node) (x : XmlParser) : Parse (Node × XmlParser) :=
  if x.name = "name".toList then
    match x.first with
    | none => throw .badParam
    | some v =>
      pure ({ node with name := some (getControllerName nodename v none) },
      renameFirst nodename none x)
  else pure ({ node with config := parseOrcmConfig node.config x }, x)

/-- `within` is `rack->row->name`. -/
def parseRack (within : Option Text) (rack : Rack) (x : XmlParser) : Parse (Rack × XmlParser) :=
  if x.name = "controller".toList then do
    let (controller, x) ← parseController nodename within rack.controller rack.name x
    pure ({ rack with controller }, x)
  else if x.name = "node".toList then do
    let (nodes, x) ← parseNamed nodename L Node.name
      (fun name => { newNode with name := some name, state := stateUnknown })
      (parseNode nodename) rack.name rack.nodes x
    pure ({ rack with nodes }, x)
  else pure (rack, x)

def parseRow (row : Topology.Row) (x : XmlParser) : Parse (Topology.Row × XmlParser) :=
  if x.name = "controller".toList then do
    let (controller, x) ← parseController nodename none row.controller row.name x
    pure ({ row with controller }, x)
  else if x.name = "rack".toList then do
    let (racks, x) ← parseNamed nodename L Rack.name (fun name => ⟨some name, newNode, []⟩)
      (parseRack nodename L row.name) row.name row.racks x
    pure ({ row with racks }, x)
  else pure (row, x)

/-! ## Clusters and schedulers -/

/-- One item of a cluster; with `only_one_cluster_controller`. -/
def parseClusterItem (s : Cluster × Bool) (x : XmlParser) : Parse ((Cluster × Bool) × XmlParser) :=
  if x.name = "controller".toList then
    match x.value with
    | [] => throw .badParam
    | _ :: _ => do
      let x := renameFirst nodename s.1.name x
      -- the first one gives the name, and is renamed once more
      let x := if s.2 then x else renameFirst nodename none x
      let controller :=
        if s.2 then s.1.controller
        else { s.1.controller with name := x.first, state := stateUnknown }
      let config := x.subvals.foldl parseOrcmConfig s.1.controller.config
      pure (({ s.1 with controller := { controller with config } }, true), x)
  else if x.name = "row".toList then do
    let (rows, x) ← parseNamed nodename L Topology.Row.name (fun name => ⟨some name, newNode, []⟩)
      (parseRow nodename L) s.1.name s.1.rows x
    pure (({ s.1 with rows }, s.2), x)
  else pure (s, x)

def parseCluster (cluster : Cluster) (xx : XmlParser) : Parse (Cluster × XmlParser) := do
  let (s, subvals) ← mapAccumM (parseClusterItem nodename L) (cluster, false) xx.subvals
  pure (s.1, .mk xx.name xx.value subvals)

end

end Sensys.Cfgi
