import Sensys.Orte.Extract
/-!
# Sections of an XML file (`orcm/mca/parser/pugi/pugi_impl.cpp`)

| here | there |
| --- | --- |
| `Item` | `orcm_value_t` in the lists of the parser, `OPAL_STRING`, `OPAL_PTR`, `OPAL_INT` or of another type |
| `Xml` | `pugi::xml_node` |
| `convertOpalListToXmlNodes` | with `convertOpalPtrToXmlNodes` and `createNodeFromList` (`:77-136`) |
| `addNodeToList`, `addNodeChildrenToList` | with the functions for leaves, values and attributes (`:210-283`) |
| `loadFile` | `loadFile` and `convertXmlNodeToOpalList` (`:16-23,198-208,285-300`), once the file is parsed |
| `writeToTree`, `writeSection` | `:50-75,138-196` |
| `search`, `retrieveSection`, `retrieveDocument` | `:25-48,302-449` |

A file is the tree that pugixml loads from it. Comments and the like are not loaded. `reload` is
what is loaded after a tree was saved: the same tree, but for texts of white space only, which are
not loaded either, and for elements without a name, for which pugixml writes one. A tree without
an element is not loaded. A key or name that is `NULL` is the same as an empty one, and lists are
not `NULL`.
-/
namespace Sensys.Pugi
open Orte

inductive Item where
  | string (key value : Text)
  | list (key : Text) (items : List Item)
  | int (key : Text) (n : Int)
  | other (key : Text)
deriving Repr

def Item.key : Item → Text
  | .string key _ => key
  | .list key _ => key
  | .int key _ => key
  | .other key => key

inductive Xml where
  | element (name : Text) (attributes : List (Text × Text)) (children : List Xml)
  | pcdata (text : Text)
  | cdata (text : Text)
deriving Repr

inductive Rc where
  | error
  | notImplemented
  | fileWriteFailure
deriving DecidableEq, Repr

def nameKey : Text := ['n', 'a', 'm', 'e']

/-! ## From the lists to the file -/

/-- What is appended to a node. -/
structure Content where
  attributes : List (Text × Text)
  children   : List Xml
deriving Repr

mutual

/-- What an item adds: a string an attribute or a leaf, a list a node. -/
def convertItem : Item → Except Rc Content
  | .string key value =>
    .ok (if key = nameKey then ⟨[(key, value)], []⟩ else ⟨[], [.element key [] [.pcdata value]]⟩)
  | .list key items => (convertOpalListToXmlNodes items).map fun c =>
    ⟨[], [.element key c.attributes c.children]⟩
  | .int _ _ => .error .notImplemented
  | .other _ => .ok ⟨[], []⟩

def convertOpalListToXmlNodes : List Item → Except Rc Content
  | [] => .ok ⟨[], []⟩
  | i :: rest =>
    (convertItem i).bind fun c =>
      (convertOpalListToXmlNodes rest).map fun d =>
        ⟨c.attributes ++ d.attributes, c.children ++ d.children⟩

end

/-- Characters that pugixml takes for white space. -/
def blank (t : Text) : Bool := t.all fun c => c = ' ' ∨ c = '\t' ∨ c = '\n' ∨ c = '\r'

def anonymous : Text := ":anonymous".toList

/-- An element without a name is written with this one. -/
def shown (name : Text) : Text := if name = [] then anonymous else name

mutual

/-- What is loaded of a node that was saved. -/
def reloadNode : Xml → List Xml
  | .pcdata t => if blank t then [] else [.pcdata t]
  | .cdata t => [.cdata t]
  | .element name attributes children => [.element (shown name) attributes (reloadNodes children)]

def reloadNodes : List Xml → List Xml
  | [] => []
  | x :: rest => reloadNode x ++ reloadNodes rest

end

def Xml.isElement : Xml → Bool
  | .element _ _ _ => true
  | _ => false

def reload (doc : List Xml) : Option (List Xml) :=
  if doc.any Xml.isElement then some (reloadNodes doc) else none

/-! ## From the file to the lists -/

def ltrim (s : Text) : Text := s.dropWhile isspace

def rtrim (s : Text) : Text := (s.reverse.dropWhile isspace).reverse

def trim (s : Text) : Text := ltrim (rtrim s)

def addValuesToList (l : List Item) (key value : Text) : List Item :=
  if key = nameKey then .string key value :: l else l ++ [.string key value]

def addNodeAttributesToList (l : List Item) (attributes : List (Text × Text)) : List Item :=
  attributes.foldl (fun l a => addValuesToList l (trim a.1) (trim a.2)) l

mutual

/-- A node whose first child is a text is a leaf, whatever else it has. -/
def addNodeToList (l : List Item) : Xml → List Item
  | .element name _ (.pcdata t :: _) => addValuesToList l (trim name) (trim t)
  | .element name attributes children =>
    l ++ [.list (trim name)
      (addNodeChildrenToList (addNodeAttributesToList [] attributes) children)]
  -- neither name, attributes nor children
  | .pcdata _ => l ++ [.list [] []]
  | .cdata _ => l ++ [.list [] []]

def addNodeChildrenToList (l : List Item) : List Xml → List Item
  | [] => l
  | x :: rest => addNodeChildrenToList (addNodeToList l x) rest

end

/-- The document is a node like others, without a name. -/
def loadFile (doc : List Xml) : Option (List Item) :=
  match doc with
  | .pcdata _ :: _ => none
  | _ => some (addNodeChildrenToList [] doc)

/-! ## Writing a section -/

def Item.isName : Item → Bool
  | .string key _ => key = nameKey
  | _ => false

/-- One of the names in the list. -/
def hasName (name : Text) (items : List Item) : Bool :=
  items.any fun i => match i with
    | .string key value => key = nameKey && value = name
    | _ => false

/-- Without a name only a section without one matches. -/
def itemMatchesKeyAndName (key name : Text) : Item → Bool
  | .list k items => key = k && if name = [] then !items.any Item.isName else hasName name items
  | _ => false

mutual

/-- The contents of the first section that matches are replaced. -/
def writeToItem (write : List Item → List Item) (key name : Text) : Item → Option Item
  | .list k items =>
    if itemMatchesKeyAndName key name (.list k items) then some (.list k (write items))
    else (writeToTree write key name items).map (.list k)
  | _ => none

def writeToTree (write : List Item → List Item) (key name : Text) : List Item → Option (List Item)
  | [] => none
  | i :: rest =>
    match writeToItem write key name i with
    | some i' => some (i' :: rest)
    | none => (writeToTree write key name rest).map (i :: ·)

end

def appendToList (input : List Item) (overwrite : Bool) (old : List Item) : List Item :=
  if overwrite then input else old ++ input

inductive Outcome where
  | success (root : List Item) (doc : List Xml)
  | failed (rc : Rc) (root : List Item)
  /-- The list `root` was released and is used. -/
  | undefined
deriving Repr

/-- `saved` says whether `save_file` succeeds. -/
def saveSection (saved : Bool) (root : List Item) : Outcome :=
  match convertOpalListToXmlNodes root with
  | .error rc => .failed rc root
  -- a document has no attributes
  | .ok c => if saved then .success root c.children else .failed .fileWriteFailure root

def writeSection (saved : Bool) (root input : List Item) (key name : Text) (overwrite : Bool) :
    Outcome :=
  if key = [] then
    -- `appendToList` releases the list and sets the copy of the pointer only
    if overwrite then .undefined else saveSection saved (root ++ input)
  else
    match writeToTree (appendToList input overwrite) key name root with
    | none => .failed .error root
    | some root => saveSection saved root

mutual

def searchItem (p : Item → Bool) : Item → List Item
  | .list _ items => search p items (items.filter p)
  | _ => []

/-- What is found in the lists further down is put in front. -/
def search (p : Item → Bool) : List Item → List Item → List Item
  | [], found => found
  | i :: rest, found => search p rest (searchItem p i ++ found)

end

def searchInTree (key name : Text) (tree : List Item) : List Item :=
  if name = [] then search (fun i => i.key = key) tree (tree.filter fun i => i.key = key)
  else search (itemMatchesKeyAndName key name) tree (tree.filter (itemMatchesKeyAndName key name))

/-- `NULL` is the list without items. -/
def retrieveSection (key name : Text) (root : List Item) : List Item :=
  if key = [] then [] else searchInTree key name root

def retrieveDocument (root : List Item) : List Item := root

end Sensys.Pugi
