import Sensys.Util.GroupTable
/-!
# Loading and saving the groups (`orcm/util/logical_group.c:577-965`)

| here | there |
| --- | --- |
| `Item` | `orcm_value_t` in the lists of the parser |
| `processTagLine`, `parsing`, `parseFromFile`, `loadFromFile`, `doConvertion`, `convertMembersList` | `:577-622`, `:650-680`, `:755-836` |
| `saveToFileConcat`, `saveToFileInternal` | `:838-934` |

A file is what the parser makes of it: the section `logicalgroup` as a list of items, if there is
one. The name of the group that is being read is a static variable, so it is still there at the
next load; and so is what the members of a record leave in `errno`.
-/
namespace Sensys.LogicalGroup
open Probing Orte

inductive Item where
  /-- `OPAL_STRING`. -/
  | string (key value : String)
  /-- `OPAL_PTR`. -/
  | list (key : String) (items : List Item)
  | other

/-- The groups and `current_tag`, and `errno == ERANGE`. -/
structure Store where
  groups : GroupTable
  currentTag : Option String
  erange : Bool

def Store.start : Store := ⟨init, none, false⟩

/-- The C library as the next reading finds it. -/
def Store.libc (L : Libc) (s : Store) : Libc := { L with erange := s.erange }

def processTagLine (tag : String) (s : Store) : Store :=
  if s.currentTag = some tag then s else { s with currentTag := some tag }

/-- An error in a record of members is kept only until the next record. -/
def parsing (L : Libc) : List Item → Rc → Store → Rc × Store
  | [], erri, s => (erri, s)
  | .string key value :: items, _, s =>
    if key = "name" then parsing L items .success (processTagLine value s)
    else if key = "members" then
      match s.currentTag with
      -- `strlen(NULL)`
      | none => (.undefined, s)
      | some tag =>
        let erange := (reading (s.libc L) value).erange
        match add (s.libc L) tag value s.groups with
        | (.undefined, groups) => (.undefined, { s with groups, erange })
        | (erri, groups) => parsing L items erri { s with groups, erange }
    else parsing L items .badParam s
  | .list key inner :: items, erri, s =>
    if key = "group" then
      match parsing L inner .success s with
      | (.success, s) => parsing L items erri s
      | (rc, s) => (rc, s)
    else (.badParam, s)
  | .other :: _, _, s => (.badParam, s)

/-- The items of the section; those with another key are passed over. -/
def parseItems (L : Libc) : List Item → Store → Rc × Store
  | [], s => (.success, s)
  | .list key inner :: items, s =>
    if key = "logicalgroup" then
      match parsing L inner .success s with
      | (.success, s) => parseItems L items s
      | (rc, s) => (rc, s)
    else parseItems L items s
  | _ :: _, s => (.error, s)

def parseFromFile (L : Libc) (found : Option (List Item)) (s : Store) : Rc × Store :=
  match found with
  | none => (.notFound, s)
  | some items => parseItems L items s

/-- What the parser says of a file. -/
structure Storage where
  opened   : Bool
  found    : Option (List Item)
  closed   : Rc

/-- A file that cannot be opened and one without the section are not errors, and so is a name that
is not found in a list of members. -/
def loadFromFile (L : Libc) (file : Storage) (s : Store) : Rc × Store :=
  if file.opened then
    match parseFromFile L file.found s with
    | (.success, s) => (file.closed, s)
    | (.notFound, s) => (.success, s)
    | (erri, s) => (erri, s)
  else (.success, s)

/-! ## Saving -/

/-- `MAX_LINE_LENGTH - strlen("member list=")`, the size of the buffer for a record. -/
def recordSize : Nat := 1024 - "member list=".utf8ByteSize

/-- The records `new_members_list` of the members, with `memberlist` as what is in the buffer. The
test for room does not count the comma; `none` if something is written behind the end of the
buffer. -/
def doConvertion (reservedSize : Nat) : List String → String → List String → Option (List String)
  | [], _, newMembersList => some newMembersList
  | m :: ms, memberlist, newMembersList =>
    let full := reservedSize < memberlist.utf8ByteSize + m.utf8ByteSize + 1
    let newMembersList := if full then newMembersList ++ [memberlist] else newMembersList
    let memberlist := if full then "" else memberlist
    let memberlist := if memberlist = "" then m else memberlist ++ "," ++ m
    if reservedSize < memberlist.utf8ByteSize + 1 then none
    else doConvertion reservedSize ms memberlist
      (if ms = [] ∧ memberlist ≠ "" then newMembersList ++ [memberlist] else newMembersList)

/-- The inner `none` is `NULL`. -/
def convertMembersList (membersList : List String) (maxSize : Nat) :
    Option (Option (List String)) :=
  if membersList = [] ∨ maxSize = 0 then some none
  else (doConvertion maxSize membersList "" []).map some

/-- The item of a group; one without members has none. -/
def saveToFileConcat (tag : String) (members : List String) : Option (List Item) :=
  if members = [] then some []
  else
    (doConvertion recordSize members "" []).map fun records =>
      [.list "group" (.string "name" tag :: records.map (Item.string "members"))]

/-- One entry after the other; `none` if a list has been released. -/
def saveEntries : List (Option (String × Option (List String))) → Option (List Item)
  | [] => some []
  | none :: slots => saveEntries slots
  | some (_, none) :: _ => none
  | some (tag, some members) :: slots =>
    match saveToFileConcat tag members with
    | none => none
    | some items => (saveEntries slots).map (items ++ ·)

/-- What is given to the parser; the inner `none` is `NULL`. -/
def saveToFileInternal (t : GroupTable) : Option (Option (List Item)) :=
  if t.size = 0 then some none else (saveEntries t.slots).map some

/-- The parser, as far as it is used: what is written as a section is what is read from it. -/
structure Parser (File : Type) where
  writeSection : File → Option (List Item) → File
  retrieveSection : File → Option (List Item)
  retrieve_write : ∀ file items,
    retrieveSection (writeSection file items) = some [.list "logicalgroup" (items.getD [])]

def saveToFile {File : Type} (P : Parser File) (file : File) (t : GroupTable) : Option File :=
  (saveToFileInternal t).map (P.writeSection file)

end Sensys.LogicalGroup
