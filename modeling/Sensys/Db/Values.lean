import Sensys.Opal.Argv
import Sensys.Opal.Dss
/-!
# Values and the rows made of them

| here | there |
| --- | --- |
| `Value`, `Value.type` | `opal_value_t`, its `type` (`opal/dss/dss_types.h:64-100`) |
| `OrcmValue` | `orcm_value_t` |
| `opalValueToOrcmDbItem` | `opal_value_to_orcm_db_item` (`orcm/mca/db/base/db_base_utils.c:51-128`) |
| `findItem`, `unprocessed` | `orcm_util_find_items` (`orcm/util/utils.c:475-500`): the items it finds, and those it leaves unmarked |
| `escapeString` | `postgres_escape_string` (`orcm/mca/db/postgres/db_postgres.c:293-325`), when there is memory and no text is longer than an `int` can count |
| `storeSampleRow`, `dataSampleRow` | the rows of `postgres_store_sample` and `postgres_store_data_sample` (`:438-498`, `:704-781`) |

A time is given by the text that `tv_to_str_time_stamp` makes of it, which is missing if
`localtime` fails, and a real number by what `%f` prints of it. Strings are not `NULL`.
-/
namespace Sensys.Db
open Orte Opal

/-- The integers that are stored. -/
inductive IntType where
  | bool
  | size
  | pid
  | fixed (type : Opal.IntType)
deriving DecidableEq, Repr

def IntType.code : IntType → Nat
  | .bool => 2
  | .size => 4
  | .pid => 5
  | .fixed type => type.code

inductive Value where
  | string (s : Text)
  | integer (type : IntType) (n : Int)
  | float (shown : Text)
  | double (shown : Text)
  | timeval (stamp : Option Text)
  | time (stamp : Option Text)
  /-- Of a type that is not stored. -/
  | other (type : Nat)
deriving DecidableEq, Repr

def Value.type : Value → Nat
  | .string _ => 3
  | .integer t _ => t.code
  | .float _ => 16
  | .double _ => 17
  | .timeval _ => 18
  | .time _ => 19
  | .other t => t

structure OrcmValue where
  key   : Option Text
  value : Value
  units : Option Text
deriving DecidableEq, Repr

inductive DbItem where
  | string (s : Text)
  | real (shown : Text)
  | integer (n : Int)
deriving DecidableEq, Repr

/-- Integers are cast to `long long int`. -/
def opalValueToOrcmDbItem : Value → Option DbItem
  | .string s => some (.string s)
  | .integer _ n => some (.integer (n.bmod (2 ^ 64)))
  | .float x => some (.real x)
  | .double x => some (.real x)
  | .timeval _ => none
  | .time _ => none
  | .other _ => none

def OrcmValue.hasKey (mv : OrcmValue) : Bool := mv.key.isSome

def OrcmValue.isParam (keys : List Text) (mv : OrcmValue) : Bool := mv.key.any keys.contains

/-- The search ends at an item without a key; of several with the key the last one counts. -/
def findItem (input : List OrcmValue) (key : Text) : Option Value :=
  ((input.takeWhile OrcmValue.hasKey).reverse.find? fun mv => mv.key = some key).map OrcmValue.value

/-- The number of items that are found. -/
def numFound (keys : List Text) (input : List OrcmValue) : Nat :=
  (input.takeWhile OrcmValue.hasKey).countP (OrcmValue.isParam keys)

/-- The items that are not found, also by several searches for keys of the list. -/
def unprocessed (keys : List Text) (input : List OrcmValue) : List OrcmValue :=
  (input.takeWhile OrcmValue.hasKey).filter (fun mv => !mv.isParam keys) ++
    input.dropWhile OrcmValue.hasKey

/-! ## Texts -/

def escapeString : Text → Text
  | [] => []
  | '\'' :: t => '\'' :: '\'' :: escapeString t
  | c :: t => c :: escapeString t

/-- `'%s'`. -/
def quoted (t : Text) : Text := '\'' :: t ++ ['\'']

def null : Text := "NULL".toList

/-- `value_int`, `value_real` and `value_str` of a row. -/
def DbItem.columns : DbItem → List Text
  | .string s => [null, null, quoted (escapeString s)]
  | .real x => [null, x, null]
  | .integer n => [showInt n, null, null]

/-- The columns from `hostname` to `units`. -/
def sampleColumns (hostname dataGroup dataItem timeStamp : Text) (item : DbItem)
    (units : Option Text) : List Text :=
  [quoted hostname, quoted (dataGroup ++ '_' :: dataItem), quoted timeStamp] ++ item.columns ++
    [(units.map quoted).getD null]

def row (columns : List Text) : Text := '(' :: argvJoin ',' columns ++ [')']

def storeSampleRow (hostname dataGroup dataItem timeStamp : Text) (item : DbItem)
    (units : Option Text) (type : Nat) : Text :=
  row (sampleColumns hostname dataGroup dataItem timeStamp item units ++ [Nat.toDigits 10 type])

def dataSampleRow (hostname dataGroup dataItem timeStamp : Text) (item : DbItem)
    (units : Option Text) (type : Nat) (eventId : Int) : Text :=
  row (sampleColumns hostname dataGroup dataItem timeStamp item units ++
    [Nat.toDigits 10 type, Nat.toDigits 10 type, showInt eventId])

end Sensys.Db
