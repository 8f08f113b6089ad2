/-!
# Attributes (`orte/util/attr.c`)

| here | there |
| --- | --- |
| `Attribute` | `orte_attribute_t`, with a value of fixed width, as a number |
| `Pointer` | `*data`, where `data` is the argument of the accessors |
| `attrUnload` | `:421-472` |
| `getAttribute` | `:42-66`: what it returns, and what it writes to the object |
| `setAttribute` | `orte_set_attribute` with `orte_attr_load` (`:68-95`, `:307-419`) |

A process without `NDEBUG` is stopped by an assertion that fails; a write to a stray address stops
it too. Strings, byte objects, buffers and pointers are not values of fixed width; for them
`*data` is assigned and never followed.
-/
namespace Sensys.Orte

inductive AttrType where
  | bool
  | byte
  | size
  | pid
  | int
  | int8
  | int16
  | int32
  | int64
  | uint
  | uint8
  | uint16
  | uint32
  | uint64
  | float
  | timeval
  | vpid
  | jobid
deriving DecidableEq, Repr

structure Attribute where
  key     : Nat
  isLocal : Bool
  type    : AttrType
  data    : Int
deriving DecidableEq, Repr

inductive Pointer where
  | null
  /-- The address of an object of the caller. -/
  | object
  | stray
deriving DecidableEq, Repr

/-- What is written to the object; `none` if the process is stopped. -/
def attrUnload (ndebug : Bool) (kv : Attribute) : Pointer → Option (Option Int)
  | .null => if ndebug then some none else none
  | .object => some (some kv.data)
  | .stray => none

/-- `data` may be `NULL`. -/
def getAttribute (ndebug : Bool) (attributes : List Attribute) (key : Nat) (data : Option Pointer)
    (type : AttrType) :
    Option (Bool × Option Int) :=
  match attributes.find? fun kv => kv.key = key with
  | none => some (false, none)
  | some kv =>
    if kv.type ≠ type then some (false, none)
    else match data with
      | none => some (true, none)
      | some p => (attrUnload ndebug kv p).map fun written => (true, written)

/-- An attribute of another type is left as it is. -/
def setAttribute (key : Nat) (isLocal : Bool) (data : Int) (type : AttrType) :
    List Attribute → List Attribute
  | [] => [⟨key, isLocal, type, data⟩]
  | kv :: rest =>
    if kv.key = key then (if kv.type ≠ type then kv else { kv with data }) :: rest
    else kv :: setAttribute key isLocal data type rest

variable {attributes : List Attribute} {type : AttrType} {ndebug : Bool} {p : Pointer}

/-- **Through a pointer that is no object** nothing is read. -/
theorem getAttribute_of_not_object {key : Nat}
    {found : Bool} {written : Option Int} (hp : p ≠ .object)
    (h : getAttribute ndebug attributes key (some p) type = some (found, written)) :
    written = none := by
  unfold getAttribute at h
  cases hf : attributes.find? fun kv => kv.key = key with
  | none => simp_all
  | some kv =>
    by_cases htype : kv.type = type
    · cases p <;> cases ndebug <;> simp_all [attrUnload]
    · simp_all

theorem isSome_getAttribute_iff {key : Nat} :
    (getAttribute ndebug attributes key (some p) type).isSome = true ↔
      ((attributes.find? fun kv => kv.key = key).any (fun kv => kv.type = type) = true →
        p = .object ∨ p = .null ∧ ndebug = true) := by
  unfold getAttribute
  cases hf : attributes.find? fun kv => kv.key = key with
  | none => simp
  | some kv =>
    by_cases htype : kv.type = type
    · cases p <;> cases ndebug <;> simp [htype, attrUnload]
    · simp [htype]

end Sensys.Orte
