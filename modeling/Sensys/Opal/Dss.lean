import Sensys.Lib.Codec
import Sensys.Orte.Extract
/-!
# Values in a buffer (`opal/dss/dss_pack.c`, `opal/dss/dss_unpack.c`)

`opal_dss` is a parameter: unpacking one value inverts packing it, the description of its type
included if the buffer is described. A `float` or a `double` is packed as the text that `%f` gives
(`:333-371`), so it is the text that comes back. `IntType` are types of `opal_value_t`
(`opal/dss/dss_types.h:64-100`).
-/
namespace Sensys.Opal
open Orte

inductive IntType where
  | int
  | int8
  | int16
  | int32
  | int64
  | uint
  | uint8
  | uint16
  | uint32
  | uint64
deriving DecidableEq, Repr

def IntType.code : IntType → Nat
  | .int => 6
  | .int8 => 7
  | .int16 => 8
  | .int32 => 9
  | .int64 => 10
  | .uint => 11
  | .uint8 => 12
  | .uint16 => 13
  | .uint32 => 14
  | .uint64 => 15

/-- The least and the greatest integer of a type. -/
def IntType.bounds : IntType → Int × Int
  | .int8 => (-2 ^ 7, 2 ^ 7 - 1)
  | .int16 => (-2 ^ 15, 2 ^ 15 - 1)
  | .int | .int32 => (-2 ^ 31, 2 ^ 31 - 1)
  | .int64 => (-2 ^ 63, 2 ^ 63 - 1)
  | .uint8 => (0, 2 ^ 8 - 1)
  | .uint16 => (0, 2 ^ 16 - 1)
  | .uint | .uint32 => (0, 2 ^ 32 - 1)
  | .uint64 => (0, 2 ^ 64 - 1)

theorem IntType.bounds_le (type : IntType) : -2 ^ 64 ≤ type.bounds.1 ∧ type.bounds.2 ≤ 2 ^ 64 := by
  cases type <;> decide

def IntType.Holds (type : IntType) (n : Int) : Prop := type.bounds.1 ≤ n ∧ n ≤ type.bounds.2

structure Dss (β ε : Type) where
  string     : Codec β ε (Option Text)
  bool       : Codec β ε Bool
  int8       : Codec β ε Int8
  int32      : Codec β ε Int32
  int64      : Codec β ε Int64
  uint8      : Codec β ε UInt8
  uint32     : Codec β ε UInt32
  uint64     : Codec β ε UInt64
  timeval    : Codec β ε (Int64 × Int64)
  dataType   : Codec β ε UInt8
  /-- The text of a `float`. -/
  float      : Codec β ε Text
  double     : Codec β ε Text
  /-- The length of a list, which an `int32_t` is taken to hold. -/
  count      : Codec β ε Int
  /-- What becomes of a caller that needs a string and gets `NULL`. -/
  nullString : ε

/-- A string that is not `NULL`. -/
def Dss.text {β ε : Type} (d : Dss β ε) : Codec β ε Text := d.string.ofSome d.nullString

/-! ## A buffer of whole values -/

/-- A value in a buffer, with others of a kind `κ`. -/
inductive Item (κ : Type) where
  | string (s : Option Text)
  | bool (b : Bool)
  | int8 (n : Int8)
  | int32 (n : Int32)
  | int64 (n : Int64)
  | uint8 (n : UInt8)
  | uint32 (n : UInt32)
  | uint64 (n : UInt64)
  | timeval (t : Int64 × Int64)
  | dataType (t : UInt8)
  | float (t : Text)
  | double (t : Text)
  | count (n : Int)
  | other (x : κ)
deriving DecidableEq

def items (κ : Type) {ε : Type} (fault : ε) : Dss (Item κ) ε where
  string := .single fault .string (fun | .string s => some s | _ => none) fun _ => rfl
  bool := .single fault .bool (fun | .bool b => some b | _ => none) fun _ => rfl
  int8 := .single fault .int8 (fun | .int8 n => some n | _ => none) fun _ => rfl
  int32 := .single fault .int32 (fun | .int32 n => some n | _ => none) fun _ => rfl
  int64 := .single fault .int64 (fun | .int64 n => some n | _ => none) fun _ => rfl
  uint8 := .single fault .uint8 (fun | .uint8 n => some n | _ => none) fun _ => rfl
  uint32 := .single fault .uint32 (fun | .uint32 n => some n | _ => none) fun _ => rfl
  uint64 := .single fault .uint64 (fun | .uint64 n => some n | _ => none) fun _ => rfl
  timeval := .single fault .timeval (fun | .timeval t => some t | _ => none) fun _ => rfl
  dataType := .single fault .dataType (fun | .dataType t => some t | _ => none) fun _ => rfl
  float := .single fault .float (fun | .float t => some t | _ => none) fun _ => rfl
  double := .single fault .double (fun | .double t => some t | _ => none) fun _ => rfl
  count := .single fault .count (fun | .count n => some n | _ => none) fun _ => rfl
  nullString := fault

end Sensys.Opal
