import Sensys.Opal.Dss
/-!
# Typed sensor values in a buffer (`orcm/util/vardata.cpp`)

| here | there |
| --- | --- |
| `Data`, `Vardata` | `vardata` with the member of the union that its `type` selects (`orcm/util/vardata.h:29-83`) |
| `Dss` | `opal_dss`, with `opal_dss.peek` and the texts of floats |
| `packTo`, `unpackKey`, `getUnpackType`, `getUnpackedData` | `:69-106`, `:134-214` |
| `fromOpalBuffer` | the one without a type (`:216-220`) |
| `packDataToBuffer`, `unpackDataFromBuffer` | `:227-248` |

`debug` is `OPAL_ENABLE_DEBUG`: then buffers are described, and the type of a value is not packed
but found by `peek`. A float or a double is given by its bits; it comes back as it was if its text
with six decimals does (`Dss.Keeps`). Characters behind a `NUL` are not packed.
-/
namespace Sensys.SensorData
open Orte

inductive Data where
  | string (s : Text)
  | float (bits : BitVec 32)
  | double (bits : BitVec 64)
  | int32 (n : Int32)
  | int64 (n : Int64)
  | uint32 (n : UInt32)
  | uint64 (n : UInt64)
  | timeval (sec usec : Int64)
deriving DecidableEq

/-- `opal_data_type_t` (`opal/dss/dss_types.h:64-100`). -/
def Data.type : Data → UInt8
  | .string _ => 3
  | .float _ => 16
  | .double _ => 17
  | .int32 _ => 9
  | .int64 _ => 10
  | .uint32 _ => 14
  | .uint64 _ => 15
  | .timeval _ _ => 18

structure Vardata where
  key  : Text
  data : Data
deriving DecidableEq

inductive Fault where
  | invalidBuffer
  | unsupportedDataType
  /-- Values are read forever. -/
  | endless
deriving DecidableEq, Repr

structure Dss (β : Type) extends Opal.Dss β Fault where
  /-- What `%f` writes, and what is read from it. -/
  showFloat    : BitVec 32 → Text
  strtof       : Text → BitVec 32
  showDouble   : BitVec 64 → Text
  strtod       : Text → BitVec 64
  /-- A number that was read from six decimals is written as they were. -/
  float_again  : ∀ x, showFloat (strtof (showFloat x)) = showFloat x
  double_again : ∀ x, showDouble (strtod (showDouble x)) = showDouble x
  /-- Unpacking of a value of another type. -/
  other        : UInt8 → Reader β Fault Unit
  peek         : List β → Except Fault UInt8

section
variable {β : Type} (d : Dss β)

def Dss.writeFloat (x : BitVec 32) : List β := d.float.write (d.showFloat x)

def Dss.readFloat : Reader β Fault (BitVec 32) := do
  let convert ← d.float.read
  pure (d.strtof convert)

def Dss.writeDouble (x : BitVec 64) : List β := d.double.write (d.showDouble x)

def Dss.readDouble : Reader β Fault (BitVec 64) := do
  let convert ← d.double.read
  pure (d.strtod convert)

theorem Dss.reads_float (x : BitVec 32) :
    Reads d.readFloat (d.writeFloat x) (d.strtof (d.showFloat x)) :=
  (d.float.reads _).bind_pure

theorem Dss.reads_double (x : BitVec 64) :
    Reads d.readDouble (d.writeDouble x) (d.strtod (d.showDouble x)) :=
  (d.double.reads _).bind_pure

/-- The value survives the way through its text. -/
def Dss.Keeps : Data → Prop
  | .float x => d.strtof (d.showFloat x) = x
  | .double x => d.strtod (d.showDouble x) = x
  | _ => True

end

section
variable {β : Type} (d : Dss β) (debug : Bool)

/-- `strdup(s.c_str())`. -/
def cStr (s : Text) : Text := s.takeWhile (· ≠ '\x00')

def packValue : Data → List β
  | .string s => d.text.write (cStr s)
  | .float bits => d.writeFloat bits
  | .double bits => d.writeDouble bits
  | .int32 n => d.int32.write n
  | .int64 n => d.int64.write n
  | .uint32 n => d.uint32.write n
  | .uint64 n => d.uint64.write n
  | .timeval sec usec => d.timeval.write (sec, usec)

def packType (t : UInt8) : List β := if debug then [] else d.dataType.write t

def label (key : Text) : Text := if key.isEmpty then ['-'] else key

def packTo (v : Vardata) : List β :=
  d.text.write (cStr (label v.key)) ++ (packType d debug v.data.type ++ packValue d v.data)

def packDataToBuffer (inputData : List Vardata) : List β := inputData.flatMap (packTo d debug)

def unpackKey : Reader β Fault Text := d.text.read

def getUnpackType : Reader β Fault UInt8 :=
  if debug then do
    match d.peek (← get) with
    | .ok t => pure t
    | .error e => throw e
  else d.dataType.read

def getUnpackedData (localType : UInt8) (key : Text) : Reader β Fault Vardata :=
  if localType = 3 then do
    let s ← d.text.read
    pure ⟨key, .string s⟩
  else if localType = 16 then do
    let bits ← d.readFloat
    pure ⟨key, .float bits⟩
  else if localType = 17 then do
    let bits ← d.readDouble
    pure ⟨key, .double bits⟩
  else if localType = 9 then do
    let n ← d.int32.read
    pure ⟨key, .int32 n⟩
  else if localType = 10 then do
    let n ← d.int64.read
    pure ⟨key, .int64 n⟩
  else if localType = 14 then do
    let n ← d.uint32.read
    pure ⟨key, .uint32 n⟩
  else if localType = 15 then do
    let n ← d.uint64.read
    pure ⟨key, .uint64 n⟩
  else if localType = 18 then do
    let tv ← d.timeval.read
    pure ⟨key, .timeval tv.1 tv.2⟩
  else do
    d.other localType
    throw .unsupportedDataType

def fromOpalBuffer : Reader β Fault Vardata := do
  let key ← unpackKey d
  let localType ← getUnpackType d debug
  getUnpackedData d localType key

/-- `fuel` bounds the number of values. -/
def unpackDataFromBuffer (fuel : Nat) : Reader β Fault (List Vardata) :=
  readAll .endless (fromOpalBuffer d debug) fuel

end

/-! ## Reading back -/

/-- `peek` finds the type of the value that follows, as it does in a described buffer. -/
def Dss.Describes {β : Type} (d : Dss β) : Prop :=
  ∀ x rest, d.peek (packValue d x ++ rest) = .ok x.type

/-- Nothing is unpacked from an empty buffer. -/
def Dss.Ends {β : Type} (d : Dss β) : Prop := ∃ e, d.text.read.run [] = .error e

abbrev NoNul (s : Text) : Prop := '\x00' ∉ s

/-- Without a `NUL` in the strings. -/
def Vardata.Plain (v : Vardata) : Prop :=
  NoNul v.key ∧ match v.data with
    | .string s => NoNul s
    | _ => True

theorem cStr_of_noNul {s : Text} (h : NoNul s) : cStr s = s :=
  List.takeWhile_eq_self_iff.2 (Text.decide_ne_of_notMem h)

theorem label_noNul {key : Text} (h : NoNul key) : NoNul (label key) := by
  unfold label
  split
  · decide
  · exact h

section
variable {β : Type} (d : Dss β) (debug : Bool)

/-- A value as it is in a buffer. -/
def Data.packed : Data → Data
  | .string s => .string (cStr s)
  | .float x => .float (d.strtof (d.showFloat x))
  | .double x => .double (d.strtod (d.showDouble x))
  | x => x

def Vardata.packed (v : Vardata) : Vardata := ⟨cStr (label v.key), v.data.packed d⟩

theorem packed_of_plain {v : Vardata} (hv : v.Plain) (hk : d.Keeps v.data) :
    v.packed d = ⟨label v.key, v.data⟩ := by
  obtain ⟨key, x⟩ := v
  obtain ⟨hkey, hx⟩ := hv
  rw [Vardata.packed, cStr_of_noNul (label_noNul hkey)]
  cases x with
  | string s => rw [Data.packed, cStr_of_noNul hx]
  | float x | double x => exact congrArg _ (congrArg _ hk)
  | _ => rfl

theorem reads_getUnpackedData (x : Data) (key : Text) :
    Reads (getUnpackedData d x.type key) (packValue d x) ⟨key, x.packed d⟩ := by
  cases x with
  | string s => exact (d.text.reads (cStr s)).bind_pure
  | float bits => exact (d.reads_float bits).bind_pure
  | double bits => exact (d.reads_double bits).bind_pure
  | int32 n => exact (d.int32.reads n).bind_pure
  | int64 n => exact (d.int64.reads n).bind_pure
  | uint32 n => exact (d.uint32.reads n).bind_pure
  | uint64 n => exact (d.uint64.reads n).bind_pure
  | timeval sec usec => exact (d.timeval.reads (sec, usec)).bind_pure

/-- The type is read from the buffer, or seen in the description of the value that follows. -/
theorem run_getUnpackType (hpe : debug = true → d.Describes) (x : Data) (rest : List β) :
    (getUnpackType d debug).run (packType d debug x.type ++ (packValue d x ++ rest)) =
      .ok (x.type, packValue d x ++ rest) := by
  cases debug with
  | false => exact d.dataType.reads x.type _
  | true =>
    have htype := hpe rfl x rest
    simp only [getUnpackType, packType, if_true, List.nil_append, StateT.run_bind, StateT.run_get,
      pure_bind, htype]
    rfl

theorem reads_fromOpalBuffer (hpe : debug = true → d.Describes) (v : Vardata) :
    Reads (fromOpalBuffer d debug) (packTo d debug v) (v.packed d) := by
  have hkey : Reads (unpackKey d) (d.text.write (cStr (label v.key))) (cStr (label v.key)) :=
    d.text.reads _
  refine hkey.bind fun rest => ?_
  rw [List.append_assoc, StateT.run_bind, run_getUnpackType d debug hpe]
  exact reads_getUnpackedData d v.data (cStr (label v.key)) rest

theorem packTo_ne_nil (v : Vardata) : packTo d debug v ≠ [] := by
  -- there is a string other than the label
  have hl : cStr (label v.key) ≠ cStr (label v.key) ++ ['-'] := by simp
  exact List.append_ne_nil_of_left_ne_nil (d.text.write_ne_nil hl) _

theorem length_le_packDataToBuffer (l : List Vardata) :
    l.length ≤ (packDataToBuffer d debug l).length := by
  induction l with
  | nil => exact Nat.zero_le _
  | cons v l ih =>
    have hpos := List.length_pos_iff.2 (packTo_ne_nil d debug v)
    rw [packDataToBuffer, List.flatMap_cons, List.length_append, List.length_cons]
    rw [packDataToBuffer] at ih
    omega

theorem unpackDataFromBuffer_eq (hpe : debug = true → d.Describes) (l : List Vardata) {fuel : Nat}
    (hf : (packDataToBuffer d debug l).length ≤ fuel) :
    (unpackDataFromBuffer d debug fuel).run (packDataToBuffer d debug l) =
      .ok (l.map (Vardata.packed d), []) := by
  exact readAll_flatMap .endless (fun v _ => reads_fromOpalBuffer d debug hpe v)
    (fun v _ => packTo_ne_nil d debug v)
    (Nat.le_trans (length_le_packDataToBuffer d debug l) hf)

/-- The values come back with their types, and with their keys if they have one; nothing is left
in the buffer. -/
theorem unpackDataFromBuffer_packDataToBuffer (hpeek : debug = true → d.Describes)
    (l : List Vardata) (hl : ∀ v ∈ l, v.Plain) (hkeeps : ∀ v ∈ l, d.Keeps v.data) (fuel : Nat)
    (hfuel : (packDataToBuffer d debug l).length ≤ fuel) :
    (unpackDataFromBuffer d debug fuel).run (packDataToBuffer d debug l) =
      .ok (l.map fun v => ⟨if v.key = [] then ['-'] else v.key, v.data⟩, []) := by
  rw [unpackDataFromBuffer_eq d debug hpeek l hfuel]
  congr 2
  apply List.map_congr_left
  intro v hv
  rw [packed_of_plain d (hl v hv) (hkeeps v hv)]
  simp [label]

end

/-! ## A described buffer -/

def itemType : Opal.Item Empty → Option UInt8
  | .string _ => some 3
  | .float _ => some 16
  | .double _ => some 17
  | .int32 _ => some 9
  | .int64 _ => some 10
  | .uint32 _ => some 14
  | .uint64 _ => some 15
  | .timeval _ => some 18
  | _ => none

/-- A buffer of whole values, with the bits of a float as its text. -/
def tokens : Dss (Opal.Item Empty) :=
  { Opal.items Empty Fault.invalidBuffer with
    showFloat := fun x => Nat.toDigits 10 x.toNat
    strtof := fun t => BitVec.ofNat 32 (Text.digitsValue t)
    showDouble := fun x => Nat.toDigits 10 x.toNat
    strtod := fun t => BitVec.ofNat 64 (Text.digitsValue t)
    float_again := by simp [Text.digitsValue_toDigits]
    double_again := by simp [Text.digitsValue_toDigits]
    other := fun _ => throw .invalidBuffer
    peek := fun w => match w.head?.bind itemType with
      | some t => .ok t
      | none => .error .invalidBuffer }

theorem tokens_describes : tokens.Describes := by
  intro x rest
  cases x <;> rfl

theorem keeps_tokens (x : Data) : tokens.Keeps x := by
  cases x with
  | float x | double x => simp [Dss.Keeps, tokens]
  | _ => trivial

theorem tokens_ends : tokens.Ends := ⟨.invalidBuffer, rfl⟩

/-- A string without a key and a number with one. -/
def smallSample : List Vardata := [⟨[], .string ['o', 'n']⟩, ⟨['f', 'a', 'n'], .uint32 1200⟩]

theorem smallSample_plain : ∀ v ∈ smallSample, v.Plain := by
  simp [smallSample, Vardata.Plain, NoNul]

theorem smallSample_back :
    (unpackDataFromBuffer tokens true 4).run (packDataToBuffer tokens true smallSample) =
      .ok ([⟨['-'], .string ['o', 'n']⟩, ⟨['f', 'a', 'n'], .uint32 1200⟩], []) :=
  unpackDataFromBuffer_packDataToBuffer tokens true
    (fun _ => tokens_describes) smallSample smallSample_plain
    (fun v _ => keeps_tokens v.data) 4 (by decide)

end Sensys.SensorData
