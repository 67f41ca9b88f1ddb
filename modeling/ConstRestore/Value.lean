/-
  Constant values.

  * `Value` is a value of one of the data types; floating point values are bit
    patterns, so equality tells `0.0` from `-0.0` and a NaN equals itself.
  * `cast` is the conversion of the virtual machine: narrowing integral
    conversions keep the low bits, a floating point number becomes the nearest
    integer toward zero that its type can hold.
  * `convertExact` is the conversion that loses nothing: casting back gives the
    same value.
-/
import ConstRestore.DataType
import ConstRestore.Ieee.Format

namespace ConstRestore

open Ieee (Number single double)

inductive Value where
  | byte (v : Int8)
  | short (v : Int16)
  /-- A UTF-16 code unit. -/
  | char (v : UInt16)
  | int (v : Int32)
  | long (v : Int64)
  | float (v : Number single)
  | double (v : Number Ieee.double)
  | string (s : String)
  /-- The class with an internal name, or an array class by its descriptor. -/
  | class_ (name : String)
  deriving DecidableEq

namespace Value

def dataType : Value → DataType
  | byte _ => .byte
  | short _ => .short
  | char _ => .char
  | int _ => .int
  | long _ => .long
  | float _ => .float
  | double _ => .double
  | string _ => .string
  | class_ _ => .class_

/-- An integral value as a long; `char` is unsigned. -/
def toInt64? : Value → Option Int64
  | byte v => some v.toInt64
  | short v => some v.toInt64
  | char v => some v.toUInt64.toInt64
  | int v => some v.toInt64
  | long v => some v
  | _ => none

/-- A numeric value as a double. -/
def toDouble? (v : Value) : Option (Number Ieee.double) :=
  match v with
  | float x => some (x.convert Ieee.double)
  | double x => some x
  | _ => v.toInt64?.map fun i => Number.ofInt Ieee.double i.toInt

/-- The bits of an integral value, zero above its width. -/
def bits? (v : Value) : Option UInt64 := do
  let i ← v.toInt64?
  let mask ← v.dataType.mask?
  pure (i.toUInt64 &&& mask)

/-- The value of an integral type with the given low bits. -/
def ofBits? (bits : UInt64) : DataType → Option Value
  | .byte => some (.byte bits.toUInt8.toInt8)
  | .short => some (.short bits.toUInt16.toInt16)
  | .char => some (.char bits.toUInt16)
  | .int => some (.int bits.toUInt32.toInt32)
  | .long => some (.long bits.toInt64)
  | _ => none

/-- A long converted to a primitive type. -/
def ofInt64 (i : Int64) : DataType → Option Value
  | .byte => some (.byte i.toInt8)
  | .short => some (.short i.toInt16)
  | .char => some (.char i.toUInt64.toUInt16)
  | .int => some (.int i.toInt32)
  | .long => some (.long i)
  | .float => some (.float (Number.ofInt single i.toInt))
  | .double => some (.double (Number.ofInt Ieee.double i.toInt))
  | .string | .class_ => none

/-- The int nearest to a floating point number toward zero. -/
def saturateInt (x : Number Ieee.double) : Int32 :=
  Int32.ofInt (x.toIntClamped (-2147483648) 2147483647)

/-- The long nearest to a floating point number toward zero. -/
def saturateLong (x : Number Ieee.double) : Int64 :=
  Int64.ofInt (x.toIntClamped (-9223372036854775808) 9223372036854775807)

/-- A double converted to a primitive type; types narrower than `int` take the
    low bits of the int. -/
def ofDouble (x : Number Ieee.double) : DataType → Option Value
  | .byte => some (.byte (saturateInt x).toInt8)
  | .short => some (.short (saturateInt x).toInt16)
  | .char => some (.char (saturateInt x).toUInt32.toUInt16)
  | .int => some (.int (saturateInt x))
  | .long => some (.long (saturateLong x))
  | .float => some (.float (x.convert single))
  | .double => some (.double x)
  | .string | .class_ => none

/-- Conversion to another type: identity, or between primitive types. -/
def cast (v : Value) (target : DataType) : Option Value :=
  if v.dataType = target then some v
  else if !v.dataType.isPrimitive || !target.isPrimitive then none
  else
    match v.toInt64? with
    | some i => ofInt64 i target
    | none => v.toDouble?.bind (ofDouble · target)

/-- Conversion to another type if casting back gives the same value. -/
def convertExact (v : Value) (target : DataType) : Option Value := do
  let converted ← v.cast target
  let back ← converted.cast v.dataType
  if back = v then some converted else none

end Value

end ConstRestore
