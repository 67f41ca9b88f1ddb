/-
  Texts of values.

  * `Value.concatText` is what string concatenation appends for a value;
  * `Value.text` is the value as source text, marked with its type where the
    plain text would read as another type.
-/
import ConstRestore.Value
import ConstRestore.Ieee.Shortest
import ConstRestore.Text.Quoted

namespace ConstRestore

/-- The name of a class with dots between packages. -/
def dottedName (internalName : String) : String :=
  String.ofList (internalName.toList.map fun c => if c = '/' then '.' else c)

/-- The character with the given code unit, if it is not a surrogate. -/
def charOfUnit? (unit : UInt16) : Option Char :=
  let n := unit.toNat
  if n < 0xd800 ∨ 0xdfff < n then some (Char.ofNat n) else none

namespace Value

/-- The text of the value in a string concatenation. -/
def concatText : Value → String
  | byte v => toString v.toInt
  | short v => toString v.toInt
  | char v => String.singleton ((charOfUnit? v).getD '\ufffd')
  | int v => toString v.toInt
  | long v => toString v.toInt
  | float v => v.conversionText
  | double v => v.conversionText
  | string s => s
  | class_ name => "class " ++ dottedName name

/-- A code unit by its number, between single quotes. -/
def unitText (v : UInt16) : String := "'" ++ Text.unitEscape v.toNat ++ "'"

/-- The value as source text. -/
def text : Value → String
  | byte v => "(byte) " ++ toString v.toInt
  | short v => "(short) " ++ toString v.toInt
  | char v => unitText v
  | int v => toString v.toInt
  | long v => toString v.toInt ++ "L"
  | float v => v.conversionText ++ "F"
  | double v => v.conversionText ++ "D"
  | string s => Text.quoted s
  | class_ name => dottedName name ++ ".class"

end Value

end ConstRestore
