/-
  Types of abstract values.

  Int-like values keep their declared width where it is known.  `join` is the
  type of a slot where two values meet: int-like types widen, references go to
  their nearest common superclass, arrays of references element-wise.
-/
import ConstRestore.Bytecode.Descriptor
import ConstRestore.Registry.Search

namespace ConstRestore

inductive ValueType where
  /-- Unusable: never set, or merged from types that have nothing in common. -/
  | top
  | boolean | byte | char | short | int | float | long | double
  /-- The null reference. -/
  | null
  /-- A class by its internal name, or an array by its descriptor. -/
  | ref (name : String)
  /-- Pushed by a subroutine call. -/
  | returnAddress
  deriving DecidableEq

namespace ValueType

/-- The type of a value with the given descriptor; `void` has none. -/
def ofDescriptor? : Descriptor → Option ValueType
  | .boolean => some boolean
  | .byte => some byte
  | .char => some char
  | .short => some short
  | .int => some int
  | .long => some long
  | .float => some float
  | .double => some double
  | .void => none
  | .object name => some (ref name)
  | .array e => some (ref (Descriptor.array e).text)

/-- The type of a constant. -/
def ofDataType : DataType → ValueType
  | .byte => byte
  | .short => short
  | .char => char
  | .int => int
  | .long => long
  | .float => float
  | .double => double
  | .string => ref "java/lang/String"
  | .class_ => ref "java/lang/Class"

/-- Stack words that a value takes. -/
def size : ValueType → Nat
  | long | double => 2
  | _ => 1

def isIntLike : ValueType → Bool
  | boolean | byte | char | short | int => true
  | _ => false

def isReference : ValueType → Bool
  | null | ref _ => true
  | _ => false

/-- The element type of an array. -/
def arrayElement? : ValueType → Option ValueType
  | ref name =>
    match name.toList with
    | '[' :: element => (Descriptor.parse (String.ofList element)).toOption.bind ofDescriptor?
    | _ => none
  | _ => none

def text : ValueType → String
  | top => "top"
  | boolean => "boolean"
  | byte => "byte"
  | char => "char"
  | short => "short"
  | int => "int"
  | float => "float"
  | long => "long"
  | double => "double"
  | null => "null"
  | ref name => name
  | returnAddress => "returnAddress"

/-! ## Joins -/

/-- The join of two different int-like types. -/
def joinIntLike : ValueType → ValueType → ValueType
  | byte, short | short, byte => short
  | _, _ => int

/-- The reference that an element descriptor stands for, if it is one. -/
def elementReference? : List Char → Option (List Char)
  | '[' :: rest => some ('[' :: rest)
  | 'L' :: rest => if rest.getLast? = some ';' then some rest.dropLast else none
  | _ => none

theorem elementReference?_length {s t : List Char} (h : elementReference? s = some t) :
    t.length ≤ s.length := by
  unfold elementReference? at h
  split at h
  · obtain rfl := Option.some.inj h
    exact Nat.le_refl _
  · split at h
    · obtain rfl := Option.some.inj h
      simp only [List.length_dropLast, List.length_cons]
      omega
    · simp at h
  · simp at h

/-- The join of two references.  Arrays of references join element-wise, other
    arrays only with themselves. -/
def joinReferences (r : Registry) (a b : List Char) : List Char :=
  match a, b with
  | '[' :: a', '[' :: b' =>
    match _ha : elementReference? a', elementReference? b' with
    | some a', some b' =>
      match joinReferences r a' b' with
      | '[' :: joined => '[' :: '[' :: joined
      | joined => '[' :: 'L' :: joined ++ [';']
    | _, _ => objectClass.toList
  | '[' :: _, _ | _, '[' :: _ => objectClass.toList
  | _, _ => (r.commonSuperclass (String.ofList a) (String.ofList b)).toList
  termination_by a.length
  decreasing_by
  · have := elementReference?_length _ha
    simp only [List.length_cons]
    omega

/-- The type of a slot where values of two types meet. -/
def join (r : Registry) (s t : ValueType) : ValueType :=
  if s = t then s
  else
    match s, t with
    | top, _ | _, top => top
    | null, ref n | ref n, null => ref n
    | ref a, ref b => ref (String.ofList (joinReferences r a.toList b.toList))
    | _, _ => if s.isIntLike && t.isIntLike then joinIntLike s t else top

end ValueType

end ConstRestore
