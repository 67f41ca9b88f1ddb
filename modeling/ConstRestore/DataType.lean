/-
  The types a constant can have.

  * `DataType` lists them; `ofDescriptor?` and `descriptor` relate them to
    field descriptors, `stackKind` to what they occupy on the operand stack;
  * `widensTo` is identity or widening conversion, `compare?` the partial order
    it induces, `promote` and `promoteBinary` numeric promotion;
  * `TypeSet` is a set of data types.
-/
namespace ConstRestore

/-- The type of a constant. -/
inductive DataType where
  | byte | short | int | long | float | double | char | string | class_
  deriving DecidableEq, Inhabited

/-- What a value occupies on the operand stack. -/
inductive StackKind where
  | int | long | float | double | reference
  deriving DecidableEq

namespace DataType

/-- Every data type, in the order in which sets of them are listed. -/
def all : List DataType := [byte, short, int, long, float, double, char, string, class_]

/-- The name of the type in source text. -/
def name : DataType → String
  | byte => "byte"
  | short => "short"
  | int => "int"
  | long => "long"
  | float => "float"
  | double => "double"
  | char => "char"
  | string => "String"
  | class_ => "Class"

/-- The field descriptor of the type. -/
def descriptor : DataType → String
  | byte => "B"
  | short => "S"
  | int => "I"
  | long => "J"
  | float => "F"
  | double => "D"
  | char => "C"
  | string => "Ljava/lang/String;"
  | class_ => "Ljava/lang/Class;"

/-- The type with the given field descriptor; there is none for `Z`, arrays and
    other classes. -/
def ofDescriptor? (s : String) : Option DataType := all.find? (·.descriptor == s)

def stackKind : DataType → StackKind
  | byte | short | char | int => .int
  | long => .long
  | float => .float
  | double => .double
  | string | class_ => .reference

def isPrimitive : DataType → Bool
  | string | class_ => false
  | _ => true

/-- Bits of an integral type. -/
def width? : DataType → Option Nat
  | byte => some 8
  | short | char => some 16
  | int => some 32
  | long => some 64
  | _ => none

def isIntegral (t : DataType) : Bool := t.width?.isSome

/-- All bits of an integral type set. -/
def mask? (t : DataType) : Option UInt64 := t.width?.map fun w => UInt64.ofNat ((1 <<< w) - 1)

/-- Whether a value converts to `target` unchanged or by a widening conversion. -/
def widensTo (t target : DataType) : Bool :=
  t == target ||
    match t, target with
    | byte, .short | byte, .int | byte, .long | byte, .float | byte, .double
    | short, .int | short, .long | short, .float | short, .double
    | char, .int | char, .long | char, .float | char, .double
    | int, .long | int, .float | int, .double
    | long, .float | long, .double
    | float, .double => true
    | _, _ => false

/-- The partial order of widening. -/
def compare? (s t : DataType) : Option Ordering :=
  if s = t then some .eq
  else if s.widensTo t then some .lt
  else if t.widensTo s then some .gt
  else none

/-- Unary numeric promotion: types narrower than `int` become `int`. -/
def promote : DataType → DataType
  | byte | short | char => int
  | t => t

/-- Binary numeric promotion, for two primitive types. -/
def promoteBinary (s t : DataType) : Option DataType :=
  if !s.isPrimitive || !t.isPrimitive then none
  else
    let s := s.promote
    let t := t.promote
    if s = double ∨ t = double then some double
    else if s = float ∨ t = float then some float
    else if s = long ∨ t = long then some long
    else some int

/-- Position in `all`. -/
def index : DataType → Nat
  | byte => 0
  | short => 1
  | int => 2
  | long => 3
  | float => 4
  | double => 5
  | char => 6
  | string => 7
  | class_ => 8

end DataType

/-! ## Sets of types -/

/-- A set of data types, one bit for each. -/
structure TypeSet where
  bits : BitVec 9
  deriving DecidableEq

namespace TypeSet

def empty : TypeSet := ⟨0⟩

def single (t : DataType) : TypeSet := ⟨BitVec.twoPow 9 t.index⟩

def contains (s : TypeSet) (t : DataType) : Bool := s.bits.getLsbD t.index

def union (s t : TypeSet) : TypeSet := ⟨s.bits ||| t.bits⟩

def insert (s : TypeSet) (t : DataType) : TypeSet := s.union (single t)

def ofList (ts : List DataType) : TypeSet := ts.foldl insert empty

/-- The members in the order of `DataType.all`. -/
def toList (s : TypeSet) : List DataType := DataType.all.filter s.contains

def size (s : TypeSet) : Nat := s.toList.length

def isEmpty (s : TypeSet) : Bool := s == empty

theorem contains_union (s t : TypeSet) (d : DataType) :
    (s.union t).contains d = (s.contains d || t.contains d) := by
  simp [contains, union]

theorem contains_insert (s : TypeSet) (t d : DataType) :
    (s.insert t).contains d = (s.contains d || d == t) := by
  rw [insert, contains_union]
  congr 1
  cases t <;> cases d <;> rfl

end TypeSet

end ConstRestore
