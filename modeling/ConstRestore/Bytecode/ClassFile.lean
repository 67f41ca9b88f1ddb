/-
  Classes, fields and methods.

  Flag words keep all their bits.  A registry can be filled from classes:
  a class contributes its place in the hierarchy, the field that holds its
  enclosing instance, and its constant fields.
-/
import ConstRestore.Bytecode.Descriptor
import ConstRestore.Bytecode.Instr
import ConstRestore.Registry.Tables

namespace ConstRestore

/-- A word of access flags. -/
abbrev Access := UInt16

namespace Access

def static : Access := 0x0008
def final : Access := 0x0010
def interface : Access := 0x0200
def synthetic : Access := 0x1000

/-- Whether every bit of a flag is set. -/
def has (a flag : Access) : Bool := a &&& flag == flag

end Access

/-- The first class file version with call sites for string concatenation. -/
def firstDynamicConcat : Nat := 53

structure Field where
  access : Access
  name : String
  descriptor : String
  /-- The constant initial value. -/
  value : Option Value
  deriving DecidableEq

/-- An exception handler for the code from `start` to before `stop`. -/
structure TryBlock where
  start : Label
  stop : Label
  handler : Label
  /-- The caught class, if not everything is caught. -/
  catchType : Option String
  deriving DecidableEq

structure Method where
  access : Access
  name : String
  descriptor : String
  code : List Instr
  tryBlocks : List TryBlock
  maxLocals : Nat
  maxStack : Nat
  deriving DecidableEq

namespace Method

def isStatic (m : Method) : Bool := m.access.has Access.static

def hasCode (m : Method) : Bool := !m.code.isEmpty

/-- The index of every label; a label placed twice has its last one. -/
def labelPositions (m : Method) : Table Label Nat :=
  (m.code.zipIdx).foldl (fun t (i, index) =>
    match i with
    | .label l => t.set l index
    | _ => t) ∅

end Method

structure ClassFile where
  majorVersion : Nat
  access : Access
  name : String
  superclass : Option String
  interfaces : List String
  fields : List Field
  methods : List Method
  deriving DecidableEq

namespace ClassFile

def package (c : ClassFile) : String := packageOf c.name

def method? (c : ClassFile) (name descriptor : String) : Option Method :=
  c.methods.find? fun m => m.name == name && m.descriptor == descriptor

/-- The first field that the compiler added to hold the enclosing instance. -/
def outerLink? (c : ClassFile) : Option OuterLink :=
  c.fields.findSome? fun f =>
    if f.name.startsWith "this$" && f.access.has Access.synthetic && !f.access.has Access.static then
      match f.descriptor.toList with
      | 'L' :: rest =>
        if rest.getLast? = some ';' then some ⟨f.name, String.ofList rest.dropLast⟩ else none
      | _ => none
    else none

def info (c : ClassFile) : ClassInfo :=
  ⟨c.name, c.superclass, c.interfaces, c.access.has Access.interface, c.outerLink?⟩

end ClassFile

/-- The constant that a field declares: the field is final and its initial
    value converts to the type of its descriptor. -/
def Field.constant? (f : Field) : Option Constant := do
  let value ← f.value
  let type ← DataType.ofDescriptor? f.descriptor
  let value ← value.cast type
  if f.access.has Access.final then
    some ⟨type, value, f.access.has Access.static⟩
  else none

namespace ClassRegistry

/-- Adds a class with its constants. -/
def addClass (t : ClassRegistry) (c : ClassFile) : ClassRegistry :=
  let t := t.addInfo c.info
  { t with
    constants := t.constants.update c.name ∅ fun cs =>
      c.fields.foldl (fun cs f => f.constant?.elim cs (cs.set f.name ·)) cs }

def ofClasses (cs : List ClassFile) : ClassRegistry := cs.foldl addClass empty

end ClassRegistry

end ConstRestore
