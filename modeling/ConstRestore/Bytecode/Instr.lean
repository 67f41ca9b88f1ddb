/-
  Instructions of a method body.

  The code of a method is a list of instructions in which branch targets are
  label pseudo-instructions.  `literal?` recognises the instructions that push
  a constant, and `push` chooses the shortest one that pushes a given value.
-/
import ConstRestore.Bytecode.Opcode
import ConstRestore.Value.Text

namespace ConstRestore

open Ieee (Number single)

/-- A branch target, by its number. -/
abbrev Label := Nat

def labelText (l : Label) : String := "L" ++ toString l

/-- What a method handle does. -/
inductive HandleKind where
  | getField | getStatic | putField | putStatic
  | invokeVirtual | invokeStatic | invokeSpecial | newInvokeSpecial | invokeInterface
  deriving DecidableEq

namespace HandleKind

def all : List HandleKind :=
  [getField, getStatic, putField, putStatic, invokeVirtual, invokeStatic, invokeSpecial,
    newInvokeSpecial, invokeInterface]

/-- The number of the kind in a class file. -/
def code : HandleKind → Nat
  | getField => 1
  | getStatic => 2
  | putField => 3
  | putStatic => 4
  | invokeVirtual => 5
  | invokeStatic => 6
  | invokeSpecial => 7
  | newInvokeSpecial => 8
  | invokeInterface => 9

def ofCode? (code : Nat) : Option HandleKind := all.find? (·.code == code)

def name : HandleKind → String
  | getField => "GetField"
  | getStatic => "GetStatic"
  | putField => "PutField"
  | putStatic => "PutStatic"
  | invokeVirtual => "InvokeVirtual"
  | invokeStatic => "InvokeStatic"
  | invokeSpecial => "InvokeSpecial"
  | newInvokeSpecial => "NewInvokeSpecial"
  | invokeInterface => "InvokeInterface"

/-- Whether the receiver is the first argument of the invoked handle. -/
def hasReceiver : HandleKind → Bool
  | invokeVirtual | invokeInterface | invokeSpecial => true
  | _ => false

end HandleKind

/-- A field by owner, name and descriptor. -/
structure FieldSite where
  owner : String
  name : String
  descriptor : String
  deriving DecidableEq

/-- A method by owner, name and descriptor. -/
structure MethodSite where
  owner : String
  name : String
  descriptor : String
  /-- Whether the owner is an interface. -/
  isInterface : Bool
  deriving DecidableEq

structure Handle where
  kind : HandleKind
  owner : String
  name : String
  descriptor : String
  isInterface : Bool
  deriving DecidableEq

/-- A constant that can be loaded or passed to a bootstrap method. -/
inductive Loadable where
  | int (v : Int32)
  | float (v : Number single)
  | long (v : Int64)
  | double (v : Number Ieee.double)
  | string (s : String)
  | class_ (name : String)
  | methodType (descriptor : String)
  | handle (h : Handle)
  deriving DecidableEq

/-- A call site that a bootstrap method links. -/
structure DynamicSite where
  name : String
  descriptor : String
  bootstrap : Handle
  arguments : List Loadable
  deriving DecidableEq

inductive Instr where
  /-- Marks a branch target. -/
  | label (l : Label)
  | simple (op : Opcode)
  /-- An int operand: a constant to push or the code of an array type. -/
  | int (op : Opcode) (v : Int32)
  | ldc (c : Loadable)
  | var (op : Opcode) (slot : Nat)
  | iinc (slot : Nat) (increment : Int)
  | type (op : Opcode) (name : String)
  | field (op : Opcode) (site : FieldSite)
  | method (op : Opcode) (site : MethodSite)
  | dynamic (site : DynamicSite)
  | jump (op : Opcode) (target : Label)
  | tableSwitch (low high : Int32) (default : Label) (targets : List Label)
  | lookupSwitch (default : Label) (pairs : List (Int32 × Label))
  | multiNewArray (descriptor : String) (dims : Nat)
  /-- The source line of the code from a label on. -/
  | line (number : Nat) (start : Label)
  deriving DecidableEq

namespace Instr

/-- The opcode; labels and line numbers have none. -/
def opcode? : Instr → Option Opcode
  | label _ | line .. => none
  | simple op | int op _ | var op _ | type op _ | field op _ | method op _ | jump op _ => some op
  | ldc _ => some .ldc
  | iinc .. => some .iinc
  | dynamic _ => some .invokedynamic
  | tableSwitch .. => some .tableswitch
  | lookupSwitch .. => some .lookupswitch
  | multiNewArray .. => some .multianewarray

/-- Whether the instruction only marks a place. -/
def isPseudo (i : Instr) : Bool := i.opcode?.isNone

/-- The labels that execution may branch to, in the order of the operands. -/
def targets : Instr → List Label
  | jump _ l => [l]
  | tableSwitch _ _ d ls => d :: ls
  | lookupSwitch d ps => d :: ps.map (·.2)
  | _ => []

/-! ## Literals -/

/-- The value of a loadable constant of a type that a group can have. -/
def loadableValue? : Loadable → Option Value
  | .int v => some (.int v)
  | .float v => some (.float v)
  | .long v => some (.long v)
  | .double v => some (.double v)
  | .string s => some (.string s)
  | .class_ name => some (.class_ name)
  | .methodType _ | .handle _ => none

/-- The constant that the instruction pushes; `null`, method types and method
    handles are none. -/
def literal? : Instr → Option Value
  | simple (.iconst n) => some (.int (Int32.ofInt (n.val - 1)))
  | simple (.lconst n) => some (.long (Int64.ofNat n))
  | simple (.fconst n) => some (.float (Number.ofInt _ n.val))
  | simple (.dconst n) => some (.double (Number.ofInt _ n.val))
  | int .bipush v | int .sipush v => some (.int v)
  | ldc c => loadableValue? c
  | _ => none

/-- The shortest push of an int. -/
def pushInt (v : Int32) : Instr :=
  let i := v.toInt
  if h : -1 ≤ i ∧ i ≤ 5 then simple (.iconst ⟨(i + 1).toNat, by omega⟩)
  else if -128 ≤ i ∧ i ≤ 127 then int .bipush v
  else if -32768 ≤ i ∧ i ≤ 32767 then int .sipush v
  else ldc (.int v)

/-- The shortest push of a value; types narrower than `int` are pushed as the
    int they widen to. -/
def push : Value → Instr
  | .byte v => pushInt v.toInt32
  | .short v => pushInt v.toInt32
  | .char v => pushInt v.toUInt32.toInt32
  | .int v => pushInt v
  | .long v =>
    if v = 0 then simple (.lconst 0) else if v = 1 then simple (.lconst 1) else ldc (.long v)
  | .float v =>
    if v = Number.ofInt _ 0 then simple (.fconst 0)
    else if v = Number.ofInt _ 1 then simple (.fconst 1)
    else if v = Number.ofInt _ 2 then simple (.fconst 2)
    else ldc (.float v)
  | .double v =>
    if v = Number.ofInt _ 0 then simple (.dconst 0)
    else if v = Number.ofInt _ 1 then simple (.dconst 1)
    else ldc (.double v)
  | .string s => ldc (.string s)
  | .class_ name => ldc (.class_ name)

/-! ## Listings -/

def loadableText : Loadable → String
  | .int v => toString v.toInt
  | .float v => v.plainText ++ "F"
  | .long v => toString v.toInt ++ "L"
  | .double v => v.plainText ++ "D"
  | .string s => Text.quoted s
  | .class_ s | .methodType s => s
  | .handle h => h.kind.name ++ " " ++ h.owner ++ "." ++ h.name ++ h.descriptor

/-- The instruction as a line of a listing. -/
def text : Instr → String
  | label l => labelText l ++ ":"
  | line n l => "// line " ++ toString n ++ " at " ++ labelText l
  | simple op => op.mnemonic
  | int op v => op.mnemonic ++ " " ++ toString v.toInt
  | ldc c => "ldc " ++ loadableText c
  | var op slot => op.mnemonic ++ " " ++ toString slot
  | iinc slot n => "iinc " ++ toString slot ++ " " ++ toString n
  | type op name => op.mnemonic ++ " " ++ name
  | field op f => op.mnemonic ++ " " ++ f.owner ++ "." ++ f.name ++ " : " ++ f.descriptor
  | method op m => op.mnemonic ++ " " ++ m.owner ++ "." ++ m.name ++ m.descriptor
  | dynamic s => "invokedynamic " ++ s.name ++ s.descriptor
  | jump op l => op.mnemonic ++ " " ++ labelText l
  | tableSwitch low high d _ =>
    "tableswitch " ++ toString low.toInt ++ ".." ++ toString high.toInt ++ " default " ++ labelText d
  | lookupSwitch d ps =>
    "lookupswitch " ++ toString ps.length ++ " keys default " ++ labelText d
  | multiNewArray d n => "multianewarray " ++ d ++ " " ++ toString n

end Instr

end ConstRestore
