/-
  Instruction opcodes.

  Families of instructions that differ only in the kind of their operands, in
  an operator or in a condition are one constructor.  `code` is the opcode
  byte and `mnemonic` its name in listings; `ofCode?` reads a byte.  The short
  forms of the local variable instructions and the wide form of `ldc` are not
  told apart from the forms they abbreviate.
-/
import ConstRestore.DataType

namespace ConstRestore

/-- Operand kinds of arithmetic. -/
inductive NumKind where
  | int | long | float | double
  deriving DecidableEq

/-- Operand kinds of local variable instructions and returns. -/
inductive VarKind where
  | int | long | float | double | ref
  deriving DecidableEq

/-- Element kinds of array instructions; `byte` also serves booleans. -/
inductive ElemKind where
  | int | long | float | double | ref | byte | char | short
  deriving DecidableEq

inductive ArithOp where
  | add | sub | mul | div | rem
  deriving DecidableEq

/-- Operators defined for ints and longs only. -/
inductive BitOp where
  | shl | shr | ushr | and | or | xor
  deriving DecidableEq

/-- Conversions that leave an int of a narrower type. -/
inductive Narrow where
  | byte | char | short
  deriving DecidableEq

/-- Conditions on one int, or on the order of two. -/
inductive Cond where
  | eq | ne | lt | ge | gt | le
  deriving DecidableEq

inductive Opcode where
  | nop
  | aconstNull
  /-- Pushes an int from -1 (at 0) to 5. -/
  | iconst (n : Fin 7)
  | lconst (n : Fin 2)
  | fconst (n : Fin 3)
  | dconst (n : Fin 2)
  | bipush | sipush | ldc
  | load (k : VarKind)
  | arrayLoad (k : ElemKind)
  | store (k : VarKind)
  | arrayStore (k : ElemKind)
  | pop | pop2 | dup | dupX1 | dupX2 | dup2 | dup2X1 | dup2X2 | swap
  | arith (op : ArithOp) (k : NumKind)
  | neg (k : NumKind)
  /-- On longs if `isLong`. -/
  | bit (op : BitOp) (isLong : Bool)
  | iinc
  /-- Between two different kinds. -/
  | convert (source target : NumKind)
  | narrow (n : Narrow)
  | lcmp
  /-- Comparison of floats or, if `isDouble`, doubles; a NaN counts as greater
      if `greater`. -/
  | fcmp (isDouble greater : Bool)
  | ifInt (c : Cond)
  | ifIcmp (c : Cond)
  | ifAcmp (equal : Bool)
  | goto | jsr | ret | tableswitch | lookupswitch
  | return_ (k : Option VarKind)
  | getstatic | putstatic | getfield | putfield
  | invokevirtual | invokespecial | invokestatic | invokeinterface | invokedynamic
  | new | newarray | anewarray | arraylength | athrow | checkcast | instanceof
  | monitorenter | monitorexit | multianewarray
  | ifnull | ifnonnull
  deriving DecidableEq

/-! ## Codes and mnemonics -/

namespace NumKind

def all : List NumKind := [int, long, float, double]

def letter : NumKind → String
  | int => "i"
  | long => "l"
  | float => "f"
  | double => "d"

def offset : NumKind → Nat
  | int => 0
  | long => 1
  | float => 2
  | double => 3

end NumKind

namespace VarKind

def all : List VarKind := [int, long, float, double, ref]

def letter : VarKind → String
  | int => "i"
  | long => "l"
  | float => "f"
  | double => "d"
  | ref => "a"

def offset : VarKind → Nat
  | int => 0
  | long => 1
  | float => 2
  | double => 3
  | ref => 4

end VarKind

namespace ElemKind

def all : List ElemKind := [int, long, float, double, ref, byte, char, short]

def letter : ElemKind → String
  | int => "i"
  | long => "l"
  | float => "f"
  | double => "d"
  | ref => "a"
  | byte => "b"
  | char => "c"
  | short => "s"

def offset : ElemKind → Nat
  | int => 0
  | long => 1
  | float => 2
  | double => 3
  | ref => 4
  | byte => 5
  | char => 6
  | short => 7

/-- The type of constants that such an array can hold. -/
def dataType? : ElemKind → Option DataType
  | int => some .int
  | long => some .long
  | float => some .float
  | double => some .double
  | ref => none
  | byte => some .byte
  | char => some .char
  | short => some .short

end ElemKind

namespace ArithOp

def all : List ArithOp := [add, sub, mul, div, rem]

def name : ArithOp → String
  | add => "add"
  | sub => "sub"
  | mul => "mul"
  | div => "div"
  | rem => "rem"

def offset : ArithOp → Nat
  | add => 0
  | sub => 1
  | mul => 2
  | div => 3
  | rem => 4

end ArithOp

namespace BitOp

def all : List BitOp := [shl, shr, ushr, and, or, xor]

def name : BitOp → String
  | shl => "shl"
  | shr => "shr"
  | ushr => "ushr"
  | and => "and"
  | or => "or"
  | xor => "xor"

def offset : BitOp → Nat
  | shl => 0
  | shr => 1
  | ushr => 2
  | and => 3
  | or => 4
  | xor => 5

def isShift : BitOp → Bool
  | shl | shr | ushr => true
  | and | or | xor => false

end BitOp

namespace Narrow

def all : List Narrow := [byte, char, short]

def letter : Narrow → String
  | byte => "b"
  | char => "c"
  | short => "s"

def offset : Narrow → Nat
  | byte => 0
  | char => 1
  | short => 2

end Narrow

namespace Cond

def all : List Cond := [eq, ne, lt, ge, gt, le]

def name : Cond → String
  | eq => "eq"
  | ne => "ne"
  | lt => "lt"
  | ge => "ge"
  | gt => "gt"
  | le => "le"

def offset : Cond → Nat
  | eq => 0
  | ne => 1
  | lt => 2
  | ge => 3
  | gt => 4
  | le => 5

end Cond

namespace Opcode

/-- Position of a conversion among the conversions from its source. -/
def convertOffset (source target : NumKind) : Nat :=
  target.offset - if source.offset < target.offset then 1 else 0

/-- The opcode byte. -/
def code : Opcode → Nat
  | nop => 0x00
  | aconstNull => 0x01
  | iconst n => 0x02 + n
  | lconst n => 0x09 + n
  | fconst n => 0x0b + n
  | dconst n => 0x0e + n
  | bipush => 0x10
  | sipush => 0x11
  | ldc => 0x12
  | load k => 0x15 + k.offset
  | arrayLoad k => 0x2e + k.offset
  | store k => 0x36 + k.offset
  | arrayStore k => 0x4f + k.offset
  | pop => 0x57
  | pop2 => 0x58
  | dup => 0x59
  | dupX1 => 0x5a
  | dupX2 => 0x5b
  | dup2 => 0x5c
  | dup2X1 => 0x5d
  | dup2X2 => 0x5e
  | swap => 0x5f
  | arith op k => 0x60 + 4 * op.offset + k.offset
  | neg k => 0x74 + k.offset
  | bit op isLong => 0x78 + 2 * op.offset + isLong.toNat
  | iinc => 0x84
  | convert s t => 0x85 + 3 * s.offset + convertOffset s t
  | narrow n => 0x91 + n.offset
  | lcmp => 0x94
  | fcmp isDouble greater => 0x95 + 2 * isDouble.toNat + greater.toNat
  | ifInt c => 0x99 + c.offset
  | ifIcmp c => 0x9f + c.offset
  | ifAcmp equal => 0xa5 + (!equal).toNat
  | goto => 0xa7
  | jsr => 0xa8
  | ret => 0xa9
  | tableswitch => 0xaa
  | lookupswitch => 0xab
  | return_ (some k) => 0xac + k.offset
  | return_ none => 0xb1
  | getstatic => 0xb2
  | putstatic => 0xb3
  | getfield => 0xb4
  | putfield => 0xb5
  | invokevirtual => 0xb6
  | invokespecial => 0xb7
  | invokestatic => 0xb8
  | invokeinterface => 0xb9
  | invokedynamic => 0xba
  | new => 0xbb
  | newarray => 0xbc
  | anewarray => 0xbd
  | arraylength => 0xbe
  | athrow => 0xbf
  | checkcast => 0xc0
  | instanceof => 0xc1
  | monitorenter => 0xc2
  | monitorexit => 0xc3
  | multianewarray => 0xc5
  | ifnull => 0xc6
  | ifnonnull => 0xc7

/-- The name in listings. -/
def mnemonic : Opcode → String
  | nop => "nop"
  | aconstNull => "aconst_null"
  | iconst n => "iconst_" ++ if n = 0 then "m1" else toString (n.val - 1)
  | lconst n => "lconst_" ++ toString n.val
  | fconst n => "fconst_" ++ toString n.val
  | dconst n => "dconst_" ++ toString n.val
  | bipush => "bipush"
  | sipush => "sipush"
  | ldc => "ldc"
  | load k => k.letter ++ "load"
  | arrayLoad k => k.letter ++ "aload"
  | store k => k.letter ++ "store"
  | arrayStore k => k.letter ++ "astore"
  | pop => "pop"
  | pop2 => "pop2"
  | dup => "dup"
  | dupX1 => "dup_x1"
  | dupX2 => "dup_x2"
  | dup2 => "dup2"
  | dup2X1 => "dup2_x1"
  | dup2X2 => "dup2_x2"
  | swap => "swap"
  | arith op k => k.letter ++ op.name
  | neg k => k.letter ++ "neg"
  | bit op isLong => (if isLong then "l" else "i") ++ op.name
  | iinc => "iinc"
  | convert s t => s.letter ++ "2" ++ t.letter
  | narrow n => "i2" ++ n.letter
  | lcmp => "lcmp"
  | fcmp isDouble greater => (if isDouble then "dcmp" else "fcmp") ++ if greater then "g" else "l"
  | ifInt c => "if" ++ c.name
  | ifIcmp c => "if_icmp" ++ c.name
  | ifAcmp equal => "if_acmp" ++ if equal then "eq" else "ne"
  | goto => "goto"
  | jsr => "jsr"
  | ret => "ret"
  | tableswitch => "tableswitch"
  | lookupswitch => "lookupswitch"
  | return_ (some k) => k.letter ++ "return"
  | return_ none => "return"
  | getstatic => "getstatic"
  | putstatic => "putstatic"
  | getfield => "getfield"
  | putfield => "putfield"
  | invokevirtual => "invokevirtual"
  | invokespecial => "invokespecial"
  | invokestatic => "invokestatic"
  | invokeinterface => "invokeinterface"
  | invokedynamic => "invokedynamic"
  | new => "new"
  | newarray => "newarray"
  | anewarray => "anewarray"
  | arraylength => "arraylength"
  | athrow => "athrow"
  | checkcast => "checkcast"
  | instanceof => "instanceof"
  | monitorenter => "monitorenter"
  | monitorexit => "monitorexit"
  | multianewarray => "multianewarray"
  | ifnull => "ifnull"
  | ifnonnull => "ifnonnull"

/-- The conversions between two different kinds. -/
def conversions : List Opcode :=
  NumKind.all.flatMap fun s => (NumKind.all.filter (· ≠ s)).map (convert s)

/-- Every opcode, by ascending code. -/
def all : List Opcode :=
  [nop, aconstNull] ++ (List.finRange 7).map iconst ++ (List.finRange 2).map lconst ++
    (List.finRange 3).map fconst ++ (List.finRange 2).map dconst ++ [bipush, sipush, ldc] ++
    VarKind.all.map load ++ ElemKind.all.map arrayLoad ++ VarKind.all.map store ++
    ElemKind.all.map arrayStore ++
    [pop, pop2, dup, dupX1, dupX2, dup2, dup2X1, dup2X2, swap] ++
    (ArithOp.all.flatMap fun op => NumKind.all.map (arith op)) ++ NumKind.all.map neg ++
    (BitOp.all.flatMap fun op => [bit op false, bit op true]) ++ [iinc] ++ conversions ++
    Narrow.all.map narrow ++ [lcmp] ++
    [fcmp false false, fcmp false true, fcmp true false, fcmp true true] ++
    Cond.all.map ifInt ++ Cond.all.map ifIcmp ++ [ifAcmp true, ifAcmp false] ++
    [goto, jsr, ret, tableswitch, lookupswitch] ++
    VarKind.all.map (fun k => return_ (some k)) ++ [return_ none] ++
    [getstatic, putstatic, getfield, putfield, invokevirtual, invokespecial, invokestatic,
      invokeinterface, invokedynamic, new, newarray, anewarray, arraylength, athrow, checkcast,
      instanceof, monitorenter, monitorexit, multianewarray, ifnull, ifnonnull]

/-- The opcode with a given byte. -/
def ofCode? (code : Nat) : Option Opcode := all.find? (·.code == code)

/-- The opcode with a given mnemonic. -/
def ofMnemonic? (name : String) : Option Opcode := all.find? (·.mnemonic == name)

/-! ## Classes of opcodes -/

def isReturn : Opcode → Bool
  | return_ _ => true
  | _ => false

def isInvoke : Opcode → Bool
  | invokevirtual | invokespecial | invokestatic | invokeinterface | invokedynamic => true
  | _ => false

def isConditionalBranch : Opcode → Bool
  | ifInt _ | ifIcmp _ | ifAcmp _ | ifnull | ifnonnull => true
  | _ => false

/-- Whether execution never continues with the next instruction. -/
def endsBlock : Opcode → Bool
  | return_ _ | goto | athrow | ret | tableswitch | lookupswitch => true
  | _ => false

/-- The type of the constants that an array store takes. -/
def arrayStoreType? : Opcode → Option DataType
  | arrayStore k => k.dataType?
  | _ => none

end Opcode

end ConstRestore
