/-
  Constant expressions.

  An expression stands for a literal in the program text: a literal itself, a
  reference to a named constant, or operators over these.  `Expr.text` writes
  it with the parentheses that precedence and left associativity require.
-/
import ConstRestore.Value.Text

namespace ConstRestore

/-- The literals of source text. -/
inductive Literal where
  | int (v : Int32)
  | long (v : Int64)
  | float (v : Ieee.Number Ieee.single)
  | double (v : Ieee.Number Ieee.double)
  | char (v : UInt16)
  | string (s : String)
  | class_ (name : String)
  deriving DecidableEq

def Literal.value : Literal → Value
  | int v => .int v
  | long v => .long v
  | float v => .float v
  | double v => .double v
  | char v => .char v
  | string s => .string s
  | class_ name => .class_ name

def Literal.dataType (l : Literal) : DataType := l.value.dataType

/-- A reference to a constant field.  Without a name it is a wildcard for all
    constants of its owner. -/
structure FieldRef where
  /-- Internal name of the class the reference names. -/
  owner : String
  name : Option String
  /-- The type that the reference states for the field. -/
  declaredType : Option DataType
  isStatic : Bool
  deriving DecidableEq

inductive UnaryOp where
  | negate | complement
  deriving DecidableEq

inductive BinaryOp where
  | add | sub | mul | div | rem | and | or | xor | shl | shr | ushr
  deriving DecidableEq

inductive Expr where
  | literal (l : Literal)
  | field (f : FieldRef)
  | unary (op : UnaryOp) (e : Expr)
  | binary (op : BinaryOp) (l r : Expr)
  | cast (target : DataType) (e : Expr)
  deriving DecidableEq

def FieldRef.isWildcard (f : FieldRef) : Bool := f.name.isNone

/-! ## Operators -/

def UnaryOp.symbol : UnaryOp → String
  | negate => "-"
  | complement => "~"

namespace BinaryOp

def symbol : BinaryOp → String
  | add => "+"
  | sub => "-"
  | mul => "*"
  | div => "/"
  | rem => "%"
  | and => "&"
  | or => "|"
  | xor => "^"
  | shl => "<<"
  | shr => ">>"
  | ushr => ">>>"

/-- Whether the operator shifts its left operand, which alone decides the type. -/
def isShift : BinaryOp → Bool
  | shl | shr | ushr => true
  | _ => false

def isBitwise : BinaryOp → Bool
  | and | or | xor => true
  | _ => false

/-- The higher, the tighter the operator binds. -/
def precedence : BinaryOp → Nat
  | mul | div | rem => 10
  | add | sub => 9
  | shl | shr | ushr => 8
  | and => 7
  | xor => 6
  | or => 5

end BinaryOp

/-! ## Text -/

/-- Characters are shown themselves unless they are control characters. -/
def Literal.text : Literal → String
  | .char v =>
    match charOfUnit? v with
    | some c =>
      if c.toNat < 0x20 ∨ (0x7f ≤ c.toNat ∧ c.toNat < 0xa0) then Value.unitText v
      else "'" ++ String.singleton c ++ "'"
    | none => Value.unitText v
  | l => l.value.text

def FieldRef.text (f : FieldRef) : String :=
  dottedName f.owner ++ "." ++ f.name.getD "*"

/-- The precedence of unary operators and casts. -/
def prefixPrecedence : Nat := 12

def Expr.precedence : Expr → Nat
  | literal _ | field _ => 13
  | unary .. | cast .. => prefixPrecedence
  | binary op _ _ => op.precedence

/-- Text in parentheses unless it binds at least as tightly as required. -/
def parenthesized (required precedence : Nat) (text : String) : String :=
  if precedence < required then "(" ++ text ++ ")" else text

/-- The expression as source text.  Operators associate to the left, so only
    the right operand needs parentheses at equal precedence. -/
def Expr.text : Expr → String
  | literal l => l.text
  | field f => f.text
  | unary op e => op.symbol ++ parenthesized prefixPrecedence e.precedence e.text
  | cast target e =>
    "(" ++ target.name ++ ") " ++ parenthesized prefixPrecedence e.precedence e.text
  | binary op l r =>
    parenthesized op.precedence l.precedence l.text ++ " " ++ op.symbol ++ " " ++
      parenthesized (op.precedence + 1) r.precedence r.text

end ConstRestore
