/-
  Folding of constant expressions.

  `Expr.evaluate` computes the value that a compiler would have put in the
  place of the expression: operands are promoted, integral arithmetic wraps,
  shift distances are masked, and `+` with a string operand concatenates.
  `fieldConstant` finds the constant that a reference names and checks the
  reference against it.
-/
import ConstRestore.Expr
import ConstRestore.Registry.Search
import ConstRestore.Ieee.Arithmetic

namespace ConstRestore

/-- How a field reference disagrees with the constant it names. -/
inductive Mismatch where
  | dataType (declared found : DataType)
  /-- The constant is static and the reference is not, or the other way round. -/
  | staticness (isStatic : Bool)
  deriving DecidableEq

def Mismatch.message : Mismatch → String
  | dataType declared found => "declared " ++ declared.name ++ ", found " ++ found.name
  | staticness true => "referenced as instance field, declared static"
  | staticness false => "referenced as static field, declared as instance field"

/-- Why an expression has no value. -/
inductive EvalError where
  | notResolvable (owner name : String)
  | mismatch (owner name : String) (cause : Mismatch)
  | divisionByZero
  | invalidUnary (op : UnaryOp) (operand : Value)
  | invalidBinary (op : BinaryOp) (left right : Value)
  | invalidCast (value : Value) (target : DataType)
  /-- A reference to all constants of a class denotes no single one. -/
  | wildcard (owner : String)
  deriving DecidableEq

def EvalError.message : EvalError → String
  | notResolvable owner name => "Constant " ++ owner ++ "." ++ name ++ " is not resolvable"
  | mismatch owner name cause =>
    "Constant " ++ owner ++ "." ++ name ++ " does not match its declaration - " ++ cause.message
  | divisionByZero => "Division by zero in constant expression"
  | invalidUnary op v => "Invalid operation - " ++ op.symbol ++ v.text
  | invalidBinary op l r =>
    "Invalid operation - " ++ l.text ++ " " ++ op.symbol ++ " " ++ r.text
  | invalidCast v t => "Invalid operation - cannot cast " ++ v.text ++ " to " ++ t.name
  | wildcard owner =>
    "Wildcard field reference on " ++ owner ++ " must be expanded before use"

/-! ## Operators on values -/

/-- The value of a unary operator, if it is defined for the promoted operand. -/
def UnaryOp.value? (op : UnaryOp) (v : Value) : Option Value := do
  match op, ← v.cast v.dataType.promote with
  | .negate, .int i => some (.int (-i))
  | .negate, .long i => some (.long (-i))
  | .negate, .float x => some (.float x.neg)
  | .negate, .double x => some (.double x.neg)
  | .complement, .int i => some (.int (~~~i))
  | .complement, .long i => some (.long (~~~i))
  | _, _ => none

/-- Shifts of an int by the low five bits of the distance. -/
def shiftInt (op : BinaryOp) (v : Int32) (distance : Int64) : Int32 :=
  let d := (distance &&& 31).toInt32
  match op with
  | .shl => v <<< d
  | .shr => v >>> d
  | _ => (v.toUInt32 >>> d.toUInt32).toInt32

/-- Shifts of a long by the low six bits of the distance. -/
def shiftLong (op : BinaryOp) (v distance : Int64) : Int64 :=
  let d := distance &&& 63
  match op with
  | .shl => v <<< d
  | .shr => v >>> d
  | _ => (v.toUInt64 >>> d.toUInt64).toInt64

/-- The value of a shift: only the left operand is promoted. -/
def shift? (op : BinaryOp) (l r : Value) : Option Value := do
  let distance ← r.toInt64?
  match ← l.cast l.dataType.promote with
  | .int v => some (.int (shiftInt op v distance))
  | .long v => some (.long (shiftLong op v distance))
  | _ => none

/-- `&`, `|` and `^` on longs. -/
def bitwise (op : BinaryOp) (a b : Int64) : Int64 :=
  match op with
  | .and => a &&& b
  | .or => a ||| b
  | _ => a ^^^ b

/-- Arithmetic on ints; the quotient is truncated. -/
def arithInt (op : BinaryOp) (a b : Int32) : Except EvalError Int32 :=
  match op with
  | .add => .ok (a + b)
  | .sub => .ok (a - b)
  | .mul => .ok (a * b)
  | .div => if b = 0 then .error .divisionByZero else .ok (a / b)
  | .rem => if b = 0 then .error .divisionByZero else .ok (a % b)
  | _ => .error (.invalidBinary op (.int a) (.int b))

/-- Arithmetic on longs. -/
def arithLong (op : BinaryOp) (a b : Int64) : Except EvalError Int64 :=
  match op with
  | .add => .ok (a + b)
  | .sub => .ok (a - b)
  | .mul => .ok (a * b)
  | .div => if b = 0 then .error .divisionByZero else .ok (a / b)
  | .rem => if b = 0 then .error .divisionByZero else .ok (a % b)
  | _ => .error (.invalidBinary op (.long a) (.long b))

/-- Arithmetic on floating point numbers. -/
def arithNumber? {f : Ieee.Format} (op : BinaryOp) (a b : Ieee.Number f) : Option (Ieee.Number f) :=
  match op with
  | .add => some (a.add b)
  | .sub => some (a.sub b)
  | .mul => some (a.mul b)
  | .div => some (a.div b)
  | .rem => some (a.remainder b)
  | _ => none

/-- The value of a binary operator. -/
def BinaryOp.apply (op : BinaryOp) (l r : Value) : Except EvalError Value :=
  let invalid : EvalError := .invalidBinary op l r
  if op = .add ∧ (l.dataType = .string ∨ r.dataType = .string) then
    .ok (.string (l.concatText ++ r.concatText))
  else if op.isShift then
    (shift? op l r).elim (.error invalid) .ok
  else
    match DataType.promoteBinary l.dataType r.dataType with
    | none => .error invalid
    | some t =>
      match l.cast t, r.cast t with
      | some a, some b =>
        if op.isBitwise then
          match a.toInt64?, b.toInt64? with
          | some i, some j =>
            (Value.ofBits? (bitwise op i j).toUInt64 t).elim (.error invalid) .ok
          | _, _ => .error invalid
        else
          match a, b with
          | .int i, .int j => (arithInt op i j).map .int
          | .long i, .long j => (arithLong op i j).map .long
          | .float x, .float y => ((arithNumber? op x y).map .float).elim (.error invalid) .ok
          | .double x, .double y => ((arithNumber? op x y).map .double).elim (.error invalid) .ok
          | _, _ => .error invalid
      | _, _ => .error invalid

/-! ## Expressions -/

/-- The constant that a reference names, checked against what the reference
    states of it. -/
def Registry.fieldConstant (r : Registry) (f : FieldRef) : Except EvalError Constant :=
  match f.name with
  | none => .error (.wildcard f.owner)
  | some name =>
    match r.findConstant? f.owner name with
    | none => .error (.notResolvable f.owner name)
    | some c =>
      if f.declaredType.any (· ≠ c.dataType) then
        .error (.mismatch f.owner name (.dataType (f.declaredType.getD c.dataType) c.dataType))
      else if f.isStatic ≠ c.isStatic then
        .error (.mismatch f.owner name (.staticness c.isStatic))
      else .ok c

/-- The value of an expression. -/
def Expr.evaluate (r : Registry) : Expr → Except EvalError Value
  | literal l => .ok l.value
  | field f => (r.fieldConstant f).map (·.value)
  | cast target e => do
    let v ← e.evaluate r
    (v.cast target).elim (.error (.invalidCast v target)) .ok
  | unary op e => do
    let v ← e.evaluate r
    (op.value? v).elim (.error (.invalidUnary op v)) .ok
  | binary op l r' => do
    let a ← l.evaluate r
    let b ← r'.evaluate r
    op.apply a b

/-- The references whose constants evaluation asks for, in order; it stops at
    the first operand without a value. -/
def Expr.consulted (r : Registry) : Expr → List FieldRef
  | literal _ => []
  | field f => [f]
  | cast _ e | unary _ e => e.consulted r
  | binary _ l r' =>
    l.consulted r ++ if (l.evaluate r).isOk then r'.consulted r else []

end ConstRestore
