/-
  Instructions for conversions and operators.

  `convert` leaves a value of one data type as another, by at most one change
  of the stack kind and one narrowing; `convertValue` leaves out the narrowing
  when the value is known to fit.  `binaryOpcode` and `negateOpcode` choose the
  opcode of an operator by the stack kind of its operands.
-/
import ConstRestore.Expr.Evaluate
import ConstRestore.Bytecode.Instr

namespace ConstRestore

/-- Why no code can be made for an expression. -/
inductive CodeError where
  /-- A reference has no constant. -/
  | eval (e : EvalError)
  | receiverOnStack (e : Expr)
  | undefinedOn (symbol : String) (operand : DataType)
  | undefinedFor (op : BinaryOp) (left right : DataType)
  | noConversion (source target : DataType)
  | cannotNegate (operand : DataType)
  | staticContext (fieldOwner owner : String)
  | noReceiver (fieldOwner owner : String)

def CodeError.message : CodeError → String
  | eval e => e.message
  | receiverOnStack e =>
    "Generation failed - Receiver on stack but " ++ e.text ++ " is no instance constant"
  | undefinedOn op t => "Generation failed - Operator " ++ op ++ " is not defined for " ++ t.name
  | undefinedFor op l r =>
    "Generation failed - Operator " ++ op.symbol ++ " is not defined for " ++ l.name ++ " and " ++ r.name
  | noConversion s t => "Generation failed - No conversion from " ++ s.name ++ " to " ++ t.name
  | cannotNegate t => "Generation failed - Cannot negate " ++ t.name
  | staticContext f o =>
    "Generation failed - Instance constant of " ++ f ++ " used in a static context of " ++ o
  | noReceiver f o => "Generation failed - No instance of " ++ f ++ " reachable from " ++ o

/-- The arithmetic kind of a stack kind. -/
def StackKind.numKind? : StackKind → Option NumKind
  | int => some .int
  | long => some .long
  | float => some .float
  | double => some .double
  | reference => none

/-! ## Conversions -/

/-- The change of the stack kind, if there is one. -/
def kindConversion (source target : DataType) : List Instr :=
  match source.stackKind.numKind?, target.stackKind.numKind? with
  | some s, some t => if s = t then [] else [.simple (.convert s t)]
  | _, _ => []

/-- The narrowing of an int to a type that need not hold it. -/
def narrowing (source target : DataType) : List Instr :=
  if source.widensTo target then []
  else
    match target with
    | .byte => [.simple (.narrow .byte)]
    | .short => [.simple (.narrow .short)]
    | .char => [.simple (.narrow .char)]
    | _ => []

/-- Instructions that turn a value of one type on the stack into another. -/
def convert (source target : DataType) : Except CodeError (List Instr) :=
  if source = target then .ok []
  else if !source.isPrimitive || !target.isPrimitive then .error (.noConversion source target)
  else .ok (kindConversion source target ++ narrowing source target)

/-- Like `convert`, but nothing is needed between int-like types when the value
    is known and fits. -/
def convertValue (source target : DataType) (value : Option Value) :
    Except CodeError (List Instr) :=
  if source.stackKind = .int ∧ target.stackKind = .int ∧
      value.any (fun v => (v.convertExact target).isSome) then .ok []
  else convert source target

/-! ## Operators -/

def BinaryOp.arith? : BinaryOp → Option ArithOp
  | add => some .add
  | sub => some .sub
  | mul => some .mul
  | div => some .div
  | rem => some .rem
  | _ => none

def BinaryOp.bit? : BinaryOp → Option BitOp
  | and => some .and
  | or => some .or
  | xor => some .xor
  | shl => some .shl
  | shr => some .shr
  | ushr => some .ushr
  | _ => none

/-- The opcode of an operator on operands of a promoted type. -/
def binaryOpcode (op : BinaryOp) (operand : DataType) : Except CodeError Opcode :=
  match operand.stackKind.numKind?, op.arith?, op.bit? with
  | some k, some a, _ => .ok (.arith a k)
  | some .int, _, some b => .ok (.bit b false)
  | some .long, _, some b => .ok (.bit b true)
  | _, _, _ => .error (.undefinedOn op.symbol operand)

/-- The opcode of negation on an operand of a promoted type. -/
def negateOpcode (operand : DataType) : Except CodeError Opcode :=
  match operand.stackKind.numKind? with
  | some k => .ok (.neg k)
  | none => .error (.cannotNegate operand)

end ConstRestore
