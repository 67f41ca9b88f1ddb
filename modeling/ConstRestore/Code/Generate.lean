/-
  Code for constant expressions.

  * `Expr.typeOf` is the type that an expression has in source text.
  * `Expr.compile` gives the code of an expression for every type that its
    context may expect of a literal, and its operands when it is seen as a
    string concatenation.
  * `codeFor` is the whole: the code of an expression, converted to a target type.

  An instance constant needs an object that holds it: `this`, or an enclosing
  instance that is reached from `this` through the fields in which inner
  classes keep it.
-/
import ConstRestore.Code.Convert
import ConstRestore.Code.Concat
import ConstRestore.Bytecode.ClassFile

namespace ConstRestore

/-- Where generated code runs. -/
structure CodeContext where
  /-- Internal name of the class that holds the code. -/
  owner : String
  /-- Whether there is no `this`. -/
  isStatic : Bool
  majorVersion : Nat
  /-- Whether the object of a lone instance constant is on the stack already. -/
  receiverOnStack : Bool
  concat : ConcatStyle

/-! ## Types -/

/-- The type of an expression. -/
def Expr.typeOf (r : Registry) : Expr → Except CodeError DataType
  | literal l => .ok l.dataType
  | field f => ((r.fieldConstant f).mapError .eval).map (·.dataType)
  | cast target _ => .ok target
  | unary op e => do
    let t ← e.typeOf r
    if t.isPrimitive then .ok t.promote else .error (.undefinedOn op.symbol t)
  | binary op l r' => do
    let s ← l.typeOf r
    let t ← r'.typeOf r
    if op = .add ∧ (s = .string ∨ t = .string) then .ok .string
    else if op.isShift ∧ s.isPrimitive ∧ t.isPrimitive then .ok s.promote
    else (DataType.promoteBinary s t).elim (.error (.undefinedFor op s t)) .ok

/-! ## Fields -/

/-- A class and the classes of its enclosing instances, innermost first. -/
def Registry.outerChain (r : Registry) (owner : String) : List String :=
  r.preorder .outer owner

/-- Loads the enclosing instance of the object on the stack. -/
def Registry.outerLoad (r : Registry) (owner : String) : List Instr :=
  ((r.info? owner).bind (·.outer)).toList.map fun o =>
    .field .getfield ⟨owner, o.fieldName, o.descriptor⟩

/-- Pushes an object that has the fields of `fieldOwner`: the innermost one
    among `this` and its enclosing instances. -/
def receiver (r : Registry) (c : CodeContext) (fieldOwner : String) :
    Except CodeError (List Instr) :=
  if c.isStatic then .error (.staticContext fieldOwner c.owner)
  else
    let chain := r.outerChain c.owner
    if chain.any (r.isAssignable fieldOwner ·) then
      .ok (.var (.load .ref) 0 ::
        (chain.takeWhile fun o => !r.isAssignable fieldOwner o).flatMap r.outerLoad)
    else .error (.noReceiver fieldOwner c.owner)

/-- The load of a constant field and the type it leaves. -/
def fieldAccess (r : Registry) (f : FieldRef) : Except CodeError (Instr × DataType) := do
  let c ← (r.fieldConstant f).mapError .eval
  let op : Opcode := if f.isStatic then .getstatic else .getfield
  .ok (.field op ⟨f.owner, f.name.getD "", c.dataType.descriptor⟩, c.dataType)

/-! ## Expressions -/

/-- The code of an expression. -/
structure Compiled where
  /-- The code, and the type of the value that it leaves; a literal takes the
      expected type if that changes nothing. -/
  typed : Option DataType → Except CodeError (List Instr × DataType)
  /-- The operands of the concatenation that the expression is, or the
      expression as a single operand. -/
  parts : Except CodeError (List ConcatPart)

namespace Compiled

/-- The code followed by the conversion to a type. -/
def as (c : Compiled) (t : DataType) : Except CodeError (List Instr) := do
  let (code, actual) ← c.typed (some t)
  let conversion ← convert actual t
  .ok (code ++ conversion)

/-- An expression as one operand of a concatenation. -/
def part (literal? : Option String)
    (typed : Option DataType → Except CodeError (List Instr × DataType)) :
    Except CodeError ConcatPart := do
  let (code, type) ← typed none
  .ok ⟨literal?, code, type⟩

/-- An expression that is no concatenation. -/
def single (literal? : Option String)
    (typed : Option DataType → Except CodeError (List Instr × DataType)) : Compiled :=
  ⟨typed, (part literal? typed).map ([·])⟩

end Compiled

/-- The push of a literal, typed as expected if that is exact. -/
def compileLiteral (l : Literal) : Compiled :=
  .single (some l.value.concatText) fun expected =>
    let v := (expected.bind l.value.convertExact).getD l.value
    .ok ([.push v], v.dataType)

def compileField (r : Registry) (c : CodeContext) (f : FieldRef) : Compiled :=
  .single none fun _ => do
    let object ← if f.isStatic then .ok [] else receiver r c f.owner
    let (load, type) ← fieldAccess r f
    .ok (object ++ [load], type)

def compileCast (target : DataType) (operand : Compiled) : Compiled :=
  .single none fun _ => do
    let code ← operand.as target
    .ok (code, target)

/-- Complement is exclusive or with all ones. -/
def unaryCode (op : UnaryOp) (t : DataType) : Except CodeError (List Instr) :=
  match op with
  | .negate => (negateOpcode t).map fun op => [.simple op]
  | .complement =>
    match t with
    | .int => .ok [.push (.int (-1)), .simple (.bit .xor false)]
    | .long => .ok [.push (.long (-1)), .simple (.bit .xor true)]
    | _ => .error (.undefinedOn op.symbol t)

def compileUnary (op : UnaryOp) (type : Except CodeError DataType) (operand : Compiled) : Compiled :=
  .single none fun _ => do
    let t ← type
    let code ← operand.as t
    let operation ← unaryCode op t
    .ok (code ++ operation, t)

/-- The code of a concatenation in its context. -/
def concatCode (c : CodeContext) (parts : List ConcatPart) : List Instr :=
  let isDynamic :=
    match c.concat with
    | .auto => decide (firstDynamicConcat ≤ c.majorVersion)
    | .stringBuilder => false
    | .invokeDynamic => true
  if isDynamic then dynamicCode parts else builderCode parts

/-- Operands of a shift are the promoted left operand and an int distance. -/
def arithmeticCode (op : BinaryOp) (type : DataType) (l r : Compiled) :
    Except CodeError (List Instr) := do
  let left ← l.as type
  let right ← r.as (if op.isShift then .int else type)
  let opcode ← binaryOpcode op type
  .ok (left ++ right ++ [.simple opcode])

/-- An operator whose result is a string is a concatenation, which goes on in
    its left operand. -/
def compileBinary (c : CodeContext) (op : BinaryOp) (type : Except CodeError DataType)
    (rightLiteral : Option String) (l r : Compiled) : Compiled :=
  let parts : Except CodeError (List ConcatPart) := do
    let left ← l.parts
    let right ← Compiled.part rightLiteral r.typed
    .ok (left ++ [right])
  let typed (_ : Option DataType) : Except CodeError (List Instr × DataType) := do
    let t ← type
    if t = .string then (parts.map (concatCode c)).map (·, .string)
    else (arithmeticCode op t l r).map (·, t)
  match type with
  | .ok .string => ⟨typed, parts⟩
  | _ => .single none typed

/-- The text that a literal adds to a concatenation. -/
def Expr.literalText? : Expr → Option String
  | literal l => some l.value.concatText
  | _ => none

def Expr.compile (r : Registry) (c : CodeContext) : Expr → Compiled
  | literal l => compileLiteral l
  | field f => compileField r c f
  | cast target e => compileCast target (e.compile r c)
  | unary op e => compileUnary op ((unary op e).typeOf r) (e.compile r c)
  | binary op l r' =>
    compileBinary c op ((binary op l r').typeOf r) r'.literalText? (l.compile r c) (r'.compile r c)

/-- The load of a lone instance constant whose object is on the stack. -/
def loadOnReceiver (r : Registry) (e : Expr) : Except CodeError (List Instr × DataType) :=
  match e with
  | .field f =>
    if f.isStatic then .error (.receiverOnStack e)
    else (fieldAccess r f).map fun (load, type) => ([load], type)
  | _ => .error (.receiverOnStack e)

/-- The code of an expression, leaving a value of the target type. -/
def codeFor (r : Registry) (c : CodeContext) (e : Expr) (target : DataType) :
    Except CodeError (List Instr) := do
  let (code, actual) ←
    if c.receiverOnStack then loadOnReceiver r e else (e.compile r c).typed (some target)
  let conversion ← convertValue actual target (e.evaluate r).toOption
  .ok (code ++ conversion)

end ConstRestore
