/-
  What one instruction does to a frame.

  `Instr.execute` gives the frame after an instruction and what is learnt about
  the values that it consumes.  A consumer is noted on every source of the
  value, with the type that it implies; instructions that only move a value
  keep its sources, so what is learnt of a copy is learnt of the value copied.
  Operands of comparisons, and operands and result of bitwise operators, are
  one value.
-/
import ConstRestore.Dataflow.Frame

namespace ConstRestore

/-! ## What is learnt -/

/-- The instruction at `index` uses the value, as a value of type `narrow?`. -/
def consumed (s : Slot) (index : Nat) (narrow? : Option DataType) : List FactUpdate :=
  s.sources.toList.flatMap fun source =>
    .record source (.usage index) :: narrow?.toList.map fun t => .record source (.narrowType t)

/-- The value is argument `position` of the call at `index`. -/
def passed (s : Slot) (index position : Nat) : List FactUpdate :=
  s.sources.toList.map fun source => .record source (.paramUsage ⟨index, position⟩)

/-- The slots that are usable hold one value. -/
def unified (slots : List Slot) : List FactUpdate :=
  [.unite ((slots.filter (·.type ≠ .top)).flatMap (·.sources.toList))]

/-! ## Types -/

def NumKind.dataType : NumKind → DataType
  | int => .int
  | long => .long
  | float => .float
  | double => .double

def NumKind.valueType (k : NumKind) : ValueType := .ofDataType k.dataType

def Narrow.dataType : Narrow → DataType
  | byte => .byte
  | char => .char
  | short => .short

def objectType : ValueType := .ref objectClass

/-- The type that a load gives to an unusable local. -/
def VarKind.loadType : VarKind → ValueType
  | int => .int
  | long => .long
  | float => .float
  | double => .double
  | ref => objectType

/-- The type of an element loaded from an array of type `array`. -/
def ElemKind.loadType (k : ElemKind) (array : ValueType) : ValueType :=
  match k with
  | int => .int
  | long => .long
  | float => .float
  | double => .double
  | char => .char
  | short => .short
  | byte => if array.arrayElement? = some .boolean then .boolean else .byte
  | ref => array.arrayElement?.getD objectType

/-- The type of constants that values of a class can be. -/
def classDataType? (name : String) : Option DataType :=
  if name = "java/lang/String" then some .string
  else if name = "java/lang/Class" then some .class_
  else none

/-- The descriptor letter of a primitive array's elements by the array code. -/
def arrayElementLetter? (code : Int32) : Option String :=
  match code.toInt with
  | 4 => some "Z"
  | 5 => some "C"
  | 6 => some "F"
  | 7 => some "D"
  | 8 => some "B"
  | 9 => some "S"
  | 10 => some "I"
  | 11 => some "J"
  | _ => none

/-- The descriptor of an array with elements of a class or array type. -/
def arrayOfClass (name : String) : String :=
  if name.startsWith "[" then "[" ++ name else "[L" ++ name ++ ";"

/-! ## Instructions -/

/-- A frame with what was learnt on the way to it. -/
abbrev Effect := Except FlowError (Frame × List FactUpdate)

namespace Frame

/-- Pops call arguments, the last one first; `count` of `params` are left. -/
def popArguments (index : Nat) : List (Descriptor × Nat) → Frame → Effect
  | [], f => .ok (f, [])
  | (param, position) :: rest, f => do
    let (s, f) ← f.pop
    let (f, updates) ← popArguments index rest f
    .ok (f, passed s index position ++ consumed s index param.dataType? ++ updates)

/-- Pushes what a call or a field load gives.  The instruction is noted on its
    own result, which comes from outside. -/
def pushResult (f : Frame) (index : Nat) (d : Descriptor) : Frame × List FactUpdate :=
  match ValueType.ofDescriptor? d with
  | none => (f, [])
  | some t =>
    (f.push (.ofSource t (.instruction index)), [.record (.instruction index) (.usage index)])

/-- A call: pops the arguments and, if there is one, the receiver. -/
def call (f : Frame) (index : Nat) (descriptor : String) (hasReceiver : Bool) : Effect := do
  let d ← (MethodDescriptor.parse descriptor).mapError .descriptor
  let (f, updates) ← f.popArguments index d.params.zipIdx.reverse
  let f ← if hasReceiver then f.pop.map (·.2) else .ok f
  let (f, resultUpdates) := f.pushResult index d.ret
  .ok (f, updates ++ resultUpdates)

/-- Pops `count` array dimensions. -/
def popDimensions (index : Nat) : Nat → Frame → Effect
  | 0, f => .ok (f, [])
  | count + 1, f => do
    let (s, f) ← f.pop
    let (f, updates) ← popDimensions index count f
    .ok (f, consumed s index (some .int) ++ updates)

end Frame

/-- Pops one value that the instruction uses. -/
def useTop (f : Frame) (index : Nat) (narrow? : Option DataType) : Effect := do
  let (s, f) ← f.pop
  .ok (f, consumed s index narrow?)

/-- Pops one value that says nothing. -/
def dropTop (f : Frame) : Except FlowError Frame := f.pop.map (·.2)

/-- Instructions without operands.  `ret?` is the type of constants that the
    method returns. -/
def executeSimple (ret? : Option DataType) (index : Nat) (op : Opcode) (f : Frame) : Effect :=
  let produced (t : ValueType) : Slot := .ofSource t (.instruction index)
  let silent (f : Except FlowError Frame) : Effect := f.map (·, [])
  match op with
  | .nop | .return_ none => .ok (f, [])
  | .aconstNull => .ok (f.push (.untracked .null), [])
  | .arrayLoad k => do
    let (position, f) ← f.pop
    let (array, f) ← f.pop
    .ok (f.push (produced (k.loadType array.type)), consumed position index (some .int))
  | .arrayStore k => do
    let (value, f) ← f.pop
    let (position, f) ← f.pop
    let (array, f) ← f.pop
    let isBoolean := k = .byte ∧ array.type.arrayElement? = some .boolean
    .ok (f, consumed position index (some .int) ++
      if isBoolean then [] else consumed value index k.dataType?)
  | .pop => silent ((f.popWords 1).map (·.2))
  | .pop2 => silent ((f.popWords 2).map (·.2))
  | .dup => silent (f.dupWords 1 0)
  | .dupX1 => silent (f.dupWords 1 1)
  | .dupX2 => silent (f.dupWords 1 2)
  | .dup2 => silent (f.dupWords 2 0)
  | .dup2X1 => silent (f.dupWords 2 1)
  | .dup2X2 => silent (f.dupWords 2 2)
  | .swap => silent f.swap
  | .bit op isLong => do
    let (rhs, f) ← f.pop
    let (lhs, f) ← f.pop
    let result := produced (if isLong then .long else .int)
    .ok (f.push result, if op.isShift then [] else unified [lhs, rhs, result])
  | .arith _ k => do
    let f ← dropTop f
    let f ← dropTop f
    .ok (f.push (produced k.valueType), [])
  | .neg k => do
    let (f, updates) ← useTop f index (some k.dataType)
    .ok (f.push (produced k.valueType), updates)
  | .convert source target => do
    let (f, updates) ← useTop f index (some source.dataType)
    .ok (f.push (produced target.valueType), updates)
  | .narrow n => do
    let (f, updates) ← useTop f index (some n.dataType)
    .ok (f.push (produced (.ofDataType n.dataType)), updates)
  | .lcmp | .fcmp .. => do
    let (rhs, f) ← f.pop
    let (lhs, f) ← f.pop
    .ok (f.push (produced .int), unified [lhs, rhs])
  | .return_ (some _) => useTop f index ret?
  | .arraylength => do
    let f ← dropTop f
    .ok (f.push (produced .int), [])
  | .athrow | .monitorenter | .monitorexit => silent (dropTop f)
  | _ => .error (.unsupported op)

/-- Loads and stores of local variables. -/
def executeVar (op : Opcode) (slot : Nat) (f : Frame) : Except FlowError Frame :=
  match op with
  | .load k => do
    let s ← f.getLocal slot
    .ok (f.push (if s.type = .top then .untracked k.loadType else s))
  | .store _ => do
    let (s, f) ← f.pop
    f.setLocal slot s
  | _ => .error (.unsupported op)

/-- Instructions with a class or array type. -/
def executeType (index : Nat) (op : Opcode) (name : String) (f : Frame) : Effect :=
  let produced (t : ValueType) : Slot := .ofSource t (.instruction index)
  match op with
  | .new => .ok (f.push (produced (.ref name)), [])
  | .anewarray => do
    let (f, updates) ← useTop f index (some .int)
    .ok (f.push (produced (.ref (arrayOfClass name))), updates)
  | .checkcast => do
    let (s, f) ← f.pop
    .ok (f.push { s with type := .ref name }, consumed s index (classDataType? name))
  | .instanceof => do
    let f ← dropTop f
    .ok (f.push (produced .int), [])
  | _ => .error (.typeOperand op)

/-- Field accesses. -/
def executeField (index : Nat) (op : Opcode) (site : FieldSite) (f : Frame) : Effect := do
  let d ← (Descriptor.parse site.descriptor).mapError .descriptor
  match op with
  | .getstatic => .ok (f.pushResult index d)
  | .getfield =>
    let f ← dropTop f
    .ok (f.pushResult index d)
  | .putstatic => useTop f index d.dataType?
  | .putfield =>
    let (f, updates) ← useTop f index d.dataType?
    let f ← dropTop f
    .ok (f, updates)
  | _ => .error (.fieldOperand op)

/-- Branches. -/
def executeJump (index : Nat) (op : Opcode) (f : Frame) : Effect :=
  match op with
  | .goto => .ok (f, [])
  | .ifInt _ => useTop f index (some .int)
  | .ifIcmp _ => do
    let (rhs, f) ← f.pop
    let (lhs, f) ← f.pop
    .ok (f, unified [lhs, rhs] ++ consumed lhs index none)
  | .ifAcmp _ => do
    let f ← dropTop f
    let f ← dropTop f
    .ok (f, [])
  | .ifnull | .ifnonnull => (dropTop f).map (·, [])
  | _ => .error (.unsupported op)

/-- The push of a literal. -/
def pushLiteral (index : Nat) (t : DataType) (f : Frame) : Frame × List FactUpdate :=
  (f.push (.ofSource (.ofDataType t) (.instruction index)),
    [.record (.instruction index) (.narrowType t)])

/-- The frame after the instruction at `index`. -/
def Instr.execute (ret? : Option DataType) (index : Nat) (i : Instr) (f : Frame) : Effect :=
  let produced (t : ValueType) : Slot := .ofSource t (.instruction index)
  match i.literal? with
  | some v => .ok (pushLiteral index v.dataType f)
  | none =>
    match i with
    | label _ | line .. => .ok (f, [])
    | simple op => executeSimple ret? index op f
    | int .newarray code => do
      let (f, updates) ← useTop f index (some .int)
      match arrayElementLetter? code with
      | none => .error (.arrayCode code)
      | some letter => .ok (f.push (produced (.ref ("[" ++ letter))), updates)
    | int op _ => .error (.operand op)
    | ldc c =>
      let name := match c with
        | .methodType _ => "java/lang/invoke/MethodType"
        | _ => "java/lang/invoke/MethodHandle"
      .ok (f.push (.untracked (.ref name)), [])
    | var op slot => (executeVar op slot f).map (·, [])
    | iinc slot _ => (f.setLocal slot (produced .int)).map (·, [])
    | type op name => executeType index op name f
    | field op site => executeField index op site f
    | method op site => f.call index site.descriptor (op ≠ .invokestatic)
    | dynamic site => f.call index site.descriptor false
    | jump op _ => executeJump index op f
    | tableSwitch .. | lookupSwitch .. => useTop f index (some .int)
    | multiNewArray d dims => do
      let (f, updates) ← f.popDimensions index dims
      .ok (f.push (produced (.ref d)), updates)

end ConstRestore
