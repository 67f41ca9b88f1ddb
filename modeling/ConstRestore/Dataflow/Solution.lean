/-
  Dataflow analysis of a method.

  Starting with the frame at the entry, instructions are executed from a queue:
  the frame after an instruction flows into every instruction that may follow
  it, the handlers of the protected ranges around it among them, and where that
  changes a frame the instruction is queued again.  When the queue is empty
  (`run`), every frame accounts for all paths to its instruction.

  * `Flow` is what a run needs of a method, `State` what it keeps;
  * `step` executes one instruction, `run` at most a given number of them;
  * `solve` is the whole, and `Solution` its result.
-/
import ConstRestore.Dataflow.Execute
import ConstRestore.Bytecode.ClassFile
import ConstRestore.Log

namespace ConstRestore

/-- The class of everything that can be thrown. -/
def throwableClass : String := "java/lang/Throwable"

/-- Instructions executed per method unless another bound is given. -/
def defaultStepLimit : Nat := 100000

/-- An exception handler by instruction indices. -/
structure Handler where
  start : Nat
  stop : Nat
  entry : Nat
  caught : ValueType
  deriving DecidableEq

namespace Handler

/-- Whether the instruction at an index is protected. -/
def covers (h : Handler) (index : Nat) : Bool := h.start ≤ index && index < h.stop

/-- The frame at the handler when an exception leaves a frame: its locals and
    the exception alone on the stack. -/
def frame (h : Handler) (f : Frame) : Frame :=
  ⟨f.locals, [.ofSource h.caught (.instruction h.entry)]⟩

end Handler

/-- A method prepared for execution. -/
structure Flow where
  name : String
  descriptor : String
  code : Array Instr
  labels : Table Label Nat
  handlers : List Handler
  /-- The type of constants that the method returns. -/
  ret? : Option DataType

/-- The state of a run. -/
structure State where
  /-- The frame before each instruction that has been reached. -/
  frames : Array (Option Frame)
  facts : FactTable
  /-- Instructions to execute, in order. -/
  queue : List Nat
  /-- Instructions executed so far. -/
  iterations : Nat

namespace State

/-- The start of a run over `size` instructions: the entry alone has a frame. -/
def start (size : Nat) (entry : Frame) (updates : List FactUpdate) : State where
  frames := (Array.replicate size none).setIfInBounds 0 (some entry)
  facts := FactTable.empty.updateAll updates
  queue := [0]
  iterations := 0

/-- The frame before an instruction. -/
def frame? (s : State) (index : Nat) : Option Frame := (s.frames[index]?).join

def learn (s : State) (us : List FactUpdate) : State := { s with facts := s.facts.updateAll us }

def setFrame (s : State) (index : Nat) (f : Frame) : State :=
  { s with frames := s.frames.setIfInBounds index (some f) }

/-- Queues an instruction that is not queued. -/
def enqueue (s : State) (index : Nat) : State :=
  if index ∈ s.queue then s else { s with queue := s.queue ++ [index] }

/-- Lets a frame arrive at an instruction. -/
def flow (r : Registry) (s : State) (target : Nat) (incoming : Frame) :
    Except FlowError State :=
  match s.frame? target with
  | none => .ok ((s.setFrame target incoming).enqueue target)
  | some f => do
    let (merged, changed, updates) ← f.merge r incoming
    let s := (s.setFrame target merged).learn updates
    .ok (if changed then s.enqueue target else s)

/-- Lets frames arrive one after the other. -/
def flowAll (r : Registry) (s : State) (edges : List (Nat × Frame)) : Except FlowError State :=
  edges.foldlM (fun s (target, f) => s.flow r target f) s

end State

/-- Whether an instruction changes local variables, so that a handler may see
    them before and after. -/
def Instr.touchesLocals : Instr → Bool
  | .var .. | .iinc .. => true
  | _ => false

namespace Flow

def position (p : Flow) (l : Label) : Except FlowError Nat :=
  (p.labels.get? l).elim (.error (.unknownLabel l p.name)) .ok

/-- The flow into the handlers around an instruction. -/
def handlerEdges (p : Flow) (index : Nat) (i : Instr) (before after : Frame) :
    List (Nat × Frame) :=
  (p.handlers.filter (·.covers index)).flatMap fun h =>
    (h.entry, h.frame before) :: if i.touchesLocals then [(h.entry, h.frame after)] else []

/-- Whether execution may go on with the next instruction. -/
def fallsThrough (i : Instr) : Bool := !i.opcode?.any (·.endsBlock)

/-- The flow to the next instruction. -/
def nextEdges (p : Flow) (index : Nat) (i : Instr) (after : Frame) :
    Except FlowError (List (Nat × Frame)) :=
  if fallsThrough i then
    if index + 1 < p.code.size then .ok [(index + 1, after)]
    else .error (.fallsOff p.name p.descriptor)
  else .ok []

/-- Executes the instruction at `index` and lets its frame flow on. -/
def execute (r : Registry) (p : Flow) (s : State) (index : Nat) : Except FlowError State :=
  match s.frame? index, p.code[index]? with
  | some before, some i => do
    let (after, updates) ← i.execute p.ret? index before
    let s ← (s.learn updates).flowAll r (p.handlerEdges index i before after)
    let s ← i.targets.foldlM (fun (s : State) l => do s.flow r (← p.position l) after) s
    let next ← p.nextEdges index i after
    s.flowAll r next
  | _, _ => .ok s

/-- Executes the first instruction of the queue. -/
def step (r : Registry) (p : Flow) (s : State) : Except FlowError State :=
  match s.queue with
  | [] => .ok s
  | index :: queue => p.execute r { s with queue, iterations := s.iterations + 1 } index

/-- Executes until the queue is empty, at most `fuel` more instructions of the
    `limit` allowed. -/
def run (r : Registry) (p : Flow) (limit : Nat) : Nat → State → Except FlowError State
  | fuel, s =>
    if s.queue.isEmpty then .ok s
    else
      match fuel with
      | 0 => .error (.noFixpoint p.name p.descriptor limit)
      | fuel + 1 => do
        let s ← p.step r s
        run r p limit fuel s

end Flow

/-! ## Methods -/

namespace Method

/-- The handlers of a method, the first unknown label being an error. -/
def handlers (m : Method) : Except FlowError (List Handler) :=
  m.tryBlocks.mapM fun b => do
    let position (l : Label) : Except FlowError Nat :=
      (m.labelPositions.get? l).elim (.error (.unknownLabel l m.name)) .ok
    let start ← position b.start
    let stop ← position b.stop
    let entry ← position b.handler
    .ok ⟨start, stop, entry, .ref (b.catchType.getD throwableClass)⟩

/-- What a run needs of a method. -/
def flow (m : Method) (d : MethodDescriptor) : Except FlowError Flow := do
  let handlers ← m.handlers
  .ok ⟨m.name, m.descriptor, m.code.toArray, m.labelPositions, handlers, d.ret.dataType?⟩

/-- Stores parameters into locals from `slot` on. -/
def storeParams : List (Descriptor × Nat) → Nat → Frame → Effect
  | [], _, f => .ok (f, [])
  | (d, index) :: rest, slot, f => do
    let source := Source.parameter index
    let f ← f.setLocal slot (.ofSource ((ValueType.ofDescriptor? d).getD .top) source)
    let (f, updates) ← storeParams rest (slot + d.size) f
    .ok (f, .record source (.paramSource index) :: updates)

/-- The frame at the entry: the receiver is not tracked, parameters are. -/
def entryFrame (m : Method) (owner : String) (d : MethodDescriptor) : Effect := do
  let receiver := if m.isStatic then 0 else 1
  let f := Frame.empty (max m.maxLocals (receiver + d.argumentSlots))
  let f ← if m.isStatic then .ok f else f.setLocal 0 (.untracked (.ref owner))
  storeParams d.params.zipIdx receiver f

end Method

/-- The result of an analysis. -/
structure Solution where
  /-- The frame before each reachable instruction. -/
  frames : Array (Option Frame)
  facts : FactTable
  log : List LogLine

namespace Solution

def frame? (a : Solution) (index : Nat) : Option Frame := (a.frames[index]?).join

def isReachable (a : Solution) (index : Nat) : Bool := (a.frame? index).isSome

/-- The facts of the value that a reachable instruction pushes. -/
def facts? (a : Solution) (index : Nat) : Option Facts :=
  if a.isReachable index then a.facts.facts? (.instruction index) else none

/-- The class of the value that an instruction pushes. -/
def root? (a : Solution) (index : Nat) : Option Source := a.facts.root? (.instruction index)

end Solution

/-- The method with its class, as messages name it. -/
def Method.signature (m : Method) (owner : String) : String :=
  owner ++ "." ++ m.name ++ m.descriptor

/-- Analyses a method of class `owner` by executing at most `limit`
    instructions. -/
def solve (r : Registry) (limit : Nat) (owner : String) (m : Method) :
    Except FlowError Solution :=
  if m.code.isEmpty then .ok ⟨#[], .empty, []⟩
  else do
    let d ← (MethodDescriptor.parse m.descriptor).mapError .descriptor
    let p ← m.flow d
    let (entry, updates) ← m.entryFrame owner d
    let s ← p.run r limit limit (.start m.code.length entry updates)
    .ok ⟨s.frames, s.facts, [⟨.trace, "Analyzed " ++ m.signature owner ++ ": " ++
      toString s.iterations ++ " iterations, " ++ toString s.facts.classCount ++ " fact classes"⟩]⟩

end ConstRestore
