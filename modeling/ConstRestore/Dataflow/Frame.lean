/-
  Abstract states of a method.

  A `Frame` holds the local variables and the operand stack before an
  instruction.  Each slot has a type and the sources that its value may come
  from; a two-word value is one entry of the stack, and takes its local
  variable and an unusable one after it.

  `popWords` and `dupWords` are the stack shuffles of the virtual machine, and
  `merge` is what happens where two paths meet.
-/
import ConstRestore.Dataflow.ValueType
import ConstRestore.Dataflow.Facts
import ConstRestore.Bytecode.Instr

namespace ConstRestore

/-- Why a method cannot be analysed. -/
inductive FlowError where
  | descriptor (e : DescriptorError)
  | stackUnderflow
  | splitsWide
  | localOutOfRange (index : Nat)
  | stackHeights (here incoming : Nat)
  | localCounts
  | arrayCode (code : Int32)
  | operand (op : Opcode)
  | typeOperand (op : Opcode)
  | fieldOperand (op : Opcode)
  | unsupported (op : Opcode)
  | unknownLabel (l : Label) (method : String)
  | noFixpoint (method descriptor : String) (limit : Nat)
  | fallsOff (method descriptor : String)
  deriving DecidableEq

def FlowError.message : FlowError → String
  | descriptor e => e.message
  | stackUnderflow => "Malformed - Operand stack underflow"
  | splitsWide => "Malformed - Stack operation splits a two-word value"
  | localOutOfRange i => "Malformed - Local variable " ++ toString i ++ " out of range"
  | stackHeights a b =>
    "Malformed - Inconsistent stack heights " ++ toString a ++ " and " ++ toString b ++ " at join"
  | localCounts => "Malformed - Inconsistent local variable counts at join"
  | arrayCode c => "Malformed - Invalid newarray type " ++ toString c.toInt
  | operand op => "Malformed - Unexpected operand for " ++ op.mnemonic
  | typeOperand op => "Malformed - Unexpected type operand for " ++ op.mnemonic
  | fieldOperand op => "Malformed - Unexpected field operand for " ++ op.mnemonic
  | unsupported op => "Malformed - Unsupported instruction " ++ op.mnemonic
  | unknownLabel l m => "Malformed - Unknown label " ++ labelText l ++ " in " ++ m
  | noFixpoint m d n =>
    "Malformed - No fixpoint for " ++ m ++ d ++ " after " ++ toString n ++ " iterations"
  | fallsOff m d => "Malformed - Execution falls off the end of " ++ m ++ d

/-! ## Slots -/

structure Slot where
  type : ValueType
  /-- Everything that may have produced the value. -/
  sources : OrderedSet Source
  deriving DecidableEq

namespace Slot

/-- A value from one source. -/
def ofSource (type : ValueType) (s : Source) : Slot := ⟨type, .singleton s⟩

/-- A value whose origin does not matter. -/
def untracked (type : ValueType) : Slot := ⟨type, ∅⟩

/-- An unusable slot. -/
def top : Slot := untracked .top

/-- Stack words that the value takes. -/
def size (s : Slot) : Nat := s.type.size

/-- What a slot becomes when another value arrives in it, whether that changes
    it, and that all its sources are then one value unless it is unusable. -/
def merge (r : Registry) (s incoming : Slot) : Slot × Bool × List FactUpdate :=
  if s = incoming then (s, false, [])
  else
    let type := s.type.join r incoming.type
    let sources := s.sources.union incoming.sources
    let changed := type ≠ s.type ∨ sources.size ≠ s.sources.size
    (⟨type, sources⟩, changed, if type = .top then [] else [.unite sources.toList])

end Slot

/-! ## Frames -/

structure Frame where
  locals : List Slot
  /-- The top of the stack is the first entry. -/
  stack : List Slot
  deriving DecidableEq

namespace Frame

/-- A frame with unusable locals and an empty stack. -/
def empty (maxLocals : Nat) : Frame := ⟨List.replicate maxLocals .top, []⟩

def push (f : Frame) (s : Slot) : Frame := { f with stack := s :: f.stack }

def pop (f : Frame) : Except FlowError (Slot × Frame) :=
  match f.stack with
  | [] => .error .stackUnderflow
  | s :: rest => .ok (s, { f with stack := rest })

/-- Takes entries of exactly `words` words off a stack. -/
def takeWords (words : Nat) (stack : List Slot) : Except FlowError (List Slot × List Slot) :=
  match words, stack with
  | 0, stack => .ok ([], stack)
  | _ + 1, [] => .error .stackUnderflow
  | words + 1, s :: rest =>
    if words + 1 < s.size then .error .splitsWide
    else (takeWords (words + 1 - s.size) rest).map fun (taken, rest) => (s :: taken, rest)
  termination_by stack.length

/-- Pops exactly `words` words, topmost entry first. -/
def popWords (f : Frame) (words : Nat) : Except FlowError (List Slot × Frame) := do
  let (taken, rest) ← takeWords words f.stack
  .ok (taken, { f with stack := rest })

/-- Puts a copy of the top `copy` words under the `skip` words below them. -/
def dupWords (f : Frame) (copy skip : Nat) : Except FlowError Frame := do
  let (copied, f) ← f.popWords copy
  let (skipped, f) ← f.popWords skip
  .ok { f with stack := copied ++ skipped ++ copied ++ f.stack }

/-- Exchanges two one-word values. -/
def swap (f : Frame) : Except FlowError Frame := do
  let (upper, f) ← f.popWords 1
  let (lower, f) ← f.popWords 1
  .ok { f with stack := lower ++ upper ++ f.stack }

def getLocal (f : Frame) (index : Nat) : Except FlowError Slot :=
  (f.locals[index]?).elim (.error (.localOutOfRange index)) .ok

/-- The locals after a store to `index`.  A store to the second half of a
    two-word value makes its first half unusable. -/
def storeAt (locals : List Slot) (index : Nat) (s : Slot) : List Slot :=
  let locals :=
    if 0 < index ∧ (locals[index - 1]?).any (·.size = 2) then locals.set (index - 1) .top
    else locals
  let locals := locals.set index s
  if s.size = 2 then locals.set (index + 1) .top else locals

def setLocal (f : Frame) (index : Nat) (s : Slot) : Except FlowError Frame :=
  if f.locals.length < index + s.size then .error (.localOutOfRange index)
  else .ok { f with locals := storeAt f.locals index s }

/-- Merges lists of slots one by one. -/
def mergeSlots (r : Registry) : List Slot → List Slot → List Slot × Bool × List FactUpdate
  | s :: ss, t :: ts =>
    let (s, changed, updates) := s.merge r t
    let (ss, restChanged, restUpdates) := mergeSlots r ss ts
    (s :: ss, changed || restChanged, updates ++ restUpdates)
  | ss, _ => (ss, false, [])

/-- The frame after another one has arrived at the same instruction, whether it
    changed, and what is learnt about the values. -/
def merge (r : Registry) (f incoming : Frame) :
    Except FlowError (Frame × Bool × List FactUpdate) :=
  if f.stack.length ≠ incoming.stack.length then
    .error (.stackHeights f.stack.length incoming.stack.length)
  else if f.locals.length ≠ incoming.locals.length then .error .localCounts
  else
    let (locals, localsChanged, localsUpdates) := mergeSlots r f.locals incoming.locals
    let (stack, stackChanged, stackUpdates) := mergeSlots r f.stack incoming.stack
    .ok (⟨locals, stack⟩, localsChanged || stackChanged, localsUpdates ++ stackUpdates)

end Frame

end ConstRestore
