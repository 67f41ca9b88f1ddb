/-
  Method bodies written with named labels.

  `assemble` numbers the labels in the order of their first mention, as far as
  32 bits go, checks that every label is placed exactly once, and computes the
  number of local variables unless it is given.
-/
import ConstRestore.Bytecode.ClassFile

namespace ConstRestore

/-- A line of a method body with named labels. -/
inductive AsmLine where
  | label (name : String)
  | instr (i : Instr)
  | jump (op : Opcode) (target : String)
  | tableSwitch (low : Int32) (default : String) (targets : List String)
  | lookupSwitch (default : String) (pairs : List (Int32 × String))
  | tryBlock (start stop handler : String) (catchType : Option String)
  | maxLocals (n : Nat)
  | maxStack (n : Nat)

/-- Why a body cannot be assembled. -/
inductive AsmError where
  | placedTwice (name : String)
  | neverPlaced (name : String)
  | descriptor (e : DescriptorError)
  | tooManyLocals (count : Nat)
  deriving DecidableEq

def AsmError.message : AsmError → String
  | placedTwice name => "Malformed - Label " ++ name ++ " placed twice"
  | neverPlaced name => "Malformed - Label " ++ name ++ " referenced but never placed"
  | descriptor e => e.message
  | tooManyLocals n => "Malformed - Method uses " ++ toString n ++ " locals"

namespace AsmLine

/-- The labels that a line mentions, in order. -/
def mentions : AsmLine → List String
  | label name => [name]
  | jump _ target => [target]
  | tableSwitch _ d ts => d :: ts
  | lookupSwitch d ps => d :: ps.map (·.2)
  | tryBlock start stop handler _ => [start, stop, handler]
  | instr _ | maxLocals _ | maxStack _ => []

/-- The label that a line places. -/
def places? : AsmLine → Option String
  | label name => some name
  | _ => none

/-- The highest key of a table from `low` on.  Both the number of targets and the sum are kept
    in range. -/
def highKey (low : Int32) (count : Nat) : Int32 :=
  let distance : Int := min (count : Int) 2147483647 - 1
  Int32.ofInt (max (-2147483648) (min 2147483647 (low.toInt + distance)))

/-- The instruction of a line, with labels numbered by `number`. -/
def instr? (number : String → Label) : AsmLine → Option Instr
  | label name => some (.label (number name))
  | instr i => some i
  | jump op target => some (.jump op (number target))
  | tableSwitch low d ts =>
    some (.tableSwitch low (highKey low ts.length) (number d) (ts.map number))
  | lookupSwitch d ps => some (.lookupSwitch (number d) (ps.map fun (k, l) => (k, number l)))
  | tryBlock .. | maxLocals _ | maxStack _ => none

def tryBlock? (number : String → Label) : AsmLine → Option TryBlock
  | tryBlock start stop handler catchType =>
    some ⟨number start, number stop, number handler, catchType⟩
  | _ => none

def maxLocals? : AsmLine → Option Nat
  | maxLocals n => some n
  | _ => none

def maxStack? : AsmLine → Option Nat
  | maxStack n => some n
  | _ => none

end AsmLine

/-- The elements of a list without later repetitions. -/
def firstMentions (names : List String) : List String :=
  names.foldl (fun seen n => if n ∈ seen then seen else seen ++ [n]) []

/-- The number of a label: the place of its first mention.  All labels that do not fit
    32 bits have the last number. -/
def labelNumber (mentioned : List String) (n : String) : Label :=
  min (mentioned.idxOf n) 4294967295

/-- The first name with a number that was seen before. -/
def firstRepeated? (number : String → Label) : List Label → List String → Option String
  | _, [] => none
  | seen, n :: ns =>
    if number n ∈ seen then some n else firstRepeated? number (number n :: seen) ns

/-- The number of local variables that an instruction needs. -/
def Instr.touchedLocals : Instr → Nat
  | var op slot =>
    match op with
    | .load .long | .load .double | .store .long | .store .double => slot + 2
    | _ => slot + 1
  | iinc slot _ => slot + 1
  | _ => 0

/-- The method with the given body. -/
def assemble (access : Access) (name descriptor : String) (lines : List AsmLine) :
    Except AsmError Method := do
  let mentioned := firstMentions (lines.flatMap AsmLine.mentions)
  let number := labelNumber mentioned
  let placed := lines.filterMap AsmLine.places?
  if let some n := firstRepeated? number [] placed then throw (.placedTwice n)
  if let some n := mentioned.find? (number · ∉ placed.map number) then throw (.neverPlaced n)
  let parsed ← (MethodDescriptor.parse descriptor).mapError .descriptor
  let code := lines.filterMap (AsmLine.instr? number)
  let receiver := if access.has Access.static then 0 else 1
  let needed := (code.map Instr.touchedLocals).foldl max (receiver + parsed.argumentSlots)
  let maxLocals ←
    match (lines.filterMap AsmLine.maxLocals?).getLast? with
    | some n => pure n
    | none => if needed < 65536 then pure needed else throw (.tooManyLocals needed)
  return {
    access, name, descriptor, code, maxLocals
    tryBlocks := lines.filterMap (AsmLine.tryBlock? number)
    maxStack := (lines.filterMap AsmLine.maxStack?).getLast?.getD 0 }

end ConstRestore
