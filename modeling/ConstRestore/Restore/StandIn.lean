/-
  What stands in for a literal.

  A `StandIn` is an expression with the value of a literal, found in the tables
  of a group (`Group.standIn?`): the entry that maps the value, or in a flags
  group a combination of entries.  Its code takes the place of the literal, and
  that of a null check before it if the code uses the checked object
  (`Subject.substitution`).
-/
import ConstRestore.Restore.Config
import ConstRestore.Code.Flags
import ConstRestore.Code.Generate
import ConstRestore.Code.NullCheck
import ConstRestore.Group.Store

namespace ConstRestore

/-! ## Finding an expression -/

structure StandIn where
  expr : Expr
  /-- The type that the expression is brought to before the one of the literal. -/
  type : DataType

/-- The type that a literal stands for: the only other one of its stack kind
    that its consumers imply, or its own. -/
def Facts.narrowType (f : Facts) (literal : DataType) : DataType :=
  match f.narrowTypes.toList.filter fun t => t ≠ literal ∧ t.stackKind = literal.stackKind with
  | [t] => t
  | _ => literal

/-- Whether an entry of a group serves literals of a type. -/
def Mapping.serves (e : Mapping) (narrow group : DataType) : Bool :=
  if e.strict then narrow == group else narrow.widensTo group

/-- What stands in for a value of type `narrow`.  The first table that
    maps the value decides; a combination of flags has the value in the width
    of `narrow` only. -/
def Group.standIn? (g : Group) (useFlags : Bool) (tables : List Mappings) (value : Value)
    (narrow : DataType) : Option StandIn :=
  if narrow.stackKind = g.dataType.stackKind then
    (value.convertExact g.dataType).bind fun key =>
      match tables.findSome? (·.get? key) with
      | some entry => if entry.serves narrow g.dataType then some ⟨entry.expr, g.dataType⟩ else none
      | none =>
        if useFlags && g.flags then
          let width := if narrow.isIntegral then narrow else g.dataType
          (decompose tables key width).map (⟨·, width⟩)
        else none
  else none

/-! ## Its code -/

/-- A method in its class, and what its literals are restored from. -/
structure Subject where
  registry : Registry
  store : Store
  config : Config
  /-- Internal name of the class. -/
  owner : String
  majorVersion : Nat
  method : Method

/-- Code in place of a literal. -/
structure Substitution where
  /-- The check and the `pop` that are removed with the literal. -/
  nullCheck : Option (Nat × Nat)
  code : List Instr

namespace Subject

def signature (s : Subject) : String := s.method.signature s.owner

/-- What stands in for a literal that belongs to a group. -/
def standIn? (s : Subject) (key : GroupKey) (value : Value) (f : Facts) : Option StandIn :=
  (s.store.group? key).bind fun g =>
    g.standIn? s.config.flags (g.tablesFor s.owner s.method.name s.method.descriptor) value
      (f.narrowType value.dataType)

def codeContext (s : Subject) (receiverOnStack : Bool) : CodeContext where
  owner := s.owner
  isStatic := s.method.isStatic
  majorVersion := s.majorVersion
  receiverOnStack
  concat := s.config.concat

/-- The null check before a literal, if the replacement is a lone instance
    constant of the checked object. -/
def nullCheck? (s : Subject) (a : Solution) (index : Nat) (e : Expr) : Option (Nat × Nat) := do
  let .field f := e | none
  if f.isStatic || !s.config.nullChecks then none else
    let (check, pop) ← nullCheckBefore? s.method.code index
    let receiver ← (← a.frame? check).stack.head?
    let .ref type := receiver.type | none
    if s.registry.isAssignable f.owner type then some (check, pop) else none

/-- The code that uses the object of a null check, if there is such code. -/
def checkedCode? (s : Subject) (a : Solution) (index : Nat) (w : StandIn) :
    Option ((Nat × Nat) × List Instr) := do
  let guarded ← s.nullCheck? a index w.expr
  let code ← (codeFor s.registry (s.codeContext true) w.expr w.type).toOption
  some (guarded, code)

/-- The code of a stand-in for the literal at `index`, leaving a value of
    the literal's type. -/
def substitution (s : Subject) (a : Solution) (index : Nat) (literal : DataType) (w : StandIn) :
    Except CodeError Substitution :=
  match s.checkedCode? a index w with
  | some (guarded, code) => (convert w.type literal).map fun last => ⟨some guarded, code ++ last⟩
  | none => do
    let code ← codeFor s.registry (s.codeContext false) w.expr w.type
    let last ← convert w.type literal
    .ok ⟨none, code ++ last⟩

end Subject

end ConstRestore
