/-
  The group that a value belongs to.

  The analysis tells where the values of a class go, and what they are compared
  with.  Each such place is a `Destination`, which may be bound to a
  group.  All bound destinations of a value have to name one group
  (`GroupChoice.ofCandidates`); a value that has none is left to the default
  group of its type.
-/
import ConstRestore.Dataflow.Solution
import ConstRestore.Group.Store

namespace ConstRestore

/-! ## Destinations -/

/-- A place that may be bound to a group. -/
inductive Destination where
  | param (m : Member) (index : Nat)
  | result (m : Member)
  | field (m : Member)
  deriving DecidableEq

/-- The group that a destination is bound to. -/
def Destination.group? (r : Registry) (t : Bindings) : Destination → Option String
  | param m index => t.paramGroup r m index
  | result m => t.returnGroup r m
  | field m => t.fieldGroup m

def FieldSite.member (f : FieldSite) : Member := ⟨f.owner, f.name, f.descriptor⟩

def MethodSite.member (m : MethodSite) : Member := ⟨m.owner, m.name, m.descriptor⟩

def Handle.member (h : Handle) : Member := ⟨h.owner, h.name, h.descriptor⟩

def Method.member (m : Method) (owner : String) : Member := ⟨owner, m.name, m.descriptor⟩

/-- The class whose bootstrap methods link lambdas. -/
def lambdaFactory : String := "java/lang/invoke/LambdaMetafactory"

/-- The method that a call site for a lambda adapts. -/
def DynamicSite.lambdaBody? (s : DynamicSite) : Option Handle :=
  if s.bootstrap.owner = lambdaFactory ∧
      (s.bootstrap.name = "metafactory" ∨ s.bootstrap.name = "altMetafactory") then
    match s.arguments with
    | _ :: .handle h :: _ => some h
    | _ => none
  else none

/-- The parameter that a captured argument becomes; a receiver is none. -/
def Handle.param? (h : Handle) (position : Nat) : Option Destination :=
  if h.kind.hasReceiver then
    match position with
    | 0 => none
    | index + 1 => some (.param h.member index)
  else some (.param h.member position)

/-- Where an instruction passes its argument at a position. -/
def Instr.argumentDestination? (i : Instr) (position : Nat) : Option Destination :=
  match i with
  | method _ m => some (.param m.member position)
  | dynamic s => s.lambdaBody?.bind (·.param? position)
  | _ => none

/-- The destination that an instruction is for a value that it uses: the field
    that it accesses, the result of its call if the value is no argument of it,
    or the result of the method `own` that it returns from. -/
def Instr.usageDestination? (i : Instr) (own : Member) (isArgument : Bool) : Option Destination :=
  match i with
  | field _ f => some (.field f.member)
  | method _ m => if isArgument then none else some (.result m.member)
  | simple (.return_ (some _)) => some (.result own)
  | _ => none

namespace Method

/-- The destinations of a class of values: the parameters that they come from,
    the arguments that they are passed as, and their other uses. -/
def destinations (m : Method) (owner : String) (f : Facts) : List Destination :=
  let own := m.member owner
  f.paramSources.toList.map (.param own ·) ++
    f.paramUsages.toList.filterMap (fun a => do
      (← m.code[a.call]?).argumentDestination? a.position) ++
    f.usages.toList.filterMap fun index => do
      (← m.code[index]?).usageDestination? own (f.paramUsages.toList.any (·.call == index))

end Method

/-! ## Choice -/

/-- What the destinations of a value say about its group. -/
inductive GroupChoice where
  | named (group : String)
  /-- Two destinations disagree. -/
  | conflict (first other : String)
  | unclaimed
  deriving DecidableEq

namespace GroupChoice

/-- The group that all candidates name. -/
def ofCandidates : List String → GroupChoice
  | [] => unclaimed
  | first :: rest => (rest.find? (· ≠ first)).elim (named first) (conflict first)

def isConflict : GroupChoice → Bool
  | conflict .. => true
  | _ => false

def named? : GroupChoice → Option String
  | named group => some group
  | _ => none

/-- The group for a literal of a type: the named one, or the default one when
    no destination names any. -/
def key? (s : Store) (type : DataType) (useDefault : Bool) : GroupChoice → Option GroupKey
  | named group => some (.named group)
  | conflict .. => none
  | unclaimed => if useDefault && s.hasDefault type then some (.default type) else none

/-- What a conflict is reported as. -/
def warning? (signature : String) : GroupChoice → Option LogLine
  | conflict first other =>
    some ⟨.warn, signature ++ ": value flows into groups " ++ first ++ " and " ++ other ++
      ", left as literal"⟩
  | _ => none

end GroupChoice

/-- The choice for a class of values of a method. -/
def Method.groupChoice (r : Registry) (t : Bindings) (m : Method) (owner : String) (f : Facts) :
    GroupChoice :=
  .ofCandidates ((m.destinations owner f).filterMap (·.group? r t))

/-! ## Reports -/

/-- The classes whose conflict has been reported; each is reported once. -/
abbrev Reported := OrderedSet Source

/-- Reports the choice for the class of a root if it is a conflict and new. -/
def Reported.note (rep : Reported) (signature : String) (root : Source) (c : GroupChoice) :
    Reported × List LogLine :=
  match c.warning? signature with
  | some line => if root ∈ rep then (rep, []) else (rep.insert root, [line])
  | none => (rep, [])

end ConstRestore
