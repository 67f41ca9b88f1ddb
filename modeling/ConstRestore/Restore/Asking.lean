/-
  Restoration, question by question.

  What a restoration has to look up in shared memory is the binding of methods.
  An `Asking` computation stops at each such question; `answer` runs it with
  answers from a function.

  * `GroupChoice.seek` asks for the groups of destinations, in their order, up
    to the first two that disagree;
  * `Subject.choiceAsking` makes the choice for a class of values once in a pass;
  * `restoreClassAsking` restores a class, one method after the other.
-/
import ConstRestore.Restore.Restoration

namespace ConstRestore

/-! ## Computations that ask -/

/-- A computation that may ask for the binding of a method. -/
inductive Asking (α : Type) where
  | done (a : α)
  | ask (m : Member) (next : Option MethodBinding → Asking α)

namespace Asking

variable {α β : Type}

protected def bind : Asking α → (α → Asking β) → Asking β
  | done a, k => k a
  | ask m next, k => ask m fun b => (next b).bind k

instance : Monad Asking where
  pure := done
  bind := Asking.bind

/-- The outcome with answers from a function. -/
def answer (f : Member → Option MethodBinding) : Asking α → α
  | done a => a
  | ask m next => (next (f m)).answer f

/-- The number of questions with answers from a function. -/
def questions (f : Member → Option MethodBinding) : Asking α → Nat
  | done _ => 0
  | ask m next => (next (f m)).questions f + 1

end Asking

/-- A computation that may ask and fails on an instruction that is edited twice. -/
abbrev Restoring (α : Type) := ExceptT EditedTwice Asking α

/-! ## Choices -/

/-- Asks for the binding of a call, unless no method has any. -/
def Bindings.ask (t : Bindings) (m : Member) : Asking (Option MethodBinding) :=
  if t.methods.isEmpty then .done none else .ask m .done

/-- Asks for the group of a destination. -/
def Destination.ask (t : Bindings) : Destination → Asking (Option String)
  | param m index => do return (← t.ask m).bind (·.params.get? index)
  | result m => do return (← t.ask m).bind (·.ret)
  | field m => return t.fieldGroup m

namespace GroupChoice

/-- Asks for groups up to one that differs from the first. -/
def seekOther (t : Bindings) (first : String) : List Destination → Asking GroupChoice
  | [] => return named first
  | d :: ds => do
    match ← d.ask t with
    | some other => if other = first then seekOther t first ds else return conflict first other
    | none => seekOther t first ds

/-- Asks for groups up to the first two that disagree. -/
def seek (t : Bindings) : List Destination → Asking GroupChoice
  | [] => return unclaimed
  | d :: ds => do
    match ← d.ask t with
    | some first => seekOther t first ds
    | none => seek t ds

end GroupChoice

/-! ## Methods and classes -/

/-- A pass with the choices that it made, by the root of the class of values. -/
structure AskingPass where
  pass : Pass
  choices : Table Source GroupChoice

namespace Subject

/-- The choice for the class of a root, with the choices made by then. -/
def choiceAsking (s : Subject) (choices : Table Source GroupChoice) (root : Source) (f : Facts) :
    Asking (GroupChoice × Table Source GroupChoice) :=
  match choices.get? root with
  | some choice => return (choice, choices)
  | none => do
    let choice ← GroupChoice.seek s.store.bindings (s.method.destinations s.owner f)
    return (choice, choices.set root choice)

/-- The verdict on a literal after a choice. -/
def verdictFor (s : Subject) (a : Solution) (index : Nat) (value : Value) (f : Facts)
    (choice : GroupChoice) : Verdict :=
  match choice.key? s.store value.dataType s.config.defaults with
  | some key => s.groupVerdict a index value f key
  | none => if choice.isConflict then .conflict else .unclaimed

/-- Takes a verdict down. -/
def conclude (s : Subject) (p : Pass) (index : Nat) (value : Value) (root : Source)
    (choice : GroupChoice) (v : Verdict) : Except EditedTwice Pass := do
  let (reported, warning) := p.reported.note s.signature root choice
  let edits ← p.edits.replaceAll (v.replacements index)
  .ok ⟨edits, reported, p.stats + v.stats, p.log ++ warning ++ v.report s.signature index value⟩

/-- Takes up the instruction at `index`. -/
def visitAsking (s : Subject) (a : Solution) (p : AskingPass) (index : Nat) (i : Instr) :
    Restoring AskingPass :=
  match s.literalAt? a index i with
  | none => return p
  | some (value, root, facts) => do
    let (choice, choices) ← s.choiceAsking p.choices root facts
    let pass ← ExceptT.mk (.done
      (s.conclude p.pass index value root choice (s.verdictFor a index value facts choice)))
    return ⟨pass, choices⟩

/-- Decides about all literals of the method. -/
def planAsking (s : Subject) (a : Solution) : Restoring Pass := do
  let p ← s.method.code.zipIdx.foldlM (fun p (i, index) => s.visitAsking a p index i) ⟨.start, ∅⟩
  return p.pass

/-- The outcome for a method that cannot be analysed. -/
def failure (s : Subject) (e : FlowError) : Restored Method :=
  ⟨s.method, { Stats.zero with failedMethods := 1 }, [⟨.warn, s.signature ++
    ": analysis failed, method left unchanged: " ++ e.message⟩]⟩

/-- The outcome of a pass. -/
def success (s : Subject) (a : Solution) (p : Pass) : Restored Method :=
  ⟨{ s.method with code := p.edits.apply s.method.code }, p.stats, a.log ++ p.log ++ s.summary p⟩

def restoreAsking (s : Subject) : Restoring (Restored Method) :=
  if s.method.hasCode then
    match solve s.registry s.config.stepLimit s.owner s.method with
    | .error e => return s.failure e
    | .ok a => do return s.success a (← s.planAsking a)
  else return ⟨s.method, .zero, []⟩

end Subject

def restoreMethodAsking (r : Registry) (s : Store) (config : Config) (c : ClassFile) (m : Method) :
    Restoring (Restored Method) :=
  Subject.restoreAsking ⟨r, s, config, c.name, c.majorVersion, m⟩

def restoreClassAsking (r : Registry) (s : Store) (config : Config) (c : ClassFile) :
    Restoring (Restored ClassFile) := do
  let methods := Restored.collect (← c.methods.mapM (restoreMethodAsking r s config c))
  return ⟨{ c with methods := methods.result }, methods.stats, methods.log⟩

end ConstRestore
