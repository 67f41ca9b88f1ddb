/-
  What flows where: bindings of fields, parameters and results to groups.

  A binding of a method is inherited: a call uses the one of the first class,
  in depth-first preorder with the superclass before the interfaces, that
  declares one for the method.  Answers are remembered until the next
  declaration on a method.
-/
import ConstRestore.Registry.Search
import ConstRestore.Table

namespace ConstRestore

/-- A field or method by owner, name and descriptor. -/
structure Member where
  owner : String
  name : String
  descriptor : String
  deriving DecidableEq

/-- The groups of a method's parameters and of its result. -/
structure MethodBinding where
  params : Table Nat String
  ret : Option String

def MethodBinding.empty : MethodBinding := ⟨∅, none⟩

structure Bindings where
  fields : Table Member String
  methods : Table Member MethodBinding
  /-- Remembered answers, misses among them. -/
  inherited : Table Member (Option MethodBinding)

namespace Bindings

def empty : Bindings := ⟨∅, ∅, ∅⟩

def declareField (t : Bindings) (m : Member) (group : String) : Bindings :=
  { t with fields := t.fields.set m group }

/-- Changes the bindings of a method and forgets all answers. -/
def declareMethod (t : Bindings) (m : Member) (f : MethodBinding → MethodBinding) : Bindings :=
  { t with methods := t.methods.update m .empty f, inherited := ∅ }

def declareParam (t : Bindings) (m : Member) (index : Nat) (group : String) : Bindings :=
  t.declareMethod m fun b => { b with params := b.params.set index group }

def declareReturn (t : Bindings) (m : Member) (group : String) : Bindings :=
  t.declareMethod m fun b => { b with ret := some group }

def fieldGroup (t : Bindings) (m : Member) : Option String := t.fields.get? m

/-- The bindings of the first class that declares some for the method. -/
def declaredFor? (r : Registry) (t : Bindings) (m : Member) : Option MethodBinding :=
  r.seek? .supertypes (fun owner => t.methods.get? { m with owner }) m.owner

/-- The bindings of a call, from memory if they were asked for before. -/
def lookup (r : Registry) (t : Bindings) (m : Member) : Option MethodBinding :=
  if t.methods.isEmpty then none
  else (t.inherited.get? m).getD (t.declaredFor? r m)

/-- Remembers the answer to a question. -/
def remember (r : Registry) (t : Bindings) (m : Member) : Bindings :=
  if t.methods.isEmpty then t
  else { t with inherited := t.inherited.set m (t.lookup r m) }

def paramGroup (r : Registry) (t : Bindings) (m : Member) (index : Nat) : Option String :=
  (t.lookup r m).bind (·.params.get? index)

def returnGroup (r : Registry) (t : Bindings) (m : Member) : Option String :=
  (t.lookup r m).bind (·.ret)

/-- The bindings without the answers. -/
def forget (t : Bindings) : Bindings := { t with inherited := ∅ }

end Bindings

/-! ## Building -/

/-- A call that makes bindings or looks one up. -/
inductive BindingStep where
  | declareField (m : Member) (group : String)
  | declareParam (m : Member) (index : Nat) (group : String)
  | declareReturn (m : Member) (group : String)
  | lookup (m : Member)

namespace Bindings

/-- The bindings after a call. -/
def after (r : Registry) (t : Bindings) : BindingStep → Bindings
  | .declareField m group => t.declareField m group
  | .declareParam m index group => t.declareParam m index group
  | .declareReturn m group => t.declareReturn m group
  | .lookup m => t.remember r m

/-- The bindings after a sequence of calls. -/
def build (r : Registry) (steps : List BindingStep) : Bindings := steps.foldl (after r) empty

end Bindings

end ConstRestore
