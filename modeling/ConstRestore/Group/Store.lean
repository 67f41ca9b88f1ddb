/-
  The mapping data of a transformation: all groups and bindings.

  A store is built by calls that declare groups and map values in them
  (`BuildStep`).  A call that is refused leaves what it did before it failed, so
  `after` gives the store for every call.
-/
import ConstRestore.Group
import ConstRestore.Group.Binding

namespace ConstRestore

structure Store where
  groups : Table GroupKey Group
  bindings : Bindings

namespace Store

def empty : Store := ⟨∅, .empty⟩

def group? (s : Store) (k : GroupKey) : Option Group := s.groups.get? k

def setGroup (s : Store) (g : Group) : Store := { s with groups := s.groups.set g.key g }

/-- Declares a named group, which may exist with the same type and flags bit. -/
def declare (s : Store) (name : String) (type : DataType) (flags : Bool) :
    Except GroupError (Store × Group) :=
  match s.group? (.named name) with
  | none => let g := Group.empty (.named name) type flags; .ok (s.setGroup g, g)
  | some g =>
    if g.dataType = type ∧ g.flags = flags then .ok (s, g) else .error (.mismatch name type flags)

/-- The default group of a type, created if needed. -/
def declareDefault (s : Store) (type : DataType) : Store × Group :=
  match s.group? (.default type) with
  | none => let g := Group.empty (.default type) type false; (s.setGroup g, g)
  | some g => (s, g)

def hasDefault (s : Store) (type : DataType) : Bool := (s.group? (.default type)).isSome

/-- The tables of a group that apply inside a method; none for an unknown group. -/
def tablesFor (s : Store) (k : GroupKey) (owner name descriptor : String) : List Mappings :=
  ((s.group? k).map (·.tablesFor owner name descriptor)).getD []

/-- What a scope of a group maps a value to. -/
def mapping? (s : Store) (k : GroupKey) (scope : Scope) (value : Value) : Option Mapping :=
  (s.group? k).bind fun g => (g.table scope).get? value

/-- The store without remembered answers. -/
def forget (s : Store) : Store := { s with bindings := s.bindings.forget }

/-- Changes a group that was declared. -/
def modify (s : Store) (k : GroupKey) (f : Group → Group) : Store :=
  (s.group? k).elim s fun g => s.setGroup (f g)

end Store

/-! ## Building -/

/-- A call that builds mapping data. -/
inductive BuildStep where
  | declare (name : String) (type : DataType) (flags : Bool)
  | declareDefault (type : DataType)
  | insert (group : GroupKey) (scope : Scope) (value : Value) (strict : Bool) (expr : Expr)
  | insertExpr (group : GroupKey) (scope : Scope) (strict : Bool) (expr : Expr)

namespace Store

/-- The store after a call, whether it succeeds or not. -/
def after (r : Registry) (s : Store) : BuildStep → Store
  | .declare name type flags => ((s.declare name type flags).toOption).elim s (·.1)
  | .declareDefault type => (s.declareDefault type).1
  | .insert k scope value strict expr =>
    s.modify k fun g => (g.insert scope value strict expr).toOption.getD g
  | .insertExpr k scope strict expr => s.modify k fun g => (g.insertExpr r scope strict expr).1

/-- The store after a sequence of calls. -/
def build (r : Registry) (s : Store) (steps : List BuildStep) : Store := steps.foldl (after r) s

end Store

end ConstRestore
