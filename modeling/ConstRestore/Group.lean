/-
  Groups of constants.

  A `Group` maps values of one data type to expressions, in scopes.  Inside a
  method the tables of the method, its class, its package and the global one
  apply, in this order (`tablesFor`).

  * `insert` maps one value, which has to be representable in the group's type
    and new in its scope;
  * `insertExpr` maps the value of an expression, or every constant of a class
    for a wildcard.
-/
import ConstRestore.Group.Mapping
import ConstRestore.Expr.Evaluate
import ConstRestore.Bytecode.Descriptor

namespace ConstRestore

inductive GroupKey where
  | named (name : String)
  /-- The group that claims literals of a type when no named group does. -/
  | default (type : DataType)
  deriving DecidableEq

def GroupKey.text : GroupKey → String
  | named name => name
  | default type => "<default " ++ type.name ++ ">"

/-- Why mapping data is refused. -/
inductive GroupError where
  | eval (e : EvalError)
  | duplicate (group : GroupKey) (scope : Scope) (value : Value)
  /-- A group was declared before with another type or flags bit. -/
  | mismatch (name : String) (type : DataType) (flags : Bool)
  | notRepresentable (value : Value) (type : DataType)
  deriving DecidableEq

def GroupError.message : GroupError → String
  | eval e => e.message
  | duplicate group scope value =>
    "Duplicate value " ++ value.text ++ " in scope " ++ scope.text ++ " of group " ++ group.text
  | mismatch name type flags =>
    "Group " ++ name ++ " re-declared as " ++ type.name ++ " (flags: " ++
      (if flags then "true" else "false") ++ ")"
  | notRepresentable value type =>
    "Value " ++ value.text ++ " is not representable as " ++ type.name

structure Group where
  key : GroupKey
  dataType : DataType
  /-- Whether values may be put together from flags. -/
  flags : Bool
  tables : Table Scope Mappings

namespace Group

def empty (key : GroupKey) (dataType : DataType) (flags : Bool) : Group :=
  ⟨key, dataType, flags, ∅⟩

/-- The mappings of a scope. -/
def table (g : Group) (s : Scope) : Mappings := (g.tables.get? s).getD ∅

def setTable (g : Group) (s : Scope) (t : Mappings) : Group :=
  { g with tables := g.tables.set s t }

/-- Maps a value that is of the group's type already. -/
def insertKey (g : Group) (s : Scope) (key : Value) (entry : Mapping) :
    Except GroupError Group :=
  let t := g.table s
  if t.contains key then .error (.duplicate g.key s key)
  else .ok (g.setTable s (t.set key entry))

/-- Maps a value to an expression in a scope. -/
def insert (g : Group) (s : Scope) (value : Value) (strict : Bool) (expr : Expr) :
    Except GroupError Group :=
  match value.convertExact g.dataType with
  | none => .error (.notRepresentable value g.dataType)
  | some key => g.insertKey s key ⟨strict, expr⟩

/-- The reference to a constant that a wildcard stands for, with the value it is
    mapped under: the constant has the staticness of the wildcard and a value
    that the group can hold. -/
def expansion? (g : Group) (wildcard : FieldRef) (name : String) (c : Constant) :
    Option (Value × Expr) :=
  if wildcard.isStatic = c.isStatic then
    (c.value.convertExact g.dataType).map fun key =>
      (key, .field ⟨wildcard.owner, some name, some c.dataType, c.isStatic⟩)
  else none

/-- Maps values one after the other, up to the first that is mapped already. -/
def insertAll (g : Group) (s : Scope) (strict : Bool) :
    List (Value × Expr) → Nat → Group × Except GroupError Nat
  | [], added => (g, .ok added)
  | (key, expr) :: rest, added =>
    match g.insertKey s key ⟨strict, expr⟩ with
    | .error e => (g, .error e)
    | .ok g => g.insertAll s strict rest (added + 1)

/-- Maps the constants of a class, by name.  Those before a value that is
    mapped already stay. -/
def insertWildcard (r : Registry) (g : Group) (s : Scope) (strict : Bool) (wildcard : FieldRef) :
    Group × Except GroupError Nat :=
  match r.constants? wildcard.owner with
  | none => (g, .error (.eval (.notResolvable wildcard.owner "*")))
  | some all =>
    (g.setTable s (g.table s)).insertAll s strict
      (all.filterMap fun (name, c) => g.expansion? wildcard name c) 0

/-- Maps the value of an expression to it, or expands a wildcard; answers the
    number of new mappings. -/
def insertExpr (r : Registry) (g : Group) (s : Scope) (strict : Bool) (expr : Expr) :
    Group × Except GroupError Nat :=
  let single : Group × Except GroupError Nat :=
    match (expr.evaluate r).mapError GroupError.eval >>= (g.insert s · strict expr) with
    | .ok g' => (g', .ok 1)
    | .error e => (g, .error e)
  match expr with
  | .field f => if f.isWildcard then g.insertWildcard r s strict f else single
  | _ => single

/-- The tables that apply inside a method, the most specific first; the global
    one is always there. -/
def tablesFor (g : Group) (owner name descriptor : String) : List Mappings :=
  [.method owner name descriptor, .class_ owner, .package (packageOf owner)].filterMap
    (g.tables.get? ·) ++ [g.table .global]

end Group

end ConstRestore
