/-
  Where a mapping applies, and what it maps.

  A `Mappings` holds the mappings of one scope: for a value the expression
  that stands for it.
-/
import ConstRestore.Expr
import ConstRestore.Table

namespace ConstRestore

inductive Scope where
  | global
  /-- The classes of one package, without its subpackages. -/
  | package (name : String)
  | class_ (name : String)
  | method (owner name descriptor : String)
  deriving DecidableEq

def Scope.text : Scope → String
  | global => "global"
  | package name => "package " ++ name
  | class_ name => "class " ++ name
  | method owner name descriptor => "method " ++ owner ++ "." ++ name ++ descriptor

structure Mapping where
  /-- Whether the entry serves only literals of exactly the group's type. -/
  strict : Bool
  expr : Expr
  deriving DecidableEq

/-- The mappings of one scope; the values are of the group's type. -/
abbrev Mappings := Table Value Mapping

end ConstRestore
