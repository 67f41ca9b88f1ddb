/-
  What is known about the classes around a program.

  * A `Backend` answers the basic questions about constants and about the
    supertypes of classes, in any way; what it says may be incomplete.
  * A `Registry` is a backend whose searches end: finitely many classes are
    above a class, and around it.  The hierarchy may even be cyclic.
-/
import ConstRestore.Value

namespace ConstRestore

/-- The root of the class hierarchy. -/
def objectClass : String := "java/lang/Object"

/-- A compile-time constant field. -/
structure Constant where
  /-- The declared type of the field. -/
  dataType : DataType
  value : Value
  isStatic : Bool
  deriving DecidableEq

/-- The field through which an inner class reaches its enclosing instance. -/
structure OuterLink where
  fieldName : String
  outerClass : String
  deriving DecidableEq

/-- The field descriptor of the enclosing instance. -/
def OuterLink.descriptor (o : OuterLink) : String := "L" ++ o.outerClass ++ ";"

/-- The place of a class in the hierarchy. -/
structure ClassInfo where
  name : String
  superclass : Option String
  interfaces : List String
  isInterface : Bool
  outer : Option OuterLink
  deriving DecidableEq

namespace ClassInfo

/-- The direct supertypes, the superclass first. -/
def supertypes (c : ClassInfo) : List String := c.superclass.toList ++ c.interfaces

/-- The direct supertypes, the superclass last: the order of field resolution. -/
def fieldSupertypes (c : ClassInfo) : List String := c.interfaces ++ c.superclass.toList

/-- The class of the enclosing instance, if there is one. -/
def outerClasses (c : ClassInfo) : List String := (c.outer.map (·.outerClass)).toList

end ClassInfo

/-- What answers the basic questions about constants and classes. -/
structure Backend where
  /-- The constant that a class itself declares under a name. -/
  constant? : String → String → Option Constant
  /-- The constants that a class itself declares, by name, if the class is known
      to be read. -/
  constants? : String → Option (List (String × Constant))
  info? : String → Option ClassInfo

/-- What is listed for a class is what it declares. -/
def Backend.Declared (b : Backend) : Prop :=
  ∀ owner all, b.constants? owner = some all → ∀ name c, (name, c) ∈ all →
    b.constant? owner name = some c

/-- The classes in the list lead to none but these. -/
def Backend.Closed (b : Backend) (next : ClassInfo → List String) (l : List String) : Prop :=
  ∀ x ∈ l, ∀ c, b.info? x = some c → ∀ y ∈ next c, y ∈ l

/-- A backend that knows finitely many classes leads to finitely many. -/
theorem Backend.exists_closed {b : Backend} {known : List String}
    (h : ∀ x c, b.info? x = some c → x ∈ known) (next : ClassInfo → List String) (x : String) :
    ∃ l, x ∈ l ∧ b.Closed next l := by
  refine ⟨x :: (known.filterMap b.info?).flatMap next, List.mem_cons_self, fun y _ c hc z hz => ?_⟩
  have hmem : c ∈ known.filterMap b.info? := List.mem_filterMap.2 ⟨y, h y c hc, hc⟩
  exact List.mem_cons_of_mem _ (List.mem_flatMap.2 ⟨c, hmem, hz⟩)

/-- A backend whose searches end. -/
structure Registry extends Backend where
  declared : toBackend.Declared
  exists_above : ∀ x, ∃ l, x ∈ l ∧ toBackend.Closed ClassInfo.supertypes l
  exists_around : ∀ x, ∃ l, x ∈ l ∧ toBackend.Closed ClassInfo.outerClasses l

def Registry.isInterface (r : Registry) (name : String) : Bool :=
  (r.info? name).any (·.isInterface)

end ConstRestore
